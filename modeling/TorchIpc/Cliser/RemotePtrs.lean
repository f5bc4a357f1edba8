import TorchIpc.Base.Runs
import TorchIpc.Cliser.Tensor
import Mathlib.Order.CompletePartialOrder

/-! The remote pointers of the fast path (`read_contiguous` of `generic/cliser.c`). The receiver
keeps the device memory that it has opened for a handle. A descriptor with a new handle evicts
the entries of its socket whose elements its own would overlap, and is added behind the
others; the array is changed while it is scanned. -/

namespace TorchIpc.Cuda

open Runs Circular Cliser

def CUDA_REMOTE_PTRS : ℕ := 256

abbrev Handle : Type := Fin 64 → UInt8

structure RemotePtr where
  handle : Handle
  ptr : ℕ
  devPtr : ℕ
  count : ℕ
  sock : ℤ

def RemotePtr.zero : RemotePtr := ⟨fun _ => 0, 0, 0, 0, 0⟩

/-- The remote pointers of a `copy_context_t`, and the device pointers that have come from
`cudaIpcOpenMemHandle` and gone to `cudaIpcCloseMemHandle`. -/
structure Remotes where
  remotePtrs : List RemotePtr
  numRemotePtrs : ℕ
  maxRemotePtrs : ℕ
  opened : List ℕ
  closed : List ℕ

/-- How the device answers: the pointer for a handle, and whether a pointer can be closed. -/
structure Ipc where
  openMemHandle : Handle → Option ℕ
  closeMemHandle : ℕ → Bool

def Remotes.init : Remotes :=
  ⟨List.replicate CUDA_REMOTE_PTRS .zero, 0, CUDA_REMOTE_PTRS, [], []⟩

def Remotes.at (c : Remotes) (cb : ℕ) : RemotePtr := c.remotePtrs.getD cb .zero

def Remotes.entries (c : Remotes) : List RemotePtr := c.remotePtrs.take c.numRemotePtrs

/-- `memmove` over the entry, and one entry less. -/
def Remotes.evict (c : Remotes) (cb : ℕ) : Remotes :=
  { c with
    remotePtrs := blit c.remotePtrs cb ((c.remotePtrs.drop (cb + 1)).take (c.numRemotePtrs - (cb + 1)))
    numRemotePtrs := c.numRemotePtrs - 1
    closed := c.closed ++ [(c.at cb).devPtr] }

/-- `realloc` and `memset`, where the array is full. -/
def Remotes.grow (c : Remotes) : Remotes :=
  if c.numRemotePtrs = c.maxRemotePtrs then
    { c with
      remotePtrs := c.remotePtrs ++ List.replicate CUDA_REMOTE_PTRS .zero
      maxRemotePtrs := c.maxRemotePtrs + CUDA_REMOTE_PTRS }
  else c

def Remotes.store (c : Remotes) (cb : ℕ) (e : RemotePtr) : Remotes :=
  { c with
    remotePtrs := c.remotePtrs.set cb e
    numRemotePtrs := c.numRemotePtrs + 1
    opened := c.opened ++ [e.devPtr] }

section
variable (T : ElementType)

def lastElement (p c : ℕ) : ℕ := (p + c * T.elementSize - T.elementSize) % 2 ^ 64

def hasOverlap (p₀ c₀ p₁ c₁ : ℕ) : Bool :=
  let ep₀ := lastElement T p₀ c₀
  let ep₁ := lastElement T p₁ c₁
  if p₀ ≥ p₁ ∧ p₀ ≤ ep₁ then true
  else if ep₀ ≥ p₁ ∧ ep₀ ≤ ep₁ then true
  else if p₁ ≥ p₀ ∧ p₁ ≤ ep₀ then true
  else if ep₁ ≥ p₀ ∧ ep₁ ≤ ep₀ then true
  else false

/-- How the scan ends: at an index, or with an error of the device. -/
inductive Scanned where
  | stop (cb : ℕ) (c : Remotes)
  | raised (c : Remotes)
  | running

def scan (ipc : Ipc) (r : RemotePtr) (sock : ℤ) : ℕ → ℕ → Remotes → Scanned
  | 0, _, _ => .running
  | fuel + 1, cb, c =>
    if cb < c.numRemotePtrs then
      let e := c.at cb
      if r.handle = e.handle then .stop cb c
      else if e.sock = sock ∧ hasOverlap T r.ptr r.count e.ptr e.count = true then
        if ipc.closeMemHandle e.devPtr then scan ipc r sock fuel cb (c.evict cb) else .raised c
      else scan ipc r sock fuel (cb + 1) c
    else .stop cb c

inductive Found where
  | used (cb : ℕ) (c : Remotes)
  | raised (c : Remotes)
  | running

/-- `read_contiguous` between the descriptor and the copy. Every round of the scan passes or
removes an entry. -/
def findRemotePtr (ipc : Ipc) (r : RemotePtr) (sock : ℤ) (c : Remotes) : Found :=
  match scan T ipc r sock (c.numRemotePtrs + 1) 0 c with
  | .stop cb c =>
    if cb = c.numRemotePtrs then
      let c := c.grow
      match ipc.openMemHandle r.handle with
      | some devPtr => .used cb (c.store cb ⟨r.handle, r.ptr, devPtr, r.count, sock⟩)
      | none => .raised c
    else .used cb c
  | .raised c => .raised c
  | .running => .running

/-- A descriptor received over a socket, and the answers of the device. -/
structure Arrival where
  ipc : Ipc
  r : RemotePtr
  sock : ℤ

/-- The remote pointers after an arrival, with or without an error. -/
def Receives (c : Remotes) (a : Arrival) (c' : Remotes) : Prop :=
  (∃ cb, findRemotePtr T a.ipc a.r a.sock c = .used cb c') ∨
  findRemotePtr T a.ipc a.r a.sock c = .raised c'

/-! ### What is to hold -/

def RemotePtr.range (e : RemotePtr) : Set ℕ := Set.Ico e.ptr (e.ptr + e.count * T.elementSize)

structure RemotePtr.Valid (e : RemotePtr) : Prop where
  count_pos : 1 ≤ e.count
  aligned : T.elementSize ∣ e.ptr
  fits : e.ptr + e.count * T.elementSize ≤ 2 ^ 64

/-- An entry that a descriptor evicts. -/
def Conflicts (r : RemotePtr) (sock : ℤ) (e : RemotePtr) : Prop :=
  e.sock = sock ∧ ¬ Disjoint (r.range T) (e.range T)

structure Remotes.Wf (c : Remotes) : Prop where
  num_le : c.numRemotePtrs ≤ c.maxRemotePtrs
  length_eq : c.remotePtrs.length = c.maxRemotePtrs

/-- No handle is there twice, and the elements of one socket do not overlap. -/
structure Separate (es : List RemotePtr) : Prop where
  valid : ∀ e ∈ es, e.Valid T
  handles : es.Pairwise fun a b => a.handle ≠ b.handle
  apart : es.Pairwise fun a b => a.sock = b.sock → Disjoint (a.range T) (b.range T)

/-- The invariant of the remote pointers. What has been opened has been closed, or is in
use. -/
structure Remotes.Consistent (c : Remotes) : Prop extends c.Wf where
  separate : Separate T c.entries
  account : c.opened.Perm (c.closed ++ c.entries.map RemotePtr.devPtr)

/-! ### Overlaps -/

variable {T}

theorem lastElement_eq {p c : ℕ} (hc : 1 ≤ c) (hfits : p + c * T.elementSize ≤ 2 ^ 64) :
    lastElement T p c = p + (c - 1) * T.elementSize := by
  have hE := T.elementSize_pos
  obtain ⟨k, rfl⟩ : ∃ k, c = k + 1 := ⟨c - 1, by omega⟩
  rw [Nat.succ_mul] at hfits
  rw [lastElement, Nat.succ_mul, Nat.add_sub_cancel, ← Nat.add_assoc, Nat.add_sub_cancel]
  exact Nat.mod_eq_of_lt (by omega)

/-- An element begins before or at the last one exactly if it begins before its end. -/
theorem le_lastElement_iff {E p q c : ℕ} (hE : 0 < E) (hp : E ∣ p) (hq : E ∣ q) (hc : 1 ≤ c) :
    p ≤ q + (c - 1) * E ↔ p < q + c * E := by
  obtain ⟨a, rfl⟩ := hp
  obtain ⟨b, rfl⟩ := hq
  obtain ⟨k, rfl⟩ : ∃ k, c = k + 1 := ⟨c - 1, by omega⟩
  have hlast : E * b + k * E = E * (b + k) := by ring
  have hend : E * b + (k + 1) * E = E * (b + k + 1) := by ring
  rw [Nat.add_sub_cancel, hlast, hend, Nat.mul_le_mul_left_iff hE, Nat.mul_lt_mul_left hE, Nat.lt_succ_iff]

/-- Two intervals meet where one starts in the other. -/
theorem overlap_iff {p₀ e₀ p₁ e₁ : ℕ} (h₀ : p₀ ≤ e₀) (h₁ : p₁ ≤ e₁) :
    (if p₀ ≥ p₁ ∧ p₀ ≤ e₁ then true
      else if e₀ ≥ p₁ ∧ e₀ ≤ e₁ then true
      else if p₁ ≥ p₀ ∧ p₁ ≤ e₀ then true
      else if e₁ ≥ p₀ ∧ e₁ ≤ e₀ then true
      else false) = true ↔ p₀ ≤ e₁ ∧ p₁ ≤ e₀ := by
  constructor
  · intro h
    split_ifs at h <;> omega
  · intro h
    split_ifs
    · rfl
    · rfl
    · rfl
    · rfl
    · omega

theorem hasOverlap_iff {a b : RemotePtr} (ha : a.Valid T) (hb : b.Valid T) :
    hasOverlap T a.ptr a.count b.ptr b.count = true ↔ ¬ Disjoint (a.range T) (b.range T) := by
  have hE := T.elementSize_pos
  have hpos : ∀ {c : ℕ}, 1 ≤ c → 0 < c * T.elementSize := fun hc => Nat.mul_pos hc hE
  rw [hasOverlap, lastElement_eq ha.count_pos ha.fits, lastElement_eq hb.count_pos hb.fits,
    overlap_iff (Nat.le_add_right _ _) (Nat.le_add_right _ _),
    le_lastElement_iff hE ha.aligned hb.aligned hb.count_pos,
    le_lastElement_iff hE hb.aligned ha.aligned ha.count_pos,
    RemotePtr.range, RemotePtr.range, Set.Ico_disjoint_Ico]
  have := hpos ha.count_pos
  have := hpos hb.count_pos
  omega

/-! ### The array -/

variable {c c₀ : Remotes} {cb : ℕ}

theorem Remotes.length_entries (h : c.Wf) : c.entries.length = c.numRemotePtrs :=
  List.length_take_of_le (h.num_le.trans_eq h.length_eq.symm)

theorem Remotes.entries_getElem? (h : c.Wf) (hcb : cb < c.numRemotePtrs) :
    c.entries[cb]? = some (c.at cb) := by
  have hlt : cb < c.remotePtrs.length := by
    rw [h.length_eq]
    exact hcb.trans_le h.num_le
  rw [Remotes.entries, List.getElem?_take_of_lt hcb, Remotes.at, List.getD_eq_getElem _ _ hlt,
    List.getElem?_eq_getElem hlt]

theorem Remotes.length_moved (h : c.Wf) :
    ((c.remotePtrs.drop (cb + 1)).take (c.numRemotePtrs - (cb + 1))).length =
      c.numRemotePtrs - (cb + 1) := by
  have := h.num_le
  rw [List.length_take, List.length_drop, h.length_eq]
  omega

theorem Remotes.Wf.evict (h : c.Wf) (hcb : cb < c.numRemotePtrs) : (c.evict cb).Wf where
  num_le := (Nat.sub_le _ _).trans h.num_le
  length_eq := by
    refine (length_blit _ _ _ ?_).trans h.length_eq
    have := h.num_le
    rw [Remotes.length_moved h, h.length_eq]
    omega

theorem Remotes.entries_evict (h : c.Wf) (hcb : cb < c.numRemotePtrs) :
    (c.evict cb).entries = c.entries.eraseIdx cb := by
  have hlen : (c.remotePtrs.take cb ++ (c.remotePtrs.drop (cb + 1)).take (c.numRemotePtrs - (cb + 1))).length =
      c.numRemotePtrs - 1 := by
    have := h.num_le
    rw [List.length_append, Remotes.length_moved h, List.length_take, h.length_eq]
    omega
  rw [Remotes.entries, Remotes.evict, blit, List.take_left' hlen, List.eraseIdx_eq_take_drop_succ,
    Remotes.entries, List.take_take, List.drop_take, min_eq_left hcb.le]

theorem Remotes.Wf.grow (h : c.Wf) : c.grow.Wf ∧ c.grow.numRemotePtrs < c.grow.maxRemotePtrs := by
  have := h.num_le
  have := h.length_eq
  rw [Remotes.grow]
  split_ifs with hfull
  · exact ⟨⟨by simp only; omega, by simp [h.length_eq]⟩, by simp [hfull, CUDA_REMOTE_PTRS]⟩
  · exact ⟨h, by omega⟩

theorem Remotes.entries_grow (h : c.Wf) : c.grow.entries = c.entries := by
  rw [Remotes.grow]
  split_ifs with hfull
  · exact List.take_append_of_le_length (h.num_le.trans_eq h.length_eq.symm)
  · rfl

theorem Remotes.numRemotePtrs_grow (c : Remotes) : c.grow.numRemotePtrs = c.numRemotePtrs := by
  rw [Remotes.grow]
  split_ifs
  · rfl
  · rfl

theorem Remotes.closed_grow (c : Remotes) : c.grow.closed = c.closed := by
  rw [Remotes.grow]
  split_ifs
  · rfl
  · rfl

theorem Remotes.Wf.store (h : c.Wf) (hroom : c.numRemotePtrs < c.maxRemotePtrs) (e : RemotePtr) :
    (c.store c.numRemotePtrs e).Wf :=
  ⟨hroom, by simp [Remotes.store, h.length_eq]⟩

theorem Remotes.entries_store (h : c.Wf) (hroom : c.numRemotePtrs < c.maxRemotePtrs) (e : RemotePtr) :
    (c.store c.numRemotePtrs e).entries = c.entries ++ [e] := by
  have hlt : c.numRemotePtrs < c.remotePtrs.length := by rwa [h.length_eq]
  rw [Remotes.entries, Remotes.store, List.take_add_one, List.take_set_of_le le_rfl, List.getElem?_set_self hlt]
  rfl

theorem Remotes.at_store (h : c.Wf) (hroom : c.numRemotePtrs < c.maxRemotePtrs) (e : RemotePtr) :
    (c.store c.numRemotePtrs e).at c.numRemotePtrs = e := by
  have hlt : c.numRemotePtrs < c.remotePtrs.length := by rwa [h.length_eq]
  simp [Remotes.at, Remotes.store, hlt]

/-! ### The scan -/

variable {ipc : Ipc} {r : RemotePtr} {sock : ℤ}

/-- The invariant of the scan, `cb` entries in. -/
structure Swept (T : ElementType) (r : RemotePtr) (sock : ℤ) (c₀ c : Remotes) (cb : ℕ) :
    Prop extends c.Wf where
  sublist : c.entries.Sublist c₀.entries
  evicted : ∃ es, c₀.entries.Perm (c.entries ++ es) ∧
      c.closed = c₀.closed ++ es.map RemotePtr.devPtr ∧
    ∀ e ∈ es, Conflicts T r sock e
  opened_eq : c.opened = c₀.opened
  passed : ∀ e ∈ c.entries.take cb, e.handle ≠ r.handle ∧ ¬ Conflicts T r sock e

theorem Swept.start (h : c.Wf) : Swept T r sock c c 0 where
  toWf := h
  sublist := List.Sublist.refl _
  evicted := ⟨[], by simp, by simp, by simp⟩
  opened_eq := rfl
  passed := by simp

theorem Swept.pass (h : Swept T r sock c₀ c cb) (hcb : cb < c.numRemotePtrs)
    (hhandle : (c.at cb).handle ≠ r.handle) (hconflict : ¬ Conflicts T r sock (c.at cb)) :
    Swept T r sock c₀ c (cb + 1) where
  toWf := h.toWf
  sublist := h.sublist
  evicted := h.evicted
  opened_eq := h.opened_eq
  passed e he := by
    rw [List.take_add_one, Remotes.entries_getElem? h.toWf hcb, Option.toList_some, List.mem_append,
      List.mem_singleton] at he
    rcases he with he | rfl
    · exact h.passed e he
    · exact ⟨hhandle, hconflict⟩

/-- The entry is evicted, and its pointer closed. -/
theorem Swept.evict (h : Swept T r sock c₀ c cb) (hcb : cb < c.numRemotePtrs)
    (hconflict : Conflicts T r sock (c.at cb)) : Swept T r sock c₀ (c.evict cb) cb := by
  have hentries := Remotes.entries_evict h.toWf hcb
  have hlt : cb < c.entries.length := by rwa [Remotes.length_entries h.toWf]
  have hget : c.entries[cb] = c.at cb := by
    have hsome := Remotes.entries_getElem? h.toWf hcb
    rw [List.getElem?_eq_getElem hlt] at hsome
    exact Option.some.inj hsome
  obtain ⟨es, hperm, hclosed, hall⟩ := h.evicted
  refine ⟨h.toWf.evict hcb, ?_, ⟨es ++ [c.at cb], ?_, ?_, ?_⟩, h.opened_eq, ?_⟩
  · rw [hentries]
    exact (List.eraseIdx_sublist _ _).trans h.sublist
  · rw [hentries]
    have hhead : (c.at cb :: c.entries.eraseIdx cb).Perm c.entries := by
      rw [← hget]
      exact List.getElem_cons_eraseIdx_perm hlt
    rw [← List.append_assoc]
    exact hperm.trans ((hhead.symm.append_right es).trans (List.perm_append_singleton _ _).symm)
  · rw [List.map_append, ← List.append_assoc, ← hclosed]
    rfl
  · intro e he
    rcases List.mem_append.mp he with he | he
    · exact hall e he
    · rw [List.mem_singleton.mp he]
      exact hconflict
  · rw [hentries, List.take_eraseIdx_eq_take_of_le _ _ _ le_rfl]
    exact h.passed

inductive ScanSpec (T : ElementType) (ipc : Ipc) (r : RemotePtr) (sock : ℤ) (c₀ : Remotes) :
    Scanned → Prop where
  | stop {cb : ℕ} {c : Remotes} : Swept T r sock c₀ c cb → cb ≤ c.numRemotePtrs →
      (cb < c.numRemotePtrs → (c.at cb).handle = r.handle) → ScanSpec T ipc r sock c₀ (.stop cb c)
  | raised {cb devPtr : ℕ} {c : Remotes} : Swept T r sock c₀ c cb →
      ipc.closeMemHandle devPtr = false →
      ScanSpec T ipc r sock c₀ (.raised c)

/-- The scan ends: each round leaves one entry less to look at. -/
theorem scan_spec (hr : r.Valid T) (hvalid : ∀ e ∈ c₀.entries, e.Valid T) {fuel : ℕ}
    (h : Swept T r sock c₀ c cb) (hcb : cb ≤ c.numRemotePtrs) (hfuel : c.numRemotePtrs - cb < fuel) :
    ScanSpec T ipc r sock c₀ (scan T ipc r sock fuel cb c) := by
  induction fuel generalizing cb c with
  | zero => omega
  | succ fuel ih =>
    rw [scan]
    by_cases hlt : cb < c.numRemotePtrs
    · have hentry : (c.at cb).Valid T :=
        hvalid _ (h.sublist.subset (List.mem_of_getElem? (Remotes.entries_getElem? h.toWf hlt)))
      have hconflicts : (c.at cb).sock = sock ∧
        hasOverlap T r.ptr r.count (c.at cb).ptr (c.at cb).count = true ↔
          Conflicts T r sock (c.at cb) := and_congr_right fun _ => hasOverlap_iff hr hentry
      rw [if_pos hlt]
      simp only
      split_ifs with hhandle hconflict hclose
      · exact .stop h hcb fun _ => hhandle.symm
      · have hnum : (c.evict cb).numRemotePtrs = c.numRemotePtrs - 1 := rfl
        exact ih (h.evict hlt (hconflicts.mp hconflict)) (by omega) (by omega)
      · exact .raised h (by simpa using hclose)
      · exact ih (h.pass hlt (Ne.symm hhandle) (mt hconflicts.mpr hconflict)) hlt (by omega)
    · rw [if_neg hlt]
      exact .stop h hcb fun hlt' => absurd hlt' hlt

/-! ### The invariant -/

theorem Separate.sublist {es es' : List RemotePtr} (h : Separate T es) (hsub : es'.Sublist es) :
    Separate T es' :=
  ⟨fun e he => h.valid e (hsub.subset he), h.handles.sublist hsub, h.apart.sublist hsub⟩

theorem Separate.concat {es : List RemotePtr} (h : Separate T es) {e : RemotePtr} (he : e.Valid T)
    (hhandle : ∀ a ∈ es, a.handle ≠ e.handle) (hapart : ∀ a ∈ es, ¬ Conflicts T e e.sock a) :
    Separate T (es ++ [e]) where
  valid a ha := by
    rcases List.mem_append.mp ha with ha | ha
    · exact h.valid a ha
    · rw [List.mem_singleton.mp ha]
      exact he
  handles := List.pairwise_append.mpr ⟨h.handles, List.pairwise_singleton _ _, fun a ha b hb => by
    rw [List.mem_singleton.mp hb]
    exact hhandle a ha⟩
  apart := List.pairwise_append.mpr ⟨h.apart, List.pairwise_singleton _ _, fun a ha b hb hsock => by
    rw [List.mem_singleton.mp hb] at hsock ⊢
    by_contra hmeet
    exact hapart a ha ⟨hsock, fun hd => hmeet hd.symm⟩⟩

theorem Remotes.Consistent.init : Remotes.init.Consistent T where
  num_le := Nat.zero_le _
  length_eq := List.length_replicate
  separate := ⟨nofun, .nil, .nil⟩
  account := .nil

theorem Swept.consistent (h : Swept T r sock c₀ c cb) (h₀ : c₀.Consistent T) : c.Consistent T where
  toWf := h.toWf
  separate := h₀.separate.sublist h.sublist
  account := by
    obtain ⟨es, hperm, hclosed, -⟩ := h.evicted
    rw [h.opened_eq, hclosed, List.append_assoc]
    have hmap := hperm.map RemotePtr.devPtr
    rw [List.map_append] at hmap
    exact h₀.account.trans ((hmap.trans List.perm_append_comm).append_left _)

/-- What an arrival makes of the remote pointers: some of them are evicted, each of which is
closed once and is in the way of the descriptor, and at most one is added. -/
structure Turnover (T : ElementType) (r : RemotePtr) (sock : ℤ) (c c' : Remotes) : Prop where
  exists_evicted : ∃ kept evicted added, c.entries.Perm (kept ++ evicted) ∧ kept.Sublist c.entries ∧
    c'.entries = kept ++ added ∧ added.length ≤ 1 ∧
    c'.closed = c.closed ++ evicted.map RemotePtr.devPtr ∧ ∀ e ∈ evicted, Conflicts T r sock e

inductive FindSpec (T : ElementType) (ipc : Ipc) (r : RemotePtr) (sock : ℤ) (c₀ : Remotes) : Found →
    Prop where
  | used {cb : ℕ} {c : Remotes} : c.Consistent T → Turnover T r sock c₀ c → cb < c.numRemotePtrs →
      (c.at cb).handle = r.handle → FindSpec T ipc r sock c₀ (.used cb c)
  | raised {c : Remotes} : c.Consistent T → Turnover T r sock c₀ c →
      ((∃ devPtr, ipc.closeMemHandle devPtr = false) ∨ ipc.openMemHandle r.handle = none) →
      FindSpec T ipc r sock c₀ (.raised c)

theorem Swept.turnover (h : Swept T r sock c₀ c cb) : Turnover T r sock c₀ c := by
  obtain ⟨es, hperm, hclosed, hall⟩ := h.evicted
  exact ⟨c.entries, es, [], hperm, h.sublist, (List.append_nil _).symm, Nat.zero_le _, hclosed, hall⟩

theorem Remotes.Consistent.grow (h : c.Consistent T) : c.grow.Consistent T where
  toWf := h.toWf.grow.1
  separate := by
    rw [Remotes.entries_grow h.toWf]
    exact h.separate
  account := by
    rw [Remotes.entries_grow h.toWf, Remotes.grow]
    split_ifs
    · exact h.account
    · exact h.account

/-- A descriptor with a handle of its own that is in nobody's way. -/
theorem Remotes.Consistent.store (h : c.Consistent T) (hroom : c.numRemotePtrs < c.maxRemotePtrs)
    {e : RemotePtr} (he : e.Valid T) (hhandle : ∀ a ∈ c.entries, a.handle ≠ e.handle)
    (hapart : ∀ a ∈ c.entries, ¬ Conflicts T e e.sock a) :
    (c.store c.numRemotePtrs e).Consistent T where
  toWf := h.toWf.store hroom e
  separate := by
    rw [Remotes.entries_store h.toWf hroom]
    exact h.separate.concat he hhandle hapart
  account := by
    rw [Remotes.entries_store h.toWf hroom, List.map_append, ← List.append_assoc]
    exact h.account.append_right _

theorem findRemotePtr_spec (ipc : Ipc) (sock : ℤ) (hr : r.Valid T) (h : c₀.Consistent T) :
    FindSpec T ipc r sock c₀ (findRemotePtr T ipc r sock c₀) := by
  have hscan : ScanSpec T ipc r sock c₀ (scan T ipc r sock (c₀.numRemotePtrs + 1) 0 c₀) :=
    scan_spec hr h.separate.valid (.start h.toWf) (Nat.zero_le _) (by omega)
  rw [findRemotePtr]
  generalize scan T ipc r sock (c₀.numRemotePtrs + 1) 0 c₀ = o at hscan
  cases hscan with
  | raised hswept hclose => exact .raised (hswept.consistent h) hswept.turnover (.inl ⟨_, hclose⟩)
  | @stop cb c hswept hcb hhandle =>
    have hc := hswept.consistent h
    by_cases hend : cb = c.numRemotePtrs
    · subst hend
      obtain ⟨hwf, hroom⟩ := hc.toWf.grow
      have hentries := Remotes.entries_grow hc.toWf
      have hpassed : ∀ e ∈ c.grow.entries, e.handle ≠ r.handle ∧ ¬ Conflicts T r sock e :=
        fun e he =>
        hswept.passed e (by rwa [List.take_of_length_le (Remotes.length_entries hc.toWf).le, ← hentries])
      obtain ⟨es, hperm, hclosed, hall⟩ := hswept.evicted
      rw [← hentries] at hperm
      have hsub := hentries ▸ hswept.sublist
      have hgrowClosed : c.grow.closed = c₀.closed ++ es.map RemotePtr.devPtr :=
        c.closed_grow.trans hclosed
      simp only [if_true]
      cases hopen : ipc.openMemHandle r.handle with
      | none =>
        exact .raised hc.grow ⟨c.grow.entries, es, [], hperm, hsub, (List.append_nil _).symm, Nat.zero_le _,
          hgrowClosed, hall⟩ (.inr hopen)
      | some devPtr =>
        let e : RemotePtr := ⟨r.handle, r.ptr, devPtr, r.count, sock⟩
        have he : e.Valid T := ⟨hr.count_pos, hr.aligned, hr.fits⟩
        have hstore := hc.grow.store hroom he (fun a ha => (hpassed a ha).1) fun a ha =>
          (hpassed a ha).2
        have hat := Remotes.at_store hwf hroom e
        rw [c.numRemotePtrs_grow] at hstore hat
        refine .used hstore ⟨c.grow.entries, es, [e], hperm, hsub, ?_, le_rfl, hgrowClosed, hall⟩ ?_ ?_
        · rw [← c.numRemotePtrs_grow]
          exact Remotes.entries_store hwf hroom _
        · change c.numRemotePtrs < c.grow.numRemotePtrs + 1
          rw [c.numRemotePtrs_grow]
          exact Nat.lt_succ_self _
        · rw [hat]
    · simp only [if_neg hend]
      exact .used hc hswept.turnover (by omega) (hhandle (by omega))

/-- After any arrivals, the remote pointers are consistent; and the next descriptor finds an
entry with its handle, or the device has refused a call, with only entries in its way evicted
and each of them closed once. -/
theorem remote_pointers_consistent (T : ElementType) {as : List Arrival} {c : Remotes}
    (hrun : Run (Receives T) .init as c) (hvalid : ∀ a ∈ as, a.r.Valid T) :
    c.Consistent T ∧ ∀ (ipc : Ipc) (r : RemotePtr) (sock : ℤ), r.Valid T →
      (∃ cb c', findRemotePtr T ipc r sock c = .used cb c' ∧ cb < c'.numRemotePtrs ∧
          (c'.at cb).handle = r.handle ∧ c'.Consistent T ∧ Turnover T r sock c c') ∨
        ∃ c', findRemotePtr T ipc r sock c = .raised c' ∧ c'.Consistent T ∧ Turnover T r sock c c' ∧
          ((∃ devPtr, ipc.closeMemHandle devPtr = false) ∨ ipc.openMemHandle r.handle = none) := by
  have hc : (∀ a ∈ as, a.r.Valid T) → c.Consistent T := by
    refine hrun.invariant (I := fun as c => (∀ a ∈ as, a.r.Valid T) → c.Consistent T) (fun _ => .init) ?_
    intro as c a c' ih hstep hall
    have hspec := findRemotePtr_spec a.ipc a.sock (hall a (by simp)) (ih fun b hb => hall b (by simp [hb]))
    rcases hstep with ⟨cb, hused⟩ | hraised
    · rw [hused] at hspec
      cases hspec with
      | used hc' _ _ _ => exact hc'
    · rw [hraised] at hspec
      cases hspec with
      | raised hc' _ _ => exact hc'
  refine ⟨hc hvalid, fun ipc r sock hr => ?_⟩
  have hspec := findRemotePtr_spec ipc sock hr (hc hvalid)
  generalize findRemotePtr T ipc r sock c = o at hspec
  cases hspec with
  | used hc' hturn hlt hhandle => exact .inl ⟨_, _, rfl, hlt, hhandle, hc', hturn⟩
  | raised hc' hturn hfail => exact .inr ⟨_, rfl, hc', hturn, hfail⟩

/-- A device that refuses nothing, and the same memory behind two handles. -/
theorem remote_pointers_consistent_two :
    let ipc : Ipc := ⟨fun _ => some 100, fun _ => true⟩
    let r : RemotePtr := ⟨fun _ => 0, 0, 0, 4, 0⟩
    let r' : RemotePtr := ⟨fun _ => 1, 8, 0, 4, 0⟩
    ∃ c, Run (Receives .float) .init [⟨ipc, r, 3⟩] c ∧ c.Consistent .float ∧
      ∃ cb c', findRemotePtr .float ipc r' 3 c = .used cb c' ∧ (c'.at cb).handle = r'.handle := by
  intro ipc r r'
  have hr : r.Valid .float := ⟨by decide, by decide, by norm_num [r, ElementType.elementSize]⟩
  have hr' : r'.Valid .float := ⟨by decide, by decide, by norm_num [r', ElementType.elementSize]⟩
  have hrun : Run (Receives .float) .init [⟨ipc, r, 3⟩] (Remotes.init.store 0 ⟨r.handle, 0, 100, 4, 3⟩) :=
    Run.snoc .nil (.inl ⟨0, rfl⟩)
  obtain ⟨hc, hnext⟩ := remote_pointers_consistent .float hrun (by simpa using hr)
  refine ⟨_, hrun, hc, ?_⟩
  rcases hnext ipc r' 3 hr' with ⟨cb, c', hused, -, hhandle, -⟩ | ⟨c', -, -, -, hfail⟩
  · exact ⟨cb, c', hused, hhandle⟩
  · simp [ipc] at hfail

end

end TorchIpc.Cuda
