import Mathlib.Data.List.GetD
import TorchIpc.Cliser.Socket
import TorchIpc.Ringbuffer.Buffer
import TorchIpc.Base.Strided

/-! Storages and tensors on a connection (`generic/cliser.c`, in a build without
CUDA). A storage goes out as its element size, its size and its bytes. A tensor goes
out as a word with its element size and contiguity, the size and stride of each
dimension, and its elements: in one piece if it is contiguous, else in blocks of the
trailing dimensions that lie together. The receiver makes the same walk over its own
tensor. What TH says about a shape is the parameter `TH`. -/

namespace TorchIpc.Cliser

open Words Strided Circular

inductive ElementType where
  | byte
  | char
  | short
  | int
  | long
  | float
  | double
  deriving Repr, DecidableEq

def ElementType.elementSize : ElementType → ℕ
  | .byte => 1
  | .char => 1
  | .short => 2
  | .int => 4
  | .long => 8
  | .float => 4
  | .double => 8

theorem ElementType.elementSize_pos (T : ElementType) : 0 < T.elementSize := by cases T <;> decide

structure THStorage where
  data : List UInt8
  size : ℕ

/-- A tensor: the size and stride of its dimensions, and its elements in a storage
from `storageOffset` on. -/
structure THTensor where
  dims : List (ℕ × ℕ)
  storage : Option THStorage
  storageOffset : ℕ

/-- What TH says about a shape, whose dimensions are not empty and whose elements lie
in a storage. -/
structure TH where
  isContiguous : List (ℕ × ℕ) → Bool
  nElement : List (ℕ × ℕ) → ℕ
  /-- The stride of a dimension of size 1 does not matter. -/
  isContiguous_iff : ∀ dims, (∀ d ∈ dims, 1 ≤ d.1) → reach dims + 1 < 2 ^ 63 →
    (isContiguous dims = true ↔ Dense dims)
  nElement_nil : nElement [] = 0
  nElement_eq : ∀ dims, dims ≠ [] → volume dims < 2 ^ 63 → nElement dims = volume dims

/-- The errors of a transfer: those of the socket calls, and those of `luaL_error`. -/
inductive TransferError where
  | sock (e : SockError)
  | lua (msg : String)
  deriving Repr, DecidableEq

/-- The elements that a transfer works on, and the socket. -/
structure Transfer where
  data : List UInt8
  sock : Socket

/-- How a transfer ends. It blocks where the bytes it waits for do not come. -/
inductive TransferOutcome where
  | ret (s : Transfer)
  | error (e : TransferError)
  | blocks

def TransferOutcome.andThen (o : TransferOutcome) (k : Transfer → TransferOutcome) :
    TransferOutcome :=
  match o with
  | .ret s => k s
  | .error e => .error e
  | .blocks => .blocks

/-- The end of a transfer that has sent something. -/
def TransferOutcome.ofSend (data : List UInt8) : Except SockError Unit × Socket → TransferOutcome
  | (.ok _, sock) => .ret ⟨data, sock⟩
  | (.error e, _) => .error (.sock e)

/-- A transfer goes on with what it has received. -/
def TransferOutcome.ofRecv (data : List UInt8) (k : List UInt8 → Transfer → TransferOutcome) :
    Option (Except SockError (List UInt8) × Socket) → TransferOutcome
  | some (.ok bs, sock) => k bs ⟨data, sock⟩
  | some (.error e, _) => .error (.sock e)
  | none => .blocks

def sendRaw (bs : List UInt8) (s : Transfer) : TransferOutcome :=
  .ofSend s.data (sockSendRaw bs s.sock)

def recvRaw (len : ℕ) (s : Transfer) (k : List UInt8 → Transfer → TransferOutcome) :
    TransferOutcome :=
  .ofRecv s.data k (sockRecvRaw len s.sock)

def toCLong (n : ℕ) : ℤ := Int.bmod n (2 ^ 64)

def word (header : List UInt8) (j : ℕ) : ℕ := leVal (slice header (8 * j) 8)

def luaLError (parts : List String) : TransferOutcome := .error (.lua (String.join parts))

/-! ### Storages -/

section
variable (T : ElementType)

def writeContiguous (count ptr : ℕ) (s : Transfer) : TransferOutcome :=
  sendRaw (slice s.data (T.elementSize * ptr) (T.elementSize * count)) s

def readContiguous (count ptr : ℕ) (s : Transfer) : TransferOutcome :=
  recvRaw (T.elementSize * count) s fun bs s =>
    .ret { s with data := memcpy s.data (T.elementSize * ptr) bs bs.length }

def storageWrite (storage : THStorage) (sock : Socket) : TransferOutcome :=
  (sendRaw (leBytes 8 T.elementSize ++ leBytes 8 storage.size) ⟨storage.data, sock⟩).andThen
    (writeContiguous T storage.size 0)

def storageRead (storage : THStorage) (sock : Socket) : TransferOutcome :=
  recvRaw 16 ⟨storage.data, sock⟩ fun header s =>
  if word header 0 ≠ T.elementSize then
    luaLError ["local (", toString T.elementSize, ") and remote (", toString (toCLong (word header 0)),
      ") storage ELEMENT_SIZE do not match"]
  else if word header 1 ≠ storage.size then
    luaLError ["local (", toString storage.size, ") and remote (", toString (toCLong (word header 1)),
      ") storage size do not match"]
  else readContiguous T storage.size 0 s

/-! ### Tensors -/

/-- `can_use_fastpath` in a build without CUDA. -/
def canUseFastpath : ℕ := 0

/-- The first word of a header; `bc` is the contiguity. -/
def headerWord (bc : ℕ) : ℕ :=
  (bc &&& 0x1) ||| ((canUseFastpath <<< 1) &&& 0x2) ||| ((T.elementSize <<< 4) &&& 0xF0)

def dimBytes (dims : List (ℕ × ℕ)) : List UInt8 :=
  dims.flatMap fun d => leBytes 8 d.1 ++ leBytes 8 d.2

def strideLoop (body : ℕ → Transfer → TransferOutcome) (stride : ℕ) : ℕ → ℕ → Transfer →
    TransferOutcome
  | 0, _, s => .ret s
  | n + 1, ptr, s => (body ptr s).andThen (strideLoop body stride n (ptr + stride))

/-- The walk over the dimensions up to `nDim`, which moves a block at each cell. -/
def noncontiguousRcsv (move : ℕ → Transfer → TransferOutcome) :
    List (ℕ × ℕ) → ℕ → ℕ → Transfer → TransferOutcome
  | [], _, _, s => .ret s
  | (size, stride) :: _, 0, ptr, s => strideLoop move stride size ptr s
  | (size, stride) :: dims, nDim + 1, ptr, s =>
    strideLoop (noncontiguousRcsv move dims nDim) stride size ptr s

def tensorWriteNoncontiguousRcsv (nDimStride : ℕ) :
    List (ℕ × ℕ) → ℕ → ℕ → Transfer → TransferOutcome :=
  noncontiguousRcsv (writeContiguous T nDimStride)

def tensorReadNoncontiguousRcsv (nDimStride : ℕ) :
    List (ℕ × ℕ) → ℕ → ℕ → Transfer → TransferOutcome :=
  noncontiguousRcsv (readContiguous T nDimStride)

/-- The loop that merges trailing dimensions: `i` dimensions are left when the stride
of the next one is not the size of the block. -/
def blockLoop (dims : List (ℕ × ℕ)) : ℕ → ℕ → ℕ × ℕ
  | 0, bc => (0, bc)
  | i + 1, bc =>
    if bc = (dims.getD i (0, 0)).2 then blockLoop dims i (bc * (dims.getD i (0, 0)).1) else (i + 1, bc)

/-- What is common to both directions for a tensor that is not contiguous. -/
def noncontiguous (rcsv : ℕ → List (ℕ × ℕ) → ℕ → ℕ → Transfer → TransferOutcome)
    (t : THTensor) (s : Transfer) : TransferOutcome :=
  let n := t.dims.length
  if n < 2 then luaLError ["not implemented"]
  else if (t.dims.getD (n - 1) (0, 0)).2 ≠ 1 then luaLError ["not implemented"]
  else
    match blockLoop t.dims (n - 1) (t.dims.getD (n - 1) (0, 0)).1 with
    | (0, _) => luaLError ["unreachable"]
    | (i + 1, bc) => rcsv bc t.dims i t.storageOffset s

variable (th : TH)

/-- The elements of a tensor, in either direction. -/
def moveElements (contiguous : ℕ → ℕ → Transfer → TransferOutcome)
    (rcsv : ℕ → List (ℕ × ℕ) → ℕ → ℕ → Transfer → TransferOutcome) (t : THTensor) (s : Transfer) :
    TransferOutcome :=
  if th.isContiguous t.dims then
    match t.storage with
    | some _ => contiguous (th.nElement t.dims) t.storageOffset s
    | none => .ret s
  else noncontiguous rcsv t s

def THTensor.bytes (t : THTensor) : List UInt8 := (t.storage.map THStorage.data).getD []

def tensorWrite (t : THTensor) (sock : Socket) : TransferOutcome :=
  let bc := th.isContiguous t.dims
  (sendRaw (leBytes 8 (headerWord T bc.toNat) ++ dimBytes t.dims) ⟨t.bytes, sock⟩).andThen
    (moveElements th (writeContiguous T) (tensorWriteNoncontiguousRcsv T) t)

def checkDims (header : List UInt8) (k : TransferOutcome) : ℕ → List (ℕ × ℕ) → TransferOutcome
  | _, [] => k
  | i, (size, stride) :: dims =>
    if word header (2 * i + 1) ≠ size then
      luaLError ["local(", toString size, ") and remote(", toString (toCLong (word header (2 * i + 1))),
        ") size of dimension(", toString i, ") mismatch"]
    else if word header (2 * i + 2) ≠ stride then
      luaLError ["local(", toString size, ") and remote(", toString (toCLong (word header (2 * i + 2))),
        ") stride of dimension(", toString i, ") mismatch"]
    else checkDims header k (i + 1) dims

def tensorRead (t : THTensor) (sock : Socket) : TransferOutcome :=
  let bc := th.isContiguous t.dims
  recvRaw (8 * (2 * t.dims.length + 1)) ⟨t.bytes, sock⟩ fun header s =>
  let h := word header 0
  if h &&& 0x1 ≠ bc.toNat then
    luaLError ["local(", toString bc.toNat, ") and remote(", toString (h &&& 0xF),
      ") isContiguous mismatch"]
  else if (h &&& 0x2) >>> 1 ≠ canUseFastpath then
    luaLError ["local(", toString bc.toNat, ") and remote(", toString (h &&& 0xF),
      ") use_fastpath mismatch"]
  else if (h &&& 0xF0) >>> 4 ≠ T.elementSize then
    luaLError ["local(", toString T.elementSize, ") and remote(", toString ((h &&& 0xF0) >>> 4),
      ") ELEMENT_SIZE mismatch"]
  else
    checkDims header (moveElements th (readContiguous T) (tensorReadNoncontiguousRcsv T) t s) 0 t.dims

end

/-! ### Raw transfers -/

section
variable {bs : List UInt8} {s s' : Transfer}

/-- A raw send returns exactly for the lengths that an `int` can hold. -/
theorem sendRaw_ret (h : bs.length < 2 ^ 31) (s : Transfer) :
    ∃ calls, sendRaw bs s =
      .ret { s with sock := { s.sock with sent := s.sock.sent ++ bs, calls := calls } } := by
  obtain ⟨calls, hsend⟩ := sockSendRaw_eq h s.sock
  exact ⟨calls, congrArg (TransferOutcome.ofSend s.data) hsend⟩

theorem sendRaw_length (h : sendRaw bs s = .ret s') : bs.length < 2 ^ 31 := by
  by_contra hlen
  obtain ⟨calls, hsend⟩ := sockSend_eq bs s.sock
  obtain ⟨e, hcheck⟩ := checkCount_error hlen "failed to send the correct number of bytes"
  have hraw : sockSendRaw bs s.sock =
      (.error e, { s.sock with sent := s.sock.sent ++ bs, calls := calls }) := by
    rw [sockSendRaw, hsend]
    simp only [hcheck]
  have herror : sendRaw bs s = .error (.sock e) := congrArg (TransferOutcome.ofSend s.data) hraw
  rw [herror] at h
  cases h

variable {k : List UInt8 → Transfer → TransferOutcome}

theorem recvRaw_append {rest : List UInt8} (h : s.sock.incoming = bs ++ rest) {len : ℕ}
    (hlen : bs.length = len) (hlt : len < 2 ^ 31) :
    ∃ calls, ∀ k, recvRaw len s k =
      k bs { s with sock := { s.sock with incoming := rest, calls := calls } } := by
  subst hlen
  obtain ⟨calls, hrecv⟩ := sockRecvRaw_append h hlt
  exact ⟨calls, fun k => congrArg (TransferOutcome.ofRecv s.data k) hrecv⟩

/-- A raw receive that returns has found all its bytes. -/
theorem recvRaw_ret {len : ℕ} (h : recvRaw len s k = .ret s') :
    len < 2 ^ 31 ∧ len ≤ s.sock.incoming.length := by
  have hle : len ≤ s.sock.incoming.length := by
    by_contra hshort
    have hraw : sockRecvRaw len s.sock = none := by
      rw [sockRecvRaw, sockRecv_none (not_le.mp hshort)]
      rfl
    have hblocks : recvRaw len s k = .blocks := congrArg (TransferOutcome.ofRecv s.data k) hraw
    rw [hblocks] at h
    cases h
  refine ⟨?_, hle⟩
  by_contra hlen
  obtain ⟨calls, hrecv⟩ := sockRecv_eq hle
  have hcount : (s.sock.incoming.take len).length = len := by
    rw [List.length_take]
    omega
  obtain ⟨e, hcheck⟩ := checkCount_error hlen "failed to recv the correct number of bytes"
  have hraw : sockRecvRaw len s.sock =
      some (.error e, { s.sock with incoming := s.sock.incoming.drop len, calls := calls }) := by
    rw [sockRecvRaw, hrecv]
    simp only [Option.bind_eq_bind, Option.bind_some, hcount, hcheck]
    rfl
  have herror : recvRaw len s k = .error (.sock e) :=
    congrArg (TransferOutcome.ofRecv s.data k) hraw
  rw [herror] at h
  cases h

end

/-! ### The walk over the blocks -/

/-- The same move at each of a list of positions. -/
def forEach (move : ℕ → Transfer → TransferOutcome) : List ℕ → Transfer → TransferOutcome
  | [], s => .ret s
  | p :: ps, s => (move p s).andThen (forEach move ps)

section
variable {move : ℕ → Transfer → TransferOutcome}

theorem andThen_ret (s : Transfer) (k : Transfer → TransferOutcome) :
    (TransferOutcome.ret s).andThen k = k s := rfl

theorem andThen_assoc (o : TransferOutcome) (f g : Transfer → TransferOutcome) :
    (o.andThen f).andThen g = o.andThen fun s => (f s).andThen g := by
  cases o <;> rfl

theorem forEach_append (ps qs : List ℕ) (s : Transfer) :
    forEach move (ps ++ qs) s = (forEach move ps s).andThen (forEach move qs) := by
  induction ps generalizing s with
  | nil => rfl
  | cons p ps ih =>
    rw [List.cons_append, forEach, forEach, andThen_assoc]
    congr 1
    funext s
    exact ih s

theorem strideLoop_eq {body : ℕ → Transfer → TransferOutcome} (qs : List ℕ)
    (hbody : ∀ ptr, body ptr = forEach move (qs.map (ptr + ·))) (stride n ptr : ℕ) (s : Transfer) :
    strideLoop body stride n ptr s =
      forEach move (((List.range n).flatMap fun i => qs.map (i * stride + ·)).map (ptr + ·)) s := by
  induction n generalizing ptr s with
  | zero => rfl
  | succ n ih =>
    have hrest : ((List.range n).map Nat.succ).flatMap (fun i => (qs.map (i * stride + ·))) =
        ((List.range n).flatMap fun i => qs.map (i * stride + ·)).map (stride + ·) := by
      rw [List.flatMap_map, List.map_flatMap]
      congr 1
      funext i
      rw [List.map_map]
      congr 1
      funext q
      simp only [Function.comp_apply, Nat.succ_mul]
      omega
    rw [strideLoop, List.range_succ_eq_map, List.flatMap_cons, hrest, List.map_append, forEach_append,
      hbody]
    congr 1
    · simp
    · funext s
      rw [ih]
      congr 1
      rw [List.map_map]
      congr 1
      funext q
      exact Nat.add_assoc _ _ _

/-- The recursion visits the cells of its dimensions in row-major order. -/
theorem noncontiguousRcsv_eq {dims : List (ℕ × ℕ)} {nDim : ℕ} (h : nDim < dims.length) (ptr : ℕ) :
    noncontiguousRcsv move dims nDim ptr =
      forEach move ((addresses (dims.take (nDim + 1))).map (ptr + ·)) := by
  induction dims generalizing nDim ptr with
  | nil => simp at h
  | cons d dims ih =>
    obtain ⟨size, stride⟩ := d
    funext s
    cases nDim with
    | zero =>
      rw [noncontiguousRcsv, strideLoop_eq [0], List.take_succ_cons, List.take_zero, addresses,
        addresses]
      intro ptr
      funext s
      simp only [List.map_cons, List.map_nil, Nat.add_zero, forEach]
      cases move ptr s <;> rfl
    | succ nDim =>
      rw [noncontiguousRcsv, strideLoop_eq _ (ih (Nat.lt_of_succ_lt_succ h)), List.take_succ_cons, addresses]

end

/-! ### The blocks of a tensor -/

structure THStorage.Wf (T : ElementType) (st : THStorage) : Prop where
  length_data : st.data.length = T.elementSize * st.size
  size_lt : st.size < 2 ^ 63

/-- A tensor in memory: its elements lie in its storage. A tensor without dimensions
has no elements and need not have a storage. -/
structure THTensor.Wf (T : ElementType) (t : THTensor) : Prop where
  size_pos : ∀ d ∈ t.dims, 1 ≤ d.1
  size_lt : ∀ d ∈ t.dims, d.1 < 2 ^ 63 ∧ d.2 < 2 ^ 63
  storage_wf : ∀ st, t.storage = some st → st.Wf T
  inside : t.dims ≠ [] → ∃ st, t.storage = some st ∧ t.storageOffset + reach t.dims < st.size

/-- The addresses of the elements in row-major order, relative to the offset. -/
def THTensor.addresses (t : THTensor) : List ℕ :=
  if t.dims = [] then [] else Strided.addresses t.dims

/-- Where the blocks of a tensor start and how long they are; nothing for the shapes
that raise an error. -/
def plan (th : TH) (t : THTensor) : Option (List ℕ × ℕ) :=
  if th.isContiguous t.dims then
    if t.storage.isSome then some ([0], th.nElement t.dims) else some ([], 0)
  else if t.dims.length < 2 ∨ (t.dims.getD (t.dims.length - 1) (0, 0)).2 ≠ 1 then none
  else
    let (i, bc) := blockLoop t.dims (t.dims.length - 1) (t.dims.getD (t.dims.length - 1) (0, 0)).1
    if i = 0 then none else some (Strided.addresses (t.dims.take i), bc)

theorem blockLoop_packed {dims : List (ℕ × ℕ)} {i : ℕ} (hi : i ≤ dims.length) (hp : Packed (dims.drop i)) :
    (blockLoop dims i (volume (dims.drop i))).1 ≤ i ∧
    packedTail dims = dims.drop (blockLoop dims i (volume (dims.drop i))).1 ∧
    (blockLoop dims i (volume (dims.drop i))).2 = volume (packedTail dims) := by
  induction i with
  | zero =>
    rw [List.drop_zero] at hp
    rw [packedTail_of_packed hp]
    exact ⟨le_rfl, rfl, rfl⟩
  | succ i ih =>
    have hdrop : dims.drop i = dims[i] :: dims.drop (i + 1) := List.drop_eq_getElem_cons hi
    have hget : dims.getD i (0, 0) = dims[i] := List.getD_eq_getElem dims (0, 0) hi
    rw [blockLoop, hget]
    split_ifs with hstride
    · have hpacked : Packed (dims.drop i) := by
        rw [hdrop]
        exact ⟨hstride.symm, hp⟩
      have hvolume : volume (dims.drop (i + 1)) * dims[i].1 = volume (dims.drop i) := by
        rw [hdrop, volume_cons, Nat.mul_comm]
      rw [hvolume]
      obtain ⟨h1, h2, h3⟩ := ih (Nat.le_of_succ_le hi) hpacked
      exact ⟨h1.trans (Nat.le_succ i), h2, h3⟩
    · have hnot : ¬ Packed (dims.drop i) := by
        rw [hdrop]
        exact fun hpacked => hstride hpacked.1.symm
      have htail := packedTail_eq_drop hnot hp
      rw [htail]
      exact ⟨le_rfl, rfl, rfl⟩

/-- The loop starts at the last dimension: its elements lie together if its stride is 1. -/
theorem blockLoop_last {dims : List (ℕ × ℕ)} {i bc : ℕ} (hlen : 2 ≤ dims.length)
    (hlast : (dims.getD (dims.length - 1) (0, 0)).2 = 1)
    (hloop : blockLoop dims (dims.length - 1) (dims.getD (dims.length - 1) (0, 0)).1 = (i, bc)) :
    i < dims.length ∧ packedTail dims = dims.drop i ∧ bc = volume (packedTail dims) := by
  have hlt : dims.length - 1 < dims.length := by omega
  have hdrop : dims.drop (dims.length - 1) = [dims[dims.length - 1]] := by
    rw [List.drop_eq_getElem_cons hlt, Nat.sub_add_cancel (by omega), List.drop_length]
  rw [List.getD_eq_getElem dims (0, 0) hlt] at hlast hloop
  have hpacked : Packed (dims.drop (dims.length - 1)) := by
    rw [hdrop]
    exact ⟨hlast, trivial⟩
  have hvolume : volume (dims.drop (dims.length - 1)) = (dims[dims.length - 1]).1 := by
    rw [hdrop, volume_cons, volume_nil, Nat.mul_one]
  have hspec := blockLoop_packed hlt.le hpacked
  rw [hvolume, hloop] at hspec
  obtain ⟨hle, htail, hbc⟩ := hspec
  exact ⟨hle.trans_lt hlt, htail, hbc⟩

section
variable {T : ElementType} {th : TH} {t : THTensor} {ps : List ℕ} {n : ℕ}

theorem THTensor.Wf.isContiguous_iff (h : t.Wf T) : th.isContiguous t.dims = true ↔
    Dense t.dims := by
  by_cases hnil : t.dims = []
  · rw [hnil]
    exact th.isContiguous_iff [] (by simp) (by simp [reach])
  · obtain ⟨st, hst, hlt⟩ := h.inside hnil
    have := (h.storage_wf st hst).size_lt
    exact th.isContiguous_iff t.dims h.size_pos (by omega)

theorem THTensor.Wf.nElement_eq (h : t.Wf T) (hne : t.dims ≠ []) (hdense : Dense t.dims) :
    th.nElement t.dims = volume t.dims := by
  obtain ⟨st, hst, hlt⟩ := h.inside hne
  have := (h.storage_wf st hst).size_lt
  have := volume_le_reach hdense
  exact th.nElement_eq t.dims hne (by omega)

/-- The blocks of a tensor that is not contiguous are the cells in front of its packed tail. -/
theorem plan_noncontiguous (hcontig : ¬ th.isContiguous t.dims = true) (hplan : plan th t = some (ps, n)) :
    2 ≤ t.dims.length ∧ (t.dims.getD (t.dims.length - 1) (0, 0)).2 = 1 ∧
    ∃ i < t.dims.length,
      blockLoop t.dims (t.dims.length - 1) (t.dims.getD (t.dims.length - 1) (0, 0)).1 = (i + 1, n) ∧
      ps = Strided.addresses (t.dims.take (i + 1)) ∧
      packedTail t.dims = t.dims.drop (i + 1) ∧ n = volume (packedTail t.dims) := by
  rw [plan, if_neg hcontig] at hplan
  split_ifs at hplan with hshape
  rw [not_or, not_lt, not_not] at hshape
  obtain ⟨hlen, hlast⟩ := hshape
  rcases hloop : blockLoop t.dims (t.dims.length - 1) (t.dims.getD (t.dims.length - 1) (0, 0)).1 with ⟨i, bc⟩
  rw [hloop] at hplan
  simp only at hplan
  split_ifs at hplan with hi
  obtain ⟨rfl, rfl⟩ := Prod.mk.inj (Option.some.inj hplan)
  obtain ⟨i, rfl⟩ := Nat.exists_eq_succ_of_ne_zero hi
  obtain ⟨hlt, htail, hbc⟩ := blockLoop_last hlen hlast hloop
  exact ⟨hlen, hlast, i, Nat.lt_of_succ_lt hlt, rfl, rfl, htail, hbc⟩

/-- The blocks are the elements, in row-major order. -/
theorem plan_addresses (h : t.Wf T) (hplan : plan th t = some (ps, n)) :
    t.addresses = ps.flatMap fun p => (List.range n).map (p + ·) := by
  by_cases hcontig : th.isContiguous t.dims = true
  · rw [plan, if_pos hcontig] at hplan
    split_ifs at hplan with hst
    · obtain ⟨rfl, rfl⟩ := Prod.mk.inj (Option.some.inj hplan)
      rw [THTensor.addresses]
      split_ifs with hnil
      · rw [hnil, th.nElement_nil]
        rfl
      · have hdense := h.isContiguous_iff.mp hcontig
        rw [h.nElement_eq hnil hdense, addresses_of_dense hdense]
        simp
    · obtain ⟨rfl, rfl⟩ := Prod.mk.inj (Option.some.inj hplan)
      have hnil : t.dims = [] := by
        by_contra hne
        obtain ⟨st, hsome, _⟩ := h.inside hne
        rw [hsome] at hst
        exact hst rfl
      rw [THTensor.addresses, if_pos hnil]
      rfl
  · obtain ⟨hlen, _, i, _, _, rfl, htail, rfl⟩ := plan_noncontiguous hcontig hplan
    have hne : t.dims ≠ [] := by
      intro hnil
      rw [hnil] at hlen
      exact absurd hlen (by decide)
    have hdense := (packed_packedTail t.dims).dense
    rw [THTensor.addresses, if_neg hne]
    conv_lhs => rw [← List.take_append_drop (i + 1) t.dims, ← htail]
    rw [addresses_append, addresses_of_dense hdense]

theorem moveElements_eq (hplan : plan th t = some (ps, n))
    (move : ℕ → ℕ → Transfer → TransferOutcome) (s : Transfer) :
    moveElements th move (fun n => noncontiguousRcsv (move n)) t s =
      forEach (move n) (ps.map (t.storageOffset + ·)) s := by
  rw [moveElements]
  by_cases hcontig : th.isContiguous t.dims = true
  · rw [plan, if_pos hcontig] at hplan
    rw [if_pos hcontig]
    split_ifs at hplan with hst
    · obtain ⟨rfl, rfl⟩ := Prod.mk.inj (Option.some.inj hplan)
      obtain ⟨st, hsome⟩ := Option.isSome_iff_exists.mp hst
      rw [hsome]
      simp only [List.map_cons, List.map_nil, Nat.add_zero, forEach]
      cases move (th.nElement t.dims) t.storageOffset s <;> rfl
    · obtain ⟨rfl, rfl⟩ := Prod.mk.inj (Option.some.inj hplan)
      rw [Option.not_isSome_iff_eq_none.mp hst]
      rfl
  · obtain ⟨hlen, hlast, i, hi, hloop, rfl, _, _⟩ := plan_noncontiguous hcontig hplan
    rw [if_neg hcontig, noncontiguous]
    rw [if_neg (not_lt.mpr hlen), if_neg (not_not.mpr hlast), hloop]
    exact congrFun (noncontiguousRcsv_eq hi _) s

theorem moveElements_error (hplan : plan th t = none)
    (move : ℕ → ℕ → Transfer → TransferOutcome) (s : Transfer) :
    ∃ e, moveElements th move (fun n => noncontiguousRcsv (move n)) t s = .error e := by
  unfold plan at hplan
  unfold moveElements noncontiguous
  split_ifs at hplan with hcontig hst hshape
  · rw [if_neg hcontig]
    simp only
    split_ifs with hlen hlast
    · exact ⟨_, rfl⟩
    · exact ⟨_, rfl⟩
    · exact absurd hshape (not_or.mpr ⟨hlen, hlast⟩)
  · rw [not_or] at hshape
    rw [if_neg hcontig]
    simp only
    rw [if_neg hshape.1, if_neg hshape.2]
    generalize blockLoop t.dims (t.dims.length - 1) (t.dims.getD (t.dims.length - 1) (0, 0)).1 =
      r at hplan
    obtain ⟨i, bc⟩ := r
    simp only at hplan
    split_ifs at hplan with hi
    rw [hi]
    exact ⟨_, rfl⟩

end

end TorchIpc.Cliser
