import TorchIpc.Base.Linked
import TorchIpc.Base.Runs
import TorchIpc.Serialize.Save

/-! The clients of a server (`cliser.c`) and the handles that Lua holds to them. Closing a
client through one handle frees it and marks this handle only; `server:clients` goes
through a copy of the list while its callbacks may close clients. Proved here: as long as
a client is closed through its last handle and while no copy still holds it, and the
server when nobody has a handle, every handle that is not marked invalid leads to a client
of the list, in every run. -/

namespace TorchIpc

open Linked Runs

/-- The fields of `client_t` used here, without the links. -/
structure ClientInfo where
  sock : ℕ
  tag : Option (List UInt8)
  id : Int32

/-- `server_t`, and the clients in memory, with one map for each link. An access to a
client that is not in memory is undefined. -/
structure Server where
  sock : ℕ
  info : UInt64 → Option ClientInfo
  next : UInt64 → Option UInt64
  prev : UInt64 → Option UInt64
  clients : Option UInt64
  numClients : UInt32

namespace Server

def setPrev (v p : Option UInt64) (s : Server) : Option Server :=
  match v with
  | some v => (s.info v).map fun _ => { s with prev := Function.update s.prev v p }
  | none => some s

def setNext (v n : Option UInt64) (s : Server) : Option Server :=
  match v with
  | some v => (s.info v).map fun _ => { s with next := Function.update s.next v n }
  | none => some s

def alloc (c : UInt64) (sock : ℕ) (s : Server) : Server :=
  { s with
    info := Function.update s.info c (some ⟨sock, none, 0⟩)
    next := Function.update s.next c none
    prev := Function.update s.prev c none }

end Server

def insertClient (c : UInt64) (s : Server) : Option Server := do
  let s ←
    match s.clients with
    | some h => do
      let s ← s.setPrev (some h) (some c)
      s.setNext (some c) (some h)
    | none => some s
  return { s with clients := some c, numClients := s.numClients + 1 }

def removeClient (c : UInt64) (s : Server) : Option Server := do
  let _ ← s.info c
  let s := if s.clients = some c then { s with clients := s.next c } else s
  let s ← s.setPrev (s.next c) (s.prev c)
  let s ← s.setNext (s.prev c) (s.next c)
  return { s with numClients := s.numClients - 1 }

/-- `destroy_client`, where `close` succeeds or not. It answers whether it returned. -/
def destroyClient (closes : Bool) (c : UInt64) (s : Server) : Option (Bool × Server) := do
  let i ← s.info c
  if i.sock ≠ 0 ∧ closes = false then return (false, s)
  return (true, { s with info := Function.update s.info c none })

def destroyLoop (closes : UInt64 → Bool) : ℕ → Option UInt64 → Server → Option (Bool × Server)
  | 0, _, _ => none
  | _ + 1, none, s => some (true, s)
  | fuel + 1, some c, s => do
    let next := s.next c
    let (ok, s) ← destroyClient (closes c) c s
    if ok then destroyLoop closes fuel next s else return (false, s)

def destroyServer (sockCloses : Bool) (closes : UInt64 → Bool) (fuel : ℕ) (s : Server) :
    Option (Bool × Server) := do
  if s.sock ≠ 0 ∧ sockCloses = false then return (false, s)
  let (ok, s) ← destroyLoop closes fuel s.clients { s with sock := 0 }
  if ok then return (true, { s with clients := none, numClients := 0 }) else return (false, s)

/-- `!tag || (client->tag && strcmp(tag, client->tag) == 0)`. -/
def ClientInfo.tagged (tag : Option (List UInt8)) (i : ClientInfo) : Bool :=
  match tag with
  | none => true
  | some t => i.tag == some (cstr t)

/-- The loop of `cliser_server_clients` that copies the list. -/
def copyLoop (tag : Option (List UInt8)) (s : Server) : ℕ → Option UInt64 → Option (List UInt64)
  | 0, _ => none
  | _ + 1, none => some []
  | fuel + 1, some c => do
    let i ← s.info c
    let rest ← copyLoop tag s fuel (s.next c)
    return if i.tagged tag then c :: rest else rest

/-- The second loop of `cliser_server_recv_any`: the first client that `select` reports. -/
def readyLoop (tag : Option (List UInt8)) (ready : UInt64 → Bool) (s : Server) :
    ℕ → Option UInt64 → Option (Option UInt64)
  | 0, _ => none
  | _ + 1, none => some none
  | fuel + 1, some c => do
    let i ← s.info c
    if i.tagged tag && ready c then some (some c) else readyLoop tag ready s fuel (s.next c)

/-! ### The handles -/

inductive Handle where
  | unborn
  | valid (client : UInt64)
  | invalid
  | collected

/-- A call of `server:clients`: the handle its callback was given, if it is running, and
the clients still to come. -/
structure ClientsCall where
  current : Option ℕ
  rest : List UInt64

structure ServerState where
  server : Server
  handles : ℕ → Handle
  calls : List ClientsCall

def ServerState.start : ServerState where
  server := ⟨3, fun _ => none, fun _ => none, fun _ => none, none, 0⟩
  handles _ := .unborn
  calls := []

inductive HandleOp where
  | send
  | recv
  | tag (t : Option (List UInt8))
  | id (i : Option Int32)
  | address
  | close (closes : Bool)
  deriving DecidableEq

/-- The invalid-client error, a call that went through, or another error. -/
inductive HandleAnswer where
  | invalid
  | ok
  | raised
  deriving DecidableEq

namespace ServerState

def setInfo (c : UInt64) (i : ClientInfo) (s : ServerState) : ServerState :=
  { s with server := { s.server with info := Function.update s.server.info c (some i) } }

def useClient (op : HandleOp) (h : ℕ) (c : UInt64) (s : ServerState) :
    Option (HandleAnswer × ServerState) := do
  let i ← s.server.info c
  match op with
  | .send | .recv | .address => return (.ok, s)
  | .tag none | .id none => return (.ok, s)
  | .tag (some t) => return (.ok, s.setInfo c { i with tag := some (cstr t) })
  | .id (some n) => return (.ok, s.setInfo c { i with id := n })
  | .close closes =>
    let server ← removeClient c s.server
    let (ok, server) ← destroyClient closes c server
    if ok then return (.ok, { s with server := server, handles := Function.update s.handles h .invalid })
    else return (.raised, { s with server := server })

/-- A method on a handle that Lua holds. All but `address` look whether it is invalid. -/
def useHandle (op : HandleOp) (h : ℕ) (s : ServerState) : Option (HandleAnswer × ServerState) :=
  match s.handles h with
  | .valid c => s.useClient op h c
  | .invalid => if op = .address then none else some (.invalid, s)
  | _ => none

/-- No C code is between two callbacks. -/
def InLua (s : ServerState) : Prop := ∀ call ∈ s.calls.head?, call.current ≠ none

end ServerState

/-- What happens at a server. `recvAny` is a call that received a message. -/
inductive ServerEvent where
  | accept (wait : UInt32) (c : UInt64) (sock : ℕ)
  | clients (wait : UInt32) (tag : Option (List UInt8)) (copy : List UInt64)
  | call (h : ℕ)
  | back
  | finish
  | raise
  | recvAny (tag : Option (List UInt8)) (ready : UInt64 → Bool) (h : ℕ)
  | collect (h : ℕ)
  | use (h : ℕ) (op : HandleOp)
  | close (sockCloses : Bool) (closes : UInt64 → Bool)

/-- One step. `qsort` may leave the copy in any order; a callback that raises leaves its
handle as it is. -/
inductive ServerStep : ServerState → ServerEvent → ServerState → Prop where
  | accept {s wait c sock server} : s.InLua → s.server.numClients < wait → s.server.sock ≠ 0 →
      s.server.info c = none → 0 < sock ∧ sock < 2 ^ 31 →
      (∀ d i, s.server.info d = some i → i.sock ≠ sock) →
      insertClient c (s.server.alloc c sock) = some server →
      ServerStep s (.accept wait c sock) { s with server := server }
  | clients {s wait tag fuel l copy} : s.InLua → ¬ s.server.numClients < wait →
      copyLoop tag s.server fuel s.server.clients = some l → copy.Perm l →
      ServerStep s (.clients wait tag copy) { s with calls := ⟨none, copy⟩ :: s.calls }
  | call {s h c rest calls} : s.calls = ⟨none, c :: rest⟩ :: calls → s.handles h = .unborn →
      ServerStep s (.call h)
        { s with handles := Function.update s.handles h (.valid c), calls := ⟨some h, rest⟩ :: calls }
  | back {s h rest calls} : s.calls = ⟨some h, rest⟩ :: calls →
      ServerStep s .back
        { s with handles := Function.update s.handles h .invalid, calls := ⟨none, rest⟩ :: calls }
  | finish {s calls} : s.calls = ⟨none, []⟩ :: calls →
      ServerStep s .finish { s with calls := calls }
  | raise {s h rest calls} : s.calls = ⟨some h, rest⟩ :: calls →
      ServerStep s .raise { s with calls := calls }
  | recvAny {s tag ready h fuel c} : s.InLua →
      readyLoop tag ready s.server fuel s.server.clients = some (some c) → s.handles h = .unborn →
      ServerStep s (.recvAny tag ready h) { s with handles := Function.update s.handles h (.valid c) }
  | collect {s h} : s.InLua → s.handles h ≠ .unborn → (∀ call ∈ s.calls, call.current ≠ some h) →
      ServerStep s (.collect h) { s with handles := Function.update s.handles h .collected }
  | use {s h op a s'} : s.InLua → s.useHandle op h = some (a, s') → ServerStep s (.use h op) s'
  | close {s sockCloses closes fuel ok server} : s.InLua →
      destroyServer sockCloses closes fuel s.server = some (ok, server) →
      ServerStep s (.close sockCloses closes) { s with server := server }

/-! ### The list -/

namespace Server

/-- The clients are connected, each over a socket of its own. -/
structure Socks (info : UInt64 → Option ClientInfo) : Prop where
  bound : ∀ c i, info c = some i → 0 < i.sock ∧ i.sock < 2 ^ 31
  distinct : ∀ c d i j, info c = some i → info d = some j → i.sock = j.sock → c = d

/-- `l` is the list of all clients in memory, and the counter counts them. -/
structure Lists (s : Server) (l : List UInt64) : Prop where
  linked : DList s.next s.prev s.clients l
  mem_iff : ∀ c, c ∈ l ↔ ∃ i, s.info c = some i
  socks : Socks s.info
  count : s.numClients.toNat = l.length

section
variable {info info' : UInt64 → Option ClientInfo} {c : UInt64}

/-- Fewer clients, or the same over the same sockets. -/
theorem Socks.of_sock (h : Socks info)
    (hsock : ∀ d j, info' d = some j → ∃ i, info d = some i ∧ i.sock = j.sock) : Socks info' where
  bound d j hd := by
    obtain ⟨i, hi, hij⟩ := hsock d j hd
    exact hij ▸ h.bound d i hi
  distinct d e j k hd he hjk := by
    obtain ⟨i, hi, hij⟩ := hsock d j hd
    obtain ⟨i', hi', hik⟩ := hsock e k he
    exact h.distinct d e i i' hi hi' (hij.trans (hjk.trans hik.symm))

theorem Socks.erase (h : Socks info) (c : UInt64) : Socks (Function.update info c none) := by
  refine h.of_sock fun d j hd => ?_
  rcases eq_or_ne d c with rfl | hne
  · rw [Function.update_self] at hd
    cases hd
  · rw [Function.update_of_ne hne] at hd
    exact ⟨j, hd, rfl⟩

theorem Socks.add (h : Socks info) {i : ClientInfo} (hi : 0 < i.sock ∧ i.sock < 2 ^ 31)
    (hnew : ∀ d j, info d = some j → j.sock ≠ i.sock) :
    Socks (Function.update info c (some i)) where
  bound d j hd := by
    rcases eq_or_ne d c with rfl | hne
    · rw [Function.update_self] at hd
      cases hd
      exact hi
    · rw [Function.update_of_ne hne] at hd
      exact h.bound d j hd
  distinct d e j k hd he hjk := by
    rcases eq_or_ne d c with rfl | hdc
    · rcases eq_or_ne e d with rfl | hne
      · rfl
      · rw [Function.update_self] at hd
        rw [Function.update_of_ne hne] at he
        cases hd
        exact absurd hjk.symm (hnew e k he)
    · rw [Function.update_of_ne hdc] at hd
      rcases eq_or_ne e c with rfl | hne
      · rw [Function.update_self] at he
        cases he
        exact absurd hjk (hnew d j hd)
      · rw [Function.update_of_ne hne] at he
        exact h.distinct d e j k hd he hjk

end

variable {s s' : Server} {l : List UInt64} {c : UInt64}

theorem Lists.info_eq (h : s.Lists l) (hc : c ∈ l) : ∃ i, s.info c = some i := (h.mem_iff c).mp hc

theorem Lists.length_le (h : s.Lists l) : l.length ≤ 2 ^ 31 := by
  have hsub : (l.map fun c => ((s.info c).map ClientInfo.sock).getD 0) ⊆ List.range (2 ^ 31) := by
    intro n hn
    obtain ⟨c, hc, rfl⟩ := List.mem_map.mp hn
    obtain ⟨i, hi⟩ := h.info_eq hc
    rw [hi]
    exact List.mem_range.mpr (h.socks.bound c i hi).2
  have hnodup : (l.map fun c => ((s.info c).map ClientInfo.sock).getD 0).Nodup := by
    refine h.linked.nodup.map_on fun c hc d hd heq => ?_
    obtain ⟨i, hi⟩ := h.info_eq hc
    obtain ⟨j, hj⟩ := h.info_eq hd
    rw [hi, hj] at heq
    exact h.socks.distinct c d i j hi hj heq
  have hle := (hnodup.subperm hsub).length_le
  rwa [List.length_map, List.length_range] at hle

theorem setPrev_some {v : UInt64} (h : ∃ i, s.info v = some i) (p : Option UInt64) :
    s.setPrev (some v) p = some { s with prev := Function.update s.prev v p } := by
  obtain ⟨i, hi⟩ := h
  rw [setPrev, hi]
  rfl

theorem setNext_some {v : UInt64} (h : ∃ i, s.info v = some i) (n : Option UInt64) :
    s.setNext (some v) n = some { s with next := Function.update s.next v n } := by
  obtain ⟨i, hi⟩ := h
  rw [setNext, hi]
  rfl

theorem insertClient_eq (hc : ∃ i, s.info c = some i) (hhead : ∀ b, s.clients = some b → ∃ i, s.info b = some i) :
    insertClient c s = some { s with
      next := pushNext s.next s.clients c
      prev := pushPrev s.prev s.clients c
      clients := some c
      numClients := s.numClients + 1 } := by
  obtain ⟨sock, info, next, prev, clients, numClients⟩ := s
  cases clients with
  | none => rfl
  | some b =>
    have hsetNext := setNext_some (s := ⟨sock, info, next, Function.update prev b (some c), some b, numClients⟩)
      hc (some b)
    simp only [insertClient, setPrev_some (hhead b rfl), hsetNext, Option.bind_eq_bind, Option.bind_some]
    rfl

theorem removeClient_eq (hc : ∃ i, s.info c = some i) (hself : s.next c ≠ some c)
    (hnext : ∀ b, s.next c = some b → ∃ i, s.info b = some i)
    (hprev : ∀ b, s.prev c = some b → ∃ i, s.info b = some i) :
    removeClient c s = some { s with
      next := unlinkNext s.next s.prev c
      prev := unlinkPrev s.next s.prev c
      clients := unlinkHead s.next s.clients c
      numClients := s.numClients - 1 } := by
  obtain ⟨i, hi⟩ := hc
  -- the head, then the client behind, then the client in front
  have hhead : (if s.clients = some c then { s with clients := s.next c } else s) =
      { s with clients := unlinkHead s.next s.clients c } := by
    rw [unlinkHead]
    split_ifs
    · rfl
    · rfl
  have hsetPrev : ∀ s₁ : Server, s₁.info = s.info → s₁.next = s.next → s₁.prev = s.prev →
      s₁.setPrev (s.next c) (s.prev c) = some { s₁ with prev := unlinkPrev s.next s.prev c } := by
    intro s₁ hinfo hn hp
    rw [unlinkPrev]
    cases hnc : s.next c with
    | none => rw [← hp]; rfl
    | some b =>
      rw [setPrev_some (by rw [hinfo]; exact hnext b hnc), hp]
  have hkeep : unlinkPrev s.next s.prev c c = s.prev c := by
    rw [unlinkPrev]
    cases hnc : s.next c with
    | none => rfl
    | some b =>
      have hne : c ≠ b := fun hcb => hself (hcb ▸ hnc)
      exact Function.update_of_ne hne _ _
  have hsetNext : ∀ s₁ : Server, s₁.info = s.info → s₁.next = s.next →
      s₁.setNext (s.prev c) (s.next c) = some { s₁ with next := unlinkNext s.next s.prev c } := by
    intro s₁ hinfo hn
    rw [unlinkNext]
    cases hpc : s.prev c with
    | none => rw [← hn]; rfl
    | some b =>
      rw [setNext_some (by rw [hinfo]; exact hprev b hpc), hn]
  simp only [removeClient, hi, Option.bind_eq_bind, Option.bind_some, hhead]
  rw [hsetPrev { s with clients := unlinkHead s.next s.clients c } rfl rfl rfl, Option.bind_some]
  simp only [hkeep]
  rw [hsetNext { s with
    prev := unlinkPrev s.next s.prev c
    clients := unlinkHead s.next s.clients c } rfl rfl]
  rfl

theorem Lists.accept (h : s.Lists l) {sock : ℕ} (hfresh : s.info c = none) (hsock : 0 < sock ∧ sock < 2 ^ 31)
    (hnew : ∀ d i, s.info d = some i → i.sock ≠ sock)
    (hs' : insertClient c (s.alloc c sock) = some s') : s'.Lists (c :: l) := by
  have hcl : c ∉ l := fun hc => by
    obtain ⟨i, hi⟩ := h.info_eq hc
    rw [hfresh] at hi
    cases hi
  have hne : ∀ b ∈ l, b ≠ c := fun b hb hbc => hcl (hbc ▸ hb)
  have hlinked : DList (s.alloc c sock).next (s.alloc c sock).prev s.clients l := by
    refine ⟨h.linked.nodup, h.linked.segment.congr (fun b hb => ?_) fun b hb => ?_⟩
    · exact Function.update_of_ne (hne b hb) _ _
    · exact Function.update_of_ne (hne b hb) _ _
  have hhead : ∀ b, s.clients = some b → ∃ i, (s.alloc c sock).info b = some i := fun b hb => by
    have hbl := h.linked.head_mem hb
    obtain ⟨i, hi⟩ := h.info_eq hbl
    exact ⟨i, (Function.update_of_ne (hne b hbl) _ _).trans hi⟩
  have hself : ∃ i, (s.alloc c sock).info c = some i := ⟨_, Function.update_self ..⟩
  rw [insertClient_eq hself hhead] at hs'
  cases hs'
  refine ⟨hlinked.push hcl (Function.update_self ..) (Function.update_self ..), fun d => ?_,
    h.socks.add hsock hnew, ?_⟩
  · rcases eq_or_ne d c with rfl | hdc
    · simp [alloc]
    · simp [alloc, hdc, h.mem_iff]
  · have hle := h.length_le
    change (s.numClients + 1).toNat = l.length + 1
    rw [UInt32.toNat_add, h.count]
    change (l.length + 1) % 2 ^ 32 = _
    omega

theorem Lists.remove (h : s.Lists l) (hc : c ∈ l) :
    ∃ s' l', removeClient c s = some s' ∧ s'.info = s.info ∧ (∀ d, d ∈ l' ↔ d ∈ l ∧ d ≠ c) ∧
      Lists { s' with info := Function.update s'.info c none } l' := by
  obtain ⟨xs, ys, rfl⟩ := List.append_of_mem hc
  obtain ⟨hys, hxs⟩ := h.linked.neighbours
  have hnodup := h.linked.nodup
  rw [List.nodup_middle, List.nodup_cons, List.mem_append, not_or] at hnodup
  have hremove := removeClient_eq (h.info_eq hc) (fun hn => hnodup.1.2 (hys c hn))
    (fun b hb => h.info_eq (List.mem_append_right _ (List.mem_cons_of_mem _ (hys b hb))))
    fun b hb => h.info_eq (List.mem_append_left _ (hxs b hb))
  have hmem : ∀ d, d ∈ xs ++ ys ↔ d ∈ xs ++ c :: ys ∧ d ≠ c := by
    intro d
    rw [List.mem_append, List.mem_append, List.mem_cons]
    constructor
    · intro hd
      refine ⟨hd.imp_right Or.inr, ?_⟩
      rintro rfl
      exact not_or.mpr hnodup.1 hd
    · rintro ⟨hd, hdc⟩
      exact hd.imp_right fun hd => hd.resolve_left hdc
  refine ⟨_, xs ++ ys, hremove, rfl, hmem, h.linked.unlink, fun d => ?_, h.socks.erase c, ?_⟩
  · rw [hmem, h.mem_iff]
    rcases eq_or_ne d c with rfl | hdc
    · simp
    · simp [hdc]
  · have hcount := h.count
    rw [List.length_append, List.length_cons] at hcount
    have hpos : (1 : UInt32) ≤ s.numClients := by
      rw [UInt32.le_iff_toNat_le, hcount]
      change 1 ≤ _
      omega
    change (s.numClients - 1).toNat = _
    rw [UInt32.toNat_sub_of_le _ _ hpos, hcount, List.length_append]
    change xs.length + (ys.length + 1) - 1 = _
    omega

theorem Lists.setInfo (h : s.Lists l) {i j : ClientInfo} (hi : s.info c = some i) (hsock : j.sock = i.sock) :
    Lists { s with info := Function.update s.info c (some j) } l where
  linked := h.linked
  mem_iff d := by
    rw [h.mem_iff]
    rcases eq_or_ne d c with rfl | hne
    · simp [hi]
    · simp [hne]
  socks := h.socks.of_sock fun d k hd => by
    change Function.update s.info c (some j) d = some k at hd
    rcases eq_or_ne d c with rfl | hne
    · rw [Function.update_self] at hd
      cases hd
      exact ⟨i, hi, hsock.symm⟩
    · rw [Function.update_of_ne hne] at hd
      exact ⟨k, hd, rfl⟩
  count := h.count

theorem copyLoop_mem {tag : Option (List UInt8)} {before first : Option UInt64} {copy : List UInt64}
    {fuel : ℕ} (h : Segment s.next s.prev before first l none) (hcopy : copyLoop tag s fuel first = some copy) :
    ∀ c ∈ copy, c ∈ l := by
  induction l generalizing before first copy fuel with
  | nil =>
    obtain rfl : first = none := h
    cases fuel with
    | zero => cases hcopy
    | succ fuel =>
      cases hcopy
      nofun
  | cons a l ih =>
    obtain ⟨rfl, -, hrest⟩ := h
    cases fuel with
    | zero => cases hcopy
    | succ fuel =>
      obtain ⟨i, -, hcopy⟩ := Option.bind_eq_some_iff.mp hcopy
      obtain ⟨rest, hloop, hcopy⟩ := Option.bind_eq_some_iff.mp hcopy
      have hmem := ih hrest hloop
      obtain rfl := Option.some.inj hcopy
      intro c hc
      split_ifs at hc
      · exact (List.mem_cons.mp hc).elim (fun h => h ▸ List.mem_cons_self) fun h =>
          List.mem_cons_of_mem _ (hmem c h)
      · exact List.mem_cons_of_mem _ (hmem c hc)

theorem readyLoop_mem {tag : Option (List UInt8)} {ready : UInt64 → Bool} {before first : Option UInt64}
    {fuel : ℕ} (h : Segment s.next s.prev before first l none)
    (hready : readyLoop tag ready s fuel first = some (some c)) : c ∈ l := by
  induction l generalizing before first fuel with
  | nil =>
    obtain rfl : first = none := h
    cases fuel with
    | zero => cases hready
    | succ fuel => cases hready
  | cons a l ih =>
    obtain ⟨rfl, -, hrest⟩ := h
    cases fuel with
    | zero => cases hready
    | succ fuel =>
      obtain ⟨i, -, hready⟩ := Option.bind_eq_some_iff.mp hready
      split_ifs at hready
      · cases hready
        exact List.mem_cons_self
      · exact List.mem_cons_of_mem _ (ih hrest hready)

/-- If every `close` succeeds, the loop frees every client. -/
theorem destroyLoop_frees {closes : UInt64 → Bool} {before first : Option UInt64} {fuel : ℕ}
    {ok : Bool} (h : Segment s.next s.prev before first l none) (hcloses : ∀ c ∈ l, closes c = true)
    (hloop : destroyLoop closes fuel first s = some (ok, s')) :
    ok = true ∧ ∀ c, s'.info c = if c ∈ l then none else s.info c := by
  induction l generalizing before first fuel s with
  | nil =>
    obtain rfl : first = none := h
    cases fuel with
    | zero => cases hloop
    | succ fuel =>
      cases hloop
      exact ⟨rfl, fun c => (if_neg List.not_mem_nil).symm⟩
  | cons a l ih =>
    obtain ⟨rfl, -, hrest⟩ := h
    cases fuel with
    | zero => cases hloop
    | succ fuel =>
      obtain ⟨⟨ok₁, s₁⟩, hdestroy, hloop⟩ := Option.bind_eq_some_iff.mp hloop
      obtain ⟨i, -, hdestroy⟩ := Option.bind_eq_some_iff.mp hdestroy
      rw [hcloses a List.mem_cons_self, if_neg (fun h => Bool.noConfusion h.2)] at hdestroy
      cases hdestroy
      obtain ⟨hok, hinfo⟩ := ih (s := { s with info := Function.update s.info a none }) hrest
        (fun c hc => hcloses c (List.mem_cons_of_mem _ hc)) hloop
      refine ⟨hok, fun c => ?_⟩
      rw [hinfo c]
      rcases eq_or_ne c a with rfl | hne
      · simp
      · simp [hne]

theorem Lists.close (h : s.Lists l) {closes : UInt64 → Bool} {fuel : ℕ} {ok : Bool}
    (hcloses : ∀ c ∈ l, closes c = true) (hclose : destroyServer true closes fuel s = some (ok, s')) :
    s'.Lists [] := by
  obtain ⟨⟨ok₁, s₁⟩, hloop, hclose⟩ : ∃ r, destroyLoop closes fuel s.clients { s with sock := 0 } =
    some r ∧ _ :=
    Option.bind_eq_some_iff.mp (by simpa [destroyServer] using hclose)
  have hfrees := destroyLoop_frees (s := { s with sock := 0 }) h.linked.segment hcloses hloop
  obtain ⟨rfl, hinfo⟩ := hfrees
  obtain ⟨rfl, rfl⟩ : true = ok ∧ { s₁ with clients := none, numClients := 0 } = s' := by
    simpa using hclose
  have hnone : s₁.info = fun _ => none := by
    funext c
    rw [hinfo c]
    split_ifs with hc
    · rfl
    · exact Option.eq_none_iff_forall_ne_some.mpr fun i hi => hc ((h.mem_iff c).mpr ⟨i, hi⟩)
  refine ⟨⟨.nil, rfl⟩, fun c => ?_, ⟨fun c i hc => ?_, fun c d i j hc => ?_⟩, rfl⟩
  · simp [hnone]
  · change s₁.info c = some i at hc
    rw [hnone] at hc
    cases hc
  · change s₁.info c = some i at hc
    rw [hnone] at hc
    cases hc

end Server

/-! ### The handles -/

/-- A client is closed through its last handle and while no call of `server:clients` has it
before it; the server is closed when nobody has a handle and no client is still to come; no
`close` fails; and nobody asks for the address of an invalid handle. -/
def Careful (s : ServerState) : ServerEvent → Prop
  | .use h (.close closes) => ∀ c, s.handles h = .valid c →
      closes = true ∧ (∀ h', s.handles h' = .valid c → h' = h) ∧ ∀ call ∈ s.calls, c ∉ call.rest
  | .use h .address => s.handles h ≠ .invalid
  | .close sockCloses closes => sockCloses = true ∧ (∀ c, closes c = true) ∧
      (∀ h c, s.handles h ≠ .valid c) ∧ ∀ call ∈ s.calls, call.rest = []
  | _ => True

/-- A handle that can no longer be used. -/
def Handle.Gone (x : Handle) : Prop := x = .invalid ∨ x = .collected

namespace ServerState

structure Inv (s : ServerState) (l : List UInt64) : Prop where
  lists : s.server.Lists l
  handles : ∀ h c, s.handles h = .valid c → c ∈ l
  copies : ∀ call ∈ s.calls, ∀ c ∈ call.rest, c ∈ l

variable {s s' : ServerState} {l : List UInt64}

theorem start_inv : start.Inv [] where
  lists := ⟨⟨.nil, rfl⟩, fun c => by simp [start], ⟨nofun, nofun⟩, rfl⟩
  handles := nofun
  copies := nofun

/-- What a method does: nothing here, or it marks a client, or it closes one. -/
theorem useHandle_cases {op : HandleOp} {h : ℕ} {a : HandleAnswer} (huse : s.useHandle op h = some (a, s')) :
    s' = s ∨
    (∃ c i j, s.handles h = .valid c ∧ s.server.info c = some i ∧ j.sock = i.sock ∧ s' = s.setInfo c j) ∨
    ∃ c closes server ok server', s.handles h = .valid c ∧ op = .close closes ∧
      removeClient c s.server = some server ∧ destroyClient closes c server = some (ok, server') ∧
      s' = { s with
        server := server'
        handles := if ok then Function.update s.handles h .invalid else s.handles } := by
  rw [useHandle] at huse
  split at huse
  · next c hvalid =>
    obtain ⟨i, hi, huse⟩ := Option.bind_eq_some_iff.mp huse
    cases op with
    | send =>
      cases huse
      exact Or.inl rfl
    | recv =>
      cases huse
      exact Or.inl rfl
    | address =>
      cases huse
      exact Or.inl rfl
    | tag t =>
      cases t with
      | none =>
        cases huse
        exact Or.inl rfl
      | some t =>
        cases huse
        exact Or.inr (Or.inl ⟨c, i, { i with tag := some (cstr t) }, hvalid, hi, rfl, rfl⟩)
    | id n =>
      cases n with
      | none =>
        cases huse
        exact Or.inl rfl
      | some n =>
        cases huse
        exact Or.inr (Or.inl ⟨c, i, { i with id := n }, hvalid, hi, rfl, rfl⟩)
    | close closes =>
      obtain ⟨server, hremove, huse⟩ := Option.bind_eq_some_iff.mp huse
      obtain ⟨⟨ok, server'⟩, hdestroy, huse⟩ := Option.bind_eq_some_iff.mp huse
      refine Or.inr (Or.inr ⟨c, closes, server, ok, server', hvalid, rfl, hremove, hdestroy, ?_⟩)
      cases ok with
      | true =>
        cases huse
        rfl
      | false =>
        cases huse
        rfl
  · split_ifs at huse
    cases huse
    exact Or.inl rfl
  · cases huse

/-- A method on a handle of a client in the list is defined. -/
theorem Inv.useHandle_defined (hinv : s.Inv l) {op : HandleOp} {h : ℕ}
    (hheld : (∃ c, s.handles h = .valid c) ∨ s.handles h = .invalid) (hcareful : Careful s (.use h op)) :
    ∃ r, s.useHandle op h = some r := by
  rcases hheld with ⟨c, hvalid⟩ | hinvalid
  · obtain ⟨i, hi⟩ := hinv.lists.info_eq (hinv.handles h c hvalid)
    rw [useHandle, hvalid]
    simp only [useClient, hi, Option.bind_eq_bind, Option.bind_some]
    obtain ⟨server, -, hremove, hinfo, -, -⟩ := hinv.lists.remove (hinv.handles h c hvalid)
    cases op with
    | send => exact ⟨_, rfl⟩
    | recv => exact ⟨_, rfl⟩
    | address => exact ⟨_, rfl⟩
    | tag t => cases t <;> exact ⟨_, rfl⟩
    | id n => cases n <;> exact ⟨_, rfl⟩
    | close closes =>
      have hdestroy : ∃ r, destroyClient closes c server = some r := by
        rw [destroyClient, hinfo, hi, Option.bind_eq_bind, Option.bind_some]
        split_ifs
        · exact ⟨_, rfl⟩
        · exact ⟨_, rfl⟩
      obtain ⟨⟨ok, server'⟩, hdestroy⟩ := hdestroy
      simp only [hremove, hdestroy, Option.bind_some]
      split_ifs
      · exact ⟨_, rfl⟩
      · exact ⟨_, rfl⟩
  · rw [useHandle, hinvalid]
    have hop : op ≠ .address := by
      rintro rfl
      exact hcareful hinvalid
    exact ⟨_, if_neg hop⟩

theorem Inv.closeClient (hinv : s.Inv l) {h : ℕ} {c : UInt64} {server server' : Server} {ok : Bool}
    (hvalid : s.handles h = .valid c) (hlast : ∀ h', s.handles h' = .valid c → h' = h)
    (hcopies : ∀ call ∈ s.calls, c ∉ call.rest) (hremove : removeClient c s.server = some server)
    (hdestroy : destroyClient true c server = some (ok, server')) :
    ∃ l', Inv { s with
      server := server'
      handles := if ok then Function.update s.handles h .invalid else s.handles } l' := by
  obtain ⟨server₁, l', hremove₁, hinfo, hmem, hlists⟩ := hinv.lists.remove (hinv.handles h c hvalid)
  obtain rfl : server₁ = server := Option.some.inj (hremove₁.symm.trans hremove)
  obtain ⟨i, hi, hdestroy⟩ := Option.bind_eq_some_iff.mp hdestroy
  rw [if_neg (fun h => Bool.noConfusion h.2)] at hdestroy
  cases hdestroy
  refine ⟨l', hlists, fun h' d hd => ?_, fun call hcall d hd => ?_⟩
  · change Function.update s.handles h .invalid h' = .valid d at hd
    rcases eq_or_ne h' h with rfl | hne
    · rw [Function.update_self] at hd
      cases hd
    · rw [Function.update_of_ne hne] at hd
      refine (hmem d).mpr ⟨hinv.handles h' d hd, ?_⟩
      rintro rfl
      exact hne (hlast h' hd)
  · refine (hmem d).mpr ⟨hinv.copies call hcall d hd, ?_⟩
    rintro rfl
    exact hcopies call hcall hd

theorem Inv.newHandle (hinv : s.Inv l) {h : ℕ} {c : UInt64} (hc : c ∈ l) {calls : List ClientsCall}
    (hcalls : ∀ call ∈ calls, ∀ c ∈ call.rest, c ∈ l) :
    Inv { s with handles := Function.update s.handles h (.valid c), calls := calls } l where
  lists := hinv.lists
  handles h' d hd := by
    change Function.update s.handles h (.valid c) h' = .valid d at hd
    rcases eq_or_ne h' h with rfl | hne
    · rw [Function.update_self] at hd
      cases hd
      exact hc
    · rw [Function.update_of_ne hne] at hd
      exact hinv.handles h' d hd
  copies := hcalls

theorem Inv.goneHandle (hinv : s.Inv l) {h : ℕ} {x : Handle} (hx : x.Gone) {calls : List ClientsCall}
    (hcalls : ∀ call ∈ calls, ∀ c ∈ call.rest, c ∈ l) :
    Inv { s with handles := Function.update s.handles h x, calls := calls } l where
  lists := hinv.lists
  handles h' d hd := by
    change Function.update s.handles h x h' = .valid d at hd
    rcases eq_or_ne h' h with rfl | hne
    · rw [Function.update_self] at hd
      rcases hx with rfl | rfl <;> cases hd
    · rw [Function.update_of_ne hne] at hd
      exact hinv.handles h' d hd
  copies := hcalls

theorem Inv.step (hinv : s.Inv l) {e : ServerEvent} (hcareful : Careful s e) (hstep : ServerStep s e s') :
    ∃ l', s'.Inv l' := by
  cases hstep with
  | @accept _ c sock server _ _ _ hfresh hsock hnew hinsert =>
    refine ⟨c :: l, hinv.lists.accept hfresh hsock hnew hinsert, fun h d hd => ?_, fun call hcall d hd => ?_⟩
    · exact List.mem_cons_of_mem _ (hinv.handles h d hd)
    · exact List.mem_cons_of_mem _ (hinv.copies call hcall d hd)
  | clients _ _ hcopy hperm =>
    refine ⟨l, hinv.lists, hinv.handles, List.forall_mem_cons.mpr ⟨fun c hc => ?_, hinv.copies⟩⟩
    exact Server.copyLoop_mem hinv.lists.linked.segment hcopy c (hperm.mem_iff.mp hc)
  | call hcalls _ =>
    have hcopies := hinv.copies
    rw [hcalls] at hcopies
    obtain ⟨hrest, hothers⟩ := List.forall_mem_cons.mp hcopies
    obtain ⟨hc, hrest⟩ := List.forall_mem_cons.mp hrest
    exact ⟨l, hinv.newHandle hc (List.forall_mem_cons.mpr ⟨hrest, hothers⟩)⟩
  | back hcalls =>
    have hcopies := hinv.copies
    rw [hcalls] at hcopies
    obtain ⟨hrest, hothers⟩ := List.forall_mem_cons.mp hcopies
    exact ⟨l, hinv.goneHandle (Or.inl rfl) (List.forall_mem_cons.mpr ⟨hrest, hothers⟩)⟩
  | finish hcalls =>
    have hcopies := hinv.copies
    rw [hcalls] at hcopies
    exact ⟨l, hinv.lists, hinv.handles, (List.forall_mem_cons.mp hcopies).2⟩
  | raise hcalls =>
    have hcopies := hinv.copies
    rw [hcalls] at hcopies
    exact ⟨l, hinv.lists, hinv.handles, (List.forall_mem_cons.mp hcopies).2⟩
  | recvAny _ hready _ =>
    exact ⟨l, hinv.newHandle (Server.readyLoop_mem hinv.lists.linked.segment hready) hinv.copies⟩
  | collect => exact ⟨l, hinv.goneHandle (Or.inr rfl) hinv.copies⟩
  | use _ huse =>
    rcases useHandle_cases huse with rfl | ⟨c, i, j, hvalid, hi, hsock, rfl⟩ |
      ⟨c, closes, server, ok, server', hvalid, rfl, hremove, hdestroy, rfl⟩
    · exact ⟨l, hinv⟩
    · exact ⟨l, hinv.lists.setInfo hi hsock, hinv.handles, hinv.copies⟩
    · obtain ⟨rfl, hlast, hcopies⟩ := hcareful c hvalid
      exact hinv.closeClient hvalid hlast hcopies hremove hdestroy
  | close _ hclose =>
    obtain ⟨rfl, hcloses, hhandles, hcopies⟩ := hcareful
    refine ⟨[], hinv.lists.close (fun c _ => hcloses c) hclose, fun h c hc => ?_, fun call hcall c hc => ?_⟩
    · exact absurd hc (hhandles h c)
    · rw [hcopies call hcall] at hc
      exact hc

/-- A valid handle stays at its client until it is gone, and then it stays so. -/
theorem step_handle {e : ServerEvent} (hstep : ServerStep s e s') {h : ℕ} (hborn : s.handles h ≠ .unborn) :
    s'.handles h = s.handles h ∨ (s'.handles h).Gone := by
  have hnew : ∀ {h' : ℕ} {x : Handle}, s.handles h' = .unborn →
      Function.update s.handles h' x h = s.handles h := by
    intro h' x hh'
    refine Function.update_of_ne ?_ _ _
    rintro rfl
    exact hborn hh'
  have hgone : ∀ {h' : ℕ} {x : Handle}, x.Gone → Function.update s.handles h' x h = s.handles h ∨
      (Function.update s.handles h' x h).Gone := by
    intro h' x hx
    rcases eq_or_ne h h' with rfl | hne
    · rw [Function.update_self]
      exact Or.inr hx
    · exact Or.inl (Function.update_of_ne hne _ _)
  cases hstep with
  | call _ hunborn => exact Or.inl (hnew hunborn)
  | back => exact hgone (Or.inl rfl)
  | recvAny _ _ hunborn => exact Or.inl (hnew hunborn)
  | collect => exact hgone (Or.inr rfl)
  | use _ huse =>
    rcases useHandle_cases huse with rfl | ⟨c, i, j, -, -, -, rfl⟩ |
      ⟨c, closes, server, ok, server', -, -, -, -, rfl⟩
    · exact Or.inl rfl
    · exact Or.inl rfl
    · cases ok with
      | true => exact hgone (Or.inl rfl)
      | false => exact Or.inl rfl
  | _ => exact Or.inl rfl

/-- The list of the server has `num_clients` clients, all connected, and every handle that
is not marked invalid leads to one of them. -/
def Current (s : ServerState) : Prop :=
  ∃ l, DList s.server.next s.server.prev s.server.clients l ∧ s.server.numClients.toNat = l.length ∧
    (∀ c ∈ l, ∃ i, s.server.info c = some i ∧ 0 < i.sock) ∧ ∀ h c, s.handles h = .valid c → c ∈ l

theorem Inv.current (hinv : s.Inv l) : s.Current := by
  refine ⟨l, hinv.lists.linked, hinv.lists.count, fun c hc => ?_, hinv.handles⟩
  obtain ⟨i, hi⟩ := hinv.lists.info_eq hc
  exact ⟨i, hi, (hinv.lists.socks.bound c i hi).1⟩

end ServerState

open ServerState

theorem run_careful_inv {s s' : ServerState} {es : List ServerEvent} {l : List UInt64} (hinv : s.Inv l)
    (hrun : Run (fun s e s' => Careful s e ∧ ServerStep s e s') s es s') : ∃ l', s'.Inv l' := by
  refine hrun.invariant (I := fun _ s => ∃ l, s.Inv l) ⟨l, hinv⟩ ?_
  rintro _ s₁ e s₂ ⟨l₁, h₁⟩ ⟨hcareful, hstep⟩
  exact h₁.step hcareful hstep

theorem run_gone {s s' : ServerState} {es : List ServerEvent} {h : ℕ} (hgone : (s.handles h).Gone)
    (hrun : Run (fun s e s' => Careful s e ∧ ServerStep s e s') s es s') : (s'.handles h).Gone := by
  refine hrun.invariant (I := fun _ s => (s.handles h).Gone) hgone ?_
  rintro _ s₁ e s₂ h₁ ⟨-, hstep⟩
  have hborn : s₁.handles h ≠ .unborn := by
    rcases h₁ with h₁ | h₁ <;> rw [h₁] <;> nofun
  rcases step_handle hstep hborn with hsame | hgone
  · rw [hsame]
    exact h₁
  · exact hgone

/-- In every run of careful steps the handles are current, every method is defined, and
the handles of a client that has been closed raise the invalid-client error from then
on. -/
theorem server_handles_current {s : ServerState} {es : List ServerEvent}
    (hrun : Run (fun s e s' => Careful s e ∧ ServerStep s e s') start es s) :
    s.Current ∧
    (∀ h op, (∃ c, s.handles h = .valid c) ∨ s.handles h = .invalid → Careful s (.use h op) →
      ∃ r, s.useHandle op h = some r) ∧
    ∀ e s₁ es' s₂ h c, Careful s e → ServerStep s e s₁ →
      Run (fun s e s' => Careful s e ∧ ServerStep s e s') s₁ es' s₂ →
      s.handles h = .valid c → s₁.server.info c = none →
      s₂.handles h = .collected ∨ ∀ op, op ≠ .address →
        s₂.useHandle op h = some (.invalid, s₂) := by
  obtain ⟨l, hinv⟩ := run_careful_inv start_inv hrun
  refine ⟨hinv.current, fun h op hheld hcareful => hinv.useHandle_defined hheld hcareful, ?_⟩
  intro e s₁ es' s₂ h c hcareful hstep hrun' hvalid hclosed
  obtain ⟨l₁, hinv₁⟩ := hinv.step hcareful hstep
  have hgone₁ : (s₁.handles h).Gone := by
    rcases step_handle hstep (show s.handles h ≠ .unborn by rw [hvalid]; nofun) with hsame | hgone
    · obtain ⟨i, hi⟩ := hinv₁.lists.info_eq (hinv₁.handles h c (hsame.trans hvalid))
      rw [hclosed] at hi
      cases hi
    · exact hgone
  rcases run_gone hgone₁ hrun' with hinvalid | hcollected
  · right
    intro op hop
    rw [useHandle, hinvalid]
    exact if_neg hop
  · exact Or.inl hcollected

/-- A server with one client, and the number of handles that `recvAny` has made for it. -/
def oneClient (n : ℕ) : ServerState where
  server := { Server.alloc 1 4 start.server with clients := some 1, numClients := 1 }
  handles h := if h < n then .valid 1 else .unborn
  calls := []

theorem oneClient_accepts : ServerStep start (.accept 1 1 4) (oneClient 0) :=
  .accept nofun (by decide) (by decide) rfl (by decide) nofun rfl

theorem oneClient_recvAny (n : ℕ) :
    ServerStep (oneClient n) (.recvAny none (fun _ => true) n) (oneClient (n + 1)) := by
  have hnew : (oneClient n).handles n = .unborn := if_neg (Nat.lt_irrefl n)
  have hstate : oneClient (n + 1) =
      { oneClient n with handles := Function.update (oneClient n).handles n (.valid 1) } := by
    have hhandles : (oneClient (n + 1)).handles = Function.update (oneClient n).handles n (.valid 1) := by
      funext h
      rcases eq_or_ne h n with rfl | hne
      · rw [Function.update_self]
        exact if_pos (Nat.lt_succ_self h)
      · rw [Function.update_of_ne hne]
        have hiff : h < n + 1 ↔ h < n := by omega
        simp only [oneClient, hiff]
    rw [← hhandles]
    rfl
  rw [hstate]
  have hready : readyLoop none (fun _ => true) (oneClient n).server 1 (oneClient n).server.clients =
    some (some 1) := rfl
  exact .recvAny nofun hready hnew

/-- One client with one handle: its handles are current, and its methods are defined. -/
theorem server_handles_current_one : (oneClient 1).Current ∧
    ∃ r, (oneClient 1).useHandle .send 0 = some r := by
  have haccept : Careful start (.accept 1 1 4) := trivial
  have hrecv : Careful (oneClient 0) (.recvAny none (fun _ => true) 0) := trivial
  have hrun : Run (fun s e s' => Careful s e ∧ ServerStep s e s') start _ (oneClient 1) :=
    (Run.nil.snoc ⟨haccept, oneClient_accepts⟩).snoc ⟨hrecv, oneClient_recvAny 0⟩
  have hmain := server_handles_current hrun
  exact ⟨hmain.1, hmain.2.1 0 .send (Or.inl ⟨1, rfl⟩) trivial⟩

/-- Two handles to one client, which is closed through the first: the second leads to
freed memory. -/
theorem second_handle_stale : ∃ es s, Run ServerStep start es s ∧ ¬ s.Current ∧
    s.handles 1 = .valid 1 ∧ s.server.info 1 = none := by
  have hclose : ∃ s, (oneClient 2).useHandle (.close true) 0 = some (.ok, s) ∧
      s.handles 1 = .valid 1 ∧ s.server.info 1 = none := ⟨_, rfl, rfl, rfl⟩
  obtain ⟨s, huse, hvalid, hfreed⟩ := hclose
  have hrun : Run ServerStep start _ s :=
    (((Run.nil.snoc oneClient_accepts).snoc (oneClient_recvAny 0)).snoc (oneClient_recvAny 1)).snoc
      (.use nofun huse)
  refine ⟨_, s, hrun, ?_, hvalid, hfreed⟩
  rintro ⟨l, -, -, hconnected, hhandles⟩
  obtain ⟨i, hi, -⟩ := hconnected 1 (hhandles 1 1 hvalid)
  rw [hfreed] at hi
  cases hi

end TorchIpc
