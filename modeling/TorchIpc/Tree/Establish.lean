import TorchIpc.Base.Scripts
import TorchIpc.Tree.Walk
import TorchIpc.Tree.Connections
import Mathlib.Order.CompletePartialOrder

/-! How `Tree` sets up its connections: `initialServer` at the root and
`initialClient` at the other nodes. Every node first connects to the root, learns
the planned tree from it, and stays with the root or closes that connection and
connects to its parent. A message that `destroy_client` sends on closing is
`closed`; a node stopped by a timeout is one that takes no further step. -/

namespace TorchIpc.Tree

open Network Runs

/-! ### The planned tree as a table -/

section
variable {A : Type}

/-- An entry of `addresses`; host and port are one address. -/
structure Address (A : Type) where
  nodeIndex : ℕ
  addr : A
  deriving Repr, DecidableEq

structure Entry (A : Type) where
  connect : Option (Address A) := none
  listen : Option ℕ := none
  deriving Repr, DecidableEq

/-- The link function that `initialServer` passes to `buildTree`. -/
def linkFunc (addresses : ℕ → Option (Address A)) (tree : ℕ → Option (Entry A)) (l : Link) :
    ℕ → Option (Entry A) :=
  let fromEntry := (tree l.fromNode).getD {}
  let tree := Function.update tree l.fromNode
    (some { fromEntry with connect := addresses l.toNode })
  let toEntry := (tree l.toNode).getD {}
  Function.update tree l.toNode (some { toEntry with listen := some (toEntry.listen.getD 0 + 1) })

/-- The table of connections that the root broadcasts. -/
def treeOf (addresses : ℕ → Option (Address A)) (links : List Link) : ℕ → Option (Entry A) :=
  links.foldl (linkFunc addresses) fun _ => none

/-- How many connections an entry says to wait for. -/
def listenOf (e : Option (Entry A)) : ℕ := (e.bind Entry.listen).getD 0

def connectOf (e : Option (Entry A)) : Option (Address A) := e.bind Entry.connect

variable (addresses : ℕ → Option (Address A)) (tree : ℕ → Option (Entry A)) (links : List Link)

theorem listenOf_linkFunc (l : Link) (i : ℕ) :
    listenOf (linkFunc addresses tree l i) = listenOf (tree i) + if l.toNode = i then 1 else 0 := by
  by_cases hto : i = l.toNode
  · subst hto
    by_cases heq : l.toNode = l.fromNode
    · cases hi : tree l.fromNode <;> simp [linkFunc, listenOf, heq, hi]
    · cases hi : tree l.toNode <;> simp [linkFunc, listenOf, heq, hi]
  · by_cases hfrom : i = l.fromNode
    · subst hfrom
      cases hi : tree l.fromNode <;> simp [linkFunc, listenOf, hto, hi, Ne.symm hto]
    · simp [linkFunc, listenOf, hto, hfrom, Ne.symm hto]

theorem connectOf_linkFunc (l : Link) (i : ℕ) :
    connectOf (linkFunc addresses tree l i) =
      if l.fromNode = i then addresses l.toNode else connectOf (tree i) := by
  by_cases hto : i = l.toNode
  · subst hto
    by_cases heq : l.toNode = l.fromNode
    · simp [linkFunc, connectOf, heq]
    · cases hi : tree l.toNode <;> simp [linkFunc, connectOf, heq, hi, Ne.symm heq]
  · by_cases hfrom : i = l.fromNode
    · subst hfrom
      simp [linkFunc, connectOf, hto]
    · simp [linkFunc, connectOf, hto, hfrom, Ne.symm hfrom]

theorem treeOf_concat (l : Link) :
    treeOf addresses (links ++ [l]) = linkFunc addresses (treeOf addresses links) l := by
  rw [treeOf, List.foldl_append]
  rfl

/-- A node waits for as many connections as the plan has children for it. -/
theorem listenOf_treeOf (i : ℕ) : listenOf (treeOf addresses links i) = listen links i := by
  induction links using List.reverseRecOn with
  | nil => rfl
  | append_singleton links l ih =>
    rw [treeOf_concat, listenOf_linkFunc, ih, listen, listen, List.countP_append]
    simp [List.countP_singleton]

theorem connectOf_treeOf {c p : ℕ} (h : Up links c p) (huniq : ∀ b, Up links c b → b = p) :
    connectOf (treeOf addresses links c) = addresses p := by
  induction links using List.reverseRecOn with
  | nil =>
    obtain ⟨l, hl, -⟩ := h
    simp at hl
  | append_singleton links l ih =>
    rw [treeOf_concat, connectOf_linkFunc]
    split_ifs with hc
    · rw [huniq l.toNode ⟨l, by simp, hc, rfl⟩]
    · obtain ⟨l', hl', hfrom, hto⟩ := h
      rcases List.mem_append.mp hl' with hmem | hmem
      · refine ih ⟨l', hmem, hfrom, hto⟩ fun b hb => huniq b ?_
        obtain ⟨m, hm, hmf, hmt⟩ := hb
        exact ⟨m, List.mem_append_left _ hm, hmf, hmt⟩
      · rw [List.mem_singleton.mp hmem] at hfrom
        exact absurd hfrom hc

end

/-! ### The programs -/

section
variable {ι A : Type}

inductive Signal (A : Type) where
  | askAddress
  | address (nodeIndex : Option ℕ) (addr : A)
  | clientIndex (i : ℕ)
  | tree (t : ℕ → Option (Entry A))
  | askOrder
  | order (i : ℕ)
  | askStart
  | start
  /-- `LEN_INVALID`. -/
  | closed

abbrev Boot (ι A : Type) : Type → Type := Proc ι (Signal A) Failure

/-- `client:recv()`: raises where the peer has closed. -/
def recv (peer : ι) : Boot ι A (Signal A) := do
  match ← Proc.get peer with
  | .closed => throw .disconnected
  | m => return m

def pcall {α : Type} (p : Boot ι A α) : Boot ι A (Option α) :=
  tryCatch (some <$> p) fun _ => return none

/-- The accept loop of `server:clients(wait, f)`, `k` connections short of `wait`. -/
def acceptClients : ℕ → List (Client ι) → Boot ι A (List (Client ι))
  | 0, held => return held
  | k + 1, held => do
    let c ← Proc.answer
    acceptClients k (⟨0, c⟩ :: held)

/-- The peers in the order in which `server:clients(f)` calls `f`. -/
def visitOrder (q : Qsort ι) (held : List (Client ι)) : List ι :=
  (q.sort false held).map Client.peer

variable [DecidableEq ι]

/-- `client:id(i)` for the connection to `peer`. -/
def setId (held : List (Client ι)) (peer : ι) (i : ℕ) : List (Client ι) :=
  held.map fun x => if x.peer = peer then { x with id := i } else x

/-- `client:close()` for the connection to `peer`, as far as the server's list goes. -/
def removeClient (held : List (Client ι)) (peer : ι) : List (Client ι) :=
  held.filter fun x => x.peer ≠ peer

/-- `#addresses`, of a table with the entries `1..numNodes` or some of them. -/
def border (numNodes : ℕ) (addresses : ℕ → Option (Address A)) : ℕ :=
  ((List.range (numNodes + 1)).find? fun k => (addresses (k + 1)).isNone).getD numNodes

/-- What a node has when its set-up is done, and the peers whose connection it has
closed. -/
structure Setup (ι : Type) where
  conn : Conn ι
  closed : List ι
  deriving DecidableEq

/-- Ask one client for its address and give it its index. -/
def register (numNodes : ℕ) (addresses : ℕ → Option (Address A)) (peer : ι) :
    Boot ι A (ℕ → Option (Address A)) := do
  Proc.put peer .askAddress
  match ← recv peer with
  | .address nodeIndex addr =>
    let i := nodeIndex.getD (border numNodes addresses + 1)
    Proc.put peer (.clientIndex i)
    return Function.update addresses i (some ⟨i, addr⟩)
  | _ => throw .assertion

/-- Order a client that stays, or close one that has a new parent. -/
def orderOrClose (s : List (Client ι) × List ι) (peer : ι) : Boot ι A (List (Client ι) × List ι) :=
  do
  let r ← pcall do
    Proc.put peer .askOrder
    recv peer
  match r with
  | some (.order i) => return (setId s.1 peer i, s.2)
  | some _ => throw .phase
  | none =>
    Proc.put peer .closed
    return (removeClient s.1 peer, s.2 ++ [peer])

/-- Order a client that has connected to its parent. -/
def orderClient (held : List (Client ι)) (peer : ι) : Boot ι A (List (Client ι)) := do
  Proc.put peer .askOrder
  match ← recv peer with
  | .order i => return setId held peer i
  | _ => throw .phase

def startClient (_ : Unit) (peer : ι) : Boot ι A Unit := do
  Proc.put peer .askStart
  match ← recv peer with
  | .start => return ()
  | _ => throw .assertion

/-- `server:broadcast(tree)`; `sends` says whether `sock_send_msg` has room for the table. -/
def broadcast (sends : (ℕ → Option (Entry A)) → Bool) (tree : ℕ → Option (Entry A)) (peers : List ι) :
    Boot ι A Unit :=
  peers.foldlM (fun _ peer => if sends tree then Proc.put peer (.tree tree) else throw .size) ()

def initialServer (q : Qsort ι) (numNodes : ℕ) (links : List Link) (sends : (ℕ → Option (Entry A)) → Bool)
    (nodeIndex : ℕ) (addr : A) : Boot ι A (Setup ι) := do
  let held ← acceptClients (numNodes - 1) []
  let addresses ← (visitOrder q held).foldlM (register numNodes)
    (Function.update (fun _ => none) nodeIndex (some ⟨nodeIndex, addr⟩))
  let tree := treeOf addresses links
  broadcast sends tree (visitOrder q held)
  let r ← (visitOrder q held).foldlM orderOrClose (held, [])
  (visitOrder q r.1).foldlM startClient ()
  return ⟨⟨some r.1, none⟩, r.2⟩

def answerOrder (peer : ι) (nodeIndex : ℕ) : Boot ι A Unit := do
  match ← recv peer with
  | .askOrder => Proc.put peer (.order nodeIndex)
  | _ => throw .assertion

/-- The parent's part of `initialClient`: connect the children and order them, or
close the server. -/
def serve (q : Qsort ι) (listen : Option ℕ) : Boot ι A (Option (List (Client ι))) :=
  if 0 < listen.getD 0 then do
    let held ← acceptClients (listen.getD 0) []
    let held ← (visitOrder q held).foldlM orderClient held
    return some held
  else
    return none

/-- The child's part: stay with the root or connect to a new parent. The result is
the `client` from then on, and whether the connection to the root was closed. -/
def join (resolve : A → ι) (root : ι) (nodeIndex : ℕ) (connect : Option (Address A)) :
    Boot ι A (ι × List ι) :=
  match connect with
  | none => return (root, [])
  | some a =>
    if a.nodeIndex = 1 then do
      answerOrder root nodeIndex
      return (root, [])
    else do
      Proc.put root .closed
      Proc.dial (resolve a.addr)
      answerOrder (resolve a.addr) nodeIndex
      return (resolve a.addr, [root])

/-- Wait for the start message, start the subtree, and answer. -/
def finish (q : Qsort ι) (server : Option (List (Client ι))) (client : ι) (closed : List ι) :
    Boot ι A (Setup ι) := do
  match ← recv client with
  | .askStart => pure ()
  | _ => throw .assertion
  (visitOrder q (server.getD [])).foldlM startClient ()
  Proc.put client .start
  return ⟨⟨server, some client⟩, closed⟩

/-- `initialClient`, after the `ipc.client` that connects to the root; `addr` is
where the server it opens listens, and `resolve` finds the node behind an address. -/
def initialClient (q : Qsort ι) (resolve : A → ι) (root : ι) (nodeIndex : Option ℕ) (addr : A) :
    Boot ι A (Setup ι) := do
  Proc.dial root
  match ← recv root with
  | .askAddress => Proc.put root (.address nodeIndex addr)
  | _ => throw .assertion
  let nodeIndex ← match ← recv root with
    | .clientIndex i => pure i
    | _ => throw .assertion
  let tree ← match ← recv root with
    | .tree t => pure t
    | _ => throw .phase
  match tree nodeIndex with
  | none => throw .index
  | some node => do
    let server ← serve q node.listen
    let r ← join resolve root nodeIndex node.connect
    finish q server r.1 r.2

end

/-! ### The clients a server keeps -/

section
variable {ι : Type} [DecidableEq ι]

/-- What becomes of the connection to `peer`: an id, or it is closed. -/
def settle (keep : ι → Bool) (index : ι → ℕ) (held : List (Client ι)) (peer : ι) :
    List (Client ι) :=
  if keep peer then setId held peer (index peer) else removeClient held peer

theorem foldl_settle (keep : ι → Bool) (index : ι → ℕ) {cs : List ι} (hnd : cs.Nodup)
    (held : List (Client ι)) :
    cs.foldl (settle keep index) held = held.filterMap fun x =>
      if x.peer ∈ cs then if keep x.peer then some ⟨index x.peer, x.peer⟩ else none else some x := by
  induction cs generalizing held with
  | nil => simp
  | cons c cs ih =>
    obtain ⟨hc, hnd⟩ := List.nodup_cons.mp hnd
    rw [List.foldl_cons, ih hnd, settle]
    split_ifs with hkeep
    · rw [setId, List.filterMap_map]
      congr 1
      funext x
      by_cases hx : x.peer = c
      · simp [hx, hc, hkeep]
      · simp [hx]
    · rw [removeClient, List.filterMap_filter]
      congr 1
      funext x
      by_cases hx : x.peer = c
      · simp [hx, hkeep]
      · simp [hx]

/-- Once all are visited, the connections left are those kept, under their index. -/
theorem settled (keep : ι → Bool) (index : ι → ℕ) {cs : List ι} (hnd : cs.Nodup)
    (held : List (Client ι)) (hall : ∀ x ∈ held, x.peer ∈ cs) :
    (cs.foldl (settle keep index) held).map Client.peer = (held.map Client.peer).filter keep ∧
      ∀ x ∈ cs.foldl (settle keep index) held, x.id = index x.peer := by
  have heq : cs.foldl (settle keep index) held = held.filterMap fun x =>
      if keep x.peer then some ⟨index x.peer, x.peer⟩ else none := by
    rw [foldl_settle keep index hnd]
    exact List.filterMap_congr fun x hx => if_pos (hall x hx)
  rw [heq]
  constructor
  · clear heq hall
    induction held with
    | nil => rfl
    | cons x held ih =>
      by_cases hx : keep x.peer <;> simp [hx, ih]
  · intro x hx
    obtain ⟨y, -, hy⟩ := List.mem_filterMap.mp hx
    split_ifs at hy
    cases hy
    rfl

end

/-! ### Rules for the parts of the programs -/

section
variable {ι A α : Type} [DecidableEq ι] {P : α → Plan ι (Signal A) Unit → Prop}
  {w : Plan ι (Signal A) Unit} {peer : ι} {rest : List (Unit × Signal A)}

theorem conforms_recv {m : Signal A} {k : Signal A → Boot ι A α} (hm : m ≠ .closed)
    (hinp : w.inp peer = ((), m) :: rest) (hk : Conforms id P (k m) () (w.setInp peer rest)) :
    Conforms id P (recv peer >>= k) () w := by
  rw [recv, bind_assoc]
  refine conforms_get hinp le_rfl le_rfl ?_
  cases m with
  | closed => exact (hm rfl).elim
  | _ => exact hk

theorem conforms_send {m : Signal A} {k : Unit → Boot ι A α} (hout : w.out peer = ((), m) :: rest)
    (hk : Conforms id P (k ()) () (w.setOut peer rest)) :
    Conforms id P (Proc.put peer m >>= k) () w :=
  conforms_put hout le_rfl hk

/-- The accept loop takes exactly the connections that are planned. -/
theorem conforms_acceptClients {count : ℕ} {held : List (Client ι)}
    {k : List (Client ι) → Boot ι A α} (hcard : w.guests.card = count)
    (hnd : (held.map Client.peer).Nodup) (hdisj : ∀ c ∈ w.guests, c ∉ held.map Client.peer)
    (hk : ∀ held', (held'.map Client.peer).Nodup →
      (∀ c, c ∈ held'.map Client.peer ↔ c ∈ w.guests ∨ c ∈ held.map Client.peer) →
      Conforms id P (k held') () { w with guests := ∅ }) :
    Conforms id P (acceptClients count held >>= k) () w := by
  induction count generalizing held w with
  | zero =>
    have hg : w.guests = ∅ := Finset.card_eq_zero.mp hcard
    have := hk held hnd fun c => by simp [hg]
    rw [← hg] at this
    exact this
  | succ count ih =>
    rw [acceptClients, bind_assoc]
    refine conforms_answer (Finset.card_pos.mp (by omega)) fun c hc => ?_
    have hcard' := Finset.card_erase_add_one hc
    refine ih (w := w.answered c) (show (w.guests.erase c).card = count by omega) ?_ ?_ ?_
    · rw [List.map_cons, List.nodup_cons]
      exact ⟨hdisj c hc, hnd⟩
    · intro c' hc'
      obtain ⟨hne, hmem⟩ := Finset.mem_erase.mp hc'
      rw [List.map_cons, List.mem_cons, not_or]
      exact ⟨hne, hdisj c' hmem⟩
    · intro held' hnd' hmem
      refine hk held' hnd' fun c' => ?_
      rw [hmem c', List.map_cons, List.mem_cons, Plan.answered, Finset.mem_erase]
      by_cases hcc : c' = c
      · simp [hcc, hc]
      · simp [hcc]

omit [DecidableEq ι] in
theorem pcall_order (peer : ι) :
    (pcall do Proc.put peer .askOrder; recv peer : Boot ι A (Option (Signal A))) =
      Proc.put peer .askOrder >>= fun _ => Proc.get peer >>= fun m =>
        match m with
        | .closed => pure none
        | m => pure (some m) := by
  change Proc.send _ _ (Proc.recv _ _) = Proc.send _ _ (Proc.recv _ _)
  congr 2
  funext m
  cases m <;> rfl

theorem conforms_orderOrClose_order {i : ℕ} {s : List (Client ι) × List ι}
    {k : List (Client ι) × List ι → Boot ι A α} {out inp : List (Unit × Signal A)}
    (hout : w.out peer = ((), .askOrder) :: out) (hinp : w.inp peer = ((), .order i) :: inp)
    (hk : Conforms id P (k (setId s.1 peer i, s.2)) () ((w.setOut peer out).setInp peer inp)) :
    Conforms id P (orderOrClose s peer >>= k) () w := by
  rw [orderOrClose, pcall_order]
  simp only [bind_assoc]
  exact conforms_send hout (conforms_get hinp le_rfl le_rfl hk)

theorem conforms_orderOrClose_close {s : List (Client ι) × List ι}
    {k : List (Client ι) × List ι → Boot ι A α} {out inp : List (Unit × Signal A)}
    (hout : w.out peer = ((), .askOrder) :: ((), .closed) :: out)
    (hinp : w.inp peer = ((), .closed) :: inp)
    (hk : Conforms id P (k (removeClient s.1 peer, s.2 ++ [peer])) ()
      ((w.setOut peer out).setInp peer inp)) :
    Conforms id P (orderOrClose s peer >>= k) () w := by
  rw [orderOrClose, pcall_order]
  simp only [bind_assoc]
  refine conforms_send hout (conforms_get hinp le_rfl le_rfl ?_)
  simp only [pure_bind, bind_assoc]
  have hnext : ((w.setOut peer (((), .closed) :: out)).setInp peer inp).out peer =
      ((), .closed) :: out := Plan.setOut_out w peer _
  refine conforms_send hnext ?_
  have hplan : (((w.setOut peer (((), .closed) :: out)).setInp peer inp).setOut peer out) =
      (w.setOut peer out).setInp peer inp := by
    simp [Plan.setOut, Plan.setInp]
  rw [hplan]
  exact hk

theorem conforms_orderClient {i : ℕ} {held : List (Client ι)} {k : List (Client ι) → Boot ι A α}
    {out inp : List (Unit × Signal A)} (hout : w.out peer = ((), .askOrder) :: out)
    (hinp : w.inp peer = ((), .order i) :: inp)
    (hk : Conforms id P (k (setId held peer i)) () ((w.setOut peer out).setInp peer inp)) :
    Conforms id P (orderClient held peer >>= k) () w := by
  rw [orderClient]
  simp only [bind_assoc]
  exact conforms_send hout (conforms_recv (by simp) hinp hk)

theorem conforms_startClient {k : Unit → Boot ι A α} {out inp : List (Unit × Signal A)}
    (hout : w.out peer = ((), .askStart) :: out) (hinp : w.inp peer = ((), .start) :: inp)
    (hk : Conforms id P (k ()) () ((w.setOut peer out).setInp peer inp)) :
    Conforms id P (startClient () peer >>= k) () w := by
  rw [startClient]
  simp only [bind_assoc]
  exact conforms_send hout (conforms_recv (by simp) hinp hk)

theorem conforms_register {numNodes i : ℕ} {addr : A} {addresses : ℕ → Option (Address A)}
    {k : (ℕ → Option (Address A)) → Boot ι A α} {out inp : List (Unit × Signal A)}
    (hout : w.out peer = ((), .askAddress) :: ((), .clientIndex i) :: out)
    (hinp : w.inp peer = ((), .address (some i) addr) :: inp)
    (hk : Conforms id P (k (Function.update addresses i (some ⟨i, addr⟩))) ()
      ((w.setOut peer out).setInp peer inp)) :
    Conforms id P (register numNodes addresses peer >>= k) () w := by
  rw [register]
  simp only [bind_assoc]
  refine conforms_send hout (conforms_recv (by simp) hinp ?_)
  simp only [Option.getD_some, bind_assoc, pure_bind]
  have hnext : ((w.setOut peer (((), .clientIndex i) :: out)).setInp peer inp).out peer =
      ((), .clientIndex i) :: out := Plan.setOut_out w peer _
  refine conforms_send hnext ?_
  have hplan : (((w.setOut peer (((), .clientIndex i) :: out)).setInp peer inp).setOut peer out) =
      (w.setOut peer out).setInp peer inp := by
    simp [Plan.setOut, Plan.setInp]
  rw [hplan]
  exact hk

theorem conforms_answerOrder {i : ℕ} {k : Unit → Boot ι A α} {out inp : List (Unit × Signal A)}
    (hout : w.out peer = ((), .order i) :: out) (hinp : w.inp peer = ((), .askOrder) :: inp)
    (hk : Conforms id P (k ()) () ((w.setInp peer inp).setOut peer out)) :
    Conforms id P (answerOrder peer i >>= k) () w := by
  rw [answerOrder]
  simp only [bind_assoc]
  exact conforms_recv (by simp) hinp (conforms_send hout hk)

end

/-! ### The script of the set-up -/

section
variable {n : ℕ} {A : Type} (links : List Link) (addr : Node n → A) (root : Node n)

/-- `addresses` once every node has registered. -/
def knownAddresses (i : ℕ) : Option (Address A) :=
  if h : i ∈ Finset.Icc 1 n then some ⟨i, addr ⟨i, h⟩⟩ else none

def isChild (p c : Node n) : Bool := decide (Up links c p)

/-- What the root sends to `c` after the tree. -/
def rootTail (c : Node n) : List (Signal A) :=
  .askOrder :: if Up links c root then [.askStart] else [.closed]

/-- What `c` sends to the root after its address. -/
def clientTail (c : Node n) : List (Signal A) :=
  if Up links c root then [.order c, .start] else [.closed]

def bootScript (i j : Node n) : List (Signal A) :=
  if i = root then
    if j = root then []
    else .askAddress :: .clientIndex j :: .tree (treeOf (knownAddresses addr) links) ::
      rootTail links root j
  else if j = root then .address (some i) (addr i) :: clientTail links root i
  else if Up links i j then [.order i, .start]
  else if Up links j i then [.askOrder, .askStart]
  else []

def bootGuests (i : Node n) : Finset (Node n) :=
  Finset.univ.filter fun c => c ≠ root ∧ (i = root ∨ Up links c i)

def bootDials (i : Node n) : Finset (Node n) :=
  Finset.univ.filter fun p => i ≠ root ∧ (p = root ∨ Up links i p)

def bootPlan (i : Node n) : Plan (Node n) (Signal A) Unit where
  out j := stamped () (bootScript links addr root i j)
  inp j := stamped () (bootScript links addr root j i)
  dials := bootDials links root i
  guests := bootGuests links root i

/-- A node has the connections of the plan, and the root has closed the others. -/
structure Settled (i : Node n) (r : Setup (Node n)) : Prop where
  client_iff : ∀ p, r.conn.client = some p ↔ Up links i p
  id_eq : ∀ x ∈ r.conn.held, x.id = x.peer
  nodup : (r.conn.held.map Client.peer).Nodup
  mem_iff : ∀ c, c ∈ r.conn.held.map Client.peer ↔ Up links c i
  closed : i = root → ∀ c, c ∈ r.closed ↔ c ≠ root ∧ ¬ Up links c root

theorem foldl_pair {α β γ : Type} (f : α → γ → α) (g : β → γ → β) (cs : List γ) (a : α) (b : β) :
    cs.foldl (fun s c => (f s.1 c, g s.2 c)) (a, b) = (cs.foldl f a, cs.foldl g b) := by
  induction cs generalizing a b with
  | nil => rfl
  | cons c cs ih => exact ih (f a c) (g b c)

theorem foldl_closed {γ : Type} (keep : γ → Bool) (cs acc : List γ) :
    cs.foldl (fun l c => if keep c then l else l ++ [c]) acc = acc ++ cs.filter fun c =>
      !keep c := by
  induction cs generalizing acc with
  | nil => simp
  | cons c cs ih => by_cases hc : keep c <;> simp [hc, ih]

theorem knownAddresses_coe (c : Node n) : knownAddresses addr c = some ⟨c, addr c⟩ :=
  dif_pos c.2

/-- Registering every node but the root fills the table. -/
theorem foldl_register {cs : List (Node n)} (hmem : ∀ c, c ∈ cs ↔ c ≠ root) :
    cs.foldl (fun a (c : Node n) => Function.update a c.1 (some (Address.mk c.1 (addr c))))
      (Function.update (fun _ => none) root.1 (some ⟨root, addr root⟩)) = knownAddresses addr := by
  have hfold : ∀ (cs : List (Node n)) (a : ℕ → Option (Address A)) (i : ℕ),
      cs.foldl (fun a (c : Node n) => Function.update a c.1 (some (Address.mk c.1 (addr c)))) a i =
        if i ∈ cs.map Subtype.val then knownAddresses addr i else a i := by
    intro cs
    induction cs with
    | nil => simp
    | cons c cs ih =>
      intro a i
      rw [List.foldl_cons, ih, Function.update_apply, ← knownAddresses_coe addr c]
      by_cases hi : i = c
      · subst hi
        simp
      · simp [hi]
  funext i
  rw [hfold, Function.update_apply, ← knownAddresses_coe addr root]
  split_ifs with hi hr
  · rfl
  · rw [hr]
  · rw [knownAddresses, dif_neg]
    intro hin
    refine hi (List.mem_map.mpr ⟨⟨i, hin⟩, (hmem _).mpr fun h => hr ?_, rfl⟩)
    rw [← h]

variable {links addr root} {q : Qsort (Node n)} {sends : (ℕ → Option (Entry A)) → Bool}

theorem visitOrder_perm (held : List (Client (Node n))) :
    (visitOrder q held).Perm (held.map Client.peer) :=
  (q.perm false held).map Client.peer

/-- The root keeps to the script, if it can send the tree. -/
theorem conforms_initialServer (h : SpanningTree n links) (hroot : root.1 = 1)
    (hsends : sends (treeOf (knownAddresses addr) links) = true) :
    Conforms id (fun r _ => Settled links root root r)
      (initialServer q n links sends root (addr root)) () (bootPlan links addr root root) := by
  have hup : ∀ p, ¬ Up links root p := fun p hp => h.not_up_one p (hroot ▸ hp)
  have hguests : (bootGuests links root root).card = n - 1 := by
    have : bootGuests links root root = Finset.univ.erase root := by
      ext c
      simp [bootGuests]
    rw [this, Finset.card_erase_of_mem (Finset.mem_univ root), Finset.card_univ]
    simp
  rw [initialServer]
  refine conforms_acceptClients hguests List.nodup_nil (by simp) fun held hnd hmem => ?_
  have hcs : (visitOrder q held).Nodup := (visitOrder_perm held).nodup_iff.mpr hnd
  have hmemcs : ∀ c, c ∈ visitOrder q held ↔ c ≠ root := by
    intro c
    rw [(visitOrder_perm held).mem_iff, hmem c]
    simp [bootPlan, bootGuests]
  have hscript : ∀ c ∈ visitOrder q held, bootScript links addr root root c =
      .askAddress :: .clientIndex c :: .tree (treeOf (knownAddresses addr) links) ::
        rootTail links root c := by
    intro c hc
    rw [bootScript, if_pos rfl, if_neg ((hmemcs c).mp hc)]
  have hscript' : ∀ c ∈ visitOrder q held, bootScript links addr root c root =
      .address (some c) (addr c) :: clientTail links root c := by
    intro c hc
    rw [bootScript, if_neg ((hmemcs c).mp hc), if_pos rfl]
  -- the addresses
  refine conforms_foldlM (r := fun a (c : Node n) => Function.update a c.1 (some ⟨c.1, addr c⟩))
    (fun c => stamped () (bootScript links addr root root c))
    (fun c => stamped () (bootScript links addr root c root))
    (fun c => stamped () (.tree (treeOf (knownAddresses addr) links) :: rootTail links root c))
    (fun c => stamped () (clientTail links root c)) (fun s c hc w k hout hinp hk => ?_) hcs
    (fun c _ => rfl) (fun c _ => rfl) ?_
  · rw [hscript c hc] at hout
    rw [hscript' c hc] at hinp
    exact conforms_register hout hinp hk
  rw [foldl_register addr root hmemcs]
  -- the tree
  simp only [broadcast, hsends, if_true]
  refine conforms_foldlM (r := fun _ _ => ())
    (fun c => stamped () (.tree (treeOf (knownAddresses addr) links) :: rootTail links root c))
    (fun c => stamped () (clientTail links root c)) (fun c => stamped () (rootTail links root c))
    (fun c => stamped () (clientTail links root c)) (fun s c hc w k hout hinp hk => ?_) hcs
    (fun c hc => if_pos hc) (fun c hc => if_pos hc) ?_
  · refine conforms_send hout ?_
    rwa [Plan.setInp_self (show (w.setOut c _).inp c = _ from hinp)] at hk
  rw [Plan.setLinks_setLinks]
  -- the order
  refine conforms_foldlM (r := fun s (c : Node n) =>
      (settle (isChild links root) Subtype.val s.1 c,
        if isChild links root c then s.2 else s.2 ++ [c]))
    (fun c => stamped () (rootTail links root c)) (fun c => stamped () (clientTail links root c))
    (fun c => if Up links c root then [((), .askStart)] else [])
    (fun c => if Up links c root then [((), .start)] else []) (fun s c _ w k hout hinp hk => ?_) hcs
    (fun c hc => if_pos hc) (fun c hc => if_pos hc) ?_
  · by_cases hc : Up links c root
    · simp only [settle, isChild, hc, decide_true, if_true] at hk
      rw [rootTail, if_pos hc] at hout
      rw [clientTail, if_pos hc] at hinp
      exact conforms_orderOrClose_order hout hinp hk
    · simp only [settle, isChild, hc, decide_false, Bool.false_eq_true, if_false] at hk
      rw [rootTail, if_neg hc] at hout
      rw [clientTail, if_neg hc] at hinp
      exact conforms_orderOrClose_close hout hinp hk
  rw [Plan.setLinks_setLinks, foldl_pair (settle (isChild links root) Subtype.val)
    (fun l c => if isChild links root c then l else l ++ [c]), foldl_closed, List.nil_append]
  obtain ⟨hpeers, hids⟩ := settled (isChild links root) Subtype.val hcs held
    fun x hx => (visitOrder_perm held).mem_iff.mpr (List.mem_map_of_mem hx)
  generalize (visitOrder q held).foldl (settle (isChild links root) Subtype.val) held =
    kept at hpeers hids ⊢
  have hmemk : ∀ c, c ∈ kept.map Client.peer ↔ Up links c root := by
    intro c
    rw [hpeers, List.mem_filter, ← (visitOrder_perm (q := q) held).mem_iff, hmemcs, isChild,
      decide_eq_true_eq]
    exact ⟨fun hc => hc.2, fun hc => ⟨fun he => hup root (he ▸ hc), hc⟩⟩
  have hkept : (kept.map Client.peer).Nodup := hpeers ▸ hnd.filter _
  have hmemv : ∀ c, c ∈ visitOrder q kept ↔ Up links c root := by
    intro c
    rw [(visitOrder_perm kept).mem_iff, hmemk]
  have hsub : ∀ c ∈ visitOrder q kept, c ∈ visitOrder q held := by
    intro c hc
    rw [hmemcs]
    exact fun he => hup root (he ▸ (hmemv c).mp hc)
  -- the start
  refine conforms_foldlM (r := fun _ _ => ()) (fun _ => [((), .askStart)]) (fun _ => [((), .start)])
    (fun _ => []) (fun _ => []) (fun s c _ w k hout hinp hk => conforms_startClient hout hinp hk)
    ((visitOrder_perm kept).nodup_iff.mpr hkept) (fun c hc => ?_) (fun c hc => ?_) ?_
  · rw [Plan.setLinks_out, if_pos (hsub c hc), if_pos ((hmemv c).mp hc)]
  · rw [Plan.setLinks_inp, if_pos (hsub c hc), if_pos ((hmemv c).mp hc)]
  refine ⟨⟨fun c => ?_, ?_⟩, ⟨fun p => ?_, hids, hkept, hmemk, fun _ c => ?_⟩⟩
  · rw [Plan.setLinks_out, Plan.setLinks_out]
    split_ifs with hc hr hu
    · rfl
    · exact absurd ((hmemv c).mpr hu) hc
    · rfl
    · rw [hmemcs, not_not] at hr
      simp [bootPlan, bootScript, hr, stamped]
  · simp [Plan.setLinks, Plan.setOuts, Plan.setInps, bootPlan, bootDials]
  · simpa using hup p
  · rw [List.mem_filter, hmemcs]
    simp [isChild]

/-- A node waits for as many connections as it has children. -/
theorem card_children (h : SpanningTree n links) (i : Node n) :
    (Finset.univ.filter fun c : Node n => Up links c i).card = listen links i := by
  rw [h.toSpans.listen_eq h.parents_one]
  refine Finset.card_bij (fun c _ => c.1) (fun c hc => ?_) (fun _ _ _ _ => Subtype.ext) fun j hj =>
    ?_
  · exact Finset.mem_filter.mpr ⟨c.2, (Finset.mem_filter.mp hc).2⟩
  · obtain ⟨hin, hup⟩ := Finset.mem_filter.mp hj
    exact ⟨⟨j, hin⟩, Finset.mem_filter.mpr ⟨Finset.mem_univ _, hup⟩, rfl⟩

/-- The children of a node other than the root connect to it and are ordered. -/
theorem conforms_serve {α : Type} {P : α → Plan (Node n) (Signal A) Unit → Prop} {i : Node n}
    {w : Plan (Node n) (Signal A) Unit} {count : Option ℕ}
    {k : Option (List (Client (Node n))) → Boot (Node n) A α}
    (hguests : w.guests = Finset.univ.filter fun c : Node n => Up links c i)
    (hcount : count.getD 0 = w.guests.card)
    (hout : ∀ c : Node n, Up links c i → w.out c = [((), .askOrder), ((), .askStart)])
    (hinp : ∀ c : Node n, Up links c i → w.inp c = [((), .order c), ((), .start)])
    (hk : ∀ server : Option (List (Client (Node n))), (∀ x ∈ server.getD [], x.id = x.peer) →
      ((server.getD []).map Client.peer).Nodup →
      (∀ c, c ∈ (server.getD []).map Client.peer ↔ Up links c i) →
      Conforms id P (k server) ()
        (Plan.setLinks { w with guests := ∅ } ((server.getD []).map Client.peer)
          (fun _ => [((), .askStart)]) fun _ => [((), .start)])) :
    Conforms id P (serve q count >>= k) () w := by
  have hmem : ∀ c, c ∈ w.guests ↔ Up links c i := by
    intro c
    simp [hguests]
  unfold serve
  split_ifs with hpos
  · rw [hcount]
    simp only [bind_assoc, pure_bind]
    refine conforms_acceptClients rfl List.nodup_nil (by simp) fun held hnd hmem' => ?_
    have hmemh : ∀ c, c ∈ held.map Client.peer ↔ Up links c i := by
      intro c
      rw [hmem' c, hmem c]
      simp
    have hcs : (visitOrder q held).Nodup := (visitOrder_perm held).nodup_iff.mpr hnd
    have hmemv : ∀ c ∈ visitOrder q held, Up links c i :=
      fun c hc => (hmemh c).mp ((visitOrder_perm held).mem_iff.mp hc)
    refine conforms_foldlM (r := settle (fun _ => true) Subtype.val)
      (fun _ => [((), .askOrder), ((), .askStart)]) (fun c => [((), .order c), ((), .start)])
      (fun _ => [((), .askStart)]) (fun _ => [((), .start)])
      (fun s c _ w k ho hi hk => conforms_orderClient ho hi hk) hcs (fun c hc => hout c (hmemv c hc))
      (fun c hc => hinp c (hmemv c hc)) ?_
    obtain ⟨hpeers, hids⟩ := settled (fun _ => true) Subtype.val hcs held
      fun x hx => (visitOrder_perm held).mem_iff.mpr (List.mem_map_of_mem hx)
    generalize (visitOrder q held).foldl (settle (fun _ => true) Subtype.val) held =
      kept at hpeers hids ⊢
    rw [List.filter_true] at hpeers
    have hkept := hk (some kept) hids (by simpa [hpeers] using hnd) (by simpa [hpeers] using hmemh)
    have hplan : Plan.setLinks { w with guests := ∅ } (visitOrder q held)
        (fun _ => [((), Signal.askStart)]) (fun _ => [((), Signal.start)]) =
        Plan.setLinks { w with guests := ∅ } (((some kept).getD []).map Client.peer)
          (fun _ => [((), .askStart)]) fun _ => [((), .start)] := by
      rw [Option.getD_some, hpeers]
      unfold Plan.setLinks Plan.setOuts Plan.setInps
      simp only [(visitOrder_perm held).mem_iff]
    rw [hplan]
    exact hkept
  · have hempty : w.guests = ∅ := Finset.card_eq_zero.mp (by omega)
    have hnone := hk none (by simp) (by simp) fun c => by
      rw [← hmem c, hempty]
      simp
    rw [← hempty] at hnone
    simpa [Plan.setLinks] using hnone

/-- The last part at a node other than the root. -/
theorem conforms_finish {P : Setup (Node n) → Plan (Node n) (Signal A) Unit → Prop}
    {w : Plan (Node n) (Signal A) Unit} {server : Option (List (Client (Node n)))} {client : Node n}
    {closed : List (Node n)} {rest : List (Unit × Signal A)}
    (hnd : ((server.getD []).map Client.peer).Nodup) (hne : client ∉ (server.getD []).map Client.peer)
    (hout : w.out client = [((), .start)]) (hinp : w.inp client = ((), .askStart) :: rest)
    (hcs : ∀ c ∈ (server.getD []).map Client.peer,
      w.out c = [((), .askStart)] ∧ w.inp c = [((), .start)])
    (hrest : ∀ c, c ∉ (server.getD []).map Client.peer → c ≠ client → w.out c = [])
    (hdials : w.dials = ∅) (hP : ∀ w, P ⟨⟨server, some client⟩, closed⟩ w) :
    Conforms id P (finish q server client closed) () w := by
  have hperm := visitOrder_perm (q := q) (server.getD [])
  unfold finish
  refine conforms_recv (by simp) hinp ?_
  refine conforms_foldlM (r := fun _ _ => ()) (fun _ => [((), .askStart)]) (fun _ => [((), .start)])
    (fun _ => []) (fun _ => []) (fun s c _ w k ho hi hk => conforms_startClient ho hi hk)
    (hperm.nodup_iff.mpr hnd) (fun c hc => (hcs c (hperm.mem_iff.mp hc)).1) (fun c hc => ?_) ?_
  · have hc' := hperm.mem_iff.mp hc
    rw [← (hcs c hc').2]
    have hcc : c ≠ client := fun he => hne (he ▸ hc')
    exact Plan.setInp_inp_of_ne w hcc rest
  have hne' : client ∉ visitOrder q (server.getD []) := fun hc => hne (hperm.mem_iff.mp hc)
  have hlast : ((w.setInp client rest).setLinks (visitOrder q (server.getD [])) (fun _ => [])
      fun _ => []).out client = [((), .start)] := by
    rw [Plan.setLinks_out, if_neg hne']
    exact hout
  refine conforms_send hlast ⟨⟨fun c => ?_, hdials⟩, hP _⟩
  by_cases hc : c = client
  · rw [hc, Plan.setOut_out]
  · rw [Plan.setOut_out_of_ne _ hc, Plan.setLinks_out]
    split_ifs with hv
    · rfl
    · exact hrest c (fun h => hv (hperm.mem_iff.mpr h)) hc

/-- Once the children are ordered: the parent, and the start. -/
theorem conforms_join {P : Setup (Node n) → Plan (Node n) (Signal A) Unit → Prop}
    {w : Plan (Node n) (Signal A) Unit} {server : Option (List (Client (Node n)))}
    {resolve : A → Node n} {i p : Node n} (hroot : root.1 = 1) (hres : ∀ i, resolve (addr i) = i)
    (hstay : Up links i root ↔ root = p) (hnd : ((server.getD []).map Client.peer).Nodup)
    (hrootc : root ∉ (server.getD []).map Client.peer) (hpc : p ∉ (server.getD []).map Client.peer)
    (hout : w.out root = stamped () (clientTail links root i))
    (hinp : w.inp root = stamped () (rootTail links root i))
    (houtp : p ≠ root → w.out p = [((), .order i), ((), .start)])
    (hinpp : p ≠ root → w.inp p = [((), .askOrder), ((), .askStart)])
    (hcs : ∀ c ∈ (server.getD []).map Client.peer,
      w.out c = [((), .askStart)] ∧ w.inp c = [((), .start)])
    (hrest : ∀ c, c ∉ (server.getD []).map Client.peer → c ≠ root → c ≠ p → w.out c = [])
    (hdials : ∀ c, c ∈ w.dials ↔ c = p ∧ c ≠ root)
    (hP : ∀ closed w, P ⟨⟨server, some p⟩, closed⟩ w) :
    Conforms id P (join resolve root i (some ⟨p, addr p⟩) >>= fun r => finish q server r.1 r.2) ()
      w := by
  have hne : ∀ c ∈ (server.getD []).map Client.peer, c ≠ root ∧ c ≠ p :=
    fun c hc => ⟨fun he => hrootc (he ▸ hc), fun he => hpc (he ▸ hc)⟩
  unfold join
  by_cases hp : p = root
  · -- the parent is the root
    subst hp
    rw [clientTail, if_pos (hstay.mpr rfl)] at hout
    rw [rootTail, if_pos (hstay.mpr rfl)] at hinp
    simp only [hroot, if_true, bind_assoc, pure_bind]
    refine conforms_answerOrder hout hinp (conforms_finish hnd hpc (Plan.setOut_out _ p _)
      (Plan.setInp_inp _ p _) (fun c hc => ⟨?_, ?_⟩) (fun c hc hcp => ?_) ?_ (hP []))
    · rw [Plan.setOut_out_of_ne _ (hne c hc).1]
      exact (hcs c hc).1
    · exact (Plan.setInp_inp_of_ne w (hne c hc).1 _).trans (hcs c hc).2
    · rw [Plan.setOut_out_of_ne _ hcp]
      exact hrest c hc hcp hcp
    · ext c
      simp [Plan.setOut, Plan.setInp, hdials]
  · -- a new parent is required
    have hp1 : p.1 ≠ 1 := fun hc => hp (Subtype.ext (hc.trans hroot.symm))
    have hstay' : ¬ Up links i root := fun hu => hp (hstay.mp hu).symm
    rw [clientTail, if_neg hstay'] at hout
    simp only [hp1, if_false, hres, bind_assoc, pure_bind]
    refine conforms_send hout (conforms_dial ((hdials p).mpr ⟨rfl, hp⟩) ?_)
    refine conforms_answerOrder ((Plan.setOut_out_of_ne w hp _).trans (houtp hp)) (hinpp hp) ?_
    refine conforms_finish hnd hpc (Plan.setOut_out _ p _) (Plan.setInp_inp _ p _)
      (fun c hc => ⟨?_, ?_⟩) (fun c hc hcp => ?_) ?_ (hP [root])
    · rw [Plan.setOut_out_of_ne _ (hne c hc).2]
      exact (Plan.setOut_out_of_ne w (hne c hc).1 _).trans (hcs c hc).1
    · exact (Plan.setInp_inp_of_ne _ (hne c hc).2 _).trans (hcs c hc).2
    · rw [Plan.setOut_out_of_ne _ hcp]
      by_cases hcr : c = root
      · rw [hcr]
        exact Plan.setOut_out w root _
      · exact (Plan.setOut_out_of_ne w hcr _).trans (hrest c hc hcr hcp)
    · ext c
      simp only [Plan.setOut, Plan.setInp, Plan.dialled, Finset.mem_erase, hdials, Finset.notMem_empty,
        iff_false]
      exact fun hc => hc.1 hc.2.1

theorem SpanningTree.not_up_symm (h : SpanningTree n links) {a b : ℕ} (hab : Up links a b) :
    ¬ Up links b a := by
  obtain ⟨depth, -, hdepth⟩ := h.exists_depth
  intro hba
  have := hdepth a b hab
  have := hdepth b a hba
  omega

/-- The messages between a node and its child, both other than the root. -/
theorem bootScript_child (h : SpanningTree n links) (hroot : root.1 = 1) {c p : Node n} (hp : p ≠ root)
    (hcp : Up links c p) : bootScript links addr root c p = [.order c, .start] ∧
      bootScript links addr root p c = [.askOrder, .askStart] := by
  have hc : c ≠ root := by
    intro he
    rw [he, hroot] at hcp
    exact h.not_up_one p hcp
  constructor
  · rw [bootScript, if_neg hc, if_neg hp, if_pos hcp]
  · rw [bootScript, if_neg hp, if_neg hc, if_neg (h.not_up_symm hcp), if_pos hcp]

theorem treeOf_known (h : SpanningTree n links) (addr : Node n → A) {c p : Node n}
    (hcp : Up links c p) :
    ∃ node, treeOf (knownAddresses addr) links c = some node ∧ node.connect = some ⟨p, addr p⟩ ∧
      node.listen.getD 0 = listen links c := by
  have hconnect := connectOf_treeOf (knownAddresses addr) links hcp
    fun b hb => up_unique (h.parents_le_one hb) hb hcp
  have hlisten := listenOf_treeOf (knownAddresses addr) links c
  rw [knownAddresses_coe] at hconnect
  cases ht : treeOf (knownAddresses addr) links c with
  | none => simp [ht, connectOf] at hconnect
  | some node => exact ⟨node, rfl, by simpa [ht, connectOf] using hconnect,
      by simpa [ht, listenOf] using hlisten⟩

/-- From the tree on: the children, the parent, and the start. -/
theorem conforms_place (h : SpanningTree n links) (hroot : root.1 = 1) {resolve : A → Node n}
    (hres : ∀ i, resolve (addr i) = i) {i p : Node n} (hi : i ≠ root) (hip : Up links i p)
    {node : Entry A} (hconnect : node.connect = some ⟨p, addr p⟩)
    (hlisten : node.listen.getD 0 = listen links i) {w : Plan (Node n) (Signal A) Unit}
    (hout : w.out root = stamped () (clientTail links root i))
    (hinp : w.inp root = stamped () (rootTail links root i))
    (hout' : ∀ j, j ≠ root → w.out j = stamped () (bootScript links addr root i j))
    (hinp' : ∀ j, j ≠ root → w.inp j = stamped () (bootScript links addr root j i))
    (hdials : w.dials = (bootDials links root i).erase root)
    (hguests : w.guests = bootGuests links root i) :
    Conforms id (fun r _ => Settled links root i r)
      (serve q node.listen >>= fun server => join resolve root i node.connect >>= fun r =>
        finish q server r.1 r.2) () w := by
  have huniq : ∀ b : Node n, Up links i b ↔ b = p :=
    fun b => ⟨fun hb => Subtype.ext (up_unique (h.parents_le_one hb) hb hip), fun hb => hb ▸ hip⟩
  have hchild : ∀ c : Node n, Up links c i → c ≠ root := by
    intro c hc he
    rw [he, hroot] at hc
    exact h.not_up_one i hc
  have hguests' : w.guests = Finset.univ.filter fun c : Node n => Up links c i := by
    rw [hguests, bootGuests]
    ext c
    simp only [Finset.mem_filter, Finset.mem_univ, true_and, hi, false_or]
    exact ⟨fun hc => hc.2, fun hc => ⟨hchild c hc, hc⟩⟩
  have hscript : ∀ c : Node n, Up links c i →
      bootScript links addr root c i = [.order c, .start] ∧
        bootScript links addr root i c = [.askOrder, .askStart] :=
    fun c hc => bootScript_child h hroot hi hc
  refine conforms_serve hguests' (by rw [hlisten, hguests', card_children h]) (fun c hc => ?_)
    (fun c hc => ?_) fun server hids hnd hmem => ?_
  · rw [hout' c (hchild c hc), (hscript c hc).2]
    rfl
  · rw [hinp' c (hchild c hc), (hscript c hc).1]
    rfl
  have hrootc : root ∉ (server.getD []).map Client.peer :=
    fun hc => hchild root ((hmem root).mp hc) rfl
  have hpc : p ∉ (server.getD []).map Client.peer :=
    fun hc => h.not_up_symm hip ((hmem p).mp hc)
  have hsettled : ∀ closed, Settled links root i ⟨⟨server, some p⟩, closed⟩ := by
    intro closed
    refine ⟨fun b => ?_, hids, hnd, hmem, fun he => absurd he hi⟩
    rw [Option.some.injEq, huniq]
    exact eq_comm
  rw [hconnect]
  refine conforms_join hroot hres (huniq root) hnd hrootc hpc ?_ ?_ (fun hp => ?_) (fun hp => ?_)
    (fun c hc => ⟨if_pos hc, if_pos hc⟩) (fun c hc hcr hcp => ?_) (fun c => ?_)
    fun closed _ => hsettled closed
  · exact (Plan.setLinks_out_of_notMem _ hrootc _ _).trans hout
  · exact (Plan.setLinks_inp_of_notMem _ hrootc _ _).trans hinp
  · rw [Plan.setLinks_out_of_notMem _ hpc, hout' p hp, (bootScript_child h hroot hp hip).1]
    rfl
  · rw [Plan.setLinks_inp_of_notMem _ hpc, hinp' p hp, (bootScript_child h hroot hp hip).2]
    rfl
  · rw [Plan.setLinks_out_of_notMem _ hc, hout' c hcr, bootScript, if_neg hi, if_neg hcr,
      if_neg fun hu => hcp ((huniq c).mp hu), if_neg fun hu => hc ((hmem c).mpr hu)]
    rfl
  · change c ∈ w.dials ↔ _
    rw [hdials, bootDials, Finset.mem_erase, Finset.mem_filter]
    simp only [Finset.mem_univ, true_and, ne_eq, hi, not_false_eq_true, huniq]
    tauto

/-- A node other than the root keeps to the script. -/
theorem conforms_initialClient (h : SpanningTree n links) (hroot : root.1 = 1) {resolve : A → Node n}
    (hres : ∀ i, resolve (addr i) = i) {i : Node n} (hi : i ≠ root) :
    Conforms id (fun r _ => Settled links root i r)
      (initialClient q resolve root (some i.1) (addr i)) () (bootPlan links addr root i) := by
  have hi1 : i.1 ≠ 1 := fun hc => hi (Subtype.ext (hc.trans hroot.symm))
  obtain ⟨b, hib⟩ := h.exists_up i.2 hi1
  obtain ⟨p, rfl⟩ : ∃ p : Node n, p.1 = b := ⟨⟨b, (h.mem_of_up hib).2⟩, rfl⟩
  obtain ⟨node, hnode, hconnect, hlisten⟩ := treeOf_known h addr hib
  have hdown : bootScript links addr root root i = .askAddress :: .clientIndex i ::
      .tree (treeOf (knownAddresses addr) links) :: rootTail links root i := by
    rw [bootScript, if_pos rfl, if_neg hi]
  have hup : bootScript links addr root i root =
      .address (some i.1) (addr i) :: clientTail links root i := by
    rw [bootScript, if_neg hi, if_pos rfl]
  unfold initialClient
  refine conforms_dial (show root ∈ bootDials links root i by simp [bootDials, hi]) ?_
  refine conforms_recv (by simp) (congrArg (stamped ()) hdown) ?_
  refine conforms_send (congrArg (stamped ()) hup) ?_
  refine conforms_recv (by simp) (Plan.setInp_inp _ root _) ?_
  refine conforms_recv (by simp) (Plan.setInp_inp _ root _) ?_
  simp only [pure_bind, hnode]
  refine conforms_place h hroot hres hi hib hconnect hlisten (Plan.setOut_out _ root _)
    (Plan.setInp_inp _ root _) (fun j hj => ?_) (fun j hj => ?_) rfl rfl
  · exact Plan.setOut_out_of_ne _ hj _
  · rw [Plan.setInp_setInp, Plan.setInp_inp_of_ne _ hj]
    exact Plan.setInp_inp_of_ne _ hj _

def establish (q : Qsort (Node n)) (links : List Link) (sends : (ℕ → Option (Entry A)) → Bool)
    (resolve : A → Node n) (addr : Node n → A) (root i : Node n) :
    Boot (Node n) A (Setup (Node n)) :=
  if i = root then initialServer q n links sends root (addr root)
  else initialClient q resolve root (some i.1) (addr i)

theorem conforms_establish (h : SpanningTree n links) (hroot : root.1 = 1) {resolve : A → Node n}
    (hres : ∀ i, resolve (addr i) = i) (hsends : sends (treeOf (knownAddresses addr) links) = true)
    (i : Node n) :
    Conforms id (fun r _ => Settled links root i r) (establish q links sends resolve addr root i) ()
      (bootPlan links addr root i) := by
  unfold establish
  split_ifs with hi
  · subst hi
    exact conforms_initialServer h hroot hsends
  · exact conforms_initialClient h hroot hres hi

/-- A root that cannot send a tree stops where another goes on. -/
theorem cut_establish (resolve : A → Node n) (i : Node n) :
    (establish q links sends resolve addr root i).Cut (fun e => i = root ∧ e = .size)
      (establish q links (fun _ => true) resolve addr root i) := by
  unfold establish
  split_ifs with hi
  · unfold initialServer
    refine (Proc.Cut.refl _ _).bind fun held => (Proc.Cut.refl _ _).bind fun addresses => ?_
    refine Proc.Cut.bind (Proc.Cut.foldlM (fun _ peer => ?_) _ _) fun _ => Proc.Cut.refl _ _
    simp only [if_true]
    split_ifs
    · exact Proc.Cut.refl _ _
    · exact Or.inl ⟨hi, rfl⟩
  · exact Proc.Cut.refl _ _

/-- If the tree can be sent, in every state of a run no node has failed, and the nodes that are
done are connected as planned. -/
theorem settled_of_sent (h : SpanningTree n links) (hroot : root.1 = 1) {resolve : A → Node n}
    (hres : ∀ i, resolve (addr i) = i) (hsends : sends (treeOf (knownAddresses addr) links) = true)
    {es : List (Node n)} {s : Net (Node n) (Signal A) Failure (Setup (Node n))}
    (hrun : Run Step (Network.start (establish q links sends resolve addr root)) es s) (i : Node n) :
    (∀ e, s.proc i ≠ .fail e) ∧ ∀ r, s.proc i = .done r → Settled links root i r := by
  have h0 : Agrees id (fun i r _ => Settled links root i r)
      (Network.start (establish q links sends resolve addr root)) (bootPlan links addr root)
      (fun _ => ())
      fun _ _ => [] :=
    agrees_start (conforms_establish h hroot hres hsends) (fun _ _ => rfl) fun i j => by
      simp [bootPlan, bootGuests, bootDials]
  obtain ⟨plan, clock, wire, hs, -, -⟩ := h0.run hrun
  exact ⟨hs.not_fail, fun r hr => (hs.of_done hr).2⟩

theorem settled_of_run (h : SpanningTree n links) (hroot : root.1 = 1) {resolve : A → Node n}
    (hres : ∀ i, resolve (addr i) = i) {es : List (Node n)}
    {s : Net (Node n) (Signal A) Failure (Setup (Node n))}
    (hrun : Run Step (Network.start (establish q links sends resolve addr root)) es s) (i : Node n) :
    (∀ e, s.proc i = .fail e → i = root ∧ e = .size ∧ sends (treeOf (knownAddresses addr) links) = false) ∧
      ∀ r, s.proc i = .done r → Settled links root i r := by
  cases hsends : sends (treeOf (knownAddresses addr) links) with
  | true =>
    have hsettled := settled_of_sent h hroot hres hsends hrun i
    exact ⟨fun e he => (hsettled.1 e he).elim, hsettled.2⟩
  | false =>
    -- the run is one of a root that can send any tree, up to where this one stops
    have hcut : CutNet (fun i e => i = root ∧ e = .size)
        (Network.start (establish q links sends resolve addr root))
        (Network.start (establish q links (fun _ => true) resolve addr root)) :=
          ⟨cut_establish resolve, rfl, rfl⟩
    obtain ⟨t, ht, hst⟩ := hcut.run hrun
    have hsettled := settled_of_sent h hroot hres rfl ht i
    have hi := hst.proc i
    constructor
    · intro e he
      rw [he] at hi
      rcases hi with hi | hi
      · exact ⟨hi.1, hi.2, rfl⟩
      · exact (hsettled.1 e hi).elim
    · intro r hr
      rw [hr] at hi
      exact hsettled.2 r hi

/-- No assertion of the set-up fails and no message is read in the wrong phase: all that can go
wrong is that the root cannot send the tree. When every node has finished the connections are those
of the planned tree. -/
theorem establish_agrees (n : ℕ) (links : List Link) (h : SpanningTree n links) (root : Node n)
    (hroot : root.1 = 1) (q : Qsort (Node n)) {A : Type} (sends : (ℕ → Option (Entry A)) → Bool)
    (addr : Node n → A) (resolve : A → Node n) (hres : ∀ i, resolve (addr i) = i) (es : List (Node n))
    (s : Net (Node n) (Signal A) Failure (Setup (Node n)))
    (hrun : Run Step (Network.start (establish q links sends resolve addr root)) es s) :
    (∀ i e, s.proc i = .fail e →
        i = root ∧ e = .size ∧ sends (treeOf (knownAddresses addr) links) = false) ∧
      ∀ setup : Node n → Setup (Node n), (∀ i, s.proc i = .done (setup i)) →
        (∃ E : Established n links, ∀ i, E.conn i = (setup i).conn) ∧
          ∀ c, c ∈ (setup root).closed ↔ c ≠ root ∧ ¬ Up links c root := by
  have hsettled := settled_of_run h hroot hres hrun
  refine ⟨fun i => (hsettled i).1, fun setup hdone => ?_⟩
  have hS : ∀ i, Settled links root i (setup i) := fun i => (hsettled i).2 _ (hdone i)
  exact ⟨⟨⟨fun i => (setup i).conn, fun i => (hS i).client_iff, fun i => (hS i).id_eq,
    fun i => (hS i).nodup, fun i => (hS i).mem_iff⟩, fun _ => rfl⟩, (hS root).closed rfl⟩

end

/-- An order in which the nodes of a chain of three can act. -/
def chainSchedule : List (Node 3) :=
  [2, 1, 3, 1, 1, 3, 3, 1, 1, 1, 2, 2, 1, 1, 1, 1, 1, 2, 2, 3, 3, 3, 1, 1, 1, 3, 2, 2, 3, 3, 2, 2, 2,
    1, 1, 2, 2, 3, 3, 2, 2, 1].filterMap fun i =>
      if h : i ∈ Finset.Icc 1 3 then some ⟨i, h⟩ else none

/-- What the nodes of the chain have at the end. -/
def chainSetup (i : Node 3) : Setup (Node 3) :=
  if i.1 = 1 then ⟨⟨some [⟨2, ⟨2, by decide⟩⟩], none⟩, [⟨3, by decide⟩]⟩
  else if i.1 = 2 then ⟨⟨some [⟨3, ⟨3, by decide⟩⟩], some ⟨1, by decide⟩⟩, []⟩
  else ⟨⟨none, some ⟨2, by decide⟩⟩, [⟨1, by decide⟩]⟩

/-- A chain of three nodes, in which node `3` leaves the root for node `2`. -/
theorem establish_agrees_chain :
    ∃ s, Run Step (Network.start (establish (Qsort.insertion (Node 3))
        [⟨1, 2, some 1⟩, ⟨2, 3, some 0⟩] (fun _ => true) id id ⟨1, by decide⟩)) chainSchedule s ∧
      (∀ i, s.proc i = .done (chainSetup i)) ∧
      (∃ E : Established 3 [⟨1, 2, some 1⟩, ⟨2, 3, some 0⟩], ∀ i, E.conn i = (chainSetup i).conn) ∧
      ∀ c, c ∈ (chainSetup ⟨1, by decide⟩).closed ↔
        c ≠ ⟨1, by decide⟩ ∧ ¬ Up [⟨1, 2, some 1⟩, ⟨2, 3, some 0⟩] c 1 := by
  have hfinal : ((chainSchedule.foldlM (fun s i => step i s) (Network.start (establish
      (Qsort.insertion (Node 3)) [⟨1, 2, some 1⟩, ⟨2, 3, some 0⟩] (fun _ => true) id id ⟨1, by decide⟩))).any
        fun s => decide (∀ i, (s.proc i).result = some (chainSetup i))) = true := by
    decide +kernel
  rw [Option.any_eq_true] at hfinal
  obtain ⟨s, hs, hdone⟩ := hfinal
  have hproc : ∀ i, s.proc i = .done (chainSetup i) :=
    fun i => Proc.eq_done_of_result (of_decide_eq_true hdone i)
  have hrun := run_of_schedule hs
  exact ⟨s, hrun, hproc, (establish_agrees 3 _ spanningTree_chain ⟨1, by decide⟩ rfl
    (Qsort.insertion (Node 3)) (fun _ => true) id id (fun _ => rfl) _ s hrun).2 chainSetup hproc⟩

end TorchIpc.Tree
