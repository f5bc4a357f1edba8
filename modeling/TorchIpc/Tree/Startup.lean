import TorchIpc.Base.Phases
import TorchIpc.Tree.AllReduce
import TorchIpc.Tree.TableSize

/-! The set-up of the tree comes to an end, whichever order the nodes connect in. Nodes race to
connect to the root, and the children of a node race to connect to it; both orders decide whom a
server asks first. For each such order every message of the set-up has its time: the root
registers its clients one after the other, the nodes deepest in the tree gather their children
first, and the start runs through the tree as a tour does. -/

namespace TorchIpc.Tree

open Network

/-! ### The planned tree -/

section
variable {n : ℕ} {links : List Link}

/-- A node that has a parent has one among the nodes. -/
noncomputable def plannedParent (links : List Link) (c : Node n) : Option (Node n) :=
  open Classical in if h : ∃ p : Node n, Up links c p then some h.choose else none

noncomputable def Established.planned (h : SpanningTree n links) : Established n links where
  conn c := ⟨some ((childrenOf links c).map fun x => ⟨x.1, x⟩), plannedParent links c⟩
  client_iff c p := by
    unfold plannedParent
    split_ifs with hex
    · have hup := hex.choose_spec
      rw [Option.some.injEq]
      constructor
      · intro hp
        exact hp ▸ hup
      · intro hp
        exact Subtype.ext (up_unique (h.parents_le_one hup) hup hp)
    · simpa using fun hp => hex ⟨p, hp⟩
  id_eq p x hx := by
    obtain ⟨c, -, rfl⟩ := List.mem_map.mp hx
    rfl
  nodup p := by
    simp only [Conn.held, Option.getD_some, List.map_map]
    exact (List.map_id _).symm ▸ Finset.sort_nodup _ _
  mem_iff p c := by
    simp only [Conn.held, Option.getD_some, List.map_map]
    change c ∈ (childrenOf links p).map id ↔ _
    rw [List.map_id, childrenOf, Finset.mem_sort, Finset.mem_filter]
    simp

/-- A rooted tree that is the planned one. -/
structure Planned (links : List Link) (R : Rooted (Node n)) : Prop where
  parent_iff : ∀ c p, R.parent c = some p ↔ Up links c p
  children_eq : ∀ p, R.children p = childrenOf links p

theorem Established.rooted_planned (E : Established n links) (h : SpanningTree n links) (hn : 1 ≤ n)
    (q : Qsort (Node n)) : Planned links (E.rooted h hn q) :=
  ⟨E.client_iff, E.clients_eq q⟩

theorem mem_childrenOf (c p : Node n) : c ∈ childrenOf links p ↔ Up links c p := by
  rw [childrenOf, Finset.mem_sort, Finset.mem_filter]
  simp

theorem nodup_childrenOf (p : Node n) : (childrenOf links p).Nodup := Finset.sort_nodup _ _

/-- Clients that have their indices as ids are visited in ascending order. -/
theorem visitOrder_ids (q : Qsort (Node n)) {held : List (Client (Node n))} {p : Node n}
    (hid : ∀ x ∈ held, x.id = x.peer) (hnd : (held.map Client.peer).Nodup)
    (hmem : ∀ c, c ∈ held.map Client.peer ↔ Up links c p) :
    visitOrder q held = childrenOf links p := by
  have hle : (visitOrder q held).Pairwise (· ≤ ·) := by
    rw [visitOrder, List.pairwise_map]
    apply (q.ordered false held).imp_of_mem
    intro x y hx hy hxy
    simpa [hid x ((q.perm false held).mem_iff.mp hx), hid y ((q.perm false held).mem_iff.mp hy)] using hxy
  have hperm : (visitOrder q held).Perm (childrenOf links p) := by
    rw [List.perm_ext_iff_of_nodup ((visitOrder_perm held).nodup_iff.mpr hnd) (nodup_childrenOf p)]
    intro c
    rw [(visitOrder_perm held).mem_iff, hmem, mem_childrenOf]
  exact hperm.eq_of_pairwise' hle (Finset.pairwise_sort _ _)

/-- A node that is settled has the connections of the tree. -/
theorem Settled.connOf {R : Rooted (Node n)} (hR : Planned links R) (q : Qsort (Node n)) {root i : Node n}
    {r : Setup (Node n)} (hr : Settled links root i r) : ConnOf R q r.conn i := by
  have hclients : ∀ invert, (r.conn.clients q invert).Perm (R.children i) := by
    intro invert
    rw [hR.children_eq, List.perm_ext_iff_of_nodup ((Conn.clients_perm q _ invert).nodup_iff.mpr hr.nodup)
      (nodup_childrenOf i)]
    intro c
    rw [(Conn.clients_perm q _ invert).mem_iff, hr.mem_iff, mem_childrenOf]
  refine ⟨?_, ?_, hclients true⟩
  · ext p
    rw [hr.client_iff, hR.parent_iff]
  · rw [hR.children_eq]
    exact visitOrder_ids q hr.id_eq hr.nodup hr.mem_iff

end

/-! ### Times -/

section
variable {n : ℕ} (q : Qsort (Node n)) (σ : Node n → List (Node n)) (R : Rooted (Node n))

/-- The order in which `p` visits the clients that have arrived as `σ` says, before they have
ids. -/
def turns (p : Node n) : List (Node n) := visitOrder q ((σ p).reverse.map (Client.mk 0))

def turn (p c : Node n) : ℕ := (turns q σ p).idxOf c

/-- When all children of `i` have connected to it. -/
def serveTime (i : Node n) : ℕ := 2 * n + 1 + (R.height - R.depth i) * (2 * n + 2)

def startTime : ℕ := serveTime R R.root + 2 * n

variable {q σ R}

theorem turns_perm (p : Node n) : (turns q σ p).Perm (σ p) := by
  have hpeers : ((σ p).reverse.map (Client.mk 0)).map Client.peer = (σ p).reverse := by
    rw [List.map_map]
    exact List.map_id _
  have := visitOrder_perm (q := q) ((σ p).reverse.map (Client.mk 0))
  rw [hpeers] at this
  exact this.trans (List.reverse_perm _)

theorem turn_eq {p c : Node n} {k : ℕ} (hnd : (σ p).Nodup) (h : (turns q σ p)[k]? = some c) :
    turn q σ p c = k := by
  obtain ⟨hk, hc⟩ := List.getElem?_eq_some_iff.mp h
  rw [turn, ← hc]
  exact ((turns_perm p).nodup_iff.mpr hnd).idxOf_getElem k hk

theorem turn_lt {p c : Node n} (h : c ∈ σ p) : turn q σ p c < (σ p).length := by
  rw [← (turns_perm (q := q) p).length_eq]
  exact List.idxOf_lt_length_of_mem ((turns_perm p).mem_iff.mpr h)

theorem le_serveTime (i : Node n) : 2 * n + 1 ≤ serveTime R i := Nat.le_add_right _ _

theorem serveTime_child {c p : Node n} (h : R.parent c = some p) :
    serveTime R c + (2 * n + 2) = serveTime R p := by
  have hdepth := R.depth_child c p h
  have hle := R.depth_le c
  have hlevel : R.height - R.depth p = R.height - R.depth c + 1 := by omega
  rw [serveTime, serveTime, hlevel]
  ring

theorem serveTime_root {i : Node n} (h : i ≠ R.root) :
    serveTime R i + (2 * n + 2) ≤ serveTime R R.root := by
  have hdepth : 1 ≤ R.depth i := by
    cases hp : R.parent i with
    | none => exact (h ((R.parent_eq_none i).mp hp)).elim
    | some p =>
      rw [R.depth_child i p hp]
      omega
  have hle := R.depth_le i
  rw [serveTime, serveTime, R.depth_root]
  have hlevel : R.height - R.depth i + 1 ≤ R.height - 0 := by omega
  have := Nat.mul_le_mul_right (2 * n + 2) hlevel
  rw [Nat.add_mul] at this
  omega

end

/-! ### Rules for the parts of the programs -/

section
variable {ι A α : Type} [DecidableEq ι] {P : α × List ι → Plan ι (Option (Signal A)) ℕ → Prop}
  {w : Plan ι (Option (Signal A)) ℕ} {peer : ι} {future : List ι} {t t' τ τ' : ℕ}
  {out inp rest : List (ℕ × Option (Signal A))}

theorem told_recv {m : Signal A} {k : Signal A → Boot ι A α} (t' : ℕ) (hm : m ≠ .closed)
    (hinp : w.inp peer = (τ, some m) :: rest) (ht : t ≤ t') (hτ : τ + 1 ≤ t')
    (hk : Conforms (· + 1) P ((k m).foretold future) t' (w.setInp peer rest)) :
    Conforms (· + 1) P ((recv peer >>= k).foretold future) t w := by
  rw [recv, bind_assoc]
  apply told_get hinp ht hτ
  cases m with
  | closed => exact (hm rfl).elim
  | _ => exact hk

theorem told_ask {m m' : Signal A} {k : Signal A → Boot ι A α} (t' : ℕ) (hm : m' ≠ .closed)
    (hout : w.out peer = (τ, some m) :: out) (hinp : w.inp peer = (τ', some m') :: inp) (ht : t ≤ τ)
    (ht' : t ≤ t') (hτ : τ' + 1 ≤ t')
    (hk : Conforms (· + 1) P ((k m').foretold future) t' ((w.setOut peer out).setInp peer inp)) :
    Conforms (· + 1) P ((Proc.put peer m >>= fun _ => recv peer >>= k).foretold future) t w := by
  apply told_put hout ht
  exact told_recv t' hm hinp ht' hτ hk

/-- The accept loop takes the connections in the order of the arrivals. -/
theorem told_acceptClients {guests : List ι} {held : List (Client ι)} {k : List (Client ι) → Boot ι A α}
    (t' : ℕ) (stamp : ι → ℕ) (rests : ι → List (ℕ × Option (Signal A))) (hnd : guests.Nodup)
    (hinp : ∀ c ∈ guests, w.inp c = (stamp c, none) :: rests c) (ht : t ≤ t')
    (hτ : ∀ c ∈ guests, stamp c + 1 ≤ t')
    (hk : Conforms (· + 1) P ((k (guests.reverse.map (Client.mk 0) ++ held)).foretold []) t'
      (w.setInps guests rests)) :
    Conforms (· + 1) P ((acceptClients guests.length held >>= k).foretold guests) t w := by
  induction guests generalizing held w t with
  | nil =>
    rw [Plan.setInps_nil] at hk
    exact hk.anti ht
  | cons c guests ih =>
    obtain ⟨hc, hnd⟩ := List.nodup_cons.mp hnd
    rw [List.length_cons, acceptClients, bind_assoc]
    apply told_answer (hinp c List.mem_cons_self) ht (hτ c List.mem_cons_self)
    apply ih hnd _ le_rfl fun c' hc' => hτ c' (List.mem_cons_of_mem c hc')
    · rw [Plan.setInps_cons w rests hc]
      simpa using hk
    · intro c' hc'
      have hne : c' ≠ c := fun h => hc (h ▸ hc')
      rw [Plan.setInp_inp_of_ne w hne, hinp c' (List.mem_cons_of_mem c hc')]

theorem told_register {numNodes i : ℕ} {addr : A} {addresses : ℕ → Option (Address A)}
    {k : (ℕ → Option (Address A)) → Boot ι A α} (r : ℕ)
    (hout : w.out peer = (2 * r + 1, some .askAddress) :: (2 * r + 3, some (.clientIndex i)) :: out)
    (hinp : w.inp peer = (2 * r + 2, some (.address (some i) addr)) :: inp)
    (hk : Conforms (· + 1) P ((k (Function.update addresses i (some ⟨i, addr⟩))).foretold future)
      (2 * (r + 1) + 1) ((w.setOut peer out).setInp peer inp)) :
    Conforms (· + 1) P ((register numNodes addresses peer >>= k).foretold future) (2 * r + 1) w := by
  rw [register]
  simp only [bind_assoc]
  apply told_ask (2 * (r + 1) + 1) (by simp) hout hinp le_rfl (by omega) (by omega)
  simp only [Option.getD_some, bind_assoc, pure_bind]
  have hnext : ((w.setOut peer ((2 * r + 3, some (.clientIndex i)) :: out)).setInp peer inp).out peer =
      (2 * r + 3, some (.clientIndex i)) :: out := Plan.setOut_out w peer _
  apply told_put hnext (by omega)
  have hplan : (((w.setOut peer ((2 * r + 3, some (.clientIndex i)) :: out)).setInp peer inp).setOut peer
      out) = (w.setOut peer out).setInp peer inp := by
    simp [Plan.setOut, Plan.setInp]
  rw [hplan]
  exact hk

theorem told_orderOrClose_order {i : ℕ} {s : List (Client ι) × List ι}
    {k : List (Client ι) × List ι → Boot ι A α} (hout : w.out peer = (t, some .askOrder) :: out)
    (hinp : w.inp peer = (t + 1, some (.order i)) :: inp)
    (hk : Conforms (· + 1) P ((k (setId s.1 peer i, s.2)).foretold future) (t + 2)
      ((w.setOut peer out).setInp peer inp)) :
    Conforms (· + 1) P ((orderOrClose s peer >>= k).foretold future) t w := by
  rw [orderOrClose, pcall_order]
  simp only [bind_assoc]
  apply told_put hout le_rfl
  exact told_get hinp (by omega) le_rfl hk

theorem told_orderOrClose_close {s : List (Client ι) × List ι}
    {k : List (Client ι) × List ι → Boot ι A α}
    (hout : w.out peer = (t, some .askOrder) :: (t, some .closed) :: out)
    (hinp : w.inp peer = (τ, some .closed) :: inp) (hτ : τ + 1 ≤ t)
    (hk : Conforms (· + 1) P ((k (removeClient s.1 peer, s.2 ++ [peer])).foretold future) (t + 2)
      ((w.setOut peer out).setInp peer inp)) :
    Conforms (· + 1) P ((orderOrClose s peer >>= k).foretold future) t w := by
  rw [orderOrClose, pcall_order]
  simp only [bind_assoc]
  apply told_put hout le_rfl
  refine told_get hinp le_rfl hτ ?_
  simp only [pure_bind, bind_assoc]
  have hnext : ((w.setOut peer ((t, some .closed) :: out)).setInp peer inp).out peer =
      (t, some .closed) :: out := Plan.setOut_out w peer _
  apply told_put hnext le_rfl
  have hplan : (((w.setOut peer ((t, some .closed) :: out)).setInp peer inp).setOut peer out) =
      (w.setOut peer out).setInp peer inp := by
    simp [Plan.setOut, Plan.setInp]
  rw [hplan]
  exact hk.anti (by omega)

theorem told_orderClient {i : ℕ} {held : List (Client ι)} {k : List (Client ι) → Boot ι A α}
    (hout : w.out peer = (t, some .askOrder) :: out)
    (hinp : w.inp peer = (t + 1, some (.order i)) :: inp)
    (hk : Conforms (· + 1) P ((k (setId held peer i)).foretold future) (t + 2)
      ((w.setOut peer out).setInp peer inp)) :
    Conforms (· + 1) P ((orderClient held peer >>= k).foretold future) t w := by
  rw [orderClient]
  simp only [bind_assoc]
  exact told_ask _ (by simp) hout hinp le_rfl (by omega) le_rfl hk

theorem told_startClient {k : Unit → Boot ι A α} (hout : w.out peer = (t, some .askStart) :: out)
    (hinp : w.inp peer = (τ, some .start) :: inp) (ht : t ≤ τ + 1)
    (hk : Conforms (· + 1) P ((k ()).foretold future) (τ + 1) ((w.setOut peer out).setInp peer inp)) :
    Conforms (· + 1) P ((startClient () peer >>= k).foretold future) t w := by
  rw [startClient]
  simp only [bind_assoc]
  exact told_ask _ (by simp) hout hinp le_rfl ht le_rfl hk

theorem told_answerOrder {i : ℕ} {k : Unit → Boot ι A α}
    (hout : w.out peer = (τ + 1, some (.order i)) :: out)
    (hinp : w.inp peer = (τ, some .askOrder) :: inp) (ht : t ≤ τ + 1)
    (hk : Conforms (· + 1) P ((k ()).foretold future) (τ + 1) ((w.setInp peer inp).setOut peer out)) :
    Conforms (· + 1) P ((answerOrder peer i >>= k).foretold future) t w := by
  rw [answerOrder]
  simp only [bind_assoc]
  apply told_recv _ (by simp) hinp ht le_rfl
  exact told_put hout le_rfl hk

end

/-! ### The script with its times -/

section
variable {n : ℕ} {A : Type} (links : List Link) (addr : Node n → A) (root : Node n) (q : Qsort (Node n))
  (σ : Node n → List (Node n)) (R : Rooted (Node n))

/-- What the root sends to `c` after the tree. -/
def timedRootTail (c : Node n) : List (ℕ × Option (Signal A)) :=
  (serveTime R root + 2 * turn q σ root c, some .askOrder) ::
    if Up links c root then [(startTime R + R.enter c, some .askStart)]
    else [(serveTime R root + 2 * turn q σ root c, some .closed)]

/-- What `c` sends to the root after its address. -/
def timedClientTail (c : Node n) : List (ℕ × Option (Signal A)) :=
  if Up links c root then
    [(serveTime R root + 2 * turn q σ root c + 1, some (.order c)), (startTime R + R.leave c, some .start)]
  else [(serveTime R c + 2 * n, some .closed)]

def timedScript (i j : Node n) : List (ℕ × Option (Signal A)) :=
  if i = root then
    if j = root then []
    else (2 * turn q σ root j + 1, some .askAddress) :: (2 * turn q σ root j + 3, some (.clientIndex j)) ::
      (2 * n, some (.tree (treeOf (knownAddresses addr) links))) :: timedRootTail links root q σ R j
  else if j = root then
    (0, none) :: (2 * turn q σ root i + 2, some (.address (some i) (addr i))) ::
      timedClientTail links root q σ R i
  else if Up links i j then
    [(serveTime R i + 2 * n + 1, none), (serveTime R j + 2 * turn q σ j i + 1, some (.order i)),
      (startTime R + R.leave i, some .start)]
  else if Up links j i then
    [(serveTime R i + 2 * turn q σ i j, some .askOrder), (startTime R + R.enter j, some .askStart)]
  else []

/-- The set-up is over at node `i`, and nothing is left to receive from its neighbours. -/
def Ready (i : Node n) (r : Setup (Node n)) (w : Plan (Node n) (Option (Signal A)) ℕ) : Prop :=
  Settled links root i r ∧ (∀ j : Node n, Up links i j ∨ Up links j i → w.inp j = []) ∧ w.guests = ∅

variable {links addr root q σ R} {sends : (ℕ → Option (Entry A)) → Bool}

/-- The start of the children of a node, one after the other. -/
theorem told_startClients {α : Type} {P : α × List (Node n) → Plan (Node n) (Option (Signal A)) ℕ → Prop}
    {w : Plan (Node n) (Option (Signal A)) ℕ} {p : Node n} {k : Unit → Boot (Node n) A α}
    {future : List (Node n)} {t : ℕ} (ht : t ≤ startTime R + R.enter p + 1)
    (hout : ∀ c ∈ R.children p, w.out c = [(startTime R + R.enter c, some .askStart)])
    (hinp : ∀ c ∈ R.children p, w.inp c = [(startTime R + R.leave c, some .start)])
    (hk : Conforms (· + 1) P ((k ()).foretold future) (startTime R + R.leave p)
      (w.setLinks (R.children p) (fun _ => []) fun _ => [])) :
    Conforms (· + 1) P (((R.children p).foldlM startClient () >>= k).foretold future) t w := by
  refine (told_foldlM (r := fun _ _ => ()) (fun i => startTime R + R.enter p + R.lap p i)
    (fun c => [(startTime R + R.enter c, some .askStart)])
    (fun c => [(startTime R + R.leave c, some .start)]) (fun _ => []) (fun _ => []) ?_ (R.nodup p) hout hinp
    ?_).anti ht
  · intro s i c hc w k ho hi hk
    have henter := R.enter_child hc
    have hleave := R.leave_child hc
    have hlap := R.lap_succ hc
    rw [henter, ← Nat.add_assoc] at ho
    apply told_startClient ho hi (by omega)
    have htime : startTime R + R.leave c + 1 = startTime R + R.enter p + R.lap p (i + 1) := by omega
    rw [htime]
    exact hk
  · have hleave := R.leave_eq p
    rw [hleave, ← Nat.add_assoc] at hk
    exact hk

/-- Replacing the links to the same peers twice. -/
theorem setLinks_after {ι M : Type} [DecidableEq ι] (w : Plan ι M ℕ) {cs cs' : List ι}
    (hmem : ∀ c, c ∈ cs ↔ c ∈ cs') (out inp inp' : ι → List (ℕ × M)) :
    (w.setInps cs' inp').setLinks cs out inp = w.setLinks cs' out inp := by
  unfold Plan.setLinks Plan.setOuts Plan.setInps
  congr 1
  · funext j
    simp only [hmem]
  · funext j
    simp only [hmem]
    split_ifs <;> rfl

/-- The children of a node other than the root connect to it and are ordered. -/
theorem told_serve {α : Type} {P : α × List (Node n) → Plan (Node n) (Option (Signal A)) ℕ → Prop}
    {i : Node n} {w : Plan (Node n) (Option (Signal A)) ℕ} {count : Option ℕ}
    {k : Option (List (Client (Node n))) → Boot (Node n) A α} {t : ℕ} (hR : Planned links R)
    (hnd : (σ i).Nodup) (hmem : ∀ c, c ∈ σ i ↔ Up links c i) (hcount : count.getD 0 = (σ i).length)
    (hout : ∀ c : Node n, Up links c i → w.out c = [(serveTime R i + 2 * turn q σ i c, some .askOrder),
      (startTime R + R.enter c, some .askStart)])
    (hinp : ∀ c : Node n, Up links c i → w.inp c = [(serveTime R c + 2 * n + 1, none),
      (serveTime R i + 2 * turn q σ i c + 1, some (.order c)),
      (startTime R + R.leave c, some .start)])
    (ht : t ≤ serveTime R i)
    (hk : ∀ server : Option (List (Client (Node n))), (∀ x ∈ server.getD [], x.id = x.peer) →
      ((server.getD []).map Client.peer).Nodup →
      (∀ c, c ∈ (server.getD []).map Client.peer ↔ Up links c i) →
      Conforms (· + 1) P ((k server).foretold []) (serveTime R i + 2 * n)
        (w.setLinks (σ i) (fun c => [(startTime R + R.enter c, some .askStart)])
          fun c => [(startTime R + R.leave c, some .start)])) :
    Conforms (· + 1) P ((serve q count >>= k).foretold (σ i)) t w := by
  unfold serve
  split_ifs with hpos
  · rw [hcount]
    simp only [bind_assoc, pure_bind]
    apply told_acceptClients (serveTime R i) (fun c => serveTime R c + 2 * n + 1)
      (fun c => [(serveTime R i + 2 * turn q σ i c + 1, some (.order c)),
        (startTime R + R.leave c, some .start)]) hnd (fun c hc => hinp c ((hmem c).mp hc)) ht
    · intro c hc
      have := serveTime_child ((hR.parent_iff c i).mpr ((hmem c).mp hc))
      omega
    rw [List.append_nil]
    have hcs : (turns q σ i).Nodup := (turns_perm i).nodup_iff.mpr hnd
    have hmemt : ∀ c, c ∈ turns q σ i ↔ c ∈ σ i := fun c => (turns_perm i).mem_iff
    have hlen : (turns q σ i).length ≤ n := by
      have := hcs.length_le_card
      simpa using this
    change Conforms _ P (Proc.foretold ((turns q σ i).foldlM orderClient _ >>= _) []) _ _
    refine told_foldlM (r := settle (fun _ => true) Subtype.val) (fun j => serveTime R i + 2 * j)
      (fun c => [(serveTime R i + 2 * turn q σ i c, some .askOrder),
        (startTime R + R.enter c, some .askStart)])
      (fun c => [(serveTime R i + 2 * turn q σ i c + 1, some (.order c)),
        (startTime R + R.leave c, some .start)])
      (fun c => [(startTime R + R.enter c, some .askStart)])
      (fun c => [(startTime R + R.leave c, some .start)]) ?_ hcs ?_ ?_ ?_
    · intro s j c hc w k ho hi hk
      rw [turn_eq hnd hc] at ho hi
      exact told_orderClient ho hi hk
    · intro c hc
      exact hout c ((hmem c).mp ((hmemt c).mp hc))
    · intro c hc
      exact if_pos ((hmemt c).mp hc)
    · rw [setLinks_after w hmemt]
      set held := (σ i).reverse.map (Client.mk 0) with hheld
      have hpeers' : held.map Client.peer = (σ i).reverse := by
        rw [hheld, List.map_map]
        exact List.map_id _
      obtain ⟨hpeers, hids⟩ := settled (fun _ => true) Subtype.val hcs held fun x hx => by
        rw [hmemt, ← List.mem_reverse, ← hpeers']
        exact List.mem_map_of_mem hx
      rw [List.filter_true, hpeers'] at hpeers
      apply (hk (some _) hids _ _).anti (by omega)
      · rw [Option.getD_some, hpeers]
        exact List.nodup_reverse.mpr hnd
      · intro c
        rw [Option.getD_some, hpeers, List.mem_reverse, hmem]
  · have hempty : σ i = [] := List.eq_nil_of_length_eq_zero (by omega)
    have hnone := hk none (by simp) (by simp) fun c => by
      rw [← hmem c, hempty]
      simp
    rw [hempty] at hnone ⊢
    simp only [pure_bind]
    simpa [Plan.setLinks] using hnone.anti (show t ≤ _ by omega)

/-- The last part at a node other than the root. -/
theorem told_finish {P : Setup (Node n) × List (Node n) → Plan (Node n) (Option (Signal A)) ℕ → Prop}
    {w : Plan (Node n) (Option (Signal A)) ℕ} {server : Option (List (Client (Node n)))}
    {i client : Node n} {closed : List (Node n)} {rest : List (ℕ × Option (Signal A))} {t : ℕ}
    (hR : Planned links R) (hid : ∀ x ∈ server.getD [], x.id = x.peer)
    (hnd : ((server.getD []).map Client.peer).Nodup)
    (hmem : ∀ c, c ∈ (server.getD []).map Client.peer ↔ Up links c i) (hne : ¬ Up links client i)
    (hout : w.out client = [(startTime R + R.leave i, some .start)])
    (hinp : w.inp client = (startTime R + R.enter i, some .askStart) :: rest)
    (hcs : ∀ c : Node n, Up links c i → w.out c = [(startTime R + R.enter c, some .askStart)] ∧
      w.inp c = [(startTime R + R.leave c, some .start)])
    (hrest : ∀ c : Node n, ¬ Up links c i → c ≠ client → w.out c = []) (hdials : w.dials = ∅)
    (ht : t ≤ startTime R + R.enter i + 1)
    (hP : ∀ w', w'.inp client = rest → (∀ c : Node n, Up links c i → w'.inp c = []) →
      w'.guests = w.guests → P (⟨⟨server, some client⟩, closed⟩, []) w') :
    Conforms (· + 1) P ((finish q server client closed).foretold []) t w := by
  have hchild : ∀ c, c ∈ R.children i ↔ Up links c i := fun c => by
    rw [hR.children_eq, mem_childrenOf]
  have hcc : ∀ c : Node n, Up links c i → c ≠ client := fun c hc he => hne (he ▸ hc)
  unfold finish
  refine told_recv _ (by simp) hinp ht le_rfl ?_
  dsimp only
  rw [visitOrder_ids q hid hnd hmem, ← hR.children_eq]
  apply told_startClients le_rfl
  · intro c hc
    exact (hcs c ((hchild c).mp hc)).1
  · intro c hc
    rw [Plan.setInp_inp_of_ne w (hcc c ((hchild c).mp hc))]
    exact (hcs c ((hchild c).mp hc)).2
  · have hnot : client ∉ R.children i := fun hc => hne ((hchild client).mp hc)
    have hlast : ((w.setInp client rest).setLinks (R.children i) (fun _ => []) fun _ => []).out client =
        [(startTime R + R.leave i, some .start)] := by
      rw [Plan.setLinks_out_of_notMem _ hnot]
      exact hout
    refine told_put hlast le_rfl ⟨⟨fun c => ?_, hdials⟩, hP _ ?_ (fun c hc => ?_) rfl⟩
    · by_cases hc : c = client
      · rw [hc, Plan.setOut_out]
      · rw [Plan.setOut_out_of_ne _ hc, Plan.setLinks_out]
        split_ifs with hv
        · rfl
        · exact hrest c (fun h => hv ((hchild c).mpr h)) hc
    · have hleft : ((w.setInp client rest).setLinks (R.children i) (fun _ => []) fun _ => []).inp client =
          rest := by
        rw [Plan.setLinks_inp_of_notMem _ hnot, Plan.setInp_inp]
      exact hleft
    · exact if_pos ((hchild c).mpr hc)

/-- Once the children are ordered: the parent, and the start. -/
theorem told_join {w : Plan (Node n) (Option (Signal A)) ℕ} {server : Option (List (Client (Node n)))}
    {resolve : A → Node n} {i p : Node n} (hR : Planned links R) (hRroot : R.root = root)
    (hroot : root.1 = 1) (hres : ∀ i, resolve (addr i) = i) (hi : i ≠ root)
    (huniq : ∀ b : Node n, Up links i b ↔ b = p) (hturn : turn q σ p i < n)
    (hid : ∀ x ∈ server.getD [], x.id = x.peer) (hnd : ((server.getD []).map Client.peer).Nodup)
    (hmem : ∀ c, c ∈ (server.getD []).map Client.peer ↔ Up links c i) (hri : ¬ Up links root i)
    (hpi : ¬ Up links p i) (hout : w.out root = timedClientTail links root q σ R i)
    (hinp : w.inp root = timedRootTail links root q σ R i)
    (houtp : p ≠ root → w.out p = [(serveTime R i + 2 * n + 1, none),
      (serveTime R p + 2 * turn q σ p i + 1, some (.order i)),
      (startTime R + R.leave i, some .start)])
    (hinpp : p ≠ root → w.inp p = [(serveTime R p + 2 * turn q σ p i, some .askOrder),
      (startTime R + R.enter i, some .askStart)])
    (hcs : ∀ c : Node n, Up links c i → w.out c = [(startTime R + R.enter c, some .askStart)] ∧
      w.inp c = [(startTime R + R.leave c, some .start)])
    (hrest : ∀ c : Node n, ¬ Up links c i → c ≠ root → c ≠ p → w.out c = []) (hdials : w.dials = ∅)
    (hguests : w.guests = ∅) (hsettled : ∀ closed, Settled links root i ⟨⟨server, some p⟩, closed⟩) :
    Conforms (· + 1) (fun r w => Ready links root i r.1 w)
      ((join resolve root i (some ⟨p, addr p⟩) >>= fun r => finish q server r.1 r.2).foretold [])
      (serveTime R i + 2 * n) w := by
  have hready : ∀ (closed : List (Node n)) (w' : Plan (Node n) (Option (Signal A)) ℕ),
      w'.inp p = [] →
        (∀ c : Node n, Up links c i → w'.inp c = []) → w'.guests = ∅ →
        Ready links root i ⟨⟨server, some p⟩, closed⟩ w' := by
    intro closed w' hp hc hg
    refine ⟨hsettled closed, fun j hj => ?_, hg⟩
    rcases hj with hj | hj
    · rw [(huniq j).mp hj]
      exact hp
    · exact hc j hj
  have hcr : ∀ c : Node n, Up links c i → c ≠ root := fun c hc he => hri (he ▸ hc)
  have hcp : ∀ c : Node n, Up links c i → c ≠ p := fun c hc he => hpi (he ▸ hc)
  have hbefore : serveTime R i + (2 * n + 2) ≤ serveTime R root := by
    have := serveTime_root (R := R) (i := i) (by rwa [hRroot])
    rwa [hRroot] at this
  have hstart : startTime R = serveTime R root + 2 * n := by rw [startTime, hRroot]
  unfold join
  by_cases hp : p = root
  · -- the parent is the root
    subst hp
    have hup : Up links i p := (huniq p).mpr rfl
    rw [timedClientTail, if_pos hup] at hout
    rw [timedRootTail, if_pos hup] at hinp
    simp only [hroot, if_true, bind_assoc, pure_bind]
    refine told_answerOrder hout hinp (by omega) ?_
    refine told_finish hR hid hnd hmem hpi (Plan.setOut_out _ p _) (Plan.setInp_inp w p _) ?_ ?_ ?_ ?_ ?_
    · intro c hc
      rw [Plan.setOut_out_of_ne _ (hcr c hc)]
      exact ⟨(hcs c hc).1, (Plan.setInp_inp_of_ne w (hcr c hc) _).trans (hcs c hc).2⟩
    · intro c hc hcp
      rw [Plan.setOut_out_of_ne _ hcp]
      exact hrest c hc hcp hcp
    · exact hdials
    · omega
    · intro w' hw hc hg
      exact hready [] w' hw hc (hg.trans hguests)
  · -- a new parent is required
    have hp1 : p.1 ≠ 1 := fun hc => hp (Subtype.ext (hc.trans hroot.symm))
    have hstay : ¬ Up links i root := fun hu => hp ((huniq root).mp hu).symm
    have hlater : serveTime R i + (2 * n + 2) = serveTime R p :=
      serveTime_child ((hR.parent_iff i p).mpr ((huniq p).mpr rfl))
    have hearly : serveTime R p + (2 * n + 2) ≤ serveTime R root := by
      have := serveTime_root (R := R) (i := p) (by rwa [hRroot])
      rwa [hRroot] at this
    rw [timedClientTail, if_neg hstay] at hout
    simp only [hp1, if_false, hres, bind_assoc, pure_bind]
    refine told_put hout le_rfl ?_
    refine told_dial ((Plan.setOut_out_of_ne w hp _).trans (houtp hp)) (by omega) ?_
    refine told_answerOrder (Plan.setOut_out _ p _) (hinpp hp) (by omega) ?_
    refine told_finish hR hid hnd hmem hpi (Plan.setOut_out _ p _) (Plan.setInp_inp _ p _) ?_ ?_ ?_ ?_ ?_
    · intro c hc
      rw [Plan.setOut_out_of_ne _ (hcp c hc)]
      exact ⟨(Plan.setOut_out_of_ne _ (hcp c hc) _).trans
        ((Plan.setOut_out_of_ne w (hcr c hc) _).trans (hcs c hc).1),
        (Plan.setInp_inp_of_ne _ (hcp c hc) _).trans (hcs c hc).2⟩
    · intro c hc hcp
      rw [Plan.setOut_out_of_ne _ hcp]
      refine (Plan.setOut_out_of_ne _ hcp _).trans ?_
      by_cases hcr : c = root
      · rw [hcr]
        exact Plan.setOut_out w root _
      · exact (Plan.setOut_out_of_ne w hcr _).trans (hrest c hc hcr hcp)
    · exact hdials
    · omega
    · intro w' hw hc hg
      exact hready [root] w' hw hc (hg.trans hguests)

/-- The messages between a node and its child, both other than the root. -/
theorem timedScript_child (h : SpanningTree n links) (hroot : root.1 = 1) {c p : Node n} (hp : p ≠ root)
    (hcp : Up links c p) :
    timedScript links addr root q σ R c p = [(serveTime R c + 2 * n + 1, none),
        (serveTime R p + 2 * turn q σ p c + 1, some (.order c)),
        (startTime R + R.leave c, some .start)] ∧
      timedScript links addr root q σ R p c = [(serveTime R p + 2 * turn q σ p c, some .askOrder),
        (startTime R + R.enter c, some .askStart)] := by
  have hc : c ≠ root := by
    intro he
    rw [he, hroot] at hcp
    exact h.not_up_one p hcp
  constructor
  · rw [timedScript, if_neg hc, if_neg hp, if_pos hcp]
  · rw [timedScript, if_neg hp, if_neg hc, if_neg (h.not_up_symm hcp), if_pos hcp]

/-- The arrivals at a node other than the root are its children. -/
theorem mem_arrivals (h : SpanningTree n links) (hroot : root.1 = 1)
    (hσ : Arrivals (bootGuests links root) σ) {i : Node n} (hi : i ≠ root) (c : Node n) :
    c ∈ σ i ↔ Up links c i := by
  rw [(hσ i).2, bootGuests, Finset.mem_filter]
  simp only [Finset.mem_univ, true_and, hi, false_or]
  refine ⟨fun hc => hc.2, fun hc => ⟨fun he => ?_, hc⟩⟩
  rw [he, hroot] at hc
  exact h.not_up_one i hc

theorem mem_arrivals_root (hσ : Arrivals (bootGuests links root) σ) (c : Node n) :
    c ∈ σ root ↔ c ≠ root := by
  rw [(hσ root).2, bootGuests, Finset.mem_filter]
  simp

theorem turn_lt_arrivals (hσ : Arrivals (bootGuests links root) σ) {p c : Node n} (hc : c ∈ σ p) :
    turn q σ p c + 1 < n := by
  have hnot : root ∉ σ p := by
    rw [(hσ p).2, bootGuests, Finset.mem_filter]
    simp
  have hlen : (root :: σ p).length ≤ n := by
    have := (List.nodup_cons.mpr ⟨hnot, (hσ p).1⟩).length_le_card
    simpa using this
  have := turn_lt (q := q) hc
  rw [List.length_cons] at hlen
  omega

/-- From the tree on: the children, the parent, and the start. -/
theorem told_place (h : SpanningTree n links) (hR : Planned links R) (hRroot : R.root = root)
    (hroot : root.1 = 1) (hσ : Arrivals (bootGuests links root) σ) {resolve : A → Node n}
    (hres : ∀ i, resolve (addr i) = i) {i p : Node n} (hi : i ≠ root) (hip : Up links i p) {node : Entry A}
    (hconnect : node.connect = some ⟨p, addr p⟩) (hlisten : node.listen.getD 0 = listen links i)
    {w : Plan (Node n) (Option (Signal A)) ℕ} {t : ℕ} (ht : t ≤ 2 * n + 1)
    (hout : w.out root = timedClientTail links root q σ R i)
    (hinp : w.inp root = timedRootTail links root q σ R i)
    (hout' : ∀ j, j ≠ root → w.out j = timedScript links addr root q σ R i j)
    (hinp' : ∀ j, j ≠ root → w.inp j = timedScript links addr root q σ R j i) (hdials : w.dials = ∅)
    (hguests : w.guests = ∅) :
    Conforms (· + 1) (fun r w => Ready links root i r.1 w)
      ((serve q node.listen >>= fun server => join resolve root i node.connect >>= fun r =>
        finish q server r.1 r.2).foretold (σ i)) t w := by
  have huniq : ∀ b : Node n, Up links i b ↔ b = p :=
    fun b => ⟨fun hb => Subtype.ext (up_unique (h.parents_le_one hb) hb hip), fun hb => hb ▸ hip⟩
  have hmemσ := mem_arrivals h hroot hσ hi
  have hchild : ∀ c : Node n, Up links c i → c ≠ root := by
    intro c hc he
    rw [he, hroot] at hc
    exact h.not_up_one i hc
  have hlen : (σ i).length = listen links i := by
    rw [← card_children h, ← List.toFinset_card_of_nodup (hσ i).1]
    congr 1
    ext c
    simp [hmemσ c]
  have hturn : turn q σ p i < n := by
    have hmem : i ∈ σ p := by
      rw [(hσ p).2, bootGuests, Finset.mem_filter]
      exact ⟨Finset.mem_univ i, hi, .inr hip⟩
    have := turn_lt_arrivals (q := q) hσ hmem
    omega
  apply told_serve hR (hσ i).1 hmemσ (hlisten.trans hlen.symm)
  · intro c hc
    rw [hout' c (hchild c hc), (timedScript_child h hroot hi hc).2]
  · intro c hc
    rw [hinp' c (hchild c hc), (timedScript_child h hroot hi hc).1]
  · exact ht.trans (le_serveTime i)
  intro server hids hnd hmem
  have hri : ¬ Up links root i := fun hc => hchild root hc rfl
  have hpi : ¬ Up links p i := h.not_up_symm hip
  have hnot : ∀ j : Node n, ¬ Up links j i → j ∉ σ i := fun j hj hc => hj ((hmemσ j).mp hc)
  rw [hconnect]
  apply told_join hR hRroot hroot hres hi huniq hturn hids hnd hmem hri hpi
  · rw [Plan.setLinks_out_of_notMem _ (hnot root hri), hout]
  · rw [Plan.setLinks_inp_of_notMem _ (hnot root hri), hinp]
  · intro hp
    rw [Plan.setLinks_out_of_notMem _ (hnot p hpi), hout' p hp, (timedScript_child h hroot hp hip).1]
  · intro hp
    rw [Plan.setLinks_inp_of_notMem _ (hnot p hpi), hinp' p hp, (timedScript_child h hroot hp hip).2]
  · intro c hc
    exact ⟨if_pos ((hmemσ c).mpr hc), if_pos ((hmemσ c).mpr hc)⟩
  · intro c hc hcr hcp
    rw [Plan.setLinks_out_of_notMem _ (hnot c hc), hout' c hcr, timedScript, if_neg hi, if_neg hcr,
      if_neg fun hu => hcp ((huniq c).mp hu), if_neg hc]
  · exact hdials
  · exact hguests
  · intro closed
    refine ⟨fun b => ?_, hids, hnd, hmem, fun he => absurd he hi⟩
    rw [Option.some.injEq, huniq]
    exact eq_comm

/-- A node other than the root keeps to the times. -/
theorem told_initialClient (h : SpanningTree n links) (hR : Planned links R) (hRroot : R.root = root)
    (hroot : root.1 = 1) (hσ : Arrivals (bootGuests links root) σ) {resolve : A → Node n}
    (hres : ∀ i, resolve (addr i) = i) {i : Node n} (hi : i ≠ root) :
    Conforms (· + 1) (fun r w => Ready links root i r.1 w)
      ((initialClient q resolve root (some i.1) (addr i)).foretold (σ i)) 0
      (planOf (timedScript links addr root q σ R) i) := by
  have hi1 : i.1 ≠ 1 := fun hc => hi (Subtype.ext (hc.trans hroot.symm))
  obtain ⟨b, hib⟩ := h.exists_up i.2 hi1
  obtain ⟨p, rfl⟩ : ∃ p : Node n, p.1 = b := ⟨⟨b, (h.mem_of_up hib).2⟩, rfl⟩
  obtain ⟨node, hnode, hconnect, hlisten⟩ := treeOf_known h addr hib
  have hturn := turn_lt_arrivals (q := q) hσ ((mem_arrivals_root hσ i).mpr hi)
  have hdown : timedScript links addr root q σ R root i = (2 * turn q σ root i + 1, some .askAddress) ::
      (2 * turn q σ root i + 3, some (.clientIndex i)) ::
      (2 * n, some (.tree (treeOf (knownAddresses addr) links))) :: timedRootTail links root q σ R i := by
    rw [timedScript, if_pos rfl, if_neg hi]
  have hup : timedScript links addr root q σ R i root = (0, none) ::
      (2 * turn q σ root i + 2, some (.address (some i) (addr i))) :: timedClientTail links root q σ R i := by
    rw [timedScript, if_neg hi, if_pos rfl]
  unfold initialClient
  refine told_dial hup le_rfl ?_
  refine told_recv (2 * turn q σ root i + 2) (by simp) hdown (by omega) le_rfl ?_
  refine told_put (Plan.setOut_out _ root _) le_rfl ?_
  refine told_recv (2 * turn q σ root i + 4) (by simp) (Plan.setInp_inp _ root _) (by omega) le_rfl ?_
  refine told_recv (2 * n + 1) (by simp) (Plan.setInp_inp _ root _) (by omega) le_rfl ?_
  simp only [pure_bind, hnode]
  refine told_place h hR hRroot hroot hσ hres hi hib hconnect hlisten le_rfl (Plan.setOut_out _ root _)
    (Plan.setInp_inp _ root _) (fun j hj => ?_) (fun j hj => ?_) rfl rfl
  · refine (Plan.setOut_out_of_ne _ hj _).trans ?_
    exact Plan.setOut_out_of_ne _ hj _
  · rw [Plan.setInp_setInp, Plan.setInp_inp_of_ne _ hj]
    exact Plan.setInp_inp_of_ne _ hj _

theorem told_initialServer (h : SpanningTree n links) (hR : Planned links R) (hRroot : R.root = root)
    (hroot : root.1 = 1) (hσ : Arrivals (bootGuests links root) σ)
    (hsends : sends (treeOf (knownAddresses addr) links) = true) :
    Conforms (· + 1) (fun r w => Ready links root root r.1 w)
      ((initialServer q n links sends root (addr root)).foretold (σ root)) 0
      (planOf (timedScript links addr root q σ R) root) := by
  have hup : ∀ p, ¬ Up links root p := fun p hp => h.not_up_one p (hroot ▸ hp)
  have hnd := (hσ root).1
  have hmem := mem_arrivals_root hσ
  have hlen : n - 1 = (σ root).length := by
    have hset : (σ root).toFinset = Finset.univ.erase root := by
      ext c
      simp [hmem c]
    rw [← List.toFinset_card_of_nodup hnd, hset, Finset.card_erase_of_mem (Finset.mem_univ root),
      Finset.card_univ]
    simp
  have hcs : (turns q σ root).Nodup := (turns_perm root).nodup_iff.mpr hnd
  have hmemt : ∀ c, c ∈ turns q σ root ↔ c ∈ σ root := fun c => (turns_perm root).mem_iff
  have hne : ∀ c ∈ turns q σ root, c ≠ root := fun c hc => (hmem c).mp ((hmemt c).mp hc)
  have hcount : (turns q σ root).length + 1 = n := by
    have := (turns_perm (q := q) (σ := σ) root).length_eq
    have := Finset.mem_Icc.mp root.2
    omega
  have hlater : ∀ c : Node n, c ≠ root → serveTime R c + (2 * n + 2) ≤ serveTime R root := by
    intro c hc
    have := serveTime_root (R := R) (i := c) (by rwa [hRroot])
    rwa [hRroot] at this
  have hscript : ∀ c : Node n, c ≠ root → timedScript links addr root q σ R root c =
      (2 * turn q σ root c + 1, some .askAddress) :: (2 * turn q σ root c + 3, some (.clientIndex c)) ::
      (2 * n, some (.tree (treeOf (knownAddresses addr) links))) :: timedRootTail links root q σ R c := by
    intro c hc
    rw [timedScript, if_pos rfl, if_neg hc]
  have hscript' : ∀ c : Node n, c ≠ root → timedScript links addr root q σ R c root =
      (0, none) :: (2 * turn q σ root c + 2, some (.address (some c) (addr c))) ::
      timedClientTail links root q σ R c := by
    intro c hc
    rw [timedScript, if_neg hc, if_pos rfl]
  rw [initialServer, hlen]
  apply told_acceptClients 1 (fun _ => 0)
    (fun c => (2 * turn q σ root c + 2, some (.address (some c) (addr c))) ::
      timedClientTail links root q σ R c) hnd (fun c hc => hscript' c ((hmem c).mp hc)) (by omega)
    (fun _ _ => le_rfl)
  rw [List.append_nil]
  have hheld : visitOrder q ((σ root).reverse.map (Client.mk 0)) = turns q σ root := rfl
  rw [hheld]
  -- the addresses
  refine told_foldlM (r := fun a (c : Node n) => Function.update a c.1 (some ⟨c.1, addr c⟩))
    (fun i => 2 * i + 1)
    (fun c => (2 * turn q σ root c + 1, some .askAddress) ::
      (2 * turn q σ root c + 3, some (.clientIndex c)) ::
      (2 * n, some (.tree (treeOf (knownAddresses addr) links))) :: timedRootTail links root q σ R c)
    (fun c => (2 * turn q σ root c + 2, some (.address (some c) (addr c))) ::
      timedClientTail links root q σ R c)
    (fun c => (2 * n, some (.tree (treeOf (knownAddresses addr) links))) :: timedRootTail links root q σ R c)
    (fun c => timedClientTail links root q σ R c) ?_ hcs (fun c hc => hscript c (hne c hc))
    (fun c hc => if_pos ((hmemt c).mp hc)) ?_
  · intro s i c hc w k ho hi hk
    rw [turn_eq hnd hc] at ho hi
    exact told_register i ho hi hk
  rw [foldl_register addr root fun c => (hmemt c).trans (hmem c), setLinks_after _ hmemt]
  -- the tree
  simp only [broadcast, hsends, if_true]
  refine (told_foldlM (r := fun _ _ => ()) (fun _ => 2 * n)
    (fun c => (2 * n, some (.tree (treeOf (knownAddresses addr) links))) :: timedRootTail links root q σ R c)
    (fun c => timedClientTail links root q σ R c) (fun c => timedRootTail links root q σ R c)
    (fun c => timedClientTail links root q σ R c) ?_ hcs (fun c hc => if_pos ((hmemt c).mp hc))
    (fun c hc => if_pos ((hmemt c).mp hc)) ?_).anti (by omega)
  · intro s i c hc w k ho hi hk
    apply told_put ho le_rfl
    rwa [Plan.setInp_self (show (w.setOut c _).inp c = _ from hi)] at hk
  -- the order
  refine (told_foldlM (r := fun s (c : Node n) =>
      (settle (isChild links root) Subtype.val s.1 c,
        if isChild links root c then s.2 else s.2 ++ [c]))
    (fun i => serveTime R root + 2 * i)
    (fun c => timedRootTail links root q σ R c) (fun c => timedClientTail links root q σ R c)
    (fun c => if Up links c root then [(startTime R + R.enter c, some .askStart)] else [])
    (fun c => if Up links c root then [(startTime R + R.leave c, some .start)] else []) ?_ hcs
    (fun c hc => if_pos hc) (fun c hc => if_pos hc) ?_).anti ?_
  · intro s i c hc w k ho hi hk
    have hcr := hne c (List.mem_of_getElem? hc)
    rw [timedRootTail, turn_eq hnd hc] at ho
    rw [timedClientTail, turn_eq hnd hc] at hi
    by_cases hu : Up links c root
    · simp only [settle, isChild, hu, decide_true, if_true] at hk
      rw [if_pos hu] at ho hi
      exact told_orderOrClose_order ho hi hk
    · simp only [settle, isChild, hu, decide_false, Bool.false_eq_true, if_false] at hk
      rw [if_neg hu] at ho hi
      have := hlater c hcr
      exact told_orderOrClose_close ho hi (by omega) hk
  swap
  · have := le_serveTime (R := R) root
    omega
  rw [Plan.setLinks_setLinks, foldl_pair (settle (isChild links root) Subtype.val)
    (fun l c => if isChild links root c then l else l ++ [c]), foldl_closed, List.nil_append]
  have hpeers' : ((σ root).reverse.map (Client.mk 0)).map Client.peer = (σ root).reverse := by
    rw [List.map_map]
    exact List.map_id _
  obtain ⟨hpeers, hids⟩ := settled (isChild links root) Subtype.val hcs
    ((σ root).reverse.map (Client.mk 0)) fun x hx => by
      rw [hmemt, ← List.mem_reverse, ← hpeers']
      exact List.mem_map_of_mem hx
  rw [hpeers'] at hpeers
  generalize (turns q σ root).foldl (settle (isChild links root) Subtype.val)
    ((σ root).reverse.map (Client.mk 0)) = kept at hpeers hids ⊢
  have hmemk : ∀ c, c ∈ kept.map Client.peer ↔ Up links c root := by
    intro c
    rw [hpeers, List.mem_filter, List.mem_reverse, hmem, isChild, decide_eq_true_eq]
    exact ⟨fun hc => hc.2, fun hc => ⟨fun he => hup root (he ▸ hc), hc⟩⟩
  have hkept : (kept.map Client.peer).Nodup := hpeers ▸ (List.nodup_reverse.mpr hnd).filter _
  have hchild : ∀ c, c ∈ R.children root ↔ Up links c root := fun c => by
    rw [hR.children_eq, mem_childrenOf]
  have hsub : ∀ c ∈ R.children root, c ∈ turns q σ root := by
    intro c hc
    rw [hmemt, hmem]
    exact fun he => hup root (he ▸ (hchild c).mp hc)
  -- the start
  rw [visitOrder_ids q hids hkept hmemk, ← hR.children_eq]
  apply told_startClients
  · rw [startTime, hRroot]
    omega
  · intro c hc
    rw [Plan.setLinks_out, if_pos (hsub c hc), if_pos ((hchild c).mp hc)]
  · intro c hc
    rw [Plan.setLinks_inp, if_pos (hsub c hc), if_pos ((hchild c).mp hc)]
  refine ⟨⟨fun c => ?_, rfl⟩, ⟨fun p => ?_, hids, hkept, hmemk, fun _ c => ?_⟩, fun j hj => ?_, rfl⟩
  · rw [Plan.setLinks_out, Plan.setLinks_out]
    split_ifs with hc hr hu
    · rfl
    · exact absurd ((hchild c).mpr hu) hc
    · rfl
    · rw [hmemt, hmem, not_not] at hr
      subst hr
      rw [Plan.setLinks_out, if_neg fun hc => (hmem c).mp hc rfl]
      simp [planOf, timedScript]
  · simpa using hup p
  · rw [List.mem_filter, hmemt, hmem]
    simp [isChild]
  · rcases hj with hj | hj
    · exact (hup j hj).elim
    · exact if_pos ((hchild j).mpr hj)

theorem told_establish (h : SpanningTree n links) (hR : Planned links R) (hRroot : R.root = root)
    (hroot : root.1 = 1) (hσ : Arrivals (bootGuests links root) σ) {resolve : A → Node n}
    (hres : ∀ i, resolve (addr i) = i) (hsends : sends (treeOf (knownAddresses addr) links) = true)
    (i : Node n) :
    Conforms (· + 1) (fun r w => Ready links root i r.1 w)
      ((establish q links sends resolve addr root i).foretold (σ i)) 0
      (planOf (timedScript links addr root q σ R) i) := by
  unfold establish
  split_ifs with hi
  · subst hi
    exact told_initialServer h hR hRroot hroot hσ hsends
  · exact told_initialClient h hR hRroot hroot hσ hres hi

/-- A node connects once to each node whose guest it is. -/
theorem calls_timedScript (i j : Node n) :
    calls (timedScript links addr root q σ R i j) ≤ if i ∈ bootGuests links root j then 1 else 0 := by
  have hroot : ∀ c, calls (timedRootTail (A := A) links root q σ R c) = 0 := by
    intro c
    unfold timedRootTail
    split_ifs <;> rfl
  have hclient : ∀ c, calls (timedClientTail (A := A) links root q σ R c) = 0 := by
    intro c
    unfold timedClientTail
    split_ifs <;> rfl
  unfold calls at hroot hclient
  unfold timedScript bootGuests
  by_cases hi : i = root
  · by_cases hj : j = root <;> simp [hi, hj, calls, hroot]
  · by_cases hj : j = root
    · simp [hi, hj, calls, hclient]
    · by_cases hij : Up links i j
      · simp [hi, hj, hij, calls]
      · by_cases hji : Up links j i <;> simp [hi, hj, hij, hji, calls]

end

/-- If the root can send the tree, the set-up comes to an end in every interleaving, however the
nodes race to connect, and each node is then connected as planned. -/
theorem establish_finishes (n : ℕ) (links : List Link) (h : SpanningTree n links) (root : Node n)
    (hroot : root.1 = 1) (q : Qsort (Node n)) {A : Type} (sends : (ℕ → Option (Entry A)) → Bool)
    (addr : Node n → A) (resolve : A → Node n) (hres : ∀ i, resolve (addr i) = i)
    (hsends : sends (treeOf (knownAddresses addr) links) = true) :
    Finishes (establish q links sends resolve addr root) (Settled links root) := by
  have hn : 1 ≤ n := by
    have := Finset.mem_Icc.mp root.2
    omega
  have hR := (Established.planned h).rooted_planned h hn q
  have hRroot : ((Established.planned h).rooted h hn q).root = root := Subtype.ext hroot.symm
  apply finishes_of_foretold (fun τ => Nat.lt_succ_self τ) (bootGuests links root)
    (fun σ => timedScript links addr root q σ ((Established.planned h).rooted h hn q)) 0
  · intro σ hσ i
    exact (told_establish h hR hRroot hroot hσ hres hsends i).mono fun r w hr => hr.1
  · intro σ _ i j
    exact calls_timedScript i j

/-- The nodes of a chain of three listen on this machine. -/
def chainAddr (i : Node 3) : HostPort := ⟨localAddress.host, .number (8080 + i.1)⟩

def chainResolve (a : HostPort) : Node 3 :=
  match a.port with
  | .number port => if h : port - 8080 ∈ Finset.Icc 1 3 then ⟨port - 8080, h⟩ else ⟨1, one_mem_three⟩
  | .string _ => ⟨1, one_mem_three⟩

theorem chainResolve_chainAddr (i : Node 3) : chainResolve (chainAddr i) = i := by
  simp [chainResolve, chainAddr]

theorem chain_hasRoom :
    hasRoom sampleLua 3 (treeOf (knownAddresses chainAddr) [⟨1, 2, some 1⟩, ⟨2, 3, some 0⟩]) =
      true := by
  rw [hasRoom_eq]
  decide

/-- A chain of three nodes, in which node `3` leaves the root for node `2`. -/
theorem establish_finishes_chain : SpanningTree 3 [⟨1, 2, some 1⟩, ⟨2, 3, some 0⟩] ∧
    Finishes (establish (Qsort.insertion (Node 3)) [⟨1, 2, some 1⟩, ⟨2, 3, some 0⟩] (hasRoom sampleLua 3)
      chainResolve chainAddr ⟨1, by decide⟩) (Settled [⟨1, 2, some 1⟩, ⟨2, 3, some 0⟩] ⟨1, by decide⟩) :=
  ⟨spanningTree_chain, establish_finishes 3 _ spanningTree_chain ⟨1, by decide⟩ rfl
    (Qsort.insertion (Node 3)) (hasRoom sampleLua 3) chainAddr chainResolve chainResolve_chainAddr chain_hasRoom⟩

end TorchIpc.Tree
