import TorchIpc.Tree.Pairs
import TorchIpc.Base.Rooted
import Mathlib.Data.List.Sort

/-! The connections of an established tree: what each node's `server` and `client`
hold, and the order `server:clients` visits them in. -/

namespace TorchIpc.Tree

abbrev Node (n : ℕ) : Type := {i : ℕ // i ∈ Finset.Icc 1 n}

/-! ### Clients of a server -/

/-- A connection a server holds, with the number set by `client:id`. -/
structure Client (ι : Type) where
  id : ℕ
  peer : ι
  deriving Repr, DecidableEq

/-- What C promises of `qsort` with `compare_clients`, and with
`compare_clients_inverted` for `true`; clients of the same id may come in any
order. -/
structure Qsort (ι : Type) where
  sort : Bool → List (Client ι) → List (Client ι)
  perm : ∀ invert cs, (sort invert cs).Perm cs
  ordered : ∀ invert cs, (sort invert cs).Pairwise fun a b =>
    if invert then b.id ≤ a.id else a.id ≤ b.id

def Qsort.insertion (ι : Type) : Qsort ι where
  sort invert cs := cs.insertionSort fun a b => if invert then b.id ≤ a.id else a.id ≤ b.id
  perm _ cs := List.perm_insertionSort _ cs
  ordered invert cs := by
    cases invert with
    | false =>
      have : Std.Total fun a b : Client ι => a.id ≤ b.id := ⟨fun a b => Nat.le_total a.id b.id⟩
      have : IsTrans (Client ι) fun a b => a.id ≤ b.id := ⟨fun _ _ _ => Nat.le_trans⟩
      exact List.pairwise_insertionSort (fun a b : Client ι => a.id ≤ b.id) cs
    | true =>
      have : Std.Total fun a b : Client ι => b.id ≤ a.id := ⟨fun a b => Nat.le_total b.id a.id⟩
      have : IsTrans (Client ι) fun a b => b.id ≤ a.id := ⟨fun _ _ _ h h' => Nat.le_trans h' h⟩
      exact List.pairwise_insertionSort (fun a b : Client ι => b.id ≤ a.id) cs

/-- The upvalues `server` and `client` of `Tree`; the first is `nil` at a leaf,
the second at the root. -/
structure Conn (ι : Type) where
  server : Option (List (Client ι))
  client : Option ι
  deriving Repr, DecidableEq

namespace Conn

variable {ι : Type}

/-- The connections held, none without a server. -/
def held (conn : Conn ι) : List (Client ι) := conn.server.getD []

/-- The peers in the order `server:clients(f, invert)` calls `f` for them. -/
def clients (q : Qsort ι) (conn : Conn ι) (invert : Bool) : List ι :=
  (q.sort invert conn.held).map Client.peer

theorem clients_perm (q : Qsort ι) (conn : Conn ι) (invert : Bool) :
    (conn.clients q invert).Perm (conn.held.map Client.peer) :=
  (q.perm invert conn.held).map Client.peer

end Conn

/-- The connections are those of the planned tree: each node's `client` leads to
its parent, and its `server` holds its children with their indices as ids. -/
structure Established (n : ℕ) (links : List Link) where
  conn : Node n → Conn (Node n)
  client_iff : ∀ c p, (conn c).client = some p ↔ Up links c p
  id_eq : ∀ p, ∀ x ∈ (conn p).held, x.id = x.peer
  nodup : ∀ p, ((conn p).held.map Client.peer).Nodup
  mem_iff : ∀ p c, c ∈ (conn p).held.map Client.peer ↔ Up links c p

/-! ### The tree of a plan -/

instance (links : List Link) (a b : ℕ) : Decidable (Up links a b) :=
  inferInstanceAs (Decidable (∃ l ∈ links, l.fromNode = a ∧ l.toNode = b))

/-- The children of a node in the planned tree, in ascending order. -/
def childrenOf {n : ℕ} (links : List Link) (p : Node n) : List (Node n) :=
  (Finset.univ.filter fun c : Node n => Up links c p).sort

variable {n : ℕ} {links : List Link}

theorem exists_up_iff (j : ℕ) : (∃ b, Up links j b) ↔ 0 < parents links j := by
  unfold parents
  rw [List.countP_pos_iff]
  constructor
  · rintro ⟨b, l, hl, hj, -⟩
    exact ⟨l, hl, by simpa using hj⟩
  · rintro ⟨l, hl, hj⟩
    exact ⟨l.toNode, l, hl, by simpa using hj, rfl⟩

theorem up_unique {a b b' : ℕ} (hone : parents links a ≤ 1) (h : Up links a b)
    (h' : Up links a b') : b = b' := by
  obtain ⟨l, hl, ha, rfl⟩ := h
  obtain ⟨l', hl', ha', rfl⟩ := h'
  have hlen : (links.filter fun l => l.fromNode = a).length ≤ 1 := by
    rwa [← List.countP_eq_length_filter]
  have hm : l ∈ links.filter fun l => l.fromNode = a := List.mem_filter.mpr ⟨hl, by simpa using ha⟩
  have hm' : l' ∈ links.filter fun l => l.fromNode = a :=
    List.mem_filter.mpr ⟨hl', by simpa using ha'⟩
  generalize links.filter (fun l => l.fromNode = a) = ls at hlen hm hm'
  cases ls with
  | nil => simp at hm
  | cons x xs =>
    rw [List.length_cons] at hlen
    obtain rfl := List.eq_nil_of_length_eq_zero (show xs.length = 0 by omega)
    rw [List.mem_singleton.mp hm, List.mem_singleton.mp hm']

namespace SpanningTree

variable (h : SpanningTree n links)
include h

theorem mem_of_up {a b : ℕ} (hab : Up links a b) : a ∈ Finset.Icc 1 n ∧ b ∈ Finset.Icc 1 n := by
  obtain ⟨l, hl, rfl, rfl⟩ := hab
  obtain ⟨hto, hfrom⟩ := h.mem_range l hl
  exact ⟨Finset.mem_Icc.mpr hfrom, Finset.mem_Icc.mpr hto⟩

theorem not_up_one (b : ℕ) : ¬ Up links 1 b := by
  intro hb
  have := (exists_up_iff 1).mp ⟨b, hb⟩
  rw [h.parents_one] at this
  omega

theorem parents_le_one {a b : ℕ} (hab : Up links a b) : parents links a ≤ 1 := by
  have ha := Finset.mem_Icc.mp (h.mem_of_up hab).1
  by_cases h1 : a = 1
  · subst h1
    exact (h.not_up_one b hab).elim
  · rw [h.parents_eq_one a (by omega) ha.2]

theorem exists_up {j : ℕ} (hj : j ∈ Finset.Icc 1 n) (h1 : j ≠ 1) : ∃ b, Up links j b := by
  rw [Finset.mem_Icc] at hj
  rw [exists_up_iff, h.parents_eq_one j (by omega) hj.2]
  exact Nat.one_pos

end SpanningTree

/-- Node `a` is `k` links away from node `1`. -/
def Distance (links : List Link) : ℕ → ℕ → Prop
  | 0, a => a = 1
  | k + 1, a => ∃ b, Up links a b ∧ Distance links k b

theorem SpanningTree.distance_unique (h : SpanningTree n links) {k k' a : ℕ}
    (hk : Distance links k a) (hk' : Distance links k' a) : k = k' := by
  induction k generalizing k' a with
  | zero =>
    obtain rfl : a = 1 := hk
    cases k' with
    | zero => rfl
    | succ k' =>
      obtain ⟨b, hb, -⟩ := hk'
      exact (h.not_up_one b hb).elim
  | succ k ih =>
    obtain ⟨b, hb, hkb⟩ := hk
    cases k' with
    | zero =>
      obtain rfl : a = 1 := hk'
      exact (h.not_up_one b hb).elim
    | succ k' =>
      obtain ⟨b', hb', hkb'⟩ := hk'
      obtain rfl := up_unique (h.parents_le_one hb) hb hb'
      rw [ih hkb hkb']

theorem SpanningTree.exists_depth (h : SpanningTree n links) :
    ∃ depth : ℕ → ℕ, depth 1 = 0 ∧ ∀ a b, Up links a b → depth a = depth b + 1 := by
  have hpath : ∀ a, Relation.ReflTransGen (Up links) a 1 → ∃ k, Distance links k a := by
    intro a ha
    induction ha using Relation.ReflTransGen.head_induction_on with
    | refl => exact ⟨0, rfl⟩
    | head hab _ ih =>
      obtain ⟨k, hk⟩ := ih
      exact ⟨k + 1, _, hab, hk⟩
  have hex : ∀ a : ℕ, ∃ k, a ∈ Finset.Icc 1 n → Distance links k a := by
    intro a
    by_cases ha : a ∈ Finset.Icc 1 n
    · have hbounds := Finset.mem_Icc.mp ha
      obtain ⟨k, hk⟩ := hpath a (h.up_one a hbounds.1 hbounds.2)
      exact ⟨k, fun _ => hk⟩
    · exact ⟨0, fun hc => (ha hc).elim⟩
  choose depth hdepth using hex
  refine ⟨fun a => if a = 1 then 0 else depth a, if_pos rfl, fun a b hab => ?_⟩
  obtain ⟨ha, hb⟩ := h.mem_of_up hab
  have hne : a ≠ 1 := fun hc => h.not_up_one b (hc ▸ hab)
  have hb' : Distance links (if b = 1 then 0 else depth b) b := by
    split_ifs with hb1
    · exact hb1
    · exact hdepth b hb
  simp only [if_neg hne]
  exact h.distance_unique (hdepth a ha) ⟨b, hab, hb'⟩

/-- The tree that the established connections form. -/
noncomputable def Established.rooted (E : Established n links) (h : SpanningTree n links) (hn : 1 ≤ n)
    (q : Qsort (Node n)) : Rooted (Node n) where
  root := ⟨1, Finset.mem_Icc.mpr ⟨le_rfl, hn⟩⟩
  parent c := (E.conn c).client
  children p := (E.conn p).clients q false
  depth i := h.exists_depth.choose i
  parent_eq_none i := by
    rw [Option.eq_none_iff_forall_ne_some]
    simp only [ne_eq, E.client_iff]
    constructor
    · intro hi
      by_contra hne
      have h1 : (i : ℕ) ≠ 1 := fun hc => hne (Subtype.ext hc)
      obtain ⟨b, hb⟩ := h.exists_up i.2 h1
      exact hi ⟨b, (h.mem_of_up hb).2⟩ hb
    · rintro rfl p hp
      exact h.not_up_one p hp
  mem_children c p := by
    rw [(Conn.clients_perm q _ false).mem_iff, E.mem_iff, E.client_iff]
  nodup p := (Conn.clients_perm q _ false).nodup_iff.mpr (E.nodup p)
  depth_root := h.exists_depth.choose_spec.1
  depth_child c p hc := h.exists_depth.choose_spec.2 c p ((E.client_iff c p).mp hc)

/-- `server:clients` visits the children in ascending order of their indices. -/
theorem Established.clients_eq (E : Established n links) (q : Qsort (Node n)) (p : Node n) :
    (E.conn p).clients q false = childrenOf links p := by
  have hle : ((E.conn p).clients q false).Pairwise (· ≤ ·) := by
    rw [Conn.clients, List.pairwise_map]
    refine (q.ordered false (E.conn p).held).imp_of_mem fun {x y} hx hy hxy => ?_
    have hid : ∀ x ∈ q.sort false (E.conn p).held, x.id = x.peer :=
      fun x hx => E.id_eq p x ((q.perm false _).mem_iff.mp hx)
    simp only [Bool.false_eq_true, if_false, hid x hx, hid y hy] at hxy
    exact hxy
  have hperm : ((E.conn p).clients q false).Perm (childrenOf links p) := by
    have hnd : ((E.conn p).clients q false).Nodup :=
      (Conn.clients_perm q _ false).nodup_iff.mpr (E.nodup p)
    rw [childrenOf, List.perm_ext_iff_of_nodup hnd (Finset.sort_nodup _ _)]
    intro c
    rw [(Conn.clients_perm q _ false).mem_iff, E.mem_iff, Finset.mem_sort,
      Finset.mem_filter]
    simp
  exact hperm.eq_of_pairwise' hle (Finset.pairwise_sort _ _)

/-! ### Small trees -/

theorem spanningTree_pair : SpanningTree 2 [⟨1, 2, some 0⟩] := by
  refine ⟨spans_of_parents (fun j h2 hj => ?_) ?_, by decide⟩
  · obtain rfl : j = 2 := by omega
    decide
  · decide

theorem spanningTree_chain : SpanningTree 3 [⟨1, 2, some 1⟩, ⟨2, 3, some 0⟩] := by
  refine ⟨spans_of_parents (fun j h2 hj => ?_) ?_, by decide⟩
  · obtain rfl | rfl : j = 2 ∨ j = 3 := by omega
    · decide
    · decide
  · decide

theorem spanningTree_star : SpanningTree 3 [⟨1, 2, some 0⟩, ⟨1, 3, some 0⟩] := by
  refine ⟨spans_of_parents (fun j h2 hj => ?_) ?_, by decide⟩
  · obtain rfl | rfl : j = 2 ∨ j = 3 := by omega
    · decide
    · decide
  · decide

def Established.pair : Established 2 [⟨1, 2, some 0⟩] where
  conn i := if i.1 = 1 then ⟨some [⟨2, ⟨2, by decide⟩⟩], none⟩ else ⟨none, some ⟨1, by decide⟩⟩
  client_iff := by decide
  id_eq := by decide
  nodup := by decide
  mem_iff := by decide

theorem one_mem_three : 1 ∈ Finset.Icc 1 3 := by decide

theorem two_mem_three : 2 ∈ Finset.Icc 1 3 := by decide

theorem three_mem_three : 3 ∈ Finset.Icc 1 3 := by decide

def Established.star : Established 3 [⟨1, 2, some 0⟩, ⟨1, 3, some 0⟩] where
  conn i :=
    if i.1 = 1 then ⟨some [⟨3, ⟨3, three_mem_three⟩⟩, ⟨2, ⟨2, two_mem_three⟩⟩], none⟩
    else ⟨none, some ⟨1, one_mem_three⟩⟩
  client_iff := by decide
  id_eq := by decide
  nodup := by decide
  mem_iff := by decide

end TorchIpc.Tree
