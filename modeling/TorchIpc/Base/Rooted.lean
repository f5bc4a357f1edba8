import Mathlib.Algebra.BigOperators.Group.Finset.Basic
import Mathlib.Algebra.Group.WithOne.Basic
import Mathlib.Data.Fintype.Basic
import Mathlib.Data.Finset.Lattice.Fold
import Mathlib.Tactic

/-! Finite rooted trees given by parents, and the value a fold leaves at each
node: its own first, then those of its children in their order. With an
associative and commutative operation the root has the fold over all nodes. -/

namespace TorchIpc

/-- A rooted tree on `ι`; the children of a node stand in the order they are
visited in. -/
structure Rooted (ι : Type) where
  root : ι
  parent : ι → Option ι
  children : ι → List ι
  depth : ι → ℕ
  parent_eq_none : ∀ i, parent i = none ↔ i = root
  mem_children : ∀ c p, c ∈ children p ↔ parent c = some p
  nodup : ∀ p, (children p).Nodup
  depth_root : depth root = 0
  depth_child : ∀ c p, parent c = some p → depth c = depth p + 1

namespace Rooted

variable {ι α : Type} (R : Rooted ι)

/-- The fold over the part of the tree below a node, `fuel` levels deep. -/
def subtree (op : α → α → α) (v : ι → α) : ℕ → ι → α
  | 0, i => v i
  | fuel + 1, i => (R.children i).foldl (fun acc c => op acc (subtree op v fuel c)) (v i)

theorem not_parent {c p : ι} (h : R.parent c = some p) : R.parent p ≠ some c := by
  intro h'
  have := R.depth_child c p h
  have := R.depth_child p c h'
  omega

section
variable [Fintype ι]

def height : ℕ := Finset.univ.sup R.depth

theorem depth_le (i : ι) : R.depth i ≤ R.height := Finset.le_sup (f := R.depth) (Finset.mem_univ i)

/-- Where everybody who waits waits for a neighbour who waits too, two wait for each other. -/
theorem exists_mutual {W : ι → ι → Prop} (hadj : ∀ i j, W i j → R.parent i = some j ∨ R.parent j = some i)
    (hnext : ∀ i j, W i j → ∃ k, W j k) {i j : ι} (h : W i j) : ∃ a b, W a b ∧ W b a := by
  -- a node that waits for a child: follow the chain down, it ends at the leaves at the latest
  have hdown : ∀ n i j, R.height < R.depth j + n → R.parent j = some i → W i j → ∃ a b, W a b ∧
      W b a := by
    intro n
    induction n with
    | zero =>
      intro i j hn
      have := R.depth_le j
      omega
    | succ n ih =>
      intro i j hn hp hij
      obtain ⟨k, hk⟩ := hnext i j hij
      rcases hadj j k hk with hup | hlow
      · rw [hp, Option.some.injEq] at hup
        exact ⟨i, j, hij, hup ▸ hk⟩
      · have := R.depth_child k j hlow
        exact ih j k (by omega) hlow hk
  -- otherwise it waits for its parent: follow the chain up
  induction hd : R.depth i using Nat.strong_induction_on generalizing i j with
  | _ d ih =>
    rcases hadj i j h with hup | hlow
    · obtain ⟨k, hk⟩ := hnext i j h
      have := R.depth_child i j hup
      exact ih (R.depth j) (by omega) hk rfl
    · exact hdown (R.height + 1) i j (by omega) hlow h

/-- More levels than the tree has change nothing. -/
theorem subtree_succ (op : α → α → α) (v : ι → α) {fuel : ℕ} {i : ι}
    (h : R.height < R.depth i + fuel) : R.subtree op v (fuel + 1) i = R.subtree op v fuel i := by
  induction fuel generalizing i with
  | zero =>
    have := R.depth_le i
    omega
  | succ fuel ih =>
    have hfold : ∀ cs : List ι, (∀ c ∈ cs, c ∈ R.children i) → ∀ a,
        cs.foldl (fun acc c => op acc (R.subtree op v (fuel + 1) c)) a =
          cs.foldl (fun acc c => op acc (R.subtree op v fuel c)) a := by
      intro cs hcs a
      induction cs generalizing a with
      | nil => rfl
      | cons c cs ihc =>
        have hc := R.depth_child c i ((R.mem_children c i).mp (hcs c List.mem_cons_self))
        rw [List.foldl_cons, List.foldl_cons, ih (by omega),
          ihc fun c' hc' => hcs c' (List.mem_cons_of_mem c hc')]
    rw [subtree, hfold _ fun c hc => hc]
    rfl

def up (op : α → α → α) (v : ι → α) (i : ι) : α := R.subtree op v (R.height + 1) i

/-- The node's own value first, then those of its children. -/
theorem up_eq (op : α → α → α) (v : ι → α) (i : ι) :
    R.up op v i = (R.children i).foldl (fun acc c => op acc (R.up op v c)) (v i) := by
  rw [up, ← R.subtree_succ op v (by omega)]
  rfl

omit [Fintype ι] in
theorem subtree_induction {op : α → α → α} {v : ι → α} {motive : α → Prop}
    (hv : ∀ i, motive (v i)) (hop : ∀ a b, motive a → motive b → motive (op a b)) (fuel : ℕ)
    (i : ι) :
    motive (R.subtree op v fuel i) := by
  induction fuel generalizing i with
  | zero => exact hv i
  | succ fuel ih =>
    rw [subtree]
    generalize R.children i = cs
    have hfold : ∀ a, motive a →
        motive (cs.foldl (fun acc c => op acc (R.subtree op v fuel c)) a) := by
      induction cs with
      | nil => exact fun a ha => ha
      | cons c cs ihc => exact fun a ha => ihc _ (hop _ _ ha (ih c))
    exact hfold (v i) (hv i)

omit [Fintype ι] in
/-- A map that respects the operations takes folds to folds. -/
theorem map_subtree {β : Type} {op : α → α → α} {op' : β → β → β} {f : α → β}
    (hf : ∀ a b, f (op a b) = op' (f a) (f b)) (v : ι → α) (fuel : ℕ) (i : ι) :
    f (R.subtree op v fuel i) = R.subtree op' (fun i => f (v i)) fuel i := by
  induction fuel generalizing i with
  | zero => rfl
  | succ fuel ih =>
    rw [subtree, subtree]
    generalize R.children i = cs
    generalize v i = a
    induction cs generalizing a with
    | nil => rfl
    | cons c cs ihc => rw [List.foldl_cons, List.foldl_cons, ihc, hf, ih]

/-! ### The fold over all nodes -/

section
variable [DecidableEq ι] {A : Type*} [AddCommMonoid A] {op : α → α → α} {h : α → A}

omit [Fintype ι] [DecidableEq ι] in
theorem map_foldl (hop : ∀ a b, h (op a b) = h a + h b) (f : ι → α) (is : List ι) (a : α) :
    h (is.foldl (fun acc i => op acc (f i)) a) = h a + (is.map fun i => h (f i)).sum := by
  induction is generalizing a with
  | nil => simp
  | cons i is ih => rw [List.foldl_cons, ih, hop, List.map_cons, List.sum_cons, add_assoc]

/-- At one level, what the folds below the nodes add is the next level. -/
theorem sum_level (hop : ∀ a b, h (op a b) = h a + h b) (v : ι → α) (d : ℕ) :
    ∑ i with R.depth i = d, h (R.up op v i) =
      ∑ i with R.depth i = d, h (v i) + ∑ i with R.depth i = d + 1, h (R.up op v i) := by
  have hchild : ∀ i, R.depth i = d → ((R.children i).map fun c => h (R.up op v c)).sum =
      ∑ c with R.depth c = d + 1 ∧ (R.parent c).getD R.root = i, h (R.up op v c) := by
    intro i hi
    rw [← List.sum_toFinset _ (R.nodup i)]
    refine Finset.sum_congr ?_ fun _ _ => rfl
    ext c
    rw [List.mem_toFinset, R.mem_children, Finset.mem_filter]
    constructor
    · intro hc
      exact ⟨Finset.mem_univ c, by rw [R.depth_child c i hc, hi], by rw [hc, Option.getD_some]⟩
    · rintro ⟨-, hdepth, hpar⟩
      cases hp : R.parent c with
      | none =>
        rw [(R.parent_eq_none c).mp hp, R.depth_root] at hdepth
        omega
      | some p => rw [← hpar, hp, Option.getD_some]
  have hmaps : ∀ c ∈ Finset.univ.filter (fun c => R.depth c = d + 1),
      (R.parent c).getD R.root ∈ Finset.univ.filter fun i => R.depth i = d := by
    intro c hc
    rw [Finset.mem_filter] at hc ⊢
    cases hp : R.parent c with
    | none =>
      rw [(R.parent_eq_none c).mp hp, R.depth_root] at hc
      omega
    | some p =>
      have := R.depth_child c p hp
      exact ⟨Finset.mem_univ _, by rw [Option.getD_some]; omega⟩
  rw [← Finset.sum_fiberwise_of_maps_to hmaps, ← Finset.sum_add_distrib]
  refine Finset.sum_congr rfl fun i hi => ?_
  rw [R.up_eq, map_foldl hop, hchild i (Finset.mem_filter.mp hi).2, Finset.filter_filter]

/-- An operation that becomes addition: the root has the sum over all nodes. -/
theorem map_up_root (hop : ∀ a b, h (op a b) = h a + h b) (v : ι → α) :
    h (R.up op v R.root) = ∑ i, h (v i) := by
  -- the nodes above level `d` with their own values, those at level `d` with their folds
  have hlevel : ∀ d, ∑ i with R.depth i < d, h (v i) + ∑ i with R.depth i = d, h (R.up op v i) =
      h (R.up op v R.root) := by
    intro d
    induction d with
    | zero =>
      have hzero : Finset.univ.filter (fun i => R.depth i = 0) = {R.root} := by
        ext i
        rw [Finset.mem_filter, Finset.mem_singleton]
        constructor
        · rintro ⟨-, hi⟩
          cases hp : R.parent i with
          | none => exact (R.parent_eq_none i).mp hp
          | some p =>
            have := R.depth_child i p hp
            omega
        · rintro rfl
          exact ⟨Finset.mem_univ _, R.depth_root⟩
      simp [hzero]
    | succ d ih =>
      rw [← ih, R.sum_level hop v d, ← add_assoc]
      congr 1
      have hsplit : Finset.univ.filter (fun i => R.depth i < d + 1) =
          Finset.univ.filter (fun i => R.depth i < d) ∪ Finset.univ.filter fun i =>
            R.depth i = d := by
        ext i
        simp only [Finset.mem_filter, Finset.mem_univ, true_and, Finset.mem_union]
        omega
      rw [hsplit, Finset.sum_union]
      rw [Finset.disjoint_filter]
      intro i _ hi
      omega
  rw [← hlevel (R.height + 1)]
  have hall : Finset.univ.filter (fun i => R.depth i < R.height + 1) = Finset.univ := by
    rw [Finset.filter_eq_self]
    intro i _
    have := R.depth_le i
    omega
  have hnone : Finset.univ.filter (fun i => R.depth i = R.height + 1) = ∅ := by
    rw [Finset.filter_eq_empty_iff]
    intro i _
    have := R.depth_le i
    omega
  rw [hall, hnone, Finset.sum_empty, add_zero]

end

/-- For an associative and commutative operation the root has the fold over the
nodes, listed in any order. -/
theorem up_root_eq_foldl [DecidableEq ι] (op : α → α → α) [ha : Std.Associative op]
    [hc : Std.Commutative op] (v : ι → α) (i : ι) (is : List ι) (hnodup : (i :: is).Nodup)
    (hall : ∀ j, j ∈ i :: is) :
    R.up op v R.root = is.foldl (fun acc j => op acc (v j)) (v i) := by
  let _ : CommSemigroup α := { mul := op, mul_assoc := ha.assoc, mul_comm := hc.comm }
  let h : α → Additive (WithOne α) := fun a => Additive.ofMul (a : WithOne α)
  have hop : ∀ a b, h (op a b) = h a + h b := fun a b => rfl
  have hinj : Function.Injective h := fun a b hab => WithOne.coe_inj.mp hab
  apply hinj
  rw [R.map_up_root hop, map_foldl hop]
  have huniv : Finset.univ = (i :: is).toFinset := by
    ext j
    simpa using hall j
  rw [huniv, List.sum_toFinset _ hnodup, List.map_cons, List.sum_cons]

/-- The same where the operation is associative and commutative on the values there are. -/
theorem up_root_eq_foldl_of_mem [DecidableEq ι] (op : α → α → α) {P : α → Prop} (hP : ∀ a b, P a → P b → P (op a b))
    (hassoc : ∀ a b c, P a → P b → P c → op (op a b) c = op a (op b c)) (hcomm : ∀ a b, P a → P b → op a b = op b a)
    (v : ι → α) (hv : ∀ i, P (v i)) (i : ι) (is : List ι) (hnodup : (i :: is).Nodup) (hall : ∀ j, j ∈ i :: is) :
    R.up op v R.root = is.foldl (fun acc j => op acc (v j)) (v i) := by
  let op' : {a // P a} → {a // P a} → {a // P a} := fun a b => ⟨op a b, hP a b a.2 b.2⟩
  have hassoc' : Std.Associative op' := ⟨fun a b c => Subtype.ext (hassoc a b c a.2 b.2 c.2)⟩
  have hcomm' : Std.Commutative op' := ⟨fun a b => Subtype.ext (hcomm a b a.2 b.2)⟩
  have hfold := R.up_root_eq_foldl op' (fun i => ⟨v i, hv i⟩) i is hnodup hall
  have hup : (R.up op' (fun i => ⟨v i, hv i⟩) R.root).1 = R.up op v R.root :=
    R.map_subtree (f := Subtype.val) (fun _ _ => rfl) _ _ R.root
  rw [← hup, hfold]
  exact (List.foldl_hom Subtype.val fun _ _ => rfl).symm

/-! ### A tour of the tree -/

/-- How long a visit takes: a step to enter the node, the visits of its children, and a step after
each of these. -/
def span (i : ι) : ℕ := R.up (fun a b => a + b + 1) (fun _ => 1) i

/-- How long after entering the node its visit comes to the child in place `k`. -/
def lap (p : ι) (k : ℕ) : ℕ := ((R.children p).take k).foldl (fun acc c => acc + R.span c + 1) 1

theorem lap_succ {p c : ι} {k : ℕ} (h : (R.children p)[k]? = some c) :
    R.lap p (k + 1) = R.lap p k + R.span c + 1 := by
  rw [lap, List.take_add_one, h, List.foldl_append]
  rfl

theorem lap_length (p : ι) : R.lap p (R.children p).length = R.span p := by
  rw [lap, List.take_length, span, R.up_eq]
  rfl

variable [DecidableEq ι]

/-- When a tour that begins at the root comes to a node, at most `d` levels deep. -/
def enterFrom : ℕ → ι → ℕ
  | 0, _ => 0
  | d + 1, i =>
    match R.parent i with
    | none => 0
    | some p => enterFrom d p + R.lap p ((R.children p).idxOf i)

def enter (i : ι) : ℕ := R.enterFrom (R.depth i) i

def leave (i : ι) : ℕ := R.enter i + R.span i

/-- The children of a node are visited one after the other. -/
theorem enter_child {p c : ι} {k : ℕ} (h : (R.children p)[k]? = some c) :
    R.enter c = R.enter p + R.lap p k := by
  obtain ⟨hk, hc⟩ := List.getElem?_eq_some_iff.mp h
  have hp : R.parent c = some p := (R.mem_children c p).mp (List.mem_of_getElem? h)
  have hidx : (R.children p).idxOf c = k := by
    rw [← hc]
    exact (R.nodup p).idxOf_getElem k hk
  rw [enter, R.depth_child c p hp, enterFrom, hp]
  simp only [hidx, enter]

theorem leave_child {p c : ι} {k : ℕ} (h : (R.children p)[k]? = some c) :
    R.leave c + 1 = R.enter p + R.lap p (k + 1) := by
  rw [leave, R.enter_child h, R.lap_succ h]
  omega

theorem leave_eq (p : ι) : R.leave p = R.enter p + R.lap p (R.children p).length := by
  rw [leave, lap_length]

end

end Rooted

end TorchIpc
