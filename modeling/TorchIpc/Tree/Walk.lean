import Mathlib.Data.List.Sort
import Mathlib.Control.Basic
import Mathlib.Tactic

/-! `walkTable` of `utils.lua`: visit the leaves of a nested table in the order of
the sorted keys. A nested table is a tree of entries in the order `pairs` lists
them. Proved: for tables whose keys are all numbers or all strings at each level
a walk only maps a function over the list of leaves, and that list and the table
built back from it do not depend on the order of `pairs`. -/

namespace TorchIpc.Tree

/-- A table key. Only keys that `table.sort` can compare with their like occur. -/
inductive Key (N S : Type) where
  | num (n : N)
  | str (s : S)
  deriving Repr, DecidableEq

/-- A value that is no table, or a table with its entries in the order of `pairs`. -/
inductive Nested (N S L : Type) where
  | leaf (x : L)
  | table (t : List (Key N S × Nested N S L))
  deriving Repr

/-- How a program of `Tree.lua` can stop before it returns. -/
inductive Failure where
  /-- `attempt to compare number with string` in `table.sort`. -/
  | compare
  /-- A field of `nil` is indexed, or `nil` is walked. -/
  | index
  /-- A message of one phase is read in another. -/
  | phase
  /-- `assert` fails. -/
  | assertion
  /-- `remote peer disconnected`. -/
  | disconnected
  /-- A message is larger than the send buffer. -/
  | size
  /-- `tensor_read` finds another header than that of its tensor. -/
  | header
  /-- The bound on the number of rounds is used up. -/
  | fuel
  deriving Repr, DecidableEq

variable {N S L : Type} [LinearOrder N] [LinearOrder S]

namespace Key

def isNum : Key N S → Bool
  | num _ => true
  | str _ => false

/-- The order of `table.sort` on numbers and on strings. -/
def le : Key N S → Key N S → Prop
  | num a, num b => a ≤ b
  | str a, str b => a ≤ b
  | num _, str _ => True
  | str _, num _ => False

instance : DecidableRel (le : Key N S → Key N S → Prop) := fun a b =>
  match a, b with
  | num a, num b => inferInstanceAs (Decidable (a ≤ b))
  | str a, str b => inferInstanceAs (Decidable (a ≤ b))
  | num _, str _ => inferInstanceAs (Decidable True)
  | str _, num _ => inferInstanceAs (Decidable False)

theorem le_total (a b : Key N S) : a.le b ∨ b.le a := by
  cases a <;> cases b <;> simp [le, LinearOrder.le_total]

theorem le_trans {a b c : Key N S} (hab : a.le b) (hbc : b.le c) : a.le c := by
  cases a <;> cases b <;> cases c <;> simp_all [le]
  · exact hab.trans hbc
  · exact hab.trans hbc

end Key

def byKey {α : Type} (a b : Key N S × α) : Prop := a.1.le b.1

instance {α : Type} : DecidableRel (byKey : Key N S × α → Key N S × α → Prop) :=
  fun a b => inferInstanceAs (Decidable (a.1.le b.1))

instance {α : Type} : Std.Total (byKey : Key N S × α → Key N S × α → Prop) :=
  ⟨fun a b => Key.le_total a.1 b.1⟩

instance {α : Type} : IsTrans (Key N S × α) byKey := ⟨fun _ _ _ => Key.le_trans⟩

/-- All keys are numbers, or all are strings. -/
def oneKind {α : Type} (t : List (Key N S × α)) : Bool :=
  t.all (fun e => e.1.isNum) || t.all (fun e => !e.1.isNum)

/-- `table.sort(kk)`, with each key's share of the work beside it. Sorting a
number and a string compares the two somewhere, which raises. -/
def tableSort {α : Type} (t : List (Key N S × α)) : Option (List (Key N S × α)) :=
  if oneKind t then some (t.insertionSort byKey) else none

section
variable {m : Type → Type} [Monad m] [MonadExceptOf Failure m]

mutual

/-- `walkTable`; the case of a leaf is the `else` of its loop. A result `nil` of
`f` leaves the entry alone. -/
def walkTable (f : L → m (Option L)) : Nested N S L → m (Nested N S L)
  | .leaf x => do return .leaf ((← f x).getD x)
  | .table t =>
    match tableSort (visits f t) with
    | none => throw .compare
    | some kk => do return .table (← kk.mapM fun e => do return (e.1, ← e.2))

/-- The keys of a table, each with the visit of its entry. -/
def visits (f : L → m (Option L)) :
    List (Key N S × Nested N S L) → List (Key N S × m (Nested N S L))
  | [] => []
  | e :: t => (e.1, walkTable f e.2) :: visits f t

end

end

/-! ### Leaves and shapes -/

mutual

def leaves : Nested N S L → List L
  | .leaf x => [x]
  | .table t => leavesOf t

def leavesOf : List (Key N S × Nested N S L) → List L
  | [] => []
  | e :: t => leaves e.2 ++ leavesOf t

end

mutual

/-- Every table with its entries sorted by key. -/
def sorted : Nested N S L → Nested N S L
  | .leaf x => .leaf x
  | .table t => .table ((sortedEntries t).insertionSort byKey)

def sortedEntries : List (Key N S × Nested N S L) → List (Key N S × Nested N S L)
  | [] => []
  | e :: t => (e.1, sorted e.2) :: sortedEntries t

end

mutual

/-- The tree without its leaves. -/
def blank : Nested N S L → Nested N S Unit
  | .leaf _ => .leaf ()
  | .table t => .table (blankEntries t)

def blankEntries : List (Key N S × Nested N S L) → List (Key N S × Nested N S Unit)
  | [] => []
  | e :: t => (e.1, blank e.2) :: blankEntries t

end

/-- The keys of a value, whatever the order of `pairs`. -/
def shape (v : Nested N S L) : Nested N S Unit := blank (sorted v)

mutual

/-- At each level the keys are all numbers or all strings. -/
def Keyed : Nested N S L → Prop
  | .leaf _ => True
  | .table t => oneKind t = true ∧ KeyedEntries t

def KeyedEntries : List (Key N S × Nested N S L) → Prop
  | [] => True
  | e :: t => Keyed e.2 ∧ KeyedEntries t

end

mutual

/-- Every table has its entries in the order of their keys. -/
def InOrder : Nested N S L → Prop
  | .leaf _ => True
  | .table t => t.Pairwise byKey ∧ InOrderEntries t

def InOrderEntries : List (Key N S × Nested N S L) → Prop
  | [] => True
  | e :: t => InOrder e.2 ∧ InOrderEntries t

end

mutual

def refill : Nested N S L → List L → Nested N S L
  | .leaf x, ls => .leaf (ls.headD x)
  | .table t, ls => .table (refillEntries t ls)

def refillEntries : List (Key N S × Nested N S L) → List L → List (Key N S × Nested N S L)
  | [], _ => []
  | e :: t, ls => (e.1, refill e.2 (ls.take (leaves e.2).length)) ::
      refillEntries t (ls.drop (leaves e.2).length)

end

/-- Induction over a nested table, entry by entry. -/
@[elab_as_elim, induction_eliminator]
theorem Nested.induction {N S L : Type} {motive : Nested N S L → Prop}
    (leaf : ∀ x, motive (.leaf x))
    (table : ∀ t, (∀ e ∈ t, motive e.2) → motive (.table t)) (v : Nested N S L) : motive v :=
  Nested.rec leaf (fun t ih => table t ih) (fun e he => by simp at he)
    (fun e t he ih e' he' => by
      rcases List.mem_cons.mp he' with rfl | h
      · exact he
      · exact ih e' h) (fun _ _ h => h) v

section
omit [LinearOrder N] [LinearOrder S]

theorem blankEntries_eq (t : List (Key N S × Nested N S L)) :
    blankEntries t = t.map fun e => (e.1, blank e.2) := by
  induction t with
  | nil => rfl
  | cons e t ih => rw [blankEntries, ih, List.map_cons]

theorem keyedEntries_iff (t : List (Key N S × Nested N S L)) :
    KeyedEntries t ↔ ∀ e ∈ t, Keyed e.2 := by
  induction t with
  | nil => simp [KeyedEntries]
  | cons e t ih => simp [KeyedEntries, ih]

end

theorem sortedEntries_eq (t : List (Key N S × Nested N S L)) :
    sortedEntries t = t.map fun e => (e.1, sorted e.2) := by
  induction t with
  | nil => rfl
  | cons e t ih => rw [sortedEntries, ih, List.map_cons]

theorem inOrderEntries_iff (t : List (Key N S × Nested N S L)) :
    InOrderEntries t ↔ ∀ e ∈ t, InOrder e.2 := by
  induction t with
  | nil => simp [InOrderEntries]
  | cons e t ih => simp [InOrderEntries, ih]

/-- Work on the entries may be done before or after sorting them. -/
theorem map_sort {α β : Type} (f : α → β) (t : List (Key N S × α)) :
    (t.insertionSort byKey).map (fun e => (e.1, f e.2)) =
      (t.map fun e => (e.1, f e.2)).insertionSort byKey :=
  List.map_insertionSort byKey byKey _ t fun _ _ _ _ => Iff.rfl

theorem sorted_table (t : List (Key N S × Nested N S L)) :
    sorted (.table t) = .table ((t.insertionSort byKey).map fun e => (e.1, sorted e.2)) := by
  rw [sorted, sortedEntries_eq, map_sort]

/-! ### Leaves put back -/

section
omit [LinearOrder N] [LinearOrder S]

theorem leaves_refill (v : Nested N S L) (ls : List L) (h : ls.length = (leaves v).length) :
    leaves (refill v ls) = ls := by
  induction v generalizing ls with
  | leaf x =>
    obtain ⟨y, rfl⟩ := List.length_eq_one_iff.mp h
    rfl
  | table t ih =>
    rw [refill, leaves]
    rw [leaves] at h
    induction t generalizing ls with
    | nil => exact (List.eq_nil_of_length_eq_zero h).symm
    | cons e t iht =>
      rw [leavesOf, List.length_append] at h
      rw [refillEntries, leavesOf, ih e List.mem_cons_self _ (by rw [List.length_take]; omega),
        iht (fun e' he' => ih e' (List.mem_cons_of_mem e he')) _
          (by rw [List.length_drop]; omega), List.take_append_drop]

@[simp] theorem blank_refill (v : Nested N S L) (ls : List L) : blank (refill v ls) = blank v := by
  induction v generalizing ls with
  | leaf x => rfl
  | table t ih =>
    rw [refill, blank, blank]
    congr 1
    induction t generalizing ls with
    | nil => rfl
    | cons e t iht =>
      rw [refillEntries, blankEntries, blankEntries, ih e List.mem_cons_self,
        iht fun e' he' => ih e' (List.mem_cons_of_mem e he')]

theorem refill_leaves_of_blank {u v : Nested N S L} (h : blank u = blank v) :
    (leaves v).length = (leaves u).length ∧ refill u (leaves v) = v := by
  induction u generalizing v with
  | leaf x =>
    cases v with
    | leaf y => exact ⟨rfl, rfl⟩
    | table t => simp [blank] at h
  | table t ih =>
    cases v with
    | leaf y => simp [blank] at h
    | table t' =>
      simp only [blank, Nested.table.injEq] at h
      simp only [leaves, refill, Nested.table.injEq]
      induction t generalizing t' with
      | nil =>
        cases t' with
        | nil => exact ⟨rfl, rfl⟩
        | cons e' t' => simp [blankEntries] at h
      | cons e t iht =>
        cases t' with
        | nil => simp [blankEntries] at h
        | cons e' t' =>
          simp only [blankEntries, List.cons.injEq, Prod.mk.injEq] at h
          obtain ⟨hlen, hfill⟩ := ih e List.mem_cons_self h.1.2
          obtain ⟨hlen', hfill'⟩ := iht (fun e' he' => ih e' (List.mem_cons_of_mem e he')) t' h.2
          refine ⟨by simp only [leavesOf, List.length_append, hlen, hlen'], ?_⟩
          rw [refillEntries, leavesOf, ← hlen, List.take_left, List.drop_left, hfill, hfill', h.1.1]

/-- Trees of one shape become equal under the same leaves. -/
theorem refill_eq_of_blank {u v : Nested N S L} (h : blank u = blank v) {ls : List L}
    (hlen : ls.length = (leaves v).length) : refill u ls = refill v ls := by
  have := (refill_leaves_of_blank (h.trans (blank_refill v ls).symm)).2
  rwa [leaves_refill v ls hlen] at this

end

/-! ### Sorting depends on the keys only -/

theorem inOrder_sorted (v : Nested N S L) : InOrder (sorted v) := by
  induction v with
  | leaf x => trivial
  | table t ih =>
    rw [sorted_table, InOrder, inOrderEntries_iff]
    constructor
    · rw [map_sort]
      exact List.pairwise_insertionSort byKey _
    · intro e he
      obtain ⟨e', he', rfl⟩ := List.mem_map.mp he
      exact ih e' ((List.mem_insertionSort byKey).mp he')

theorem sorted_of_inOrder (v : Nested N S L) (h : InOrder v) : sorted v = v := by
  induction v with
  | leaf x => rfl
  | table t ih =>
    rw [InOrder, inOrderEntries_iff] at h
    rw [sorted_table, h.1.insertionSort_eq]
    congr 1
    conv_rhs => rw [← List.map_id t]
    exact List.map_congr_left fun e he => by rw [ih e he (h.2 e he)]; rfl

theorem inOrder_blank (v : Nested N S L) : InOrder (blank v) ↔ InOrder v := by
  induction v with
  | leaf x => exact Iff.rfl
  | table t ih =>
    rw [blank, InOrder, InOrder, inOrderEntries_iff, inOrderEntries_iff, blankEntries_eq,
      List.pairwise_map, List.forall_mem_map]
    exact and_congr Iff.rfl (forall₂_congr fun e he => ih e he)

omit [LinearOrder N] [LinearOrder S] in
theorem keyed_blank (v : Nested N S L) : Keyed (blank v) ↔ Keyed v := by
  induction v with
  | leaf x => exact Iff.rfl
  | table t ih =>
    rw [blank, Keyed, Keyed, keyedEntries_iff, keyedEntries_iff, blankEntries_eq,
      List.forall_mem_map]
    refine and_congr ?_ (forall₂_congr fun e he => ih e he)
    simp [oneKind, List.all_map, Function.comp_def]

theorem keyed_sorted_iff (v : Nested N S L) : Keyed (sorted v) ↔ Keyed v := by
  induction v with
  | leaf x => exact Iff.rfl
  | table t ih =>
    rw [sorted_table, Keyed, Keyed, keyedEntries_iff, keyedEntries_iff, List.forall_mem_map]
    refine and_congr ?_ ⟨fun h e he => ?_, fun h e he => ?_⟩
    · simp [oneKind, List.all_map, Function.comp_def]
    · exact (ih e he).mp (h e ((List.mem_insertionSort byKey).mpr he))
    · have hmem := (List.mem_insertionSort byKey).mp he
      exact (ih e hmem).mpr (h e hmem)

theorem keyed_sorted (v : Nested N S L) (h : Keyed v) : Keyed (sorted v) :=
  (keyed_sorted_iff v).mpr h

/-! ### Walks -/

section
variable {m : Type → Type} [Monad m] [LawfulMonad m]

theorem mapM_bind_congr {α β γ : Type} {xs : List α} {f : α → m β} {k k' : List β → m γ}
    (h : ∀ ys, ys.length = xs.length → k ys = k' ys) : xs.mapM f >>= k = xs.mapM f >>= k' := by
  induction xs generalizing k k' with
  | nil => simpa using h [] rfl
  | cons x xs ih =>
    simp only [List.mapM_cons, bind_assoc, pure_bind]
    refine bind_congr fun y => ih fun ys hys => h (y :: ys) (by simp [hys])

variable [MonadExceptOf Failure m]

def visitLeaf (f : L → m (Option L)) (x : L) : m L := do return (← f x).getD x

omit [LawfulMonad m] in
theorem visits_eq (f : L → m (Option L)) (t : List (Key N S × Nested N S L)) :
    visits f t = t.map fun e => (e.1, walkTable f e.2) := by
  induction t with
  | nil => rfl
  | cons e t ih => rw [visits, ih, List.map_cons]

/-- Entry by entry, from the walks of the entries. -/
theorem walkEntries_eq (f : L → m (Option L)) (t : List (Key N S × Nested N S L))
    (h : ∀ e ∈ t, walkTable f e.2 = (leaves (sorted e.2)).mapM (visitLeaf f) >>= fun ls =>
      pure (refill (sorted e.2) ls)) :
    (t.map fun e => (e.1, walkTable f e.2)).mapM (fun e => do return (e.1, ← e.2)) =
      (leavesOf (t.map fun e => (e.1, sorted e.2))).mapM (visitLeaf f) >>= fun ls =>
        pure (refillEntries (t.map fun e => (e.1, sorted e.2)) ls) := by
  induction t with
  | nil => simp [leavesOf, refillEntries]
  | cons e t ih =>
    rw [List.map_cons, List.map_cons, List.mapM_cons, h e List.mem_cons_self,
      ih fun e' he' => h e' (List.mem_cons_of_mem e he'), leavesOf, List.mapM_append]
    simp only [bind_assoc, pure_bind]
    refine mapM_bind_congr fun xs hxs => bind_congr fun ys => ?_
    rw [refillEntries, ← hxs, List.take_left, List.drop_left]

/-- A walk maps over the leaves in the order of the sorted keys. -/
theorem walkTable_eq (f : L → m (Option L)) (v : Nested N S L) (h : Keyed v) :
    walkTable f v = (leaves (sorted v)).mapM (visitLeaf f) >>= fun ls =>
      pure (refill (sorted v) ls) := by
  induction v with
  | leaf x => simp [walkTable, sorted, leaves, refill, visitLeaf]
  | table t ih =>
    rw [Keyed, keyedEntries_iff] at h
    have hkind : oneKind (visits f t) = true := by
      rw [visits_eq]
      simpa [oneKind, List.all_map, Function.comp_def] using h.1
    have hmem : ∀ e ∈ t.insertionSort byKey, e ∈ t :=
      fun e he => (List.mem_insertionSort byKey).mp he
    rw [walkTable, tableSort, if_pos hkind, visits_eq, ← map_sort, sorted_table, leaves]
    simp only [walkEntries_eq f _ fun e he => ih e (hmem e he) (h.2 e (hmem e he)), bind_assoc,
      pure_bind, refill]

end

/-! ### Values of one shape -/

/-- A sorted value whose leaves stand for any others. -/
structure Template (N S L : Type) [LinearOrder N] [LinearOrder S] where
  value : Nested N S L
  keyed : Keyed value
  inOrder : InOrder value

namespace Template

def of (v : Nested N S L) (h : Keyed v) : Template N S L :=
  ⟨sorted v, keyed_sorted v h, inOrder_sorted v⟩

def width (T : Template N S L) : ℕ := (leaves T.value).length

def fill (T : Template N S L) (ls : List L) : Nested N S L := refill T.value ls

/-- The table `v` has the keys of the template and the leaves `ls`. -/
structure Holds (T : Template N S L) (v : Nested N S L) (ls : List L) : Prop where
  keyed : Keyed v
  sorted_eq : sorted v = T.fill ls
  length_eq : ls.length = T.width

variable {T : Template N S L} {v : Nested N S L} {ls : List L}

theorem leaves_fill (h : ls.length = T.width) : leaves (T.fill ls) = ls := leaves_refill _ _ h

theorem holds_fill (h : ls.length = T.width) : T.Holds (T.fill ls) ls where
  keyed := by
    rw [← keyed_blank, fill, blank_refill, keyed_blank]
    exact T.keyed
  sorted_eq := by
    refine sorted_of_inOrder _ ?_
    rw [← inOrder_blank, fill, blank_refill, inOrder_blank]
    exact T.inOrder
  length_eq := h

/-- A value is an instance of the template of any value of its shape. -/
theorem holds_of_shape (hv : Keyed v) (h : shape v = blank T.value) :
    T.Holds v (leaves (sorted v)) := by
  obtain ⟨hlen, hfill⟩ := refill_leaves_of_blank h.symm
  exact ⟨hv, hfill.symm, hlen⟩

variable {m : Type → Type} [Monad m] [LawfulMonad m] [MonadExceptOf Failure m]

/-- A walk maps over the leaves and keeps the keys. -/
theorem Holds.walkTable (h : T.Holds v ls) (f : L → m (Option L)) :
    walkTable f v = ls.mapM (visitLeaf f) >>= fun ls' => pure (T.fill ls') := by
  rw [walkTable_eq f v h.keyed, h.sorted_eq, leaves_fill h.length_eq]
  refine mapM_bind_congr fun ys hys => ?_
  rw [fill, fill, refill_eq_of_blank (blank_refill T.value ls) (hys.trans h.length_eq)]

end Template

end TorchIpc.Tree
