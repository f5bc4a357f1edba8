import Mathlib.Data.String.Basic
import TorchIpc.Tree.Walk

/-! The order in which `walkTable` comes to the leaves. The two ends of a transfer
walk a table each and pair the leaves by this order only. Here every leaf is labelled
with its path, and a callback notes the calls made of it. -/

namespace TorchIpc.Tree

/-- The keys from the outermost table to a value. -/
abbrev Path (N S : Type) := List (Key N S)

variable {N S L : Type} [LinearOrder N] [LinearOrder S]

section
omit [LinearOrder N] [LinearOrder S]

mutual

/-- The value at `path`, with every leaf beside its own path. -/
def label (path : Path N S) : Nested N S L → Nested N S (Path N S × L)
  | .leaf x => .leaf (path, x)
  | .table t => .table (labelEntries path t)

def labelEntries (path : Path N S) :
    List (Key N S × Nested N S L) → List (Key N S × Nested N S (Path N S × L))
  | [] => []
  | e :: t => (e.1, label (path ++ [e.1]) e.2) :: labelEntries path t

end

/-- The leaves with their paths, in the order of `pairs`. -/
def places (v : Nested N S L) : List (Path N S × L) := leaves (label [] v)

mutual

def Distinct : Nested N S L → Prop
  | .leaf _ => True
  | .table t => (t.map Prod.fst).Nodup ∧ DistinctEntries t

def DistinctEntries : List (Key N S × Nested N S L) → Prop
  | [] => True
  | e :: t => Distinct e.2 ∧ DistinctEntries t

end

theorem labelEntries_eq (path : Path N S) (t : List (Key N S × Nested N S L)) :
    labelEntries path t = t.map fun e => (e.1, label (path ++ [e.1]) e.2) := by
  induction t with
  | nil => rfl
  | cons e t ih => rw [labelEntries, ih, List.map_cons]

theorem distinctEntries_iff (t : List (Key N S × Nested N S L)) :
    DistinctEntries t ↔ ∀ e ∈ t, Distinct e.2 := by
  induction t with
  | nil => simp [DistinctEntries]
  | cons e t ih => simp [DistinctEntries, ih]

theorem leavesOf_eq (t : List (Key N S × Nested N S L)) : leavesOf t = t.flatMap fun e =>
    leaves e.2 := by
  induction t with
  | nil => rfl
  | cons e t ih => rw [leavesOf, ih, List.flatMap_cons]

@[simp] theorem blank_label (path : Path N S) (v : Nested N S L) :
    blank (label path v) = blank v := by
  induction v generalizing path with
  | leaf x => rfl
  | table t ih =>
    rw [label, blank, blank, blankEntries_eq, blankEntries_eq, labelEntries_eq, List.map_map]
    congr 1
    exact List.map_congr_left fun e he => by rw [Function.comp_apply, ih e he]

theorem leaves_label (path : Path N S) (v : Nested N S L) :
    (leaves (label path v)).map Prod.snd = leaves v := by
  induction v generalizing path with
  | leaf x => rfl
  | table t ih =>
    rw [label, leaves, leaves, leavesOf_eq, leavesOf_eq, labelEntries_eq, List.flatMap_map,
      List.map_flatMap]
    exact List.flatMap_congr fun e he => ih e he _

theorem paths_blank (path : Path N S) (v : Nested N S L) :
    (leaves (label path (blank v))).map Prod.fst = (leaves (label path v)).map Prod.fst := by
  induction v generalizing path with
  | leaf x => rfl
  | table t ih =>
    rw [blank, label, label, leaves, leaves, leavesOf_eq, leavesOf_eq, labelEntries_eq, labelEntries_eq,
      blankEntries_eq, List.map_map, List.flatMap_map, List.flatMap_map, List.map_flatMap,
        List.map_flatMap]
    exact List.flatMap_congr fun e he => ih e he _

theorem path_extends {path p : Path N S} {x : L} {v : Nested N S L} (h : (p, x) ∈ leaves (label path v)) :
    path <+: p := by
  induction v generalizing path with
  | leaf y =>
    obtain rfl : p = path := congrArg Prod.fst (List.mem_singleton.mp h)
    exact List.prefix_refl _
  | table t ih =>
    rw [label, leaves, leavesOf_eq, labelEntries_eq, List.flatMap_map, List.mem_flatMap] at h
    obtain ⟨e, he, hmem⟩ := h
    exact (List.prefix_append path [e.1]).trans (ih e he hmem)

theorem nodup_paths (path : Path N S) {v : Nested N S L} (h : Distinct v) :
    ((leaves (label path v)).map Prod.fst).Nodup := by
  induction v generalizing path with
  | leaf x => simp [label, leaves]
  | table t ih =>
    rw [Distinct, distinctEntries_iff] at h
    rw [label, leaves, leavesOf_eq, labelEntries_eq, List.flatMap_map, List.map_flatMap, List.nodup_flatMap]
    refine ⟨fun e he => ih e he _ (h.2 e he), ?_⟩
    rw [List.Nodup, List.pairwise_map] at h
    refine h.1.imp fun {e e'} hne => ?_
    -- the paths of two entries part at their keys
    intro p hp hp'
    obtain ⟨⟨_, x⟩, hx, rfl⟩ := List.mem_map.mp hp
    obtain ⟨⟨_, x'⟩, hx', rfl⟩ := List.mem_map.mp hp'
    have hpre := path_extends hx
    have hpre' := path_extends hx'
    have hsame := List.prefix_of_prefix_length_le hpre hpre' (by simp)
    rw [List.prefix_append_right_inj] at hsame
    exact hne (List.singleton_inj.mp (hsame.eq_of_length rfl))

end

/-! ### Sorting -/

theorem sorted_label (path : Path N S) (v : Nested N S L) :
    sorted (label path v) = label path (sorted v) := by
  induction v generalizing path with
  | leaf x => rfl
  | table t ih =>
    have hsort := List.map_insertionSort byKey byKey
      (fun e : Key N S × Nested N S L => (e.1, label (path ++ [e.1]) e.2)) t fun _ _ _ _ => Iff.rfl
    rw [sorted_table, label, sorted_table, label, labelEntries_eq, labelEntries_eq, ← hsort, List.map_map,
      List.map_map]
    congr 1
    exact List.map_congr_left fun e he =>
      congrArg (e.1, ·) (ih e ((List.mem_insertionSort byKey).mp he) (path ++ [e.1]))

theorem leaves_sorted_perm (v : Nested N S L) : (leaves (sorted v)).Perm (leaves v) := by
  induction v with
  | leaf x => rfl
  | table t ih =>
    rw [sorted_table, leaves, leaves, leavesOf_eq, leavesOf_eq, List.flatMap_map]
    refine List.Perm.trans ?_ ((List.perm_insertionSort byKey t).flatMap_right _)
    exact List.Perm.flatMap_left _ fun e he => ih e ((List.mem_insertionSort byKey).mp he)

theorem places_sorted_perm (v : Nested N S L) : (places (sorted v)).Perm (places v) := by
  rw [places, ← sorted_label]
  exact leaves_sorted_perm _

theorem distinct_sorted {v : Nested N S L} (h : Distinct v) : Distinct (sorted v) := by
  induction v with
  | leaf x => trivial
  | table t ih =>
    rw [Distinct, distinctEntries_iff] at h
    rw [sorted_table, Distinct, distinctEntries_iff, List.map_map, List.forall_mem_map]
    refine ⟨((List.perm_insertionSort byKey t).map Prod.fst).nodup_iff.mpr h.1, fun e he => ?_⟩
    have hmem := (List.mem_insertionSort byKey).mp he
    exact ih e hmem (h.2 e hmem)

theorem keyed_shape (v : Nested N S L) : Keyed (shape v) ↔ Keyed v := by
  rw [shape, keyed_blank, keyed_sorted_iff]

theorem shape_refill_sorted (v : Nested N S L) (ls : List L) :
    shape (refill (sorted v) ls) = shape v := by
  have horder : InOrder (refill (sorted v) ls) := by
    rw [← inOrder_blank, blank_refill, inOrder_blank]
    exact inOrder_sorted v
  rw [shape, sorted_of_inOrder _ horder, blank_refill, shape]

/-- Tables of one shape have the same paths in the order of their sorted keys. -/
theorem paths_of_shape {L' : Type} {v : Nested N S L} {w : Nested N S L'} (h : shape v = shape w) :
    (places (sorted v)).map Prod.fst = (places (sorted w)).map Prod.fst := by
  rw [places, places, ← paths_blank, ← paths_blank [] (sorted w)]
  exact congrArg (fun b => (leaves (label [] b)).map Prod.fst) h

omit [LinearOrder N] [LinearOrder S] in
theorem places_refill (v : Nested N S L) {ls : List (Path N S × L)}
    (h : ls.map Prod.fst = (places v).map Prod.fst) : places (refill v (ls.map Prod.snd)) = ls := by
  have hlen : (ls.map Prod.snd).length = (leaves v).length := by
    rw [← leaves_label [] v, List.length_map, List.length_map, ← places]
    simpa using congrArg List.length h
  have hfst : (places (refill v (ls.map Prod.snd))).map Prod.fst = ls.map Prod.fst := by
    rw [h, places, places, ← paths_blank, blank_refill, paths_blank]
  have hsnd : (places (refill v (ls.map Prod.snd))).map Prod.snd = ls.map Prod.snd := by
    rw [places, leaves_label, leaves_refill v _ hlen]
  exact (List.zip_of_prod hfst hsnd).trans (List.zip_of_prod rfl rfl).symm

omit [LinearOrder N] [LinearOrder S] in
theorem label_refill (v : Nested N S L) {ls : List (Path N S × L)}
    (h : ls.map Prod.fst = (places v).map Prod.fst) :
    refill (label [] v) ls = label [] (refill v (ls.map Prod.snd)) := by
  have hblank : blank (label [] v) = blank (label [] (refill v (ls.map Prod.snd))) := by simp
  have hfill := (refill_leaves_of_blank hblank).2
  rwa [← places, places_refill v h] at hfill

/-! ### Walking -/

structure Note (N S L : Type) where
  path : Path N S
  leaf : L
  answer : Option L

def Note.result (e : Note N S L) : L := e.answer.getD e.leaf

section
variable {σ : Type} (f : L → σ → Option L × σ)

/-- The callback `f`, which has a state of its own and does not raise. -/
def quiet (x : L) : StateT σ (Except Failure) (Option L) := fun s => .ok (f x s)

/-- The same, with a note of each call behind the others. -/
def noting (x : Path N S × L) :
    StateT (σ × List (Note N S L)) (Except Failure) (Option (Path N S × L)) := fun s =>
  .ok ((f x.2 s.1).1.map (x.1, ·), (f x.2 s.1).2, s.2 ++ [⟨x.1, x.2, (f x.2 s.1).1⟩])

/-- The calls for these leaves, one after the other. -/
def notes : List (Path N S × L) → σ → List (Note N S L) × σ
  | [], s => ([], s)
  | x :: xs, s =>
    (⟨x.1, x.2, (f x.2 s).1⟩ :: (notes xs (f x.2 s).2).1, (notes xs (f x.2 s).2).2)

omit [LinearOrder N] [LinearOrder S] in
theorem notes_places (xs : List (Path N S × L)) (s : σ) :
    (notes f xs s).1.map (fun e => (e.path, e.leaf)) = xs := by
  induction xs generalizing s with
  | nil => rfl
  | cons x xs ih => rw [notes, List.map_cons, ih]

omit [LinearOrder N] [LinearOrder S] in
theorem visitLeaf_noting (x : Path N S × L) (s : σ) (log : List (Note N S L)) :
    (visitLeaf (noting f) x).run (s, log) =
      .ok ((x.1, (f x.2 s).1.getD x.2), (f x.2 s).2, log ++ [⟨x.1, x.2, (f x.2 s).1⟩]) := by
  show Except.ok (((f x.2 s).1.map (x.1, ·)).getD x, _) = _
  cases (f x.2 s).1 <;> rfl

omit [LinearOrder N] [LinearOrder S] in
theorem mapM_noting (xs : List (Path N S × L)) (s : σ) (log : List (Note N S L)) :
    (xs.mapM (visitLeaf (noting f))).run (s, log) =
      .ok ((notes f xs s).1.map fun e => (e.path, e.result), (notes f xs s).2, log ++ (notes f xs s).1) := by
  induction xs generalizing s log with
  | nil =>
    rw [notes, List.append_nil]
    rfl
  | cons x xs ih =>
    rw [List.mapM_cons, StateT.run_bind, visitLeaf_noting]
    show ((xs.mapM (visitLeaf (noting f))).run _ >>= _) = _
    rw [ih, List.append_assoc]
    rfl

omit [LinearOrder N] [LinearOrder S] in
theorem mapM_quiet (xs : List (Path N S × L)) (s : σ) :
    ((xs.map Prod.snd).mapM (visitLeaf (quiet f))).run s =
      .ok ((notes f xs s).1.map Note.result, (notes f xs s).2) := by
  induction xs generalizing s with
  | nil => rfl
  | cons x xs ih =>
    rw [List.map_cons, List.mapM_cons, StateT.run_bind]
    show (((xs.map Prod.snd).mapM (visitLeaf (quiet f))).run _ >>= _) = _
    rw [ih]
    rfl

theorem walkTable_notes {v : Nested N S L} (h : Keyed v) (s : σ) :
    let es := (notes f (places (sorted v)) s).1
    let s' := (notes f (places (sorted v)) s).2
    let u := refill (sorted v) (es.map Note.result)
    (walkTable (quiet f) v).run s = .ok (u, s') ∧
      (walkTable (noting f) (label [] v)).run (s, []) = .ok (label [] u, s', es) ∧
      places u = es.map fun e => (e.path, e.result) := by
  intro es s' u
  have hpaths : (es.map fun e => (e.path, e.result)).map Prod.fst =
      (places (sorted v)).map Prod.fst := by
    rw [← notes_places f (places (sorted v)) s, List.map_map, List.map_map]
    rfl
  have hresults : (es.map fun e => (e.path, e.result)).map Prod.snd = es.map Note.result := by
    rw [List.map_map]
    rfl
  have hlabel : Keyed (label [] v) := by rwa [← keyed_blank, blank_label, keyed_blank]
  refine ⟨?_, ?_, ?_⟩
  · have hleaves : leaves (sorted v) = (places (sorted v)).map Prod.snd := (leaves_label [] _).symm
    rw [walkTable_eq _ v h, StateT.run_bind, hleaves, mapM_quiet]
    rfl
  · have hplaces : leaves (sorted (label [] v)) = places (sorted v) := by rw [sorted_label, places]
    rw [walkTable_eq _ _ hlabel, StateT.run_bind, hplaces, mapM_noting, sorted_label]
    show Except.ok (refill (label [] (sorted v)) (es.map fun e => (e.path, e.result)), s', [] ++ es) = _
    rw [label_refill _ hpaths, hresults, List.nil_append]
  · rw [← places_refill _ hpaths, hresults]

/-! ### A walk that ends -/

theorem ok_of_bind {α β : Type} {x : StateT σ (Except Failure) α} {k : α → StateT σ (Except Failure) β}
    {s : σ} {r : β × σ} (h : (x >>= k).run s = .ok r) :
    ∃ y, x.run s = .ok y ∧ (k y.1).run y.2 = .ok r := by
  rw [StateT.run_bind] at h
  cases hx : x.run s with
  | error e =>
    rw [hx] at h
    cases h
  | ok y =>
    rw [hx] at h
    exact ⟨y, rfl, h⟩

theorem ok_of_mapM {α β : Type} {g : α → StateT σ (Except Failure) β} {xs : List α} {s : σ} {r : List β × σ}
    (h : (xs.mapM g).run s = .ok r) : ∀ x ∈ xs, ∃ s' r', (g x).run s' = .ok r' := by
  induction xs generalizing s r with
  | nil => simp
  | cons x xs ih =>
    rw [List.mapM_cons] at h
    obtain ⟨y, hx, hrest⟩ := ok_of_bind h
    obtain ⟨ys, hxs, _⟩ := ok_of_bind hrest
    exact List.forall_mem_cons.mpr ⟨⟨s, y, hx⟩, ih hxs⟩

theorem keyed_of_walk {v : Nested N S L} {s : σ} {r : Nested N S L × σ}
    (h : (walkTable (quiet f) v).run s = .ok r) : Keyed v := by
  induction v generalizing s r with
  | leaf x => trivial
  | table t ih =>
    rw [walkTable, tableSort, visits_eq] at h
    rw [Keyed, keyedEntries_iff]
    split_ifs at h with hkind
    · have hkind' : oneKind t = true := by
        simpa [oneKind, List.all_map, Function.comp_def] using hkind
      refine ⟨hkind', fun e he => ?_⟩
      obtain ⟨kk, hkk, _⟩ := ok_of_bind h
      have hmem : (e.1, walkTable (quiet f) e.2) ∈
          (t.map fun e => (e.1, walkTable (quiet f) e.2)).insertionSort byKey :=
        (List.mem_insertionSort byKey).mpr (List.mem_map_of_mem he)
      obtain ⟨s', r', hentry⟩ := ok_of_mapM hkk _ hmem
      obtain ⟨y, hwalk, _⟩ := ok_of_bind hentry
      exact ih e he hwalk
    · cases h

end

/-- The walk over `v` comes to these paths, whatever the callback does. Each leaf is seen once,
and replaced exactly if the answer is not nil. -/
structure WalkedAlong (v : Nested N S L) (paths : List (Path N S)) : Prop where
  nodup : paths.Nodup
  walk : ∀ (σ : Type) (f : L → σ → Option L × σ) (s : σ), ∃ u s' es,
    (walkTable (quiet f) v).run s = .ok (u, s') ∧
    (walkTable (noting f) (label [] v)).run (s, []) = .ok (label [] u, s', es) ∧
    es.map Note.path = paths ∧
    (es.map fun e => (e.path, e.leaf)).Perm (places v) ∧
    (es.map fun e => (e.path, e.result)).Perm (places u) ∧ shape u = shape v

theorem walkedAlong_sorted {v : Nested N S L} (hv : Distinct v) (h : Keyed v) :
    WalkedAlong v ((places (sorted v)).map Prod.fst) := by
  refine ⟨nodup_paths [] (distinct_sorted hv), fun σ f s => ?_⟩
  obtain ⟨hquiet, hnoting, hplaces⟩ := walkTable_notes f h s
  have hnotes := notes_places f (places (sorted v)) s
  refine ⟨_, _, _, hquiet, hnoting, ?_, ?_, ?_, shape_refill_sorted v _⟩
  · have hpaths := congrArg (List.map Prod.fst) hnotes
    rwa [List.map_map] at hpaths
  · rw [hnotes]
    exact places_sorted_perm v
  · rw [hplaces]

/-- Two tables of one shape are walked along the same paths exactly if at each level the keys are
all numbers or all strings. -/
theorem walk_order_iff {L' : Type} {v : Nested N S L} {w : Nested N S L'} (hv : Distinct v)
    (hw : Distinct w) (hshape : shape v = shape w) :
    (∃ paths, WalkedAlong v paths ∧ WalkedAlong w paths) ↔ Keyed v := by
  constructor
  · rintro ⟨paths, hpaths, _⟩
    obtain ⟨u, s', es, hwalk, _⟩ := hpaths.walk Unit (fun _ s => (none, s)) ()
    exact keyed_of_walk _ hwalk
  · intro hkeyed
    have hkeyed' : Keyed w := by
      rw [← keyed_shape, ← hshape, keyed_shape]
      exact hkeyed
    exact ⟨_, walkedAlong_sorted hv hkeyed, paths_of_shape hshape ▸ walkedAlong_sorted hw hkeyed'⟩

/-- A list of numbers with a table of fields at its end, as `pairs` may list them. -/
def listed : Nested ℤ String ℤ := .table [(.num 1, .leaf 10), (.num 2, .table [(.str "x", .leaf 20)])]

def listedLater : Nested ℤ String ℤ := .table [(.num 2, .table [(.str "x", .leaf 5)]), (.num 1, .leaf 6)]

theorem walk_order_listed :
    (∃ paths, WalkedAlong listed paths ∧ WalkedAlong listedLater paths) ↔ Keyed listed :=
  walk_order_iff (by simp [listed, Distinct, DistinctEntries])
    (by simp [listedLater, Distinct, DistinctEntries]) (by rfl)

def mixed : Nested ℤ String ℤ := .table [(.num 1, .leaf 10), (.str "x", .leaf 20)]

theorem walk_order_mixed : ¬ ∀ v w : Nested ℤ String ℤ, Distinct v → Distinct w →
    shape v = shape w →
    ∃ paths, WalkedAlong v paths ∧ WalkedAlong w paths := by
  intro hall
  have hdistinct : Distinct mixed := by simp [mixed, Distinct, DistinctEntries]
  obtain ⟨paths, hpaths, _⟩ := hall mixed mixed hdistinct hdistinct rfl
  obtain ⟨u, s', es, hwalk, _⟩ := hpaths.walk Unit (fun _ s => (none, s)) ()
  have hkeyed := keyed_of_walk _ hwalk
  simp [mixed, Keyed, oneKind, Key.isNum] at hkeyed

end TorchIpc.Tree
