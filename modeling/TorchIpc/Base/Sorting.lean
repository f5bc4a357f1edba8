import Mathlib.Data.List.Pairwise
import Mathlib.Data.List.Sort
import Mathlib.Tactic.NormNum

/-! Sorting by a comparator, in the manner of C. A comparator answers with an integer of
which only the sign counts, and it is consistent on a list if these signs come from a
total preorder of its elements. A sorting function need only sort by the comparators that
are; what it does with the others is its own affair. -/

namespace TorchIpc.Sorting

variable {α : Type*}

/-- The signs of `cmp` come from a total preorder of these elements. -/
structure Consistent (cmp : α → α → ℤ) (l : List α) : Prop where
  flip : ∀ a ∈ l, ∀ b ∈ l, cmp a b < 0 ↔ 0 < cmp b a
  trans : ∀ a ∈ l, ∀ b ∈ l, ∀ c ∈ l, cmp a b ≤ 0 → cmp b c ≤ 0 → cmp a c ≤ 0

/-- No element comes before a smaller one. -/
def Ordered (cmp : α → α → ℤ) (l : List α) : Prop := l.Pairwise fun a b => cmp a b ≤ 0

/-- A function that sorts by every consistent comparator. -/
def Sorts (sort : (α → α → ℤ) → List α → List α) : Prop :=
  ∀ cmp l, Consistent cmp l → (sort cmp l).Perm l ∧ Ordered cmp (sort cmp l)

/-- Sorts the elements as members of their list, where a consistent comparator is one. -/
def sortBy (cmp : α → α → ℤ) (l : List α) : List α :=
  (l.attach.mergeSort fun a b => cmp a.1 b.1 ≤ 0).map Subtype.val

variable {cmp : α → α → ℤ} {l : List α}

theorem Consistent.total (h : Consistent cmp l) {a b : α} (ha : a ∈ l) (hb : b ∈ l) :
    cmp a b ≤ 0 ∨ cmp b a ≤ 0 := by
  have hflip := h.flip b hb a ha
  omega

theorem sortBy_perm (cmp : α → α → ℤ) (l : List α) : (sortBy cmp l).Perm l := by
  have hperm := (List.mergeSort_perm l.attach fun a b => decide (cmp a.1 b.1 ≤ 0)).map Subtype.val
  rwa [List.attach_map_subtype_val] at hperm

theorem sortBy_ordered (h : Consistent cmp l) : Ordered cmp (sortBy cmp l) := by
  have hsorted := @List.pairwise_mergeSort _ (fun a b : { x // x ∈ l } => decide (cmp a.1 b.1 ≤ 0))
    (fun a b c hab hbc => by
      simp only [decide_eq_true_eq] at hab hbc ⊢
      exact h.trans a.1 a.2 b.1 b.2 c.1 c.2 hab hbc)
    (fun a b => by
      simp only [Bool.or_eq_true, decide_eq_true_eq]
      exact h.total a.2 b.2) l.attach
  rw [Ordered, sortBy, List.pairwise_map]
  exact hsorted.imp fun hab => decide_eq_true_eq.mp hab

theorem sortBy_sorts : Sorts (sortBy (α := α)) :=
  fun cmp l h => ⟨sortBy_perm cmp l, sortBy_ordered h⟩

/-- A sorting function that answers an inconsistent comparator as it likes. -/
theorem exists_sorts_eq (h : ¬ Consistent cmp l) (out : List α) :
    ∃ sort : (α → α → ℤ) → List α → List α, Sorts sort ∧ sort cmp l = out := by
  classical
  refine ⟨fun f m => if Consistent f m then sortBy f m else out, fun f m hf => ?_, if_neg h⟩
  simp only [if_pos hf]
  exact sortBy_sorts f m hf

/-- Two elements of a list stand in one order or the other. -/
theorem rel_of_pairwise {r : α → α → Prop} (h : l.Pairwise r) {a b : α} (ha : a ∈ l) (hb : b ∈ l)
    (hne : a ≠ b) : r a b ∨ r b a := by
  have hsymm : Std.Symm fun a b => r a b ∨ r b a := ⟨fun _ _ => Or.symm⟩
  have heither : l.Pairwise fun a b => r a b ∨ r b a := h.imp Or.inl
  exact heither.forall ha hb hne

/-! ### Differences of keys

A comparator that subtracts the keys of two elements, in the arithmetic of 32 bits. -/

section
variable {g : α → ℤ}

theorem bmod_of_near {d : ℤ} (hlow : -2 ^ 31 ≤ d) (hhigh : d < 2 ^ 31) :
    Int.bmod d (2 ^ 32) = d := by
  apply Int.bmod_eq_of_le
  · omega
  · omega

/-- A difference that leaves the range changes its sign, except at the very end. -/
theorem bmod_of_far {d : ℤ} (hlow : 2 ^ 31 ≤ d) (hhigh : d < 2 ^ 32) :
    Int.bmod d (2 ^ 32) = d - 2 ^ 32 := by
  have hcast : ((2 ^ 32 : ℕ) : ℤ) = 2 ^ 32 := by norm_num
  have hsub := Int.sub_bmod_right d (2 ^ 32)
  rw [hcast] at hsub
  rw [← hsub, bmod_of_near (by omega) (by omega)]

theorem consistent_of_near (hcmp : ∀ a ∈ l, ∀ b ∈ l, cmp a b = Int.bmod (g a - g b) (2 ^ 32))
    (hnear : ∀ a ∈ l, ∀ b ∈ l, g a - g b < 2 ^ 31) :
    Consistent cmp l ∧ ∀ a ∈ l, ∀ b ∈ l, cmp a b ≤ 0 → g a ≤ g b := by
  have hdiff : ∀ a ∈ l, ∀ b ∈ l, cmp a b = g a - g b := fun a ha b hb => by
    have hba := hnear b hb a ha
    rw [hcmp a ha b hb, bmod_of_near (by omega) (hnear a ha b hb)]
  refine ⟨⟨fun a ha b hb => ?_, fun a ha b hb c hc hab hbc => ?_⟩, fun a ha b hb hab => ?_⟩
  · rw [hdiff a ha b hb, hdiff b hb a ha]
    omega
  · rw [hdiff a ha b hb] at hab
    rw [hdiff b hb c hc] at hbc
    rw [hdiff a ha c hc]
    omega
  · rw [hdiff a ha b hb] at hab
    omega

/-- Where two keys are too far apart, a consistent comparator takes them the wrong way
round. -/
theorem not_ordered_of_far (hcmp : ∀ a ∈ l, ∀ b ∈ l, cmp a b = Int.bmod (g a - g b) (2 ^ 32))
    {a b : α} (ha : a ∈ l) (hb : b ∈ l) (hfar : 2 ^ 31 ≤ g a - g b) (hlt : g a - g b < 2 ^ 32)
    (hc : Consistent cmp l) : 0 < cmp b a := by
  rw [← hc.flip a ha b hb, hcmp a ha b hb, bmod_of_far hfar hlt]
  omega

/-- Some sorting function leaves the keys of such a list out of order. -/
theorem exists_sorts_disordered (hcmp : ∀ a ∈ l, ∀ b ∈ l, cmp a b = Int.bmod (g a - g b) (2 ^ 32))
    {a b : α} (ha : a ∈ l) (hb : b ∈ l) (hfar : 2 ^ 31 ≤ g a - g b) (hlt : g a - g b < 2 ^ 32) :
    ∃ sort : (α → α → ℤ) → List α → List α, Sorts sort ∧
      ¬ ((sort cmp l).Perm l ∧ (sort cmp l).Pairwise fun a b => g a ≤ g b) := by
  have hne : a ≠ b := by
    rintro rfl
    omega
  by_cases hc : Consistent cmp l
  · refine ⟨sortBy, sortBy_sorts, fun ⟨hperm, hkeys⟩ => ?_⟩
    have hboth := (sortBy_ordered hc).and hkeys
    have hpos := not_ordered_of_far hcmp ha hb hfar hlt hc
    rcases rel_of_pairwise hboth (hperm.mem_iff.mpr ha) (hperm.mem_iff.mpr hb) hne with ⟨-, h⟩ | ⟨h, -⟩
    · omega
    · omega
  · -- the elements the other way round
    obtain ⟨sort, hsorts, hout⟩ := exists_sorts_eq hc (l.mergeSort fun a b => g b ≤ g a)
    refine ⟨sort, hsorts, fun ⟨hperm, hkeys⟩ => ?_⟩
    have hdown := @List.pairwise_mergeSort _ (fun a b : α => decide (g b ≤ g a))
      (fun a b c hab hbc => by
        simp only [decide_eq_true_eq] at hab hbc ⊢
        omega)
      (fun a b => by
        simp only [Bool.or_eq_true, decide_eq_true_eq]
        omega) l
    rw [← hout] at hdown
    have hboth := hdown.and hkeys
    rcases rel_of_pairwise hboth (hperm.mem_iff.mpr ha) (hperm.mem_iff.mpr hb) hne with ⟨h, h'⟩ | ⟨h, h'⟩
    · rw [decide_eq_true_eq] at h
      omega
    · rw [decide_eq_true_eq] at h
      omega

/-- Every sorting function sorts by the keys if and only if no difference of two keys
leaves the range of 32 bits. -/
theorem sorts_by_difference_iff (hg : ∀ a ∈ l, ∀ b ∈ l, g a - g b < 2 ^ 32)
    (hcmp : ∀ a ∈ l, ∀ b ∈ l, cmp a b = Int.bmod (g a - g b) (2 ^ 32)) :
    (∀ sort, Sorts sort → (sort cmp l).Perm l ∧ (sort cmp l).Pairwise fun a b => g a ≤ g b) ↔
      ∀ a ∈ l, ∀ b ∈ l, g a - g b < 2 ^ 31 := by
  constructor
  · intro h a ha b hb
    by_contra hfar
    obtain ⟨sort, hsorts, hnot⟩ :=
      exists_sorts_disordered hcmp ha hb (not_lt.mp hfar) (hg a ha b hb)
    exact hnot (h sort hsorts)
  · intro hnear sort hsorts
    obtain ⟨hc, hkey⟩ := consistent_of_near hcmp hnear
    obtain ⟨hperm, hordered⟩ := hsorts cmp l hc
    refine ⟨hperm, hordered.imp_of_mem fun ha hb hab => ?_⟩
    exact hkey _ (hperm.mem_iff.mp ha) _ (hperm.mem_iff.mp hb) hab

end

end TorchIpc.Sorting
