import Mathlib.NumberTheory.Padics.PadicVal.Basic
import TorchIpc.Tree.Connections

/-! The shape of the tree in base two. A level of the recursion works on blocks that start
at multiples of a power of two, so the call for node `j` clears the lowest bit of `j - 1`,
and its depth is the number of zeros behind this bit. Levels that are deeper than needed
link nothing. -/

namespace TorchIpc.Tree

/-- A number with its lowest set bit cleared. -/
def clearLowest (x : ℕ) : ℕ := x &&& (x - 1)

def linkOf (j : ℕ) : Link := ⟨clearLowest (j - 1) + 1, j, some (padicValNat 2 (j - 1))⟩

/-! ### Bits -/

theorem clearLowest_eq (t q : ℕ) : clearLowest (2 ^ (t + 1) * q + 2 ^ t) = 2 ^ (t + 1) * q := by
  have hpow : 0 < 2 ^ t := by positivity
  have hlt : 2 ^ t < 2 ^ (t + 1) := Nat.pow_lt_pow_right (by norm_num) (Nat.lt_succ_self t)
  have hpred : 2 ^ (t + 1) * q + 2 ^ t - 1 = 2 ^ (t + 1) * q + (2 ^ t - 1) := by omega
  rw [clearLowest, hpred]
  refine Nat.eq_of_testBit_eq fun i => ?_
  have hclear := Nat.testBit_two_pow_mul_add q (show 0 < 2 ^ (t + 1) by positivity) i
  rw [Nat.add_zero] at hclear
  rw [Nat.testBit_and, Nat.testBit_two_pow_mul_add q hlt, Nat.testBit_two_pow_mul_add q (by omega),
    hclear]
  split_ifs with hi
  · rw [Nat.testBit_two_pow, Nat.testBit_two_pow_sub_one, Nat.zero_testBit]
    by_cases ht : t = i
    · simp [ht]
    · simp [ht]
  · rw [Bool.and_self]

theorem padicValNat_eq (t q : ℕ) : padicValNat 2 (2 ^ (t + 1) * q + 2 ^ t) = t := by
  have hodd : padicValNat 2 (2 * q + 1) = 0 := padicValNat.eq_zero_of_not_dvd (by omega)
  have hfactor : 2 ^ (t + 1) * q + 2 ^ t = 2 ^ t * (2 * q + 1) := by ring
  rw [hfactor, padicValNat.mul (by positivity) (by omega), padicValNat.prime_pow, hodd, Nat.add_zero]

/-- The call for the node behind a number of this form. -/
theorem linkOf_eq (t q : ℕ) : linkOf (2 ^ (t + 1) * q + 2 ^ t + 1) =
    ⟨2 ^ (t + 1) * q + 1, 2 ^ (t + 1) * q + 2 ^ t + 1, some t⟩ := by
  rw [linkOf, Nat.add_sub_cancel, clearLowest_eq, padicValNat_eq]

theorem exists_lowest {x : ℕ} (h : 0 < x) : ∃ t q, x = 2 ^ (t + 1) * q + 2 ^ t := by
  obtain ⟨t, m, hodd, rfl⟩ := Nat.exists_eq_two_pow_mul_odd (Nat.pos_iff_ne_zero.mp h)
  obtain ⟨q, rfl⟩ := hodd
  exact ⟨t, q, by ring⟩

/-! ### The calls -/

variable {n : ℕ}

/-- Every call of a block that starts at a multiple of its size. -/
theorem mem_pairs_two {index depth : ℕ} {l : Link} (hi : 2 ^ (depth + 1) ∣ index)
    (h : l ∈ rcsvAllPairs 2 n index depth) : l = linkOf l.fromNode := by
  induction depth generalizing index with
  | zero =>
    obtain ⟨q, rfl⟩ := hi
    have hj : List.range' (2 ^ (0 + 1) * q + 2) (2 ^ (0 + 1) - 1) = [2 ^ (0 + 1) * q + 2] := rfl
    simp only [rcsvAllPairs, hj, List.flatMap_cons, List.flatMap_nil, List.append_nil] at h
    obtain ⟨rfl, -⟩ := mem_link h
    exact (linkOf_eq 0 q).symm
  | succ depth ih =>
    rcases mem_pairs_succ h with ⟨rfl, -⟩ | ⟨c, -, hl⟩
    · obtain ⟨q, rfl⟩ := hi
      exact (linkOf_eq (depth + 1) q).symm
    · have hdvd : 2 ^ (depth + 1) ∣ index := (pow_dvd_pow 2 (by omega)).trans hi
      exact ih (Nat.dvd_add hdvd (Dvd.intro_left c rfl)) hl

theorem parents_pairs_all {depth : ℕ} (hfit : n ≤ 2 ^ (depth + 1)) (j : ℕ) :
    parents (rcsvAllPairs 2 n 0 depth) j = (List.range' 2 (n - 1)).count j := by
  by_cases hj : 2 ≤ j ∧ j ≤ n
  · have hmem : j ∈ List.range' 2 (n - 1) := List.mem_range'_1.mpr (by omega)
    rw [parents_pairs_two (by omega) (by omega) hj.2, List.count_eq_one_of_mem List.nodup_range' hmem]
  · have hmem : j ∉ List.range' 2 (n - 1) := fun h => by
      have := List.mem_range'_1.mp h
      omega
    rw [List.count_eq_zero_of_not_mem hmem]
    refine parents_eq_zero fun l hl he => ?_
    have := mem_pairs_bounds le_rfl hl
    omega

/-- The builder calls `linkFunc` once for each node but the first. -/
theorem pairs_perm {depth : ℕ} (hfit : n ≤ 2 ^ (depth + 1)) :
    (rcsvAllPairs 2 n 0 depth).Perm ((List.range' 2 (n - 1)).map linkOf) := by
  have hnodes : ((rcsvAllPairs 2 n 0 depth).map Link.fromNode).Perm (List.range' 2 (n - 1)) := by
    rw [List.perm_iff_count]
    intro j
    rw [← parents_pairs_all hfit j, parents, List.count, List.countP_map]
    exact List.countP_congr fun l _ => by simp
  have hlinks : ((rcsvAllPairs 2 n 0 depth).map Link.fromNode).map linkOf =
      rcsvAllPairs 2 n 0 depth := by
    rw [List.map_map]
    refine (List.map_congr_left fun l hl => ?_).trans (List.map_id _)
    exact (mem_pairs_two (Nat.dvd_zero _) hl).symm
  have hperm := hnodes.map linkOf
  rwa [hlinks] at hperm

/-! ### Distances -/

/-- A node is as far from the first as its number has bits, at most. -/
theorem exists_distance {links : List Link} (hlinks : ∀ j, 2 ≤ j → j ≤ n → linkOf j ∈ links) (m : ℕ)
    {t q : ℕ} (hq : q < 2 ^ m) (hn : 2 ^ t * q < n) :
    ∃ k ≤ m, Distance links k (2 ^ t * q + 1) := by
  induction m generalizing t q with
  | zero =>
    obtain rfl : q = 0 := by omega
    exact ⟨0, le_rfl, by rw [Nat.mul_zero]; rfl⟩
  | succ m ih =>
    have hhalf : q / 2 < 2 ^ m := by
      rw [pow_succ] at hq
      omega
    have hpow : 2 ^ (t + 1) * (q / 2) = 2 ^ t * (2 * (q / 2)) := by ring
    rcases Nat.mod_two_eq_zero_or_one q with heven | hodd
    · have hsame : 2 ^ t * q = 2 ^ (t + 1) * (q / 2) := by
        rw [hpow, show 2 * (q / 2) = q by omega]
      rw [hsame] at hn ⊢
      obtain ⟨k, hk, hdist⟩ := ih hhalf hn
      exact ⟨k, by omega, hdist⟩
    · have hlow : 2 ^ t * q = 2 ^ (t + 1) * (q / 2) + 2 ^ t := by
        rw [hpow, ← Nat.mul_succ, show (2 * (q / 2)).succ = q by omega]
      rw [hlow] at hn ⊢
      have hless : 2 ^ (t + 1) * (q / 2) < n := (Nat.le_add_right _ _).trans_lt hn
      obtain ⟨k, hk, hdist⟩ := ih hhalf hless
      have hpos : 0 < 2 ^ t := by positivity
      have hlink := hlinks (2 ^ (t + 1) * (q / 2) + 2 ^ t + 1) (by omega) (by omega)
      rw [linkOf_eq] at hlink
      exact ⟨k + 1, by omega, _, ⟨_, hlink, rfl, rfl⟩, hdist⟩

/-! ### Depths that are not needed -/

theorem pairs_beyond {index depth : ℕ} (h : n ≤ index) : rcsvAllPairs 2 n index depth = [] := by
  rw [List.eq_nil_iff_forall_not_mem]
  intro l hl
  have := mem_pairs_bounds le_rfl hl
  omega

theorem pairs_deeper {depth : ℕ} (hfit : n ≤ 2 ^ (depth + 1)) :
    rcsvAllPairs 2 n 0 (depth + 1) = rcsvAllPairs 2 n 0 depth := by
  have hlink : link n (0 + 1) (0 + 2 ^ (depth + 1) + 1) (depth + 1) = [] := if_neg (by omega)
  have hsecond : rcsvAllPairs 2 n (0 + 1 * 2 ^ (depth + 1)) depth = [] := pairs_beyond (by omega)
  simp only [rcsvAllPairs, hlink, show List.range 2 = [0, 1] from rfl, List.flatMap_cons,
    List.flatMap_nil, hsecond, Nat.zero_mul, Nat.add_zero, List.nil_append, List.append_nil]

theorem pairs_depth {depth : ℕ} (hfit : n ≤ 2 ^ (depth + 1)) (more : ℕ) :
    rcsvAllPairs 2 n 0 (depth + more) = rcsvAllPairs 2 n 0 depth := by
  induction more with
  | zero => rfl
  | succ more ih =>
    have hle : 2 ^ (depth + 1) ≤ 2 ^ (depth + more + 1) :=
      Nat.pow_le_pow_right (by norm_num) (by omega)
    rw [← Nat.add_assoc, pairs_deeper (hfit.trans hle), ih]

/-- In base two the builder calls `linkFunc` exactly once for each node but the first, with
the lowest bit cleared; no node is far from the first, and the depth does not matter. -/
theorem binary_tree_shape {numNodes d : ℕ} (hn : 2 ≤ numNodes) (hd : 1 ≤ d) (hfit : numNodes ≤ 2 ^ d) :
    (rcsvAllPairs 2 numNodes 0 (d - 1)).Perm ((List.range' 2 (numNodes - 1)).map linkOf) ∧
      (∀ j, 1 ≤ j → j ≤ numNodes →
        ∃ k ≤ Nat.log 2 numNodes + 1, Distance (rcsvAllPairs 2 numNodes 0 (d - 1)) k j) ∧
      ∀ e, 1 ≤ e → numNodes ≤ 2 ^ e →
        rcsvAllPairs 2 numNodes 0 (e - 1) = rcsvAllPairs 2 numNodes 0 (d - 1) := by
  obtain ⟨depth, rfl⟩ : ∃ depth, d = depth + 1 := ⟨d - 1, by omega⟩
  rw [Nat.add_sub_cancel]
  have hperm := pairs_perm hfit
  refine ⟨hperm, fun j hj hjn => ?_, fun e he hfit' => ?_⟩
  · have hlinks : ∀ i, 2 ≤ i → i ≤ numNodes → linkOf i ∈ rcsvAllPairs 2 numNodes 0 depth :=
      fun i hi hin =>
      hperm.mem_iff.mpr (List.mem_map_of_mem (List.mem_range'_1.mpr (by omega)))
    have hbits : j - 1 < 2 ^ (Nat.log 2 numNodes + 1) := by
      have := Nat.lt_pow_succ_log_self (by norm_num : 1 < 2) numNodes
      omega
    have hdist := exists_distance hlinks _ (t := 0) hbits (by omega)
    rwa [pow_zero, Nat.one_mul, Nat.sub_add_cancel hj] at hdist
  · obtain ⟨depth', rfl⟩ : ∃ depth', e = depth' + 1 := ⟨e - 1, by omega⟩
    rw [Nat.add_sub_cancel]
    rcases le_total depth depth' with hle | hle
    · rw [← Nat.add_sub_of_le hle, pairs_depth hfit]
    · rw [← Nat.add_sub_of_le hle, pairs_depth hfit']

/-- Six nodes, with the depth they need and with one more. -/
theorem binary_tree_shape_six :
    (rcsvAllPairs 2 6 0 (3 - 1)).Perm ((List.range' 2 (6 - 1)).map linkOf) ∧
      (∀ j, 1 ≤ j → j ≤ 6 → ∃ k ≤ Nat.log 2 6 + 1, Distance (rcsvAllPairs 2 6 0 (3 - 1)) k j) ∧
      rcsvAllPairs 2 6 0 (4 - 1) = rcsvAllPairs 2 6 0 (3 - 1) := by
  have hmain := @binary_tree_shape 6 3 (by norm_num) (by norm_num) (by norm_num)
  exact ⟨hmain.1, hmain.2.1, hmain.2.2 4 (by norm_num) (by norm_num)⟩

end TorchIpc.Tree
