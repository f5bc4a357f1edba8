import Mathlib.Order.Bounds.Basic
import Mathlib.Data.Finset.Card
import Mathlib.Order.Interval.Finset.Nat
import Mathlib.Logic.Relation
import Mathlib.Tactic

/-! The tree builder `rcsvAllPairs` of `Tree.lua`. The recursion cuts the nodes
into `base` blocks of `base ^ depth` but links only the head of the second block
to the head of the first; a third block stays unlinked. Proved: the calls form a
spanning tree exactly when the base is two or no third block has a node, that is
`numNodes ≤ 2 * base`. -/

namespace TorchIpc.Tree

/-- A call `linkFunc(to, from, depth)`; the Slurm builder passes no depth. -/
structure Link where
  toNode : ℕ
  fromNode : ℕ
  depth : Option ℕ
  deriving Repr, DecidableEq

/-- The local function `link` of `rcsvAllPairs`. -/
def link (numNodes a b d : ℕ) : List Link :=
  if a ≤ numNodes ∧ b ≤ numNodes then [⟨a, b, some d⟩] else []

/-- `rcsvAllPairs`: the calls of `linkFunc`, in order. -/
def rcsvAllPairs (base numNodes : ℕ) : (index depth : ℕ) → List Link
  | index, 0 =>
    let skip := base ^ (0 + 1)
    (List.range' (index + 2) (skip - 1)).flatMap fun j => link numNodes (index + 1) j 0
  | index, depth + 1 =>
    let skip := base ^ (depth + 1)
    link numNodes (index + 1) (index + skip + 1) (depth + 1) ++
      (List.range base).flatMap fun c => rcsvAllPairs base numNodes (index + c * skip) depth

/-- The number of calls that give node `j` a parent. -/
def parents (links : List Link) (j : ℕ) : ℕ := links.countP fun l => l.fromNode = j

/-- `tree[to].listen`: the number of calls that name `p` as the parent. -/
def listen (links : List Link) (p : ℕ) : ℕ := links.countP fun l => l.toNode = p

/-- Node `b` is a parent of node `a`. -/
def Up (links : List Link) (a b : ℕ) : Prop := ∃ l ∈ links, l.fromNode = a ∧ l.toNode = b

/-- Every node from `2` on has one parent, the calls name nodes of `1..n` only,
and every node leads to node `1`. -/
structure Spans (n : ℕ) (links : List Link) : Prop where
  parents_eq_one : ∀ j, 2 ≤ j → j ≤ n → parents links j = 1
  mem_range : ∀ l ∈ links, (1 ≤ l.toNode ∧ l.toNode ≤ n) ∧ 1 ≤ l.fromNode ∧ l.fromNode ≤ n
  up_one : ∀ j, 1 ≤ j → j ≤ n → Relation.ReflTransGen (Up links) j 1

/-- A spanning tree rooted at node `1`. -/
structure SpanningTree (n : ℕ) (links : List Link) : Prop extends Spans n links where
  parents_one : parents links 1 = 0

/-! ### Counting parents -/

@[simp] theorem parents_nil (j : ℕ) : parents [] j = 0 := rfl

@[simp] theorem parents_append (xs ys : List Link) (j : ℕ) :
    parents (xs ++ ys) j = parents xs j + parents ys j :=
  List.countP_append

theorem parents_eq_zero {links : List Link} {j : ℕ} (h : ∀ l ∈ links, l.fromNode ≠ j) :
    parents links j = 0 :=
  List.countP_eq_zero.mpr fun l hl => by simpa using h l hl

theorem exists_of_parents {links : List Link} {j : ℕ} (h : parents links j = 1) :
    ∃ l ∈ links, l.fromNode = j := by
  obtain ⟨l, hl, hj⟩ := List.countP_pos_iff.mp (show 0 < parents links j by omega)
  exact ⟨l, hl, by simpa using hj⟩

theorem parents_link (n a b d j : ℕ) :
    parents (link n a b d) j = if a ≤ n ∧ b ≤ n ∧ b = j then 1 else 0 := by
  unfold link parents
  by_cases h : a ≤ n ∧ b ≤ n
  · rw [if_pos h]
    by_cases hb : b = j
    · subst hb
      simp [h]
    · simp [hb]
  · have : ¬ (a ≤ n ∧ b ≤ n ∧ b = j) := fun hc => h ⟨hc.1, hc.2.1⟩
    simp [h, this]

/-- Parents lie below their children, so following them ends at node `1`. -/
theorem spans_of_parents {n : ℕ} {links : List Link}
    (hone : ∀ j, 2 ≤ j → j ≤ n → parents links j = 1)
    (hmem : ∀ l ∈ links, 1 ≤ l.toNode ∧ l.toNode < l.fromNode ∧ l.fromNode ≤ n) :
    Spans n links := by
  refine ⟨hone, fun l hl => ?_, fun j => ?_⟩
  · obtain ⟨h1, h2, h3⟩ := hmem l hl
    omega
  · induction j using Nat.strong_induction_on with
    | _ j ih =>
      intro h1 hn
      by_cases hj : j = 1
      · rw [hj]
      · obtain ⟨l, hl, rfl⟩ := exists_of_parents (hone j (by omega) hn)
        obtain ⟨hto, hlt, _⟩ := hmem l hl
        exact .head ⟨l, hl, rfl, rfl⟩ (ih l.toNode hlt hto (by omega))

/-- The listen count of a node is the number of nodes whose parent it is. -/
theorem Spans.listen_eq {n : ℕ} {links : List Link} (h : Spans n links)
    (hroot : parents links 1 = 0) (p : ℕ) :
    listen links p = {j ∈ Finset.Icc 1 n | ∃ l ∈ links, l.fromNode = j ∧ l.toNode = p}.card := by
  have hnodup : (links.map Link.fromNode).Nodup := by
    rw [List.nodup_iff_count_le_one]
    intro j
    have hc : List.count j (links.map Link.fromNode) = parents links j := by
      rw [List.count, List.countP_map]
      exact List.countP_congr fun l _ => by simp
    rw [hc]
    by_cases hj : ∃ l ∈ links, l.fromNode = j
    · obtain ⟨l, hl, rfl⟩ := hj
      have hr := (h.mem_range l hl).2
      by_cases h1 : l.fromNode = 1
      · rw [h1, hroot]
        omega
      · rw [h.parents_eq_one l.fromNode (by omega) hr.2]
    · rw [parents_eq_zero fun l hl he => hj ⟨l, hl, he⟩]
      omega
  have hsub : ((links.filter fun l => l.toNode = p).map Link.fromNode).Nodup :=
    hnodup.sublist (List.filter_sublist.map Link.fromNode)
  rw [listen, List.countP_eq_length_filter, ← List.length_map (f := Link.fromNode),
    ← List.toFinset_card_of_nodup hsub]
  congr 1
  ext j
  simp only [List.mem_toFinset, List.mem_map, List.mem_filter, decide_eq_true_eq,
    Finset.mem_filter, Finset.mem_Icc]
  constructor
  · rintro ⟨l, ⟨hl, hp⟩, rfl⟩
    exact ⟨(h.mem_range l hl).2, l, hl, rfl, hp⟩
  · rintro ⟨_, l, hl, hj, hp⟩
    exact ⟨l, ⟨hl, hp⟩, hj⟩

/-! ### One level of the recursion -/

variable {base n : ℕ}

theorem mem_link {a b d : ℕ} {l : Link} (h : l ∈ link n a b d) :
    l = ⟨a, b, some d⟩ ∧ a ≤ n ∧ b ≤ n := by
  unfold link at h
  split_ifs at h with hn
  · exact ⟨List.mem_singleton.mp h, hn⟩
  · simp at h

theorem mem_pairs_zero {index : ℕ} {l : Link} (h : l ∈ rcsvAllPairs base n index 0) :
    l.toNode = index + 1 ∧ index + 2 ≤ l.fromNode ∧ l.fromNode ≤ index + base ∧ l.fromNode ≤ n := by
  simp only [rcsvAllPairs, List.mem_flatMap, List.mem_range'_1] at h
  obtain ⟨j, ⟨hj, hj'⟩, hl⟩ := h
  obtain ⟨rfl, -, hn⟩ := mem_link hl
  simp only [Nat.zero_add, pow_one] at hj'
  exact ⟨rfl, hj, by simp only; omega, hn⟩

theorem mem_pairs_succ {index depth : ℕ} {l : Link}
    (h : l ∈ rcsvAllPairs base n index (depth + 1)) :
    (l = ⟨index + 1, index + base ^ (depth + 1) + 1, some (depth + 1)⟩ ∧ l.fromNode ≤ n) ∨
      ∃ c < base, l ∈ rcsvAllPairs base n (index + c * base ^ (depth + 1)) depth := by
  rw [rcsvAllPairs, List.mem_append, List.mem_flatMap] at h
  rcases h with h | ⟨c, hc, h⟩
  · obtain ⟨rfl, -, hn⟩ := mem_link h
    exact .inl ⟨rfl, hn⟩
  · exact .inr ⟨c, List.mem_range.mp hc, h⟩

/-- Every call stays inside its block and links upwards. -/
theorem mem_pairs_bounds (hb : 2 ≤ base) {index depth : ℕ} {l : Link}
    (h : l ∈ rcsvAllPairs base n index depth) :
    index + 1 ≤ l.toNode ∧ l.toNode < l.fromNode ∧ l.fromNode ≤ index + base ^ (depth + 1) ∧
      l.fromNode ≤ n := by
  induction depth generalizing index with
  | zero =>
    obtain ⟨h1, h2, h3, h4⟩ := mem_pairs_zero h
    rw [Nat.zero_add, pow_one]
    omega
  | succ depth ih =>
    have hskip : 0 < base ^ (depth + 1) := by positivity
    have hpow : base ^ (depth + 1 + 1) = base * base ^ (depth + 1) := by ring
    rcases mem_pairs_succ h with ⟨rfl, hn⟩ | ⟨c, hc, hl⟩
    · have := Nat.mul_le_mul_right (base ^ (depth + 1)) hb
      simp only at hn ⊢
      omega
    · obtain ⟨h1, h2, h3, h4⟩ := ih hl
      have hc' : (c + 1) * base ^ (depth + 1) ≤ base * base ^ (depth + 1) :=
        Nat.mul_le_mul_right _ hc
      rw [Nat.add_mul, Nat.one_mul] at hc'
      omega

/-- Outside its block a call of the recursion links nothing. -/
theorem parents_pairs_outside (hb : 2 ≤ base) {index depth j : ℕ}
    (h : j ≤ index + 1 ∨ index + base ^ (depth + 1) < j) :
    parents (rcsvAllPairs base n index depth) j = 0 := by
  refine parents_eq_zero fun l hl he => ?_
  have := mem_pairs_bounds hb hl
  omega

/-- At depth zero the head of the block is linked to each other node of it. -/
theorem parents_pairs_zero {index j : ℕ} (h1 : index + 2 ≤ j) (h2 : j ≤ index + base)
    (hn : j ≤ n) : parents (rcsvAllPairs base n index 0) j = 1 := by
  have hfun : ∀ i, parents (link n (index + 1) i 0) j = if i = j then 1 else 0 := by
    intro i
    rw [parents_link]
    by_cases hi : i = j
    · rw [if_pos (by omega), if_pos hi]
    · rw [if_neg (by omega), if_neg hi]
  have hsum : ∀ xs : List ℕ, parents (xs.flatMap fun i => link n (index + 1) i 0) j =
      xs.count j := by
    intro xs
    induction xs with
    | nil => rfl
    | cons x xs ih =>
      rw [List.flatMap_cons, parents_append, ih, hfun, List.count_cons]
      by_cases hx : x = j <;> simp [hx, Nat.add_comm]
  rw [rcsvAllPairs, hsum]
  refine List.count_eq_one_of_mem List.nodup_range' ?_
  rw [List.mem_range'_1, Nat.zero_add, pow_one]
  omega

/-! ### Base two -/

/-- With two blocks a level, every node of the block except its head has one
parent. -/
theorem parents_pairs_two {index depth j : ℕ} (h1 : index + 2 ≤ j)
    (h2 : j ≤ index + 2 ^ (depth + 1)) (hn : j ≤ n) :
    parents (rcsvAllPairs 2 n index depth) j = 1 := by
  induction depth generalizing index with
  | zero => exact parents_pairs_zero h1 (by simpa using h2) hn
  | succ depth ih =>
    have hskip : 0 < 2 ^ (depth + 1) := by positivity
    have hpow : 2 ^ (depth + 1 + 1) = 2 ^ (depth + 1) + 2 ^ (depth + 1) := by ring
    have hlow : parents (rcsvAllPairs 2 n index depth) j =
        if j ≤ index + 2 ^ (depth + 1) then 1 else 0 := by
      split_ifs with hj
      · exact ih h1 hj
      · exact parents_pairs_outside le_rfl (by omega)
    have hhigh : parents (rcsvAllPairs 2 n (index + 2 ^ (depth + 1)) depth) j =
        if index + 2 ^ (depth + 1) + 2 ≤ j then 1 else 0 := by
      split_ifs with hj
      · exact ih hj (by omega)
      · exact parents_pairs_outside le_rfl (by omega)
    rw [rcsvAllPairs]
    simp only [show List.range 2 = [0, 1] from rfl, List.flatMap_cons, List.flatMap_nil,
      parents_append, parents_nil, Nat.zero_mul, Nat.one_mul, Nat.add_zero, parents_link, hlow,
      hhigh]
    -- the head of the second block is linked here, the other nodes one level down
    split_ifs <;> omega

/-! ### Any base -/

/-- Up to two blocks, one level above the bottom: the second head is linked to
the first, and each block to its own head. -/
theorem parents_pairs_one (hb : 2 ≤ base) (hn : n ≤ 2 * base) {j : ℕ} (h1 : 2 ≤ j) (hj : j ≤ n) :
    parents (rcsvAllPairs base n 0 1) j = 1 := by
  obtain ⟨b, rfl⟩ : ∃ b, base = b + 2 := ⟨base - 2, by omega⟩
  have hrest : ((List.range b).map (· + 2)).flatMap
      (fun c => rcsvAllPairs (b + 2) n (c * (b + 2)) 0) = [] := by
    rw [List.flatMap_eq_nil_iff]
    intro c hc
    obtain ⟨c, -, rfl⟩ := List.mem_map.mp hc
    rw [List.eq_nil_iff_forall_not_mem]
    intro l hl
    have h := mem_pairs_zero hl
    have hbig : 2 * (b + 2) ≤ (c + 2) * (b + 2) := Nat.mul_le_mul_right _ (by omega)
    omega
  have hrange : List.range (b + 2) = 0 :: 1 :: (List.range b).map (· + 2) := by
    rw [List.range_succ_eq_map, List.range_succ_eq_map]
    simp [List.map_map, Function.comp_def]
  rw [rcsvAllPairs]
  simp only [hrange, List.flatMap_cons, Nat.zero_add, pow_one, Nat.zero_mul, Nat.one_mul]
  rw [hrest, List.append_nil, parents_append, parents_append, parents_link]
  have hlow : parents (rcsvAllPairs (b + 2) n 0 0) j = if j ≤ b + 2 then 1 else 0 := by
    split_ifs with h
    · exact parents_pairs_zero (by omega) (by omega) hj
    · exact parents_pairs_outside hb (by simp; omega)
  have hhigh : parents (rcsvAllPairs (b + 2) n (b + 2) 0) j = if b + 2 + 2 ≤ j then 1 else 0 := by
    split_ifs with h
    · exact parents_pairs_zero h (by omega) hj
    · exact parents_pairs_outside hb (by omega)
  rw [hlow, hhigh]
  split_ifs <;> omega

/-- A linked node is no multiple of the base away from node `1`, or it heads the
second block of some level. -/
theorem mem_pairs_shape {index depth : ℕ} {l : Link} (hi : base ^ (depth + 1) ∣ index)
    (h : l ∈ rcsvAllPairs base n index depth) :
    ¬ base ∣ l.fromNode - 1 ∨ ∃ k m, l.fromNode = m * base ^ (k + 2) + base ^ (k + 1) + 1 := by
  induction depth generalizing index with
  | zero =>
    obtain ⟨-, h2, h3, -⟩ := mem_pairs_zero h
    left
    rw [Nat.zero_add, pow_one] at hi
    obtain ⟨q, rfl⟩ := hi
    rintro ⟨r, hr⟩
    have hlt : base * q < base * r := by omega
    have hle : base * r < base * (q + 1) := by rw [Nat.mul_add, Nat.mul_one]; omega
    have := Nat.lt_of_mul_lt_mul_left hlt
    have := Nat.lt_of_mul_lt_mul_left hle
    omega
  | succ depth ih =>
    rcases mem_pairs_succ h with ⟨rfl, -⟩ | ⟨c, -, hl⟩
    · obtain ⟨q, rfl⟩ := hi
      exact .inr ⟨depth, q, by simp only; ring⟩
    · have hdvd : base ^ (depth + 1) ∣ index :=
        (pow_dvd_pow base (by omega)).trans hi
      exact ih (Nat.dvd_add hdvd (Dvd.intro_left c rfl)) hl

/-- The head of the third block of the lowest level has no parent. -/
theorem parents_third_block (hb : 3 ≤ base) (depth : ℕ) :
    parents (rcsvAllPairs base n 0 depth) (2 * base + 1) = 0 := by
  refine parents_eq_zero fun l hl he => ?_
  rcases mem_pairs_shape (Nat.dvd_zero _) hl with h | ⟨k, m, h⟩
  · rw [he, Nat.add_sub_cancel] at h
    exact h (Dvd.intro_left 2 rfl)
  · have hmul : base * 2 = base * (m * base ^ (k + 1) + base ^ k) := by
      rw [he] at h
      rw [show base * (m * base ^ (k + 1) + base ^ k) = m * base ^ (k + 2) + base ^ (k + 1) by ring]
      omega
    have htwo := Nat.eq_of_mul_eq_mul_left (show 0 < base by omega) hmul
    -- two is neither a power of the base nor one more than a multiple of it
    cases k with
    | zero =>
      rw [Nat.zero_add, pow_one, pow_zero] at htwo
      rcases Nat.eq_zero_or_pos m with rfl | hm
      · omega
      · have := Nat.mul_le_mul hm hb
        omega
    | succ k =>
      have hpow : base ≤ base ^ (k + 1) := Nat.le_self_pow (by omega) base
      omega

/-- The tree builder yields a spanning tree exactly for base two and for at most
two blocks. -/
theorem rcsvAllPairs_spanningTree_iff (base numNodes maxDepth : ℕ) (hb : 2 ≤ base)
    (hn : 2 ≤ numNodes) (hd : IsLeast {d | numNodes ≤ base ^ d} maxDepth) :
    SpanningTree numNodes (rcsvAllPairs base numNodes 0 (maxDepth - 1)) ↔
      base = 2 ∨ numNodes ≤ 2 * base := by
  have hpos : maxDepth ≠ 0 := by
    rintro rfl
    have : numNodes ≤ base ^ 0 := hd.1
    rw [pow_zero] at this
    omega
  obtain ⟨d, rfl⟩ := Nat.exists_eq_succ_of_ne_zero hpos
  rw [Nat.succ_sub_one]
  have hfit : numNodes ≤ base ^ (d + 1) := hd.1
  have hmem : ∀ l ∈ rcsvAllPairs base numNodes 0 d,
      1 ≤ l.toNode ∧ l.toNode < l.fromNode ∧ l.fromNode ≤ numNodes := by
    intro l hl
    have := mem_pairs_bounds hb hl
    omega
  have hroot : parents (rcsvAllPairs base numNodes 0 d) 1 = 0 :=
    parents_pairs_outside hb (by omega)
  constructor
  · intro h
    by_contra hc
    have hone := h.parents_eq_one (2 * base + 1) (by omega) (by omega)
    rw [parents_third_block (by omega)] at hone
    omega
  · rintro (rfl | hsmall)
    · exact ⟨spans_of_parents (fun j h2 hj => parents_pairs_two (by omega) (by omega) hj) hmem,
        hroot⟩
    · refine ⟨spans_of_parents (fun j h2 hj => ?_) hmem, hroot⟩
      -- two blocks of the bottom level suffice, so the depth is zero or one
      have hd1 : d ≤ 1 := by
        have : d + 1 ≤ 2 := hd.2 (show numNodes ≤ base ^ 2 by nlinarith)
        omega
      interval_cases d
      · exact parents_pairs_zero (by omega) (by simpa using hj.trans hfit) hj
      · exact parents_pairs_one hb hsmall h2 hj

/-- Seven nodes in base three: the tests' bases never fill a third block. -/
theorem rcsvAllPairs_spanningTree_iff_base_three :
    IsLeast {d | 7 ≤ 3 ^ d} 2 ∧
      (SpanningTree 7 (rcsvAllPairs 3 7 0 (2 - 1)) ↔ (3 = 2 ∨ 7 ≤ 2 * 3)) := by
  have hd : IsLeast {d | 7 ≤ 3 ^ d} 2 := by
    refine ⟨by decide, fun d hd => ?_⟩
    by_contra hlt
    interval_cases d <;> simp at hd
  exact ⟨hd, rcsvAllPairs_spanningTree_iff 3 7 2 (by decide) (by decide) hd⟩

/-- With base three and seven nodes, node seven gets no parent. -/
theorem rcsvAllPairs_base_three_orphan :
    IsLeast {d | 7 ≤ 3 ^ d} 2 ∧ parents (rcsvAllPairs 3 7 0 (2 - 1)) 7 = 0 ∧
      ¬ SpanningTree 7 (rcsvAllPairs 3 7 0 (2 - 1)) := by
  have horphan : parents (rcsvAllPairs 3 7 0 (2 - 1)) 7 = 0 := by decide
  refine ⟨⟨by decide, fun d hd => ?_⟩, horphan, fun h => ?_⟩
  · by_contra hlt
    interval_cases d <;> simp at hd
  · have := h.parents_eq_one 7 (by decide) (by decide)
    omega

end TorchIpc.Tree
