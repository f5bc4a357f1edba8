import TorchIpc.Tree.Pairs

/-! The tree builder of `SlurmTree.lua`: one local tree of `tasksPerHost` nodes,
repeated on every host, and a tree between the first tasks of the hosts. The
local links are filtered by the local index before they are shifted, so a last
host with fewer tasks still gets the links of a full one. Proved: the calls span
the nodes exactly when every host is full, that is `tasksPerHost ∣ numNodes`. -/

namespace TorchIpc.Tree

def ceilDiv (a b : ℕ) : ℕ := (a + b - 1) / b

def tasksPerHost (numNodes slurmNNodes : ℕ) : ℕ := ceilDiv numNodes slurmNNodes

/-- `buildTree` of `SlurmTree`: the calls of `linkFunc`, in order. -/
def buildTree (tasksPerHost base numNodes index depth : ℕ) : List Link :=
  let numHosts := ceilDiv numNodes tasksPerHost
  ((rcsvAllPairs base tasksPerHost index depth).flatMap fun l =>
      (List.range numHosts).map fun hostIdx =>
        let startIdx := hostIdx * tasksPerHost
        ⟨startIdx + l.toNode, startIdx + l.fromNode, none⟩) ++
    (rcsvAllPairs base numHosts index depth).map fun l =>
      ⟨(l.toNode - 1) * tasksPerHost + 1, (l.fromNode - 1) * tasksPerHost + 1, none⟩

theorem ceilDiv_pos {a b : ℕ} (ha : 1 ≤ a) (hb : 1 ≤ b) : 1 ≤ ceilDiv a b :=
  (Nat.one_le_div_iff hb).mpr (by omega)

theorem ceilDiv_le {a b : ℕ} (hb : 1 ≤ b) : ceilDiv a b ≤ a := by
  obtain ⟨c, rfl⟩ : ∃ c, b = c + 1 := ⟨b - 1, by omega⟩
  rcases Nat.eq_zero_or_pos a with rfl | ha
  · rw [ceilDiv, Nat.div_eq_of_lt (by omega)]
  · apply Nat.div_le_of_le_mul
    have hc : c * 1 ≤ c * a := Nat.mul_le_mul_left c ha
    rw [Nat.add_mul]
    omega

theorem le_ceilDiv_mul {a b : ℕ} (hb : 1 ≤ b) : a ≤ ceilDiv a b * b := by
  have h := Nat.div_add_mod (a + b - 1) b
  have hm := Nat.mod_lt (a + b - 1) hb
  rw [ceilDiv, Nat.mul_comm]
  omega

theorem ceilDiv_mul_self {q b : ℕ} (hb : 1 ≤ b) : ceilDiv (q * b) b = q := by
  rw [ceilDiv, Nat.add_sub_assoc hb, Nat.add_comm, Nat.add_mul_div_right _ _ hb,
    Nat.div_eq_of_lt (by omega), Nat.zero_add]

/-! ### Counting the shifted links -/

/-- Task `a` of host `i` has its own node number. -/
theorem block_inj {t i h a b : ℕ} (ha : 1 ≤ a ∧ a ≤ t) (hb : 1 ≤ b ∧ b ≤ t)
    (he : i * t + a = h * t + b) : i = h ∧ a = b := by
  have hi : i = h := by
    rcases Nat.lt_trichotomy i h with hlt | heq | hgt
    · have := Nat.mul_le_mul_right t (show i + 1 ≤ h from hlt)
      rw [Nat.add_mul, Nat.one_mul] at this
      omega
    · exact heq
    · have := Nat.mul_le_mul_right t (show h + 1 ≤ i from hgt)
      rw [Nat.add_mul, Nat.one_mul] at this
      omega
  subst hi
  exact ⟨rfl, by omega⟩

/-- One local link, shifted to every host, gives node `h * t + f` its parent on
host `h` only. -/
theorem parents_shifted {t H h f : ℕ} {l : Link} (hf : 1 ≤ f ∧ f ≤ t)
    (hl : 1 ≤ l.fromNode ∧ l.fromNode ≤ t) (hh : h < H) :
    parents ((List.range H).map fun i => ⟨i * t + l.toNode, i * t + l.fromNode, none⟩) (h * t + f) =
      if l.fromNode = f then 1 else 0 := by
  have hiff : ∀ i, i * t + l.fromNode = h * t + f ↔ i = h ∧ l.fromNode = f := fun i =>
    ⟨block_inj hl hf, fun ⟨hi, hfr⟩ => by rw [hi, hfr]⟩
  rw [parents, List.countP_map]
  simp only [Function.comp_def, hiff]
  split_ifs with hfr
  · simp only [hfr, and_true]
    have hcount : (List.range H).countP (fun i => decide (i = h)) = (List.range H).count h :=
      List.countP_congr fun i _ => by simp
    rw [hcount, List.count_eq_one_of_mem List.nodup_range (List.mem_range.mpr hh)]
  · simp [hfr]

/-- Shifting all links of one host to every host keeps the number of parents. -/
theorem parents_local {t H h f : ℕ} {links : List Link} (hf : 1 ≤ f ∧ f ≤ t) (hh : h < H)
    (hl : ∀ l ∈ links, 1 ≤ l.fromNode ∧ l.fromNode ≤ t) :
    parents (links.flatMap fun l => (List.range H).map fun i =>
      ⟨i * t + l.toNode, i * t + l.fromNode, none⟩) (h * t + f) = parents links f := by
  induction links with
  | nil => rfl
  | cons l links ih =>
    rw [List.flatMap_cons, parents_append, parents_shifted hf (hl l (by simp)) hh,
      ih fun l' hl' => hl l' (by simp [hl'])]
    by_cases hfr : l.fromNode = f <;> simp [parents, hfr, Nat.add_comm]

/-- The links between hosts reach the first task of each host only. -/
theorem parents_hosts {t h f : ℕ} {links : List Link} (hf : 1 ≤ f ∧ f ≤ t)
    (hl : ∀ l ∈ links, 1 ≤ l.fromNode) :
    parents (links.map fun l =>
      ⟨(l.toNode - 1) * t + 1, (l.fromNode - 1) * t + 1, none⟩) (h * t + f) =
      if f = 1 then parents links (h + 1) else 0 := by
  have hiff : ∀ l ∈ links, (l.fromNode - 1) * t + 1 = h * t + f ↔ f = 1 ∧ l.fromNode = h + 1 := by
    intro l hmem
    have hpos := hl l hmem
    refine ⟨fun he => ?_, fun ⟨h1, hfr⟩ => by rw [hfr, h1, Nat.add_sub_cancel]⟩
    obtain ⟨hq, hr⟩ := block_inj (by omega) hf he
    exact ⟨hr.symm, by omega⟩
  rw [parents, List.countP_map]
  split_ifs with h1
  · refine List.countP_congr fun l hmem => ?_
    simp only [Function.comp_def, decide_eq_true_eq, hiff l hmem]
    simp only [h1, true_and]
  · refine List.countP_eq_zero.mpr fun l hmem => ?_
    simp only [Function.comp_def, decide_eq_true_eq, hiff l hmem, h1, false_and, not_false_iff]

/-! ### The composed tree -/

/-- With full hosts, a node that is not the first task of its host has its parent
there, and the first tasks have theirs in the tree between hosts. -/
theorem parents_buildTree {t H depth h f : ℕ} (hf : 1 ≤ f ∧ f ≤ t) (hh : h < H)
    (ht : t ≤ 2 ^ (depth + 1)) (hH : H ≤ 2 ^ (depth + 1)) (hne : h * t + f ≠ 1) :
    parents (buildTree t 2 (H * t) 0 depth) (h * t + f) = 1 := by
  have hpos : 1 ≤ t := by omega
  rw [buildTree, ceilDiv_mul_self hpos]
  simp only
  rw [parents_append, parents_local hf hh fun l hl => by
      have := mem_pairs_bounds le_rfl hl
      omega,
    parents_hosts hf fun l hl => by
      have := mem_pairs_bounds le_rfl hl
      omega]
  by_cases h1 : f = 1
  · subst h1
    have hh1 : 1 ≤ h := by
      by_contra hc
      rw [Nat.lt_one_iff.mp (by omega : h < 1)] at hne
      omega
    rw [if_pos rfl, parents_pairs_outside le_rfl (by omega),
      parents_pairs_two (by omega) (by omega) (by omega)]
  · rw [if_neg h1, parents_pairs_two (by omega) (by omega) hf.2]

/-- Links of full hosts stay within the nodes and lead downwards. -/
theorem mem_buildTree {t H depth : ℕ} (hpos : 1 ≤ t) {l : Link}
    (hl : l ∈ buildTree t 2 (H * t) 0 depth) :
    1 ≤ l.toNode ∧ l.toNode < l.fromNode ∧ l.fromNode ≤ H * t := by
  rw [buildTree, ceilDiv_mul_self hpos] at hl
  simp only [List.mem_append, List.mem_flatMap, List.mem_map, List.mem_range] at hl
  rcases hl with ⟨l', hl', h, hh, rfl⟩ | ⟨l', hl', rfl⟩
  · have hb := mem_pairs_bounds le_rfl hl'
    have := Nat.mul_le_mul_right t (show h + 1 ≤ H from hh)
    rw [Nat.add_mul, Nat.one_mul] at this
    simp only
    omega
  · have hb := mem_pairs_bounds le_rfl hl'
    have hlt := Nat.mul_le_mul_right t (show l'.toNode - 1 + 1 ≤ l'.fromNode - 1 by omega)
    have hle := Nat.mul_le_mul_right t (show l'.fromNode - 1 + 1 ≤ H by omega)
    rw [Nat.add_mul, Nat.one_mul] at hlt hle
    simp only
    omega

/-- Uneven hosts: the last task of a full host is linked on the last host too,
beyond the last node. -/
theorem exists_link_outside {t n depth : ℕ} (hpos : 1 ≤ t) (hfit : t ≤ 2 ^ (depth + 1))
    (hn : 1 ≤ n) (hdvd : ¬ t ∣ n) : ∃ l ∈ buildTree t 2 n 0 depth, n < l.fromNode := by
  have ht : 2 ≤ t := by
    by_contra hc
    have : t = 1 := by omega
    exact hdvd (this ▸ one_dvd n)
  have hlast : parents (rcsvAllPairs 2 t 0 depth) t = 1 :=
    parents_pairs_two (by omega) (by omega) le_rfl
  obtain ⟨l, hl, hfrom⟩ := exists_of_parents hlast
  have hH : 1 ≤ ceilDiv n t := ceilDiv_pos hn hpos
  refine ⟨⟨(ceilDiv n t - 1) * t + l.toNode, (ceilDiv n t - 1) * t + l.fromNode, none⟩, ?_, ?_⟩
  · simp only [buildTree, List.mem_append, List.mem_flatMap, List.mem_map, List.mem_range]
    exact .inl ⟨l, hl, ceilDiv n t - 1, by omega, rfl⟩
  · have hle := le_ceilDiv_mul (a := n) hpos
    have hsucc : (ceilDiv n t - 1) * t + t = ceilDiv n t * t := by
      rw [← Nat.succ_mul, Nat.succ_eq_add_one, Nat.sub_add_cancel hH]
    have hne : n ≠ ceilDiv n t * t := fun he => hdvd (he ▸ Dvd.intro_left _ rfl)
    simp only [hfrom]
    omega

/-- The Slurm tree spans the nodes exactly when all hosts have the same number
of tasks. -/
theorem slurm_spans_iff (numNodes slurmNNodes maxDepth : ℕ) (hn : 2 ≤ numNodes)
    (hs : 1 ≤ slurmNNodes) (hsn : slurmNNodes ≤ numNodes)
    (hd : IsLeast {d | numNodes ≤ 2 ^ d} maxDepth) :
    (let links := buildTree (tasksPerHost numNodes slurmNNodes) 2 numNodes 0 (maxDepth - 1)
     Spans numNodes links ∧ ∀ p, listen links p =
        {j ∈ Finset.Icc 1 numNodes | ∃ l ∈ links, l.fromNode = j ∧ l.toNode = p}.card) ↔
      tasksPerHost numNodes slurmNNodes ∣ numNodes := by
  have hpos : maxDepth ≠ 0 := by
    rintro rfl
    have : numNodes ≤ 2 ^ 0 := hd.1
    rw [pow_zero] at this
    omega
  obtain ⟨d, rfl⟩ := Nat.exists_eq_succ_of_ne_zero hpos
  rw [Nat.succ_sub_one]
  have hfit : numNodes ≤ 2 ^ (d + 1) := hd.1
  have ht1 : 1 ≤ tasksPerHost numNodes slurmNNodes := ceilDiv_pos (by omega) hs
  have htn : tasksPerHost numNodes slurmNNodes ≤ numNodes := ceilDiv_le hs
  generalize tasksPerHost numNodes slurmNNodes = t at ht1 htn
  simp only
  constructor
  · rintro ⟨h, -⟩
    by_contra hdvd
    obtain ⟨l, hl, hout⟩ := exists_link_outside ht1 (htn.trans hfit) (by omega) hdvd
    have := (h.mem_range l hl).2
    omega
  · rintro ⟨H, rfl⟩
    rw [Nat.mul_comm t H] at *
    have hHn : H ≤ H * t := Nat.le_mul_of_pos_right H ht1
    have hone : ∀ j, 2 ≤ j → j ≤ H * t → parents (buildTree t 2 (H * t) 0 d) j = 1 := by
      intro j h2 hj
      have hdiv := Nat.div_add_mod (j - 1) t
      have hmod := Nat.mod_lt (j - 1) ht1
      have hlt : (j - 1) / t < H := Nat.div_lt_of_lt_mul (by rw [Nat.mul_comm]; omega)
      rw [Nat.mul_comm] at hdiv
      have hj' : j = (j - 1) / t * t + ((j - 1) % t + 1) := by omega
      rw [hj']
      exact parents_buildTree (by omega) hlt (by omega) (by omega) (by omega)
    have hmem : ∀ l ∈ buildTree t 2 (H * t) 0 d, _ := fun l hl => mem_buildTree ht1 hl
    have hsp : Spans (H * t) (buildTree t 2 (H * t) 0 d) := spans_of_parents hone hmem
    refine ⟨hsp, hsp.listen_eq (parents_eq_zero fun l hl he => ?_)⟩
    have := hmem l hl
    omega

/-- Four tasks on two hosts: both hosts are full. -/
theorem slurm_spans_iff_four_on_two :
    IsLeast {d | 4 ≤ 2 ^ d} 2 ∧ Spans 4 (buildTree (tasksPerHost 4 2) 2 4 0 (2 - 1)) := by
  have hd : IsLeast {d | 4 ≤ 2 ^ d} 2 := by
    refine ⟨by decide, fun d hd => ?_⟩
    by_contra hlt
    interval_cases d <;> simp at hd
  exact ⟨hd, ((slurm_spans_iff 4 2 2 (by decide) (by decide) (by decide) hd).mpr (by decide)).1⟩

/-- Three tasks on two hosts: node three is told to wait for a node four. -/
theorem slurm_three_on_two_outside :
    IsLeast {d | 3 ≤ 2 ^ d} 2 ∧ (⟨3, 4, none⟩ : Link) ∈ buildTree (tasksPerHost 3 2) 2 3 0 (2 - 1) ∧
      ¬ Spans 3 (buildTree (tasksPerHost 3 2) 2 3 0 (2 - 1)) := by
  have hmem : (⟨3, 4, none⟩ : Link) ∈ buildTree (tasksPerHost 3 2) 2 3 0 (2 - 1) := by decide
  refine ⟨⟨by decide, fun d hd => ?_⟩, hmem, fun h => ?_⟩
  · by_contra hlt
    interval_cases d <;> simp at hd
  · have := (h.mem_range _ hmem).2.2
    simp at this

end TorchIpc.Tree
