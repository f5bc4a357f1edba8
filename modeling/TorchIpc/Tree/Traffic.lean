import TorchIpc.Base.Phases
import TorchIpc.Tree.Collectives
import TorchIpc.Tree.Order

/-! What the calls cost. An `allReduce` sends every leaf and a count once up and once down each
link of the tree, and a `scatter` every leaf once down. So the number of messages does not depend
on the shape of the tree or on the interleaving. -/

namespace TorchIpc.Tree

open Network Runs

section
variable {ι : Type} [DecidableEq ι] [Fintype ι] (R : Rooted ι)

theorem sum_parent (m : ℕ) :
    ∑ i, ∑ j, (if R.parent i = some j then m else 0) = (Fintype.card ι - 1) * m := by
  have hnode : ∀ i, ∑ j, (if R.parent i = some j then m else 0) = if i = R.root then 0 else m := by
    intro i
    cases hp : R.parent i with
    | none => simp [(R.parent_eq_none i).mp hp]
    | some p =>
      have hi : i ≠ R.root := fun he => by simp [(R.parent_eq_none i).mpr he] at hp
      simp [hi]
  simp only [hnode]
  rw [Finset.sum_ite, Finset.sum_const_zero, zero_add, Finset.sum_const, smul_eq_mul]
  congr 1
  rw [Finset.filter_not, Finset.filter_eq', if_pos (Finset.mem_univ R.root),
    Finset.card_sdiff_of_subset (Finset.subset_univ _), Finset.card_singleton, Finset.card_univ]

theorem sum_child (m : ℕ) :
    ∑ i, ∑ j, (if R.parent j = some i then m else 0) = (Fintype.card ι - 1) * m := by
  rw [Finset.sum_comm]
  exact sum_parent R m

variable {R} {L : Type}

theorem sum_roundScript {ups : ι → List L × ℕ} {width : ℕ} (hlen : ∀ i, (ups i).1.length = width)
    (b : ℕ) :
    ∑ i, ∑ j, (roundScript R b ups i j).length = 2 * ((Fintype.card ι - 1) * (width + 1)) := by
  have hlink : ∀ i j, (roundScript R b ups i j).length =
      (if R.parent i = some j then width + 1 else 0) + if R.parent j =
        some i then width + 1 else 0 := by
    intro i j
    unfold roundScript
    by_cases hi : R.parent i = some j
    · simp [hi, R.not_parent hi, stamped, payload, hlen]
    · by_cases hj : R.parent j = some i <;> simp [hi, hj, stamped, payload, hlen]
  simp only [hlink, Finset.sum_add_distrib]
  rw [sum_parent, sum_child, two_mul]

theorem sum_scatterScript (ls : List L) (b : ℕ) :
    ∑ i, ∑ j, (scatterScript R b ls i j).length = (Fintype.card ι - 1) * ls.length := by
  rw [← sum_child R]
  refine Finset.sum_congr rfl fun i _ => Finset.sum_congr rfl fun j _ => ?_
  unfold scatterScript
  split_ifs <;> simp [stamped]

end

section
variable {N S L ι : Type} [LinearOrder N] [LinearOrder S]

/-- How many messages a job takes on `n` nodes, when the values have as many leaves as `value`. -/
def Job.messages (n : ℕ) (root : ι) : Job ι N S L → ℕ
  | .allReduce _ value => 2 * ((n - 1) * ((leaves (value root)).length + 1))
  | .scatter value => (n - 1) * (leaves (value root)).length

variable [DecidableEq ι] [Fintype ι] {R : Rooted ι} [One N]

theorem Job.sum_script {job : Job ι N S L} (h : job.Uniform) (b : ℕ) :
    ∑ i, ∑ j, (job.script R b i j).length = job.messages (Fintype.card ι) R.root := by
  have hlen := Job.length_shares (R := R) h
  have hsorted : (leaves (sorted (job.value R.root))).length = (leaves (job.value R.root)).length :=
    (leaves_sorted_perm (job.value R.root)).length_eq
  cases job with
  | allReduce reduce value => exact sum_roundScript (fun i => (hlen i).trans hsorted) b
  | scatter value =>
    have hsum := sum_scatterScript (R := R) (leaves (sorted (value R.root))) b
    exact hsum.trans (congrArg (_ * ·) hsorted)

theorem sum_jobsScript {jobs : List (Job ι N S L)} (h : ∀ job ∈ jobs, job.Uniform) (b : ℕ) :
    ∑ i, ∑ j, (jobsScript R b jobs i j).length =
      (jobs.map (Job.messages (Fintype.card ι) R.root)).sum := by
  induction jobs generalizing b with
  | nil => simp [jobsScript]
  | cons job jobs ih =>
    rw [List.forall_mem_cons] at h
    simp only [jobsScript, List.length_append, Finset.sum_add_distrib, List.map_cons, List.sum_cons]
    rw [Job.sum_script h.1, ih h.2]

end

section
variable {N S L : Type} [LinearOrder N] [LinearOrder S] [One N] {n : ℕ} {links : List Link}
  {jobs : List (Job (Node n) N S L)}

theorem conforms_jobs (hn : 1 ≤ n) (htree : SpanningTree n links) (E : Established n links)
    (q : Qsort (Node n)) (hjobs : ∀ job ∈ jobs, job.Uniform) (lastValue : Node n → Option (Nested N S L))
    (fuel : ℕ) (i : Node n) :
    Conforms (· + 1) (fun _ w => ∀ j, w.inp j = [])
      (callsTree q (E.conn i) n (fuel + 1) (lastValue i) (jobs.map (Job.call · i))) 0
      (planOf (jobsScript (E.rooted htree hn q) 0 jobs) i) := by
  have hcard : Fintype.card (Node n) = n := by simp
  have hall := conforms_callsTree (k := pure)
    (P := fun (_ : List (Returned N S L)) (w : Plan (Node n) (Msg L) ℕ) => ∀ j, w.inp j = [])
    hjobs (E.connOf htree hn q i) fuel (lastValue i) (t := 0) (b := 0) le_rfl
    fun rs t' _ => ⟨⟨fun _ => rfl, rfl⟩, fun _ => rfl⟩
  rwa [hcard, bind_pure] at hall

theorem completes_jobs (hn : 1 ≤ n) (htree : SpanningTree n links) (E : Established n links)
    (q : Qsort (Node n)) (hjobs : ∀ job ∈ jobs, job.Uniform) (lastValue : Node n → Option (Nested N S L))
    (fuel : ℕ) :
    Completes (fun i => callsTree q (E.conn i) n (fuel + 1) (lastValue i) (jobs.map (Job.call · i)))
      fun _ _ => True := by
  apply completes_of_conforms (fun τ => Nat.lt_succ_self τ) (jobsScript (E.rooted htree hn q) 0 jobs) 0
  intro i
  exact (conforms_jobs hn htree E q hjobs lastValue fuel i).mono fun _ _ h => ⟨h, trivial⟩

end

end TorchIpc.Tree
