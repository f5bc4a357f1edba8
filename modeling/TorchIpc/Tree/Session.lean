import TorchIpc.Tree.Startup
import TorchIpc.Tree.Collectives

/-! A whole session: every node constructs its `Tree`, and then all make the same calls on the
connections they have made. A node that is through with the set-up begins with its calls at once;
what it sends waits behind what is still to be read of the set-up. -/

namespace TorchIpc.Tree

open Network

/-! ### When the set-up is over -/

section
variable {ι M : Type} [Fintype ι]

/-- No message of the script is stamped as late as this. -/
def horizon (script : ι → ι → List (ℕ × M)) : ℕ :=
  ∑ i, ∑ j, ((script i j).map fun x => x.1 + 1).sum

theorem le_horizon {script : ι → ι → List (ℕ × M)} {i j : ι} {x : ℕ × M} (hx : x ∈ script i j) :
    x.1 + 1 ≤ horizon script := by
  calc x.1 + 1 ≤ ((script i j).map fun x => x.1 + 1).sum :=
        List.single_le_sum (fun _ _ => Nat.zero_le _) _ (List.mem_map_of_mem hx)
    _ ≤ ∑ j, ((script i j).map fun x => x.1 + 1).sum :=
        Finset.single_le_sum (f := fun j => ((script i j).map fun x => x.1 + 1).sum)
          (fun _ _ => Nat.zero_le _) (Finset.mem_univ j)
    _ ≤ horizon script :=
        Finset.single_le_sum (f := fun i => ∑ j, ((script i j).map fun x => x.1 + 1).sum)
          (fun _ _ => Nat.zero_le _) (Finset.mem_univ i)

end

/-! ### The program of a node -/

section
variable {N S L A : Type} [LinearOrder N] [LinearOrder S] [One N] {n : ℕ}

/-- The constructor, and then the calls on the connections it has made. -/
def treeSession (q : Qsort (Node n)) (links : List Link) (sends : (ℕ → Option (Entry A)) → Bool)
    (resolve : A → Node n) (addr : Node n → A) (root : Node n) (fuel : ℕ) (jobs : List (Job (Node n) N S L))
    (i : Node n) : Proc (Node n) (Signal A ⊕ Msg L) Failure (Setup (Node n) × List (Returned N S L)) :=
  (establish q links sends resolve addr root i).embed Sum.inl Sum.getLeft? .phase >>= fun setup =>
    (callsTree q setup.conn n (fuel + 1) none (jobs.map (Job.call · i)) >>= fun rs =>
      (pure (setup, rs) : Prog (Node n) L (Setup (Node n) × List (Returned N S L)))).embed
        Sum.inr Sum.getRight? .phase

variable {ι : Type} [DecidableEq ι] [Fintype ι] {R : Rooted ι}

omit [One N] in
/-- The calls put nothing on a link between nodes that are not parent and child. -/
theorem jobsScript_rest {i j : ι} (hi : R.parent i ≠ some j) (hj : R.parent j ≠ some i) (b : ℕ)
    (jobs : List (Job ι N S L)) : jobsScript R b jobs i j = [] := by
  induction jobs generalizing b with
  | nil => rfl
  | cons job jobs ih =>
    rw [jobsScript, ih, List.append_nil]
    cases job with
    | allReduce reduce value => exact roundScript_none R b hi hj
    | scatter value => exact if_neg hj

end

/-! ### One node -/

section
variable {N S L A : Type} [LinearOrder N] [LinearOrder S] [One N] {n : ℕ} {links : List Link}
  {addr : Node n → A} {root : Node n} {q : Qsort (Node n)} {σ : Node n → List (Node n)}
  {R : Rooted (Node n)} {jobs : List (Job (Node n) N S L)} {sends : (ℕ → Option (Entry A)) → Bool}

/-- Messages of the calls, as the links carry them. -/
def carried (ms : List (ℕ × Msg L)) : List (ℕ × Option (Signal A ⊕ Msg L)) :=
  (ms.map (Prod.map id Sum.inr)).map (Prod.map id some)

variable (links addr root q σ R jobs) in
/-- All messages from `i` to `j`: those of the set-up, and later those of the calls. -/
def sessionScript (i j : Node n) : List (ℕ × Option (Signal A ⊕ Msg L)) :=
  (timedScript links addr root q σ R i j).map (Prod.map id (Option.map Sum.inl)) ++
    carried (jobsScript R (horizon (timedScript links addr root q σ R)) jobs i j)

theorem told_calls (hR : Planned links R) (hjobs : ∀ job ∈ jobs, job.Uniform) {i : Node n}
    {setup : Setup (Node n)} (hsetup : Settled links root i setup)
    {left : Node n → List (ℕ × Option (Signal A ⊕ Msg L))}
    (hleft : ∀ j : Node n, Up links i j ∨ Up links j i → left j = []) (fuel b : ℕ)
    (future : List (Node n)) :
    Conforms (· + 1)
      (fun r _ => Settled links root i r.1.1 ∧ GotAll n jobs (jobs.map (Job.final R)) r.1.2)
      (((callsTree q setup.conn n (fuel + 1) none (jobs.map (Job.call · i)) >>= fun rs =>
        (pure (setup, rs) : Prog (Node n) L (Setup (Node n) × List (Returned N S L)))).embed
          Sum.inr Sum.getRight? .phase).foretold future) b
      ⟨fun j => carried (jobsScript R b jobs i j), fun j => left j ++ carried (jobsScript R b jobs j i), ∅, ∅⟩ := by
  have hcard : Fintype.card (Node n) = n := by simp
  have hcalls := conforms_callsTree (R := R) (k := fun rs => pure (setup, rs))
    (P := fun r _ => Settled links root i r.1 ∧ GotAll n jobs (jobs.map (Job.final R)) r.2) hjobs
    (hsetup.connOf hR q) fuel none (t := b) (b := b) le_rfl
    fun rs t' hrs => ⟨⟨fun _ => rfl, rfl⟩, hsetup, by rwa [hcard] at hrs⟩
  rw [hcard] at hcalls
  have hcarried := (hcalls.embed (g := Sum.getRight?) (f := (Sum.inr : Msg L → Signal A ⊕ Msg L))
    (P := fun r _ => Settled links root i r.1 ∧ GotAll n jobs (jobs.map (Job.final R)) r.2)
    (fun _ => rfl) Failure.phase fun _ _ h => h).foretold
    (P := fun r _ => Settled links root i r.1.1 ∧ GotAll n jobs (jobs.map (Job.final R)) r.1.2) future rfl rfl
    fun _ _ h => h
  -- what is left of the set-up lies on links that the calls do not use
  have hplan : (⟨fun j => carried (jobsScript R b jobs i j),
      fun j => left j ++ carried (jobsScript R b jobs j i), ∅, ∅⟩ :
        Plan (Node n) (Option (Signal A ⊕ Msg L)) ℕ) =
      (((planOf (jobsScript R b jobs) i).map Sum.inr).map some).followed (fun _ => []) left := by
    ext1
    · funext j
      exact (List.append_nil _).symm
    · funext j
      by_cases hj : Up links i j ∨ Up links j i
      · simp [Plan.followed, Plan.map, planOf, carried, hleft j hj]
      · rw [not_or] at hj
        have hnone := jobsScript_rest (R := R) (i := j) (j := i) (fun hp => hj.2 ((hR.parent_iff j i).mp hp))
          (fun hp => hj.1 ((hR.parent_iff i j).mp hp)) b jobs
        simp [Plan.followed, Plan.map, planOf, carried, hnone]
    · rfl
    · rfl
  rw [hplan]
  apply hcarried.unread left (B := max b (horizon (jobsScript R b jobs)))
  · intro j x hx
    simp only [Plan.map, planOf, List.map_map, List.mem_map] at hx
    obtain ⟨y, hy, rfl⟩ := hx
    exact (le_horizon hy).trans (le_max_right _ _)
  · exact le_max_left _ _
  · exact fun _ _ h => h

theorem told_session (h : SpanningTree n links) (hR : Planned links R) (hRroot : R.root = root)
    (hroot : root.1 = 1) (hσ : Arrivals (bootGuests links root) σ) {resolve : A → Node n}
    (hres : ∀ i, resolve (addr i) = i) (hsends : sends (treeOf (knownAddresses addr) links) = true)
    (hjobs : ∀ job ∈ jobs, job.Uniform) (fuel : ℕ) (i : Node n) :
    Conforms (· + 1)
      (fun r _ => Settled links root i r.1.1 ∧ GotAll n jobs (jobs.map (Job.final R)) r.1.2)
      ((treeSession q links sends resolve addr root fuel jobs i).foretold (σ i)) 0
      (planOf (sessionScript links addr root q σ R jobs) i) := by
  have hboot := (told_establish h hR hRroot hroot (q := q) hσ hres hsends i).embed_foretold
    (f := (Sum.inl : Signal A → Signal A ⊕ Msg L)) (g := Sum.getLeft?) (fun _ => rfl) Failure.phase
    (P := fun r w' => ∃ w, Ready links root i r.1 w ∧ w' = w.map (Option.map Sum.inl))
    fun r w hr => ⟨w, hr, rfl⟩
  rw [treeSession, Proc.foretold_bind]
  apply hboot.bind (B := horizon (timedScript links addr root q σ R))
    (fun j => carried (jobsScript R (horizon (timedScript links addr root q σ R)) jobs i j))
    (fun j => carried (jobsScript R (horizon (timedScript links addr root q σ R)) jobs j i))
  · intro j x hx
    obtain ⟨y, hy, rfl⟩ := List.mem_map.mp hx
    have hy' : y ∈ timedScript links addr root q σ R j i := hy
    exact le_horizon hy'
  · exact Nat.zero_le _
  · rintro r w' ⟨w, ⟨hsettled, hleft, hguests⟩, rfl⟩
    have hg : (w.map (Option.map (Sum.inl : Signal A → Signal A ⊕ Msg L))).guests = ∅ := hguests
    rw [hg]
    apply told_calls hR hjobs hsettled
    intro j hj
    simp [Plan.map, hleft j hj]

omit [One N] in
theorem calls_sessionScript (i j : Node n) :
    calls (sessionScript links addr root q σ R jobs i j) ≤ if i ∈
      bootGuests links root j then 1 else 0 := by
  have hboot : calls ((timedScript links addr root q σ R i j).map
      (Prod.map id (Option.map (Sum.inl : Signal A → Signal A ⊕ Msg L)))) =
        calls (timedScript links addr root q σ R i j) := by
    unfold calls knocks
    rw [List.map_map, List.countP_map, List.countP_map]
    congr 1
    funext x
    cases hx : x.2 <;> simp [hx]
  have hwork : ∀ ms : List (ℕ × Msg L), calls (carried (A := A) ms) = 0 := by
    intro ms
    induction ms with
    | nil => rfl
    | cons m ms ih => exact ih
  unfold calls at hboot hwork
  unfold sessionScript calls
  rw [List.map_append, knocks_append, hboot, hwork, Nat.add_zero]
  exact calls_timedScript i j

end

/-! ### All nodes -/

section
variable {N S L A : Type} [LinearOrder N] [LinearOrder S] [One N]

end

/-- Three nodes in a chain: a sum of their indices, and then a table from the first. -/
def chainJobs : List (Job (Node 3) ℕ ℕ ℤ) :=
  [.allReduce (fun a b => a + b) fun i => .leaf i.1,
    .scatter fun i => .table [(.num 1, .leaf i.1), (.num 2, .leaf (10 * i.1))]]

theorem uniform_chainJobs : ∀ job ∈ chainJobs, job.Uniform := by
  simp only [chainJobs, List.forall_mem_cons, List.not_mem_nil, false_implies, implies_true, and_true]
  refine ⟨⟨fun _ => trivial, fun _ _ => rfl⟩, ⟨fun _ => ?_, fun _ _ => rfl⟩⟩
  simp [Job.value, Keyed, KeyedEntries, oneKind, Key.isNum]

end TorchIpc.Tree
