import TorchIpc.Base.Conversations
import TorchIpc.Tree.Collectives

/-! The calls of `allReduce` and `scatter` over connections that hold as little as they like. A
`client:send` of a large tensor does not return before the other end has read most of it, so the
order in which a node turns to its peers matters. On each connection both ends take the same turns:
the share of the child goes up, the value of the root comes down. So no node waits for good, even if
every send waits for its receive. -/

namespace TorchIpc.Tree

open Network

/-! ### Walks -/

theorem zipWith_fst {α β : Type} {xs : List α} {ys : List β} (h : xs.length = ys.length) :
    List.zipWith (fun x _ => x) xs ys = xs := by
  have hmap := List.map_fst_zip (le_of_eq h)
  rwa [List.zip, List.map_zipWith] at hmap

theorem zipWith_snd {α β : Type} {xs : List α} {ys : List β} (h : xs.length = ys.length) :
    List.zipWith (fun _ y => y) xs ys = ys := by
  have hmap := List.map_snd_zip (le_of_eq h.symm)
  rwa [List.zip, List.map_zipWith] at hmap

section
variable {N S L ι α : Type} [LinearOrder N] [LinearOrder S] [DecidableEq ι]
  {T : Template N S L} {value : Nested N S L} {ls : List L} {d : ℕ} {peer : ι}

theorem talks_recvCount (n : ℕ) :
    Talks (· = n) (recvCount peer : Prog ι L ℕ) (towards peer [.hear (.count n)]) := by
  apply (talks_get (Q := (· = Msg.count n)) rfl).returns
  rintro m rfl
  exact ⟨n, rfl, rfl⟩

theorem talks_recvLeaf (x : L) :
    Talks (· = x) (recvLeaf peer : Prog ι L L) (towards peer [.hear (.leaf x)]) := by
  apply (talks_get (Q := (· = Msg.leaf x)) rfl).returns
  rintro m rfl
  exact ⟨x, rfl, rfl⟩

/-- The walk that receives: the leaves received are combined with those held. -/
theorem talks_recvWalk {ys : List L} (g : L → L → L) (hv : T.Holds value ls) (hlen : ys.length = T.width) :
    Talks (fun value' => T.Holds value' (List.zipWith g ls ys))
      (walkTable (fun x => do return some (g x (← recvLeaf peer))) value : Prog ι L (Nested N S L))
      (towards peer ((ys.map Msg.leaf).map .hear)) := by
  rw [hv.walkTable]
  apply (talks_mapM_hear (r := g) (hv.length_eq.trans hlen.symm) fun x y => ?_).returns
  · rintro _ rfl
    refine ⟨_, rfl, Template.holds_fill ?_⟩
    rw [List.length_zipWith, hv.length_eq, hlen, Nat.min_self]
  · simp only [visitLeaf, bind_assoc, pure_bind]
    apply (talks_recvLeaf y).returns
    rintro _ rfl
    exact ⟨_, rfl, rfl⟩

theorem talks_sendWalk (hv : T.Holds value ls) :
    Talks (fun value' => T.Holds value' ls)
      (walkTable (fun x => do Proc.put peer (.leaf x); return none) value : Prog ι L (Nested N S L))
      (towards peer ((ls.map Msg.leaf).map .say)) := by
  rw [hv.walkTable]
  apply (talks_mapM_say (r := id) fun x => by simp [visitLeaf]).returns
  rintro _ rfl
  rw [List.map_id]
  exact ⟨_, rfl, Template.holds_fill hv.length_eq⟩

theorem map_payload (r : List L × ℕ) (turn : Msg L → Turn (Msg L)) :
    (payload r).map turn = (r.1.map Msg.leaf).map turn ++ [turn (.count r.2)] := by
  simp [payload]

theorem talks_sendTo (hv : T.Holds value ls) :
    Talks (fun value' => T.Holds value' ls) (sendTo peer value d : Prog ι L (Nested N S L))
      (towards peer ((payload (ls, d)).map .say)) := by
  rw [sendTo, map_payload, ← towards_append]
  apply (talks_sendWalk hv).bind
  intro value' hv'
  apply (talks_put trivial).returns (Q := fun _ => True)
  exact fun _ _ => ⟨value', rfl, hv'⟩

/-! ### One round -/

theorem talks_reduceUp {g : L → L → L} {cs : List ι} (ups : ι → List L × ℕ) (hv : T.Holds value ls)
    (hlen : ∀ c ∈ cs, (ups c).1.length = T.width) :
    Talks (fun r => T.Holds r.1 (cs.foldl (fun acc c => combine g acc (ups c)) (ls, d)).1 ∧
        r.2 = (cs.foldl (fun acc c => combine g acc (ups c)) (ls, d)).2)
      (reduceUp (fun a b => some (g a b)) cs value d : Prog ι L (Nested N S L × ℕ))
      fun j => cs.flatMap fun c => towards c ((payload (ups c)).map .hear) j := by
  refine talks_foldlM (I := fun (r : Nested N S L × ℕ) (a : List L × ℕ) => T.Holds r.1 a.1 ∧ r.2 = a.2)
    (a := (ls, d)) (r := fun acc c => combine g acc (ups c)) (fun c => (payload (ups c)).map .hear) ?_ ⟨hv, rfl⟩
  rintro ⟨v, n⟩ a c hc ⟨hva, hna⟩
  rw [map_payload, ← towards_append]
  apply (talks_recvWalk g hva (hlen c hc)).bind
  intro v' hv'
  apply (talks_recvCount (ups c).2).returns
  rintro _ rfl
  exact ⟨_, rfl, hv', congrArg (· + (ups c).2) hna⟩

theorem talks_sendDown {cs : List ι} (hv : T.Holds value ls) :
    Talks (fun value' => T.Holds value' ls) (sendDown cs value d : Prog ι L (Nested N S L))
      fun j => cs.flatMap fun c => towards c ((payload (ls, d)).map .say) j := by
  exact talks_foldlM (I := fun v _ => T.Holds v ls) (a := ls) (r := fun ls _ => ls)
    (fun _ => (payload (ls, d)).map .say) (fun _ _ _ _ hva => talks_sendTo hva) hv

variable (R : Rooted ι) {ups : ι → List L × ℕ}

/-- The turns of node `i` on its connection to `j` in a round. -/
def roundTurns (ups : ι → List L × ℕ) (i j : ι) : List (Turn (Msg L)) :=
  if R.parent i = some j then (payload (ups i)).map .say ++ (payload (ups R.root)).map .hear
  else if R.parent j = some i then (payload (ups j)).map .hear ++ (payload (ups R.root)).map .say
  else []

theorem flip_roundTurns (i j : ι) : roundTurns R ups j i = (roundTurns R ups i j).map .flip := by
  unfold roundTurns
  by_cases hi : R.parent i = some j
  · simp [hi, R.not_parent hi, Function.comp_def]
  · by_cases hj : R.parent j = some i <;> simp [hi, hj, Function.comp_def]

theorem roundTurns_along {i j : ι} (h : roundTurns R ups i j ≠ []) :
    R.parent i = some j ∨ R.parent j = some i := by
  by_contra hno
  rw [not_or] at hno
  simp [roundTurns, hno.1, hno.2] at h

variable {R} {q : Qsort ι} {conn : Conn ι} {i : ι}

/-- First the share goes up, then the value of the root comes down. -/
theorem exchangeTurns_eq (p : ι) (own root : List L × ℕ) :
    (fun j => if some p = some j then (payload own).map .say ++ (payload root).map .hear else []) =
      fun j =>
      towards p ((payload own).map .say) j ++
        (towards p ((root.1.map Msg.leaf).map .hear) j ++ towards p [.hear (.count root.2)] j) := by
  funext j
  by_cases hj : j = p
  · subst hj
    simp [towards, map_payload]
  · simp [towards, hj, Ne.symm hj]

/-- The turns of a round in the order in which a node goes through its peers. -/
theorem roundTurns_eq (hconn : ConnOf R q conn i) : roundTurns R ups i = fun j =>
    ((R.children i).flatMap fun c => towards c ((payload (ups c)).map .hear) j) ++
      ((if R.parent i = some j then (payload (ups i)).map .say ++ (payload (ups R.root)).map .hear else []) ++
        (conn.clients q true).flatMap fun c => towards c ((payload (ups R.root)).map .say) j) := by
  funext j
  rw [flatMap_towards (R.nodup i), flatMap_towards (hconn.inverted.nodup_iff.mpr (R.nodup i))]
  simp only [hconn.inverted.mem_iff, R.mem_children]
  unfold roundTurns
  by_cases hi : R.parent i = some j
  · simp [hi, R.not_parent hi]
  · by_cases hj : R.parent j = some i <;> simp [hi, hj]

theorem talks_exchange (hv : T.Holds value (ups i).1) (hlen : ∀ j, (ups j).1.length = T.width) :
    Talks (fun r => T.Holds r.1 (ups R.root).1 ∧ r.2 = (ups R.root).2)
      (exchange (R.parent i) value (ups i).2 : Prog ι L (Nested N S L × ℕ))
      fun j => if R.parent i = some j then (payload (ups i)).map .say ++ (payload (ups R.root)).map .hear
        else [] := by
  cases hp : R.parent i with
  | none =>
    obtain rfl := (R.parent_eq_none i).mp hp
    exact talks_pure ⟨hv, rfl⟩
  | some p =>
    rw [exchange, exchangeTurns_eq]
    apply (talks_sendTo hv).bind
    intro v₁ hv₁
    apply (talks_recvWalk (fun _ y => y) hv₁ (hlen R.root)).bind
    intro v₂ hv₂
    rw [zipWith_snd ((hlen i).trans (hlen R.root).symm)] at hv₂
    apply (talks_recvCount (ups R.root).2).returns
    rintro _ rfl
    exact ⟨_, rfl, hv₂, rfl⟩

/-- A node takes the turns of a round and ends with what the root has. -/
theorem talks_round {g : L → L → L} (hconn : ConnOf R q conn i) (hv : T.Holds value ls)
    (hups : ups i = (R.children i).foldl (fun acc c => combine g acc (ups c)) (ls, d))
    (hlen : ∀ j, (ups j).1.length = T.width) :
    Talks (fun r => T.Holds r.1 (ups R.root).1 ∧ r.2 = (ups R.root).2)
      (round q conn (fun a b => some (g a b)) value d : Prog ι L (Nested N S L × ℕ)) (roundTurns R ups i) := by
  rw [round, hconn.clients, hconn.client, roundTurns_eq hconn]
  apply (talks_reduceUp ups hv fun c _ => hlen c).bind
  rintro ⟨v₁, _⟩ ⟨hv₁, rfl⟩
  rw [← hups] at hv₁ ⊢
  apply (talks_exchange hv₁ hlen).bind
  rintro ⟨v₂, n₂⟩ ⟨hv₂, rfl⟩
  apply (talks_sendDown hv₂).returns
  exact fun v₃ hv₃ => ⟨_, rfl, hv₃, rfl⟩

/-! ### One scatter -/

section
variable (R)

/-- The turns of node `i` on its connection to `j` in a scatter. -/
def scatterTurns (ls : List L) (i j : ι) : List (Turn (Msg L)) :=
  if R.parent i = some j then (ls.map Msg.leaf).map .hear
  else if R.parent j = some i then (ls.map Msg.leaf).map .say
  else []

theorem flip_scatterTurns (i j : ι) :
    scatterTurns R ls j i = (scatterTurns R ls i j).map .flip := by
  unfold scatterTurns
  by_cases hi : R.parent i = some j
  · simp [hi, R.not_parent hi, Function.comp_def]
  · by_cases hj : R.parent j = some i <;> simp [hi, hj, Function.comp_def]

theorem scatterTurns_along {i j : ι} (h : scatterTurns R ls i j ≠ []) :
    R.parent i = some j ∨ R.parent j = some i := by
  by_contra hno
  rw [not_or] at hno
  simp [scatterTurns, hno.1, hno.2] at h

end

theorem talks_sendWalks {cs : List ι} (hv : T.Holds value ls) :
    Talks (fun value' => T.Holds value' ls)
      (cs.foldlM (fun v client =>
        walkTable (fun x => do Proc.put client (.leaf x); return none) v) value :
          Prog ι L (Nested N S L))
      fun j => cs.flatMap fun c => towards c ((ls.map Msg.leaf).map .say) j := by
  exact talks_foldlM (I := fun v _ => T.Holds v ls) (a := ls) (r := fun ls _ => ls)
    (fun _ => (ls.map Msg.leaf).map .say) (fun _ _ _ _ hva => talks_sendWalk hva) hv

/-- A node takes the turns of a scatter and ends with what the root has. -/
theorem talks_scatter [One N] {own : List L} {v : Nested N S L} (hconn : ConnOf R q conn i)
    (hv : T.Holds (wrap (some v)) own) (hroot : i = R.root → own = ls) (hlen : ls.length = T.width) :
    Talks (fun r => ∃ value', T.Holds value' ls ∧ r = if isTable (some v) then some value' else first value')
      (scatter q conn (some v) : Prog ι L (Option (Nested N S L))) (scatterTurns R ls i) := by
  have hturns : scatterTurns R ls i = fun j =>
      (if R.parent i = some j then (ls.map Msg.leaf).map .hear else []) ++
        (conn.clients q true).flatMap fun c => towards c ((ls.map Msg.leaf).map .say) j := by
    funext j
    rw [flatMap_towards (hconn.inverted.nodup_iff.mpr (R.nodup i))]
    simp only [hconn.inverted.mem_iff, R.mem_children]
    unfold scatterTurns
    by_cases hi : R.parent i = some j
    · simp [hi, R.not_parent hi]
    · by_cases hj : R.parent j = some i <;> simp [hi, hj]
  have hdown : ∀ value', T.Holds value' ls →
      Talks (fun r => ∃ value', T.Holds value' ls ∧ r = if isTable (some v) then some value' else first value')
        ((conn.clients q true).foldlM (fun v client =>
          walkTable (fun x => do Proc.put client (.leaf x); return none) v) value' >>= fun value' =>
            (pure (if isTable (some v) then some value' else first value') : Prog ι L (Option (Nested N S L))))
        fun j => (conn.clients q true).flatMap fun c =>
          towards c ((ls.map Msg.leaf).map .say) j := by
    intro value' hv'
    apply (talks_sendWalks hv').returns
    exact fun value'' hv'' => ⟨_, rfl, value'', hv'', rfl⟩
  rw [scatter, hturns, hconn.client]
  cases hp : R.parent i with
  | none =>
    rw [hroot ((R.parent_eq_none i).mp hp)] at hv
    have hnone : (fun j => (if none = some j then (ls.map Msg.leaf).map Turn.hear else []) ++
        (conn.clients q true).flatMap fun c => towards c ((ls.map Msg.leaf).map .say) j) =
          fun j => (conn.clients q true).flatMap fun c =>
            towards c ((ls.map Msg.leaf).map .say) j := by
      simp
    rw [hnone]
    exact hdown _ hv
  | some p =>
    have hup : (fun j => (if some p = some j then (ls.map Msg.leaf).map Turn.hear else []) ++
        (conn.clients q true).flatMap fun c => towards c ((ls.map Msg.leaf).map .say) j) =
          fun j => towards p ((ls.map Msg.leaf).map .hear) j ++
            (conn.clients q true).flatMap fun c => towards c ((ls.map Msg.leaf).map .say) j := by
      funext j
      by_cases hj : j = p
      · subst hj
        simp [towards]
      · simp [towards, hj, Ne.symm hj]
    rw [hup]
    apply (talks_recvWalk (fun _ y => y) hv hlen).bind
    intro value' hv'
    rw [zipWith_snd (hv.length_eq.trans hlen.symm)] at hv'
    exact hdown value' hv'

/-! ### One call after the other -/

variable [Fintype ι]

def Job.turns (R : Rooted ι) : Job ι N S L → ι → ι → List (Turn (Msg L))
  | .allReduce reduce value => roundTurns R (Job.shares R (.allReduce reduce value))
  | .scatter value => scatterTurns R (leaves (sorted (value R.root)))

/-- The turns of the jobs one behind the other. -/
def jobsTurns (R : Rooted ι) (jobs : List (Job ι N S L)) (i j : ι) : List (Turn (Msg L)) :=
  jobs.flatMap fun job => job.turns R i j

theorem flip_jobsTurns (jobs : List (Job ι N S L)) (i j : ι) :
    jobsTurns R jobs j i = (jobsTurns R jobs i j).map .flip := by
  unfold jobsTurns
  rw [List.map_flatMap]
  congr 1
  funext job
  cases job with
  | allReduce reduce value => exact flip_roundTurns R i j
  | scatter value => exact flip_scatterTurns R i j

theorem jobsTurns_along {jobs : List (Job ι N S L)} {i j : ι} (h : jobsTurns R jobs i j ≠ []) :
    R.parent i = some j ∨ R.parent j = some i := by
  obtain ⟨x, hx⟩ := List.exists_mem_of_ne_nil _ h
  obtain ⟨job, -, hjob⟩ := List.mem_flatMap.mp hx
  cases job with
  | allReduce reduce value => exact roundTurns_along R (List.ne_nil_of_mem hjob)
  | scatter value => exact scatterTurns_along R (List.ne_nil_of_mem hjob)

variable [One N]

theorem talks_job {job : Job ι N S L} (h : job.Uniform) (hconn : ConnOf R q conn i) (fuel : ℕ)
    (lastValue : Option (Nested N S L)) :
    Talks (fun r => job.Got (Fintype.card ι) (job.final R) r.1)
      ((job.call i).runTree q conn (Fintype.card ι) (fuel + 1) lastValue :
        Prog ι L (Returned N S L × Option (Nested N S L)))
      (job.turns R i) := by
  have hunwrap : ∀ value' : Nested N S L,
      (Template.of (wrap (some (job.value R.root))) (keyed_wrap (h.keyed R.root))).Holds value'
        (job.shares R R.root).1 →
      (if isTable (some (job.value i)) then some value' else first value').map sorted =
        some (job.final R) := by
    intro value' hv'
    rw [(shape_wrap (h.shape_eq i R.root)).1]
    exact unwrap_holds (h.keyed R.root) hv'
  have hlen := fun i => Job.length_shares (R := R) h i
  have hwidth := (h.holds (R := R) R.root).length_eq
  cases job with
  | allReduce reduce value =>
    simp only [Job.call, Call.runTree, allReduce_eq, bind_assoc, pure_bind]
    apply (talks_round hconn (h.holds i) (R.up_eq (combine reduce) _ i)
      fun j => (hlen j).trans hwidth).returns
    rintro ⟨value', _⟩ ⟨hv', rfl⟩
    refine ⟨_, rfl, hunwrap value' hv', ?_⟩
    simp [Job.shares, shares_snd_root]
  | scatter value =>
    simp only [Job.call, Call.runTree]
    apply (talks_scatter hconn (h.holds i) (fun hi => by rw [hi]) hwidth).returns
    rintro _ ⟨value', hv', rfl⟩
    exact ⟨_, rfl, hunwrap value' hv'⟩

theorem talks_callsTree {jobs : List (Job ι N S L)} (hjobs : ∀ job ∈ jobs, job.Uniform)
    (hconn : ConnOf R q conn i) (fuel : ℕ) (lastValue : Option (Nested N S L)) :
    Talks (GotAll (Fintype.card ι) jobs (jobs.map (Job.final R)))
      (callsTree q conn (Fintype.card ι) (fuel + 1) lastValue (jobs.map (Job.call · i)))
      (jobsTurns R jobs i) := by
  induction jobs generalizing lastValue with
  | nil => exact talks_pure trivial
  | cons job jobs ih =>
    rw [List.forall_mem_cons] at hjobs
    have hturns : jobsTurns R (job :: jobs) i = fun j => job.turns R i j ++ jobsTurns R jobs i j :=
      rfl
    rw [hturns]
    simp only [List.map_cons, callsTree]
    apply (talks_job hjobs.1 hconn fuel lastValue).bind
    rintro ⟨r, lastValue'⟩ hr
    apply (ih hjobs.2 lastValue').returns
    exact fun rs hrs => ⟨_, rfl, hr, hrs⟩

end

/-! ### All nodes -/

end TorchIpc.Tree
