import TorchIpc.Tree.NullTree

/-! Whole programs over an established tree: every node makes the same calls of `allReduce`
and `scatter`, one after the other, each with values of its own. A node that is ahead sends
what belongs to a later call while others are still in an earlier one; the links keep the
order, so no call reads what was sent for another. -/

namespace TorchIpc.Tree

open Network

/-! ### Programs -/

/-- A call that all nodes make together, each with its own value. -/
inductive Job (ι N S L : Type) where
  | allReduce (reduce : L → L → L) (value : ι → Nested N S L)
  | scatter (value : ι → Nested N S L)

namespace Job

variable {ι N S L : Type}

def value : Job ι N S L → ι → Nested N S L
  | allReduce _ value => value
  | scatter value => value

def call (job : Job ι N S L) (i : ι) : Call N S L :=
  match job with
  | allReduce reduce value => .allReduce (some (value i)) (fun a b => some (reduce a b)) none
  | scatter value => .scatter (some (value i))

variable [LinearOrder N] [LinearOrder S]

/-- The values of the nodes are of one shape, with keys that can be sorted. -/
structure Uniform (job : Job ι N S L) : Prop where
  keyed : ∀ i, Keyed (job.value i)
  shape_eq : ∀ i j, shape (job.value i) = shape (job.value j)

/-- What the nodes are to get: the fold over the planned tree, each node's own value first and
then its children's in ascending order, or the value of the first node. -/
def Gives {n : ℕ} (links : List Link) (root : Node n) : Job (Node n) N S L → Nested N S L → Prop
  | allReduce reduce value, final => blank final = shape (value root) ∧
    ∃ up : Node n → List L, leaves final = up root ∧ ∀ i, up i =
      (childrenOf links i).foldl (fun acc c => List.zipWith reduce acc (up c)) (leaves (sorted (value i)))
  | scatter value, final => final = sorted (value root)

/-- What one node has got is this, to which `n` nodes have contributed. -/
def Got (n : ℕ) (final : Nested N S L) : Job ι N S L → Returned N S L → Prop
  | allReduce .., .reduced value contributed => value.map sorted = some final ∧ contributed = n
  | scatter _, .scattered value => value.map sorted = some final
  | _, _ => False

end Job

/-- The results of a node, job by job. -/
def GotAll {ι N S L : Type} [LinearOrder N] [LinearOrder S] (n : ℕ) :
    List (Job ι N S L) → List (Nested N S L) → List (Returned N S L) → Prop
  | [], [], [] => True
  | job :: jobs, final :: finals, r :: rs => job.Got n final r ∧ GotAll n jobs finals rs
  | _, _, _ => False

/-! ### One scatter -/

section
variable {N S L ι α : Type} [LinearOrder N] [LinearOrder S] [DecidableEq ι]
  {T : Template N S L} {value : Nested N S L} {ls : List L} {t τ b : ℕ}
  {P : α → Plan ι (Msg L) ℕ → Prop} {w : Plan ι (Msg L) ℕ} {rest : List (ℕ × Msg L)} {peer : ι}

theorem conforms_sendWalk {k : Nested N S L → Prog ι L α} (hv : T.Holds value ls)
    (hout : w.out peer = stamped τ (ls.map Msg.leaf) ++ rest) (ht : t ≤ τ)
    (hk : ∀ value', T.Holds value' ls → Conforms (· + 1) P (k value') t (w.setOut peer rest)) :
    Conforms (· + 1) P
      (walkTable (fun x => do Proc.put peer (.leaf x); return none) value >>= k) t w := by
  rw [hv.walkTable, bind_assoc]
  simp only [pure_bind]
  apply conforms_mapM_put (g := Msg.leaf) (r := id) (fun x => by simp [visitLeaf]) hout ht
  rw [List.map_id]
  exact hk _ (Template.holds_fill hv.length_eq)

theorem conforms_sendWalks {cs : List ι} {k : Nested N S L → Prog ι L α}
    (rests : ι → List (ℕ × Msg L)) (hnd : cs.Nodup) (hv : T.Holds value ls)
    (hout : ∀ c ∈ cs, w.out c = stamped τ (ls.map Msg.leaf) ++ rests c) (ht : t ≤ τ)
    (hk : ∀ value', T.Holds value' ls → Conforms (· + 1) P (k value') t (w.setOuts cs rests)) :
    Conforms (· + 1) P (cs.foldlM (fun v client =>
      walkTable (fun x => do Proc.put client (.leaf x); return none) v) value >>= k) t w := by
  induction cs generalizing w value with
  | nil => simpa using hk value hv
  | cons c cs ih =>
    obtain ⟨hc, hnd⟩ := List.nodup_cons.mp hnd
    rw [List.foldlM_cons, bind_assoc]
    apply conforms_sendWalk hv (hout c List.mem_cons_self) ht
    intro value' hv'
    apply ih hnd hv'
    · intro c' hc'
      have hne : c' ≠ c := fun h => hc (h ▸ hc')
      rw [Plan.setOut_out_of_ne _ hne, hout c' (List.mem_cons_of_mem c hc')]
    · intro value'' hv''
      rw [Plan.setOuts_cons w rests hc]
      exact hk value'' hv''

variable (R : Rooted ι) [Fintype ι] {q : Qsort ι} {conn : Conn ι} {i : ι}

/-- The messages of a scatter from `i` to `j`. -/
def scatterScript (b : ℕ) (ls : List L) (i j : ι) : List (ℕ × Msg L) :=
  if R.parent j = some i then stamped (b + R.depth i) (ls.map Msg.leaf) else []

variable {R}

/-- A node keeps to the script of a scatter and ends with what the root has. -/
theorem conforms_scatter [One N] {own : List L} {v : Nested N S L}
    {k : Option (Nested N S L) → Prog ι L α} (w' : Plan ι (Msg L) ℕ) (hconn : ConnOf R q conn i)
    (hv : T.Holds (wrap (some v)) own) (hroot : i = R.root → own = ls)
    (hlen : ls.length = T.width) (ht : t ≤ b)
    (hinp : ∀ j, w.inp j = scatterScript R b ls j i ++ w'.inp j)
    (hout : ∀ j, w.out j = scatterScript R b ls i j ++ w'.out j)
    (hdials : w.dials = w'.dials) (hguests : w.guests = w'.guests)
    (hk : ∀ value', T.Holds value' ls → Conforms (· + 1) P
      (k (if isTable (some v) then some value' else first value')) (nextBase R b) w') :
    Conforms (· + 1) P (scatter q conn (some v) >>= k) t w := by
  have hdepth := R.depth_le i
  have hchild : ∀ c, c ∈ conn.clients q true ↔ R.parent c = some i := fun c =>
    hconn.inverted.mem_iff.trans (R.mem_children c i)
  -- what is left to do once the value of the root is there
  have hdown : ∀ (w₁ : Plan ι (Msg L) ℕ) (value' : Nested N S L), T.Holds value' ls →
      w₁.out = w.out → w₁.inp = w'.inp → w₁.dials = w'.dials → w₁.guests = w'.guests →
      Conforms (· + 1) P ((conn.clients q true).foldlM (fun v client =>
        walkTable (fun x => do Proc.put client (.leaf x); return none) v) value' >>= fun value' =>
          k (if isTable (some v) then some value' else first value')) (b + R.depth i) w₁ := by
    intro w₁ value' hv' hout₁ hinp₁ hd₁ hg₁
    apply conforms_sendWalks w'.out (hconn.inverted.nodup_iff.mpr (R.nodup i)) hv'
      (fun c hc => ?_) (τ := b + R.depth i) le_rfl
    · intro value'' hv''
      have hplan : w₁.setOuts (conn.clients q true) w'.out = w' := by
        ext1
        · funext j
          unfold Plan.setOuts
          simp only [hchild]
          split_ifs with hc
          · rfl
          · rw [hout₁, hout j, scatterScript, if_neg hc, List.nil_append]
        · exact hinp₁
        · exact hd₁
        · exact hg₁
      rw [hplan]
      apply (hk value'' hv'').anti
      unfold nextBase
      omega
    · rw [hout₁, hout c, scatterScript, if_pos ((hchild c).mp hc)]
  unfold scatter
  rw [hconn.client]
  cases hp : R.parent i with
  | none =>
    have hi := (R.parent_eq_none i).mp hp
    rw [hroot hi] at hv
    simp only [pure_bind, bind_assoc]
    refine (hdown w (wrap (some v)) hv rfl ?_ hdials hguests).anti (by omega)
    funext j
    rw [hinp j, scatterScript, if_neg (by simp [hp]), List.nil_append]
  | some p =>
    have hdepth' := R.depth_child i p hp
    have hinp' : w.inp p = stamped (b + R.depth p) (ls.map Msg.leaf) ++ w'.inp p := by
      rw [hinp p, scatterScript, if_pos hp]
    simp only [pure_bind, bind_assoc]
    apply conforms_recvWalk (fun _ y => y) (b + R.depth i) hv hlen hinp' (by omega) (by omega)
    intro value' hv'
    have hsnd : List.zipWith (fun _ y => y) own ls = ls := by
      have hmap := List.map_snd_zip (le_of_eq (hlen.trans hv.length_eq.symm))
      rwa [List.zip, List.map_zipWith] at hmap
    rw [hsnd] at hv'
    refine hdown (w.setInp p (w'.inp p)) value' hv' rfl ?_ hdials hguests
    funext j
    by_cases hj : j = p
    · subst hj
      exact Plan.setInp_inp w j _
    · rw [Plan.setInp_inp_of_ne w hj, hinp j, scatterScript, if_neg, List.nil_append]
      rw [hp, Option.some.injEq]
      exact fun h => hj h.symm

end

/-! ### One call after the other -/

section
variable {N S L ι : Type} [LinearOrder N] [LinearOrder S]

/-- What the nodes below a node amount to in a job, its own value included; of a scatter only
that of the root counts. -/
def Job.shares [Fintype ι] (R : Rooted ι) : Job ι N S L → ι → List L × ℕ
  | .allReduce reduce value => Tree.shares R reduce fun i => (leaves (sorted (value i)), 0)
  | .scatter value => fun i => (leaves (sorted (value i)), 0)

def Job.final [Fintype ι] (R : Rooted ι) (job : Job ι N S L) : Nested N S L :=
  refill (sorted (job.value R.root)) (job.shares R R.root).1

variable [DecidableEq ι] [Fintype ι] (R : Rooted ι)

def Job.script (b : ℕ) : Job ι N S L → ι → ι → List (ℕ × Msg L)
  | .allReduce reduce value => roundScript R b (Job.shares R (.allReduce reduce value))
  | .scatter value => scatterScript R b (leaves (sorted (value R.root)))

/-- The jobs one behind the other on every link. -/
def jobsScript : ℕ → List (Job ι N S L) → ι → ι → List (ℕ × Msg L)
  | _, [], _, _ => []
  | b, job :: jobs, i, j => job.script R b i j ++ jobsScript (nextBase R b) jobs i j

variable {R} {α : Type} {P : α → Plan ι (Msg L) ℕ → Prop} {q : Qsort ι} {conn : Conn ι} {i : ι}
  {t b : ℕ} [One N]

omit [DecidableEq ι] [Fintype ι] in
theorem Job.Uniform.holds {job : Job ι N S L} (h : job.Uniform) (i : ι) :
    (Template.of (wrap (some (job.value R.root))) (keyed_wrap (h.keyed R.root))).Holds
      (wrap (some (job.value i))) (leaves (sorted (job.value i))) := by
  have := Template.holds_of_shape
    (T := Template.of (wrap (some (job.value R.root))) (keyed_wrap (h.keyed R.root)))
    (keyed_wrap (h.keyed i)) (shape_wrap (h.shape_eq i R.root)).2
  rwa [leaves_wrap] at this

omit [DecidableEq ι] in
theorem Job.length_shares {job : Job ι N S L} (h : job.Uniform) (i : ι) :
    (job.shares R i).1.length = (leaves (sorted (job.value R.root))).length := by
  have hown : ∀ i, (leaves (sorted (job.value i))).length = (leaves (sorted (job.value R.root))).length :=
    fun i => (h.holds (R := R) i).length_eq.trans (h.holds R.root).length_eq.symm
  cases job with
  | allReduce reduce value => exact Tree.length_shares reduce hown i
  | scatter value => exact hown i

theorem conforms_job {job : Job ι N S L} (w' : Plan ι (Msg L) ℕ) (h : job.Uniform)
    (hconn : ConnOf R q conn i) {fuel : ℕ} {lastValue : Option (Nested N S L)}
    {k : Returned N S L × Option (Nested N S L) → Prog ι L α} {w : Plan ι (Msg L) ℕ} (ht : t ≤ b)
    (hinp : ∀ j, w.inp j = job.script R b j i ++ w'.inp j) (hout : ∀ j, w.out j = job.script R b i j ++ w'.out j)
    (hdials : w.dials = w'.dials) (hguests : w.guests = w'.guests)
    (hk : ∀ r lastValue', job.Got (Fintype.card ι) (job.final R) r →
      Conforms (· + 1) P (k (r, lastValue')) (nextBase R b) w') :
    Conforms (· + 1) P
      ((job.call i).runTree q conn (Fintype.card ι) (fuel + 1) lastValue >>= k) t w := by
  have hunwrap : ∀ value' : Nested N S L,
      (Template.of (wrap (some (job.value R.root))) (keyed_wrap (h.keyed R.root))).Holds value'
        (job.shares R R.root).1 →
      (if isTable (some (job.value i)) then some value' else first value').map sorted =
        some (job.final R) := by
    intro value' hv'
    rw [(shape_wrap (h.shape_eq i R.root)).1]
    exact unwrap_holds (h.keyed R.root) hv'
  have hlen := fun i => Job.length_shares (R := R) h i
  have hwidth := (h.holds (R := R) R.root).length_eq
  cases job with
  | allReduce reduce value =>
    simp only [Job.call, Call.runTree, allReduce_eq, bind_assoc, pure_bind]
    apply conforms_round (Job.shares R (.allReduce reduce value)) w' hconn
      (R.up_eq (combine reduce) _ i) (fun j => (hlen j).trans hwidth) (h.holds i) ht hinp hout hdials hguests
    intro value' hv'
    apply hk
    refine ⟨hunwrap value' hv', ?_⟩
    simp [Job.shares, shares_snd_root]
  | scatter value =>
    simp only [Job.call, Call.runTree, bind_assoc, pure_bind]
    apply conforms_scatter w' hconn (h.holds i) (fun hi => by rw [hi]) hwidth ht hinp hout hdials hguests
    intro value' hv'
    exact hk _ _ (hunwrap value' hv')

theorem conforms_callsTree {jobs : List (Job ι N S L)} (hjobs : ∀ job ∈ jobs, job.Uniform)
    (hconn : ConnOf R q conn i) (fuel : ℕ) (lastValue : Option (Nested N S L))
    {k : List (Returned N S L) → Prog ι L α} (ht : t ≤ b)
    (hk : ∀ rs t', GotAll (Fintype.card ι) jobs (jobs.map (Job.final R)) rs →
      Conforms (· + 1) P (k rs) t' ⟨fun _ => [], fun _ => [], ∅, ∅⟩) :
    Conforms (· + 1) P
      (callsTree q conn (Fintype.card ι) (fuel + 1) lastValue (jobs.map (Job.call · i)) >>= k) t
      (planOf (jobsScript R b jobs) i) := by
  induction jobs generalizing lastValue k t b with
  | nil => exact hk [] t trivial
  | cons job jobs ih =>
    rw [List.forall_mem_cons] at hjobs
    rw [List.map_cons, callsTree]
    simp only [bind_assoc, pure_bind]
    apply conforms_job (w := planOf (jobsScript R b (job :: jobs)) i)
      (planOf (jobsScript R (nextBase R b) jobs) i) hjobs.1 hconn ht (fun _ => rfl) (fun _ => rfl) rfl rfl
    intro r lastValue' hr
    apply ih hjobs.2 _ le_rfl
    intro rs t' hrs
    exact hk (r :: rs) t' ⟨hr, hrs⟩

end

/-! ### All nodes -/

section
variable {N S L : Type} [LinearOrder N] [LinearOrder S] [One N] {n : ℕ} {links : List Link}

theorem Job.final_gives (htree : SpanningTree n links) (hn : 1 ≤ n) (E : Established n links)
    (q : Qsort (Node n)) {job : Job (Node n) N S L} (h : job.Uniform) :
    job.Gives links ⟨1, Finset.mem_Icc.mpr ⟨le_rfl, hn⟩⟩ (job.final (E.rooted htree hn q)) := by
  have hlen := Job.length_shares (R := E.rooted htree hn q) h
  have hblank := blank_refill (sorted (job.value (E.rooted htree hn q).root))
    (job.shares (E.rooted htree hn q) (E.rooted htree hn q).root).1
  cases job with
  | allReduce reduce value =>
    refine ⟨hblank, fun i => (Job.shares (E.rooted htree hn q) (.allReduce reduce value) i).1,
      leaves_refill _ _ (hlen _), fun i => ?_⟩
    simp only [Job.shares, shares_fst]
    rw [Rooted.up_eq, ← E.clients_eq q i]
    rfl
  | scatter value => exact (refill_leaves_of_blank (rfl : blank (sorted (value _)) = _)).2

end

/-- Two nodes that subtract their values, and then both take over a pair from the first. -/
def pairJobs : List (Job (Node 2) ℕ ℕ ℤ) :=
  [.allReduce (fun a b => a - b) fun i => .leaf i.1,
    .scatter fun i => .table [(.num 1, .leaf i.1), (.num 2, .leaf (10 * i.1))]]

theorem uniform_pairJobs : ∀ job ∈ pairJobs, job.Uniform := by
  simp only [pairJobs, List.forall_mem_cons, List.not_mem_nil, false_implies, implies_true, and_true]
  refine ⟨⟨fun _ => trivial, fun _ _ => rfl⟩, ⟨fun _ => ?_, fun _ _ => rfl⟩⟩
  simp [Job.value, Keyed, KeyedEntries, oneKind, Key.isNum]

end TorchIpc.Tree
