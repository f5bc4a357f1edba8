import TorchIpc.Base.Scripts
import TorchIpc.Tree.Walk
import TorchIpc.Tree.Connections

/-! `allReduce` of `Tree.lua`: each node folds the values of its children into its
own, passes the result to its parent, and hands what comes back down to its
children. The leaves here are no tensors: `getTempValue` has nothing to offer for
them, and `client:recv` returns what was sent. `Tensors` has the program for
tensors, and `Plain` shows that it does the same on such leaves. -/

namespace TorchIpc.Tree

open Network

/-! ### The program -/

section
variable {N S L ι : Type} [LinearOrder N] [LinearOrder S] [One N]

/-- What `allReduce` sends: a leaf, or a number of done nodes. -/
inductive Msg (L : Type) where
  | leaf (x : L)
  | count (n : ℕ)
  deriving Repr, DecidableEq

abbrev Prog (ι L : Type) : Type → Type := Proc ι (Msg L) Failure

def recvLeaf (peer : ι) : Prog ι L L := do
  match ← Proc.get peer with
  | .leaf x => return x
  | .count _ => throw .phase

/-- `client:recv()` where a number of done nodes is expected. -/
def recvCount (peer : ι) : Prog ι L ℕ := do
  match ← Proc.get peer with
  | .leaf _ => throw .phase
  | .count n => return n

def first : Nested N S L → Option (Nested N S L)
  | .leaf _ => none
  | .table t => (t.find? fun e => e.1 = .num 1).map Prod.snd

/-- `{ value }` unless the value is a table. -/
def wrap : Option (Nested N S L) → Nested N S L
  | none => .table []
  | some (.leaf x) => .table [(.num 1, .leaf x)]
  | some (.table t) => .table t

def isTable : Option (Nested N S L) → Bool
  | some (.table _) => true
  | _ => false

/-- The first loop: fold in the values of the clients and add their counts. -/
def reduceUp (reduce : L → L → Option L) (clients : List ι) (value : Nested N S L) (numDone : ℕ) :
    Prog ι L (Nested N S L × ℕ) :=
  clients.foldlM (fun acc client => do
    let value ← walkTable (fun x => do return reduce x (← recvLeaf client)) acc.1
    let n ← recvCount client
    return (value, acc.2 + n)) (value, numDone)

def sendTo (peer : ι) (value : Nested N S L) (numDone : ℕ) : Prog ι L (Nested N S L) := do
  let value ← walkTable (fun x => do Proc.put peer (.leaf x); return none) value
  Proc.put peer (.count numDone)
  return value

/-- The last loop: hand the value to the clients. -/
def sendDown (clients : List ι) (value : Nested N S L) (numDone : ℕ) :
    Prog ι L (Nested N S L) :=
  clients.foldlM (fun value client => sendTo client value numDone) value

/-- Up to the parent and back, where there is one. -/
def exchange (client : Option ι) (value : Nested N S L) (numDone : ℕ) :
    Prog ι L (Nested N S L × ℕ) :=
  match client with
  | none => return (value, numDone)
  | some peer => do
    let value ← sendTo peer value numDone
    let value ← walkTable (fun _ => do return some (← recvLeaf peer)) value
    let numDone ← recvCount peer
    return (value, numDone)

/-- One pass of `allReduceInner` over the tree. -/
def round (q : Qsort ι) (conn : Conn ι) (reduce : L → L → Option L) (value : Nested N S L)
    (numDone : ℕ) : Prog ι L (Nested N S L × ℕ) := do
  let r ← reduceUp reduce (conn.clients q false) value numDone
  let r ← exchange conn.client r.1 r.2
  let value ← sendDown (conn.clients q true) r.1 r.2
  return (value, r.2)

/-- The value that is not `nil`, or else `lastValue`, and whether it is the table
`lastValue` refers to. -/
def restore (isLast : Bool) (lastValue : Option (Nested N S L)) (value : Nested N S L) :
    Prog ι L (Nested N S L × Bool) :=
  match first value, lastValue with
  | some _, _ => return (value, isLast)
  | none, some last => return (last, true)
  | none, none => throw .index

/-- `zero(valuei, i)` for the leaves in turn. -/
def zeroAll (zero : L → ℕ → Option L) (value : Nested N S L) : Prog ι L (Nested N S L) :=
  (walkTable (m := StateT ℕ (Prog ι L)) (fun x => do
    modify (· + 1)
    return zero x (← get)) value).run' 0

/-- The uneven ending: zero the restored value, or save the one given. -/
def prepare (zero : Option (L → ℕ → Option L)) (isLast : Bool)
    (lastValue : Option (Nested N S L)) (value : Nested N S L) : Prog ι L (Nested N S L × Bool) :=
  match zero with
  | none => return (value, true)
  | some zero => do
    let r ← restore isLast lastValue value
    let value ← zeroAll zero r.1
    return (value, r.2)

/-- What a call leaves: its two results, what `lastValue` then refers to, and how
many passes it took. -/
structure Outcome (N S L : Type) where
  value : Option (Nested N S L)
  contributed : ℤ
  lastValue : Option (Nested N S L)
  rounds : ℕ

/-- `allReduceInner`; `isLast` says that `value` is the table `lastValue` refers to,
so that both change together. -/
def allReduceInner (q : Qsort ι) (conn : Conn ι) (numNodes : ℕ) (reduce : L → L → Option L)
    (zero : Option (L → ℕ → Option L)) : ℕ → Bool → Option (Nested N S L) → Nested N S L →
    Prog ι L (Outcome N S L)
  | 0, _, _, _ => throw .fuel
  | fuel + 1, isLast, lastValue, value => do
    let r ← prepare zero isLast lastValue value
    let isLast := r.2
    let r ← round q conn reduce r.1 (if zero.isSome then 1 else 0)
    let lastValue := if isLast then some r.1 else lastValue
    if zero.isSome ∧ r.2 < numNodes then
      let o ← allReduceInner q conn numNodes reduce zero fuel isLast lastValue r.1
      return { o with rounds := o.rounds + 1 }
    else
      return ⟨some r.1, numNodes - r.2, lastValue, 1⟩

/-- `allReduce`. The table made for a value that is none is new, so it is not the
one `lastValue` refers to. -/
def allReduce (q : Qsort ι) (conn : Conn ι) (numNodes fuel : ℕ) (reduce : L → L → Option L)
    (zero : Option (L → ℕ → Option L)) (lastValue value : Option (Nested N S L)) :
    Prog ι L (Outcome N S L) := do
  let o ← allReduceInner q conn numNodes reduce zero fuel false lastValue (wrap value)
  return { o with value := if isTable value then o.value else o.value.bind first }

end

/-! ### What a round puts on the links -/

def payload {L : Type} (r : List L × ℕ) : List (Msg L) := r.1.map Msg.leaf ++ [.count r.2]

/-- One node's share with that of a child folded in. -/
def combine {L : Type} (reduce : L → L → L) (a b : List L × ℕ) : List L × ℕ :=
  (List.zipWith reduce a.1 b.1, a.2 + b.2)

section
variable {N S L ι α : Type} [LinearOrder N] [LinearOrder S] [DecidableEq ι]
  {T : Template N S L} {value : Nested N S L} {ls : List L} {d t t' τ : ℕ}
  {P : α → Plan ι (Msg L) ℕ → Prop} {w : Plan ι (Msg L) ℕ} {rest : List (ℕ × Msg L)} {peer : ι}

theorem conforms_recvCount {n : ℕ} {k : ℕ → Prog ι L α} (hinp : w.inp peer = (τ, .count n) :: rest)
    (ht : t ≤ t') (hτ : τ + 1 ≤ t')
    (hk : Conforms (· + 1) P (k n) t' (w.setInp peer rest)) :
    Conforms (· + 1) P (recvCount peer >>= k) t w := by
  rw [recvCount, bind_assoc]
  exact conforms_get hinp ht hτ hk

/-- The walk that receives: the leaves received are combined with those held. -/
theorem conforms_recvWalk {ys : List L} {k : Nested N S L → Prog ι L α} (g : L → L → L) (t' : ℕ)
    (hv : T.Holds value ls) (hlen : ys.length = T.width)
    (hinp : w.inp peer = stamped τ (ys.map Msg.leaf) ++ rest) (ht : t ≤ t') (hτ : τ + 1 ≤ t')
    (hk : ∀ value', T.Holds value' (List.zipWith g ls ys) →
      Conforms (· + 1) P (k value') t' (w.setInp peer rest)) :
    Conforms (· + 1) P
      (walkTable (fun x => do return some (g x (← recvLeaf peer))) value >>= k) t w := by
  rw [hv.walkTable, bind_assoc]
  simp only [pure_bind]
  refine conforms_mapM_get (g := Msg.leaf) (r := g) (j := peer)
    (b := fun x m => match m with
      | .leaf y => pure (g x y)
      | .count _ => throw .phase)
    ?_ (fun _ _ => rfl) (hv.length_eq.trans hlen.symm) hinp ht hτ (hk _ (Template.holds_fill ?_))
  · intro x
    simp only [visitLeaf, recvLeaf, bind_assoc]
    congr 1
    funext m
    cases m <;> rfl
  · rw [List.length_zipWith, hv.length_eq, hlen, Nat.min_self]

theorem conforms_sendTo {k : Nested N S L → Prog ι L α} (hv : T.Holds value ls)
    (hout : w.out peer = stamped τ (payload (ls, d)) ++ rest) (ht : t ≤ τ)
    (hk : ∀ value', T.Holds value' ls → Conforms (· + 1) P (k value') t (w.setOut peer rest)) :
    Conforms (· + 1) P (sendTo peer value d >>= k) t w := by
  rw [sendTo, hv.walkTable]
  simp only [bind_assoc, pure_bind]
  have hout' : w.out peer = stamped τ (ls.map Msg.leaf) ++ ((τ, .count d) :: rest) := by
    rw [hout, payload, stamped, stamped, List.map_append, List.append_assoc]
    rfl
  refine conforms_mapM_put (g := Msg.leaf) (r := id) (fun x => ?_) hout' ht ?_
  · simp [visitLeaf]
  · refine conforms_put (Plan.setOut_out w peer _) ht ?_
    rw [Plan.setOut_setOut, List.map_id]
    exact hk _ (Template.holds_fill hv.length_eq)

theorem conforms_reduceUp {g : L → L → L} {cs : List ι} {k : Nested N S L × ℕ → Prog ι L α}
    (stamp : ι → ℕ) (ups : ι → List L × ℕ) (rests : ι → List (ℕ × Msg L)) (t' : ℕ) (hnd : cs.Nodup)
    (hv : T.Holds value ls) (hinp : ∀ c ∈ cs, w.inp c = stamped (stamp c) (payload (ups c)) ++ rests c)
    (hlen : ∀ c ∈ cs, (ups c).1.length = T.width) (ht : t ≤ t') (hτ : ∀ c ∈ cs, stamp c + 1 ≤ t')
    (hk : ∀ value', T.Holds value' (cs.foldl (fun acc c => combine g acc (ups c)) (ls, d)).1 →
      Conforms (· + 1) P (k (value', (cs.foldl (fun acc c => combine g acc (ups c)) (ls, d)).2)) t'
        (w.setInps cs rests)) :
    Conforms (· + 1) P (reduceUp (fun a b => some (g a b)) cs value d >>= k) t w := by
  induction cs generalizing w value ls d t with
  | nil =>
    have := hk value hv
    rw [Plan.setInps_nil] at this
    exact this.anti ht
  | cons c cs ih =>
    obtain ⟨hc, hnd⟩ := List.nodup_cons.mp hnd
    have hinp' : w.inp c = stamped (stamp c) ((ups c).1.map Msg.leaf) ++
        ((stamp c, .count (ups c).2) :: rests c) := by
      rw [hinp c List.mem_cons_self, payload, stamped, stamped, List.map_append, List.append_assoc]
      rfl
    rw [reduceUp, List.foldlM_cons]
    simp only [bind_assoc, pure_bind]
    refine conforms_recvWalk g t' hv (hlen c List.mem_cons_self) hinp' ht (hτ c List.mem_cons_self)
      fun value' hv' => conforms_recvCount (Plan.setInp_inp w c _) le_rfl
        (hτ c List.mem_cons_self) ?_
    rw [Plan.setInp_setInp]
    refine ih hnd hv' (fun c' hc' => ?_) (fun c' hc' => hlen c' (List.mem_cons_of_mem c hc')) le_rfl
      (fun c' hc' => hτ c' (List.mem_cons_of_mem c hc')) fun value'' hv'' => ?_
    · have hne : c' ≠ c := fun h => hc (h ▸ hc')
      rw [← hinp c' (List.mem_cons_of_mem c hc')]
      simp [Plan.setInp, hne]
    · rw [Plan.setInps_cons w rests hc]
      exact hk value'' hv''

theorem conforms_sendDown {cs : List ι} {k : Nested N S L → Prog ι L α}
    (rests : ι → List (ℕ × Msg L)) (hnd : cs.Nodup) (hv : T.Holds value ls)
    (hout : ∀ c ∈ cs, w.out c = stamped τ (payload (ls, d)) ++ rests c) (ht : t ≤ τ)
    (hk : ∀ value', T.Holds value' ls → Conforms (· + 1) P (k value') t (w.setOuts cs rests)) :
    Conforms (· + 1) P (sendDown cs value d >>= k) t w := by
  induction cs generalizing w value with
  | nil =>
    have := hk value hv
    rw [Plan.setOuts_nil] at this
    exact this
  | cons c cs ih =>
    obtain ⟨hc, hnd⟩ := List.nodup_cons.mp hnd
    rw [sendDown, List.foldlM_cons]
    simp only [bind_assoc]
    refine conforms_sendTo hv (hout c List.mem_cons_self) ht fun value' hv' => ?_
    refine ih hnd hv' (fun c' hc' => ?_) fun value'' hv'' => ?_
    · have hne : c' ≠ c := fun h => hc (h ▸ hc')
      rw [← hout c' (List.mem_cons_of_mem c hc')]
      simp [Plan.setOut, hne]
    · rw [Plan.setOuts_cons w rests hc]
      exact hk value'' hv''

/-! ### One round -/

variable (R : Rooted ι) [Fintype ι] {ups : ι → List L × ℕ}

/-- The messages of one round from `i` to `j`: up to the parent what the subtree of
`i` amounts to, down to a child what the root has. -/
def roundScript (b : ℕ) (ups : ι → List L × ℕ) (i j : ι) : List (ℕ × Msg L) :=
  if R.parent i = some j then stamped (b + (R.height - R.depth i)) (payload (ups i))
  else if R.parent j = some i then
    stamped (b + R.height + 1 + R.depth i) (payload (ups R.root))
  else []

def nextBase (b : ℕ) : ℕ := b + 2 * R.height + 2

theorem roundScript_up {i p : ι} (b : ℕ) (h : R.parent i = some p) :
    roundScript R b ups i p = stamped (b + (R.height - R.depth i)) (payload (ups i)) :=
  if_pos h

theorem roundScript_down {i c : ι} (b : ℕ) (h : R.parent c = some i) :
    roundScript R b ups i c = stamped (b + R.height + 1 + R.depth i) (payload (ups R.root)) := by
  rw [roundScript, if_neg (R.not_parent h), if_pos h]

theorem roundScript_none {i j : ι} (b : ℕ) (h : R.parent i ≠ some j) (h' : R.parent j ≠ some i) :
    roundScript R b ups i j = [] := by
  rw [roundScript, if_neg h, if_neg h']

/-- The connections of a node are those of the tree. -/
structure ConnOf (q : Qsort ι) (conn : Conn ι) (i : ι) : Prop where
  client : conn.client = R.parent i
  clients : conn.clients q false = R.children i
  inverted : (conn.clients q true).Perm (R.children i)

variable {R} {q : Qsort ι} {conn : Conn ι} {i : ι} {b : ℕ} {w' : Plan ι (Msg L) ℕ}

/-- A round has no messages between nodes that are not parent and child. -/
theorem roundScript_rest {j : ι} (hc : j ∉ R.children i) (hp : R.parent i ≠ some j) :
    roundScript R b ups i j = [] ∧ roundScript R b ups j i = [] := by
  have hc' : R.parent j ≠ some i := fun h => hc ((R.mem_children j i).mpr h)
  exact ⟨roundScript_none R b hp hc', roundScript_none R b hc' hp⟩

/-- Up to the parent and back: the value becomes that of the root. -/
theorem conforms_exchange {k : Nested N S L × ℕ → Prog ι L α} (w' : Plan ι (Msg L) ℕ)
    (hlen : ∀ j, (ups j).1.length = T.width) (hv : T.Holds value (ups i).1)
    (ht : t ≤ b + (R.height - R.depth i))
    (hinp : ∀ p, R.parent i = some p → w.inp p = roundScript R b ups p i ++ w'.inp p)
    (hout : ∀ p, R.parent i = some p → w.out p = roundScript R b ups i p ++ w'.out p)
    (hk : ∀ value', T.Holds value' (ups R.root).1 →
      Conforms (· + 1) P (k (value', (ups R.root).2)) (b + R.height + 1 + R.depth i)
        ((w.setOuts (R.parent i).toList w'.out).setInps (R.parent i).toList w'.inp)) :
    Conforms (· + 1) P (exchange (R.parent i) value (ups i).2 >>= k) t w := by
  have hdepth := R.depth_le i
  cases hp : R.parent i with
  | none =>
    obtain rfl := (R.parent_eq_none i).mp hp
    rw [hp, Option.toList_none, Plan.setOuts_nil, Plan.setInps_nil] at hk
    exact (hk value hv).anti (by omega)
  | some p =>
    have hdepth' := R.depth_child i p hp
    rw [hp, Option.toList_some, ← Plan.setOuts_cons w w'.out List.not_mem_nil, Plan.setOuts_nil,
      ← Plan.setInps_cons _ w'.inp List.not_mem_nil, Plan.setInps_nil] at hk
    simp only [exchange, bind_assoc, pure_bind]
    have hup := hout p hp
    rw [roundScript_up R b hp] at hup
    refine conforms_sendTo hv hup ht fun v₁ hv₁ => ?_
    have hdown : (w.setOut p (w'.out p)).inp p =
        stamped (b + R.height + 1 + R.depth p) ((ups R.root).1.map Msg.leaf) ++
          ((b + R.height + 1 + R.depth p, .count (ups R.root).2) :: w'.inp p) := by
      change w.inp p = _
      rw [hinp p hp, roundScript_down R b hp, payload, stamped, stamped, List.map_append,
        List.append_assoc]
      rfl
    refine conforms_recvWalk (fun _ y => y) (b + R.height + 1 + R.depth i) hv₁ (hlen R.root)
      hdown (by omega) (by omega) fun v₂ hv₂ => ?_
    refine conforms_recvCount (Plan.setInp_inp _ p _) le_rfl (by omega) ?_
    rw [Plan.setInp_setInp]
    refine hk v₂ ?_
    have hsnd : List.zipWith (fun _ y => y) (ups i).1 (ups R.root).1 = (ups R.root).1 := by
      have hmap := List.map_snd_zip (le_of_eq ((hlen R.root).trans (hlen i).symm))
      rwa [List.zip, List.map_zipWith] at hmap
    rwa [hsnd] at hv₂

/-- A node keeps to the script of a round and ends with what the root has. -/
theorem conforms_round {g : L → L → L} {k : Nested N S L × ℕ → Prog ι L α}
    (ups : ι → List L × ℕ) (w' : Plan ι (Msg L) ℕ) (hconn : ConnOf R q conn i)
    (hups : ups i = (R.children i).foldl (fun acc c => combine g acc (ups c)) (ls, d))
    (hlen : ∀ j, (ups j).1.length = T.width) (hv : T.Holds value ls) (ht : t ≤ b)
    (hinp : ∀ j, w.inp j = roundScript R b ups j i ++ w'.inp j)
    (hout : ∀ j, w.out j = roundScript R b ups i j ++ w'.out j)
    (hdials : w.dials = w'.dials) (hguests : w.guests = w'.guests)
    (hk : ∀ value', T.Holds value' (ups R.root).1 →
      Conforms (· + 1) P (k (value', (ups R.root).2)) (nextBase R b) w') :
    Conforms (· + 1) P (round q conn (fun a b => some (g a b)) value d >>= k) t w := by
  have hdepth := R.depth_le i
  have hchild : ∀ c, c ∈ R.children i ↔ R.parent c = some i := fun c => R.mem_children c i
  have hnotp : ∀ p, R.parent i = some p → p ∉ R.children i :=
    fun p hp hc => R.not_parent hp ((hchild p).mp hc)
  rw [round, hconn.clients, hconn.client]
  simp only [bind_assoc, pure_bind]
  refine conforms_reduceUp (fun c => b + (R.height - R.depth c)) ups w'.inp
    (b + (R.height - R.depth i)) (R.nodup i) hv (fun c hc => ?_) (fun c _ => hlen c) (by omega)
    (fun c hc => ?_) fun v₁ hv₁ => ?_
  · rw [hinp c, roundScript_up R b ((hchild c).mp hc)]
  · have := R.depth_child c i ((hchild c).mp hc)
    have := R.depth_le c
    omega
  rw [← hups] at hv₁ ⊢
  refine conforms_exchange w' hlen hv₁ le_rfl (fun p hp => ?_) (fun p hp => hout p)
    fun v₂ hv₂ => ?_
  · rw [← hinp p]
    exact if_neg (hnotp p hp)
  refine conforms_sendDown w'.out (hconn.inverted.nodup_iff.mpr (R.nodup i)) hv₂ (fun c hc => ?_)
    (τ := b + R.height + 1 + R.depth i) le_rfl fun v₃ hv₃ => ?_
  · have hc' := hconn.inverted.mem_iff.mp hc
    have hne : c ∉ (R.parent i).toList := by
      rw [Option.mem_toList]
      exact fun hp => hnotp c hp hc'
    change (if c ∈ (R.parent i).toList then w'.out c else w.out c) = _
    rw [if_neg hne, hout c, roundScript_down R b ((hchild c).mp hc')]
  · -- every message of the round is gone: what is left is the plan for what follows
    have hplan : (((w.setInps (R.children i) w'.inp).setOuts (R.parent i).toList w'.out).setInps
        (R.parent i).toList w'.inp).setOuts (conn.clients q true) w'.out = w' := by
      ext1
      · funext j
        simp only [Plan.setOuts, Plan.setInps, hconn.inverted.mem_iff, Option.mem_toList]
        split_ifs with hc hp
        · rfl
        · rfl
        · rw [hout j, (roundScript_rest hc hp).1, List.nil_append]
      · funext j
        simp only [Plan.setOuts, Plan.setInps, Option.mem_toList]
        split_ifs with hp hc
        · rfl
        · rfl
        · rw [hinp j, (roundScript_rest hc hp).2, List.nil_append]
      · exact hdials
      · exact hguests
    rw [hplan]
    refine (hk v₃ hv₃).anti ?_
    unfold nextBase
    omega

end

/-! ### One call -/

section
variable {N S L : Type} [LinearOrder N] [LinearOrder S] [One N]

omit [LinearOrder N] [LinearOrder S] in
theorem keyed_wrap {v : Nested N S L} (h : Keyed v) : Keyed (wrap (some v)) := by
  cases v with
  | leaf x => simp [wrap, Keyed, KeyedEntries, oneKind, Key.isNum]
  | table t => exact h

theorem sorted_wrap_leaf (x : L) :
    sorted (wrap (some (.leaf x : Nested N S L))) = .table [(.num 1, .leaf x)] := by
  simp [wrap, sorted, sortedEntries]

theorem leaves_wrap (v : Nested N S L) : leaves (sorted (wrap (some v))) = leaves (sorted v) := by
  cases v with
  | leaf x => rw [sorted_wrap_leaf]; rfl
  | table t => rfl

/-- Values of one shape are both tables or both leaves, and stay of one shape. -/
theorem shape_wrap {u v : Nested N S L} (h : shape u = shape v) :
    isTable (some u) = isTable (some v) ∧ shape (wrap (some u)) = shape (wrap (some v)) := by
  cases u with
  | leaf x =>
    cases v with
    | leaf y =>
      refine ⟨rfl, ?_⟩
      rw [shape, shape, sorted_wrap_leaf, sorted_wrap_leaf]
      rfl
    | table t => simp [shape, sorted, blank] at h
  | table t =>
    cases v with
    | leaf y => simp [shape, sorted, blank] at h
    | table t' => exact ⟨rfl, h⟩

/-- A table with the one entry `1` has it whatever its order. -/
theorem first_of_sorted {v : Nested N S L} {y : L} (h : sorted v = .table [(.num 1, .leaf y)]) :
    first v = some (.leaf y) := by
  cases v with
  | leaf x => simp [sorted] at h
  | table t =>
    rw [sorted_table, Nested.table.injEq] at h
    have hlen := congrArg List.length h
    rw [List.length_map, List.length_insertionSort, List.length_singleton] at hlen
    obtain ⟨⟨k, u⟩, rfl⟩ := List.length_eq_one_iff.mp hlen
    simp only [List.insertionSort_cons, List.insertionSort_nil, List.orderedInsert_nil,
      List.map_cons, List.map_nil, List.cons.injEq, Prod.mk.injEq, and_true] at h
    obtain ⟨rfl, hu⟩ := h
    cases u with
    | leaf z =>
      simp only [sorted, Nested.leaf.injEq] at hu
      simp [first, hu]
    | table t => simp [sorted] at hu

/-- What the call returns, from the table the rounds leave. -/
theorem unwrap_holds {v r : Nested N S L} {ls : List L} (hv : Keyed v)
    (h : (Template.of (wrap (some v)) (keyed_wrap hv)).Holds r ls) :
    (if isTable (some v) then some r else first r).map sorted = some (refill (sorted v) ls) := by
  cases v with
  | table t => exact congrArg some h.sorted_eq
  | leaf x =>
    have hlen := h.length_eq
    have hsorted := h.sorted_eq
    simp only [Template.width, Template.fill, Template.of, sorted_wrap_leaf] at hlen hsorted
    obtain ⟨y, rfl⟩ := List.length_eq_one_iff.mp hlen
    have hleaf : isTable (some (.leaf x : Nested N S L)) = false := rfl
    rw [hleaf, if_neg Bool.false_ne_true, first_of_sorted hsorted]
    rfl

variable {ι : Type} {q : Qsort ι} {conn : Conn ι}

theorem allReduce_eq (reduce : L → L → Option L) (numNodes fuel : ℕ)
    (lastValue : Option (Nested N S L)) (v : Nested N S L) :
    allReduce q conn numNodes (fuel + 1) reduce none lastValue (some v) =
      round q conn reduce (wrap (some v)) 0 >>= fun r =>
        pure ⟨if isTable (some v) then some r.1 else first r.1, numNodes - r.2, some r.1, 1⟩ := by
  simp only [allReduce, allReduceInner, prepare, pure_bind, bind_assoc, Option.isSome_none,
    Bool.false_eq_true, false_and, if_false, if_true]
  rfl

/-! ### Agreement -/

variable {n : ℕ} {links : List Link}

theorem Established.connOf (E : Established n links) (h : SpanningTree n links) (hn : 1 ≤ n)
    (q : Qsort (Node n)) (i : Node n) : ConnOf (E.rooted h hn q) q (E.conn i) i where
  client := rfl
  clients := rfl
  inverted := (Conn.clients_perm q _ true).trans (Conn.clients_perm q _ false).symm

variable [Fintype ι] {R : Rooted ι}

/-- What the subtree of each node amounts to, with the number of done nodes. -/
def shares (R : Rooted ι) (reduce : L → L → L) (own : ι → List L × ℕ) (i : ι) : List L × ℕ :=
  R.up (combine reduce) own i

theorem shares_fst (reduce : L → L → L) (own : ι → List L × ℕ) (i : ι) :
    (shares R reduce own i).1 = R.up (List.zipWith reduce) (fun i => (own i).1) i :=
  R.map_subtree (f := Prod.fst) (fun _ _ => rfl) own _ i

theorem shares_snd_root [DecidableEq ι] (reduce : L → L → L) (own : ι → List L × ℕ) :
    (shares R reduce own R.root).2 = ∑ i, (own i).2 :=
  R.map_up_root (h := Prod.snd) (fun _ _ => rfl) own

theorem length_shares {width : ℕ} (reduce : L → L → L) {own : ι → List L × ℕ}
    (hown : ∀ i, (own i).1.length = width) (i : ι) : (shares R reduce own i).1.length = width := by
  refine R.subtree_induction (motive := fun a : List L × ℕ => a.1.length = width) hown ?_ _ i
  intro a b ha hb
  rw [combine, List.length_zipWith, ha, hb, Nat.min_self]

end

end TorchIpc.Tree
