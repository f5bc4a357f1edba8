import TorchIpc.Tree.AllReduce

/-! `NullTree.lua`, which the constructors return in place of a tree of one node. It hands
every value back and counts one contribution, whatever the reduce and the zero function are.
`Tree` does the same with no server and no client, until a call has a zero function. -/

namespace TorchIpc.Tree

open Network

section
variable {N S L ι : Type} [LinearOrder N] [LinearOrder S] [One N]

/-! ### The calls -/

def scatter (q : Qsort ι) (conn : Conn ι) (value : Option (Nested N S L)) :
    Prog ι L (Option (Nested N S L)) := do
  let v ← match conn.client with
    | none => pure (wrap value)
    | some peer => walkTable (fun _ => do return some (← recvLeaf peer)) (wrap value)
  let v ← (conn.clients q true).foldlM (fun v client =>
    walkTable (fun x => do Proc.put client (.leaf x); return none) v) v
  return if isTable value then some v else first v

/-- A call of `allReduce` or `scatter` with its arguments. -/
inductive Call (N S L : Type) where
  | allReduce (value : Option (Nested N S L)) (reduce : L → L → Option L) (zero : Option (L → ℕ → Option L))
  | scatter (value : Option (Nested N S L))

inductive Returned (N S L : Type) where
  | reduced (value : Option (Nested N S L)) (contributed : ℤ)
  | scattered (value : Option (Nested N S L))

/-- There is a zero function among the arguments. -/
def Call.hasZero : Call N S L → Bool
  | .allReduce _ _ zero => zero.isSome
  | .scatter _ => false

/-- A call to `Tree`: what it returns, and what `lastValue` refers to afterwards. -/
def Call.runTree (q : Qsort ι) (conn : Conn ι) (numNodes fuel : ℕ) (lastValue : Option (Nested N S L)) :
    Call N S L → Prog ι L (Returned N S L × Option (Nested N S L))
  | .allReduce value reduce zero => do
    let o ← Tree.allReduce q conn numNodes fuel reduce zero lastValue value
    return (.reduced o.value o.contributed, o.lastValue)
  | .scatter value => do
    let v ← Tree.scatter q conn value
    return (.scattered v, lastValue)

def callsTree (q : Qsort ι) (conn : Conn ι) (numNodes fuel : ℕ) :
    Option (Nested N S L) → List (Call N S L) → Prog ι L (List (Returned N S L))
  | _, [] => return []
  | lastValue, c :: cs => do
    let r ← c.runTree q conn numNodes fuel lastValue
    let rs ← callsTree q conn numNodes fuel r.2 cs
    return r.1 :: rs

namespace NullTree

/-- `allReduce` of `NullTree`, whose other two arguments are dropped. -/
def allReduce (value : Option (Nested N S L)) : Option (Nested N S L) × ℤ := (value, 1)

def scatter (value : Option (Nested N S L)) : Option (Nested N S L) := value

end NullTree

def Call.runNull : Call N S L → Returned N S L
  | .allReduce value _ _ => .reduced (NullTree.allReduce value).1 (NullTree.allReduce value).2
  | .scatter value => .scattered (NullTree.scatter value)

/-! ### A tree of one node -/

def Conn.alone : Conn ι := ⟨none, none⟩

@[simp] theorem Conn.clients_alone (q : Qsort ι) (invert : Bool) :
    (Conn.alone : Conn ι).clients q invert = [] := by
  apply List.eq_nil_of_length_eq_zero
  rw [((Conn.alone : Conn ι).clients_perm q invert).length_eq]
  rfl

/-- The value is taken out of the table it was put into. -/
theorem unwrap_wrap (value : Option (Nested N S L)) :
    (if isTable value then some (wrap value) else first (wrap value)) = value := by
  cases value with
  | none => rfl
  | some v =>
    cases v with
    | leaf x => simp [isTable, wrap, first]
    | table t => simp [isTable, wrap]

theorem scatter_alone (q : Qsort ι) (value : Option (Nested N S L)) :
    scatter q Conn.alone value = pure value := by
  unfold scatter
  rw [Conn.clients_alone]
  exact congrArg Proc.done (unwrap_wrap value)

omit [One N] in
/-- With nobody to talk to, a round changes nothing. -/
theorem round_alone (q : Qsort ι) (reduce : L → L → Option L) (value : Nested N S L) (numDone : ℕ) :
    round q Conn.alone reduce value numDone = pure (value, numDone) := by
  unfold round reduceUp sendDown
  rw [Conn.clients_alone, Conn.clients_alone]
  rfl

/-- An ordinary call returns its value, to which one node has contributed. -/
theorem allReduce_alone (q : Qsort ι) (fuel : ℕ) (reduce : L → L → Option L) (lastValue value : Option (Nested N S L)) :
    allReduce q Conn.alone 1 (fuel + 1) reduce none lastValue value =
      pure ⟨value, 1, some (wrap value), 1⟩ := by
  unfold allReduce allReduceInner prepare
  simp only [pure_bind, round_alone]
  have hvalue : (if isTable value then some (wrap value) else (some (wrap value)).bind first) =
    value := unwrap_wrap value
  simp only [Option.isSome_none, Bool.false_eq_true, false_and, if_false, if_true, pure_bind, hvalue]
  rfl

/-- No node has contributed to a call with a zero function. -/
theorem allReduce_alone_zero (q : Qsort ι) (fuel : ℕ) (reduce : L → L → Option L) (zero : L → ℕ → Option L)
    (lastValue value : Option (Nested N S L)) {o : Outcome N S L}
    (h : (allReduce q Conn.alone 1 (fuel + 1) reduce (some zero) lastValue value : Prog ι L (Outcome N S L)) = pure o) :
    o.contributed = 0 := by
  obtain ⟨o', hinner, ho⟩ := Proc.bind_eq_done h
  obtain ⟨r, -, hinner⟩ := Proc.bind_eq_done hinner
  simp only [round_alone, pure_bind, Option.isSome_some, if_true, lt_irrefl, and_false, if_false] at hinner
  cases hinner
  cases ho
  rfl

/-! ### Agreement -/

theorem Call.agrees_iff (q : Qsort ι) (fuel : ℕ) (lastValue : Option (Nested N S L)) (c : Call N S L) :
    (∃ lastValue', c.runTree q Conn.alone 1 (fuel + 1) lastValue = pure (c.runNull, lastValue')) ↔
    c.hasZero = false := by
  cases c with
  | scatter value =>
    refine iff_of_true ⟨lastValue, ?_⟩ rfl
    rw [runTree, scatter_alone, pure_bind]
    rfl
  | allReduce value reduce zero =>
    cases zero with
    | none =>
      refine iff_of_true ⟨some (wrap value), ?_⟩ rfl
      rw [runTree, allReduce_alone, pure_bind]
      rfl
    | some zero =>
      refine iff_of_false ?_ Bool.true_eq_false.mp
      rintro ⟨lastValue', h⟩
      obtain ⟨o, hcall, ho⟩ := Proc.bind_eq_done h
      have hzero := allReduce_alone_zero q fuel reduce zero lastValue value hcall
      have hone : (1 : ℤ) = o.contributed := by
        injection ho with ho
        rw [Prod.mk.injEq, runNull, Returned.reduced.injEq] at ho
        exact ho.1.2.symm
      exact absurd (hone.trans hzero) one_ne_zero

/-- `NullTree` returns what a tree of one node returns, call for call, as long as no call has
a zero function. -/
theorem nullTree_agrees_iff (q : Qsort ι) (fuel : ℕ) (lastValue : Option (Nested N S L)) (calls : List (Call N S L)) :
    callsTree q Conn.alone 1 (fuel + 1) lastValue calls = pure (calls.map Call.runNull) ↔
      ∀ c ∈ calls, c.hasZero = false := by
  induction calls generalizing lastValue with
  | nil => exact iff_of_true rfl nofun
  | cons c calls ih =>
    rw [List.forall_mem_cons, ← c.agrees_iff q fuel lastValue, callsTree, List.map_cons]
    constructor
    · intro h
      obtain ⟨⟨r, lastValue'⟩, hcall, h⟩ := Proc.bind_eq_done h
      obtain ⟨rs, hrest, h⟩ := Proc.bind_eq_done h
      cases h
      exact ⟨⟨lastValue', hcall⟩, (ih lastValue').mp hrest⟩
    · rintro ⟨⟨lastValue', hcall⟩, hrest⟩
      rw [hcall, pure_bind, (ih lastValue').mpr hrest]
      rfl

end

/-- A value, and then the end of a loop over unevenly many. -/
def unevenCalls : List (Call ℕ ℕ ℤ) :=
  [.allReduce (some (.leaf 5)) (fun a b => some (a + b)) none,
  .allReduce none (fun a b => some (a + b)) (some fun _ _ => some 0)]

/-- The tree ends with the zeroed value, to which nobody has contributed, where `NullTree`
returns nil and counts one. -/
theorem nullTree_drops_zero :
    callsTree (Qsort.insertion Unit) Conn.alone 1 1 none unevenCalls =
      pure [.reduced (some (.leaf 5)) 1, .reduced (some (.leaf 0)) 0] ∧
    unevenCalls.map Call.runNull = [.reduced (some (.leaf 5)) 1, .reduced none 1] ∧
    callsTree (Qsort.insertion Unit) Conn.alone 1 1 none unevenCalls ≠
      pure (unevenCalls.map Call.runNull) := by
  refine ⟨rfl, rfl, fun h => ?_⟩
  injection h with h
  injection h with _ h
  injection h with h _
  injection h with h _
  cases h

end TorchIpc.Tree
