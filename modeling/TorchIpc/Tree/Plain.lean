import TorchIpc.Tree.Tensors
import TorchIpc.Base.Lifting

/-! Values without tensors. On these the program of `Tensors` does what the one of `AllReduce`
does: it sends the same, receives the same and returns the same, and leaves the tensors of its
node alone. -/

namespace TorchIpc.Tree.InPlace

open Network

/-! ### Walks -/

section
variable {N S L L' : Type}

mutual

/-- The same table with the leaves mapped. -/
def Nested.map (f : L → L') : Nested N S L → Nested N S L'
  | .leaf x => .leaf (f x)
  | .table t => .table (mapEntries f t)

def mapEntries (f : L → L') : List (Key N S × Nested N S L) → List (Key N S × Nested N S L')
  | [] => []
  | e :: t => (e.1, Nested.map f e.2) :: mapEntries f t

end

theorem mapEntries_eq (f : L → L') (t : List (Key N S × Nested N S L)) :
    mapEntries f t = t.map fun e => (e.1, Nested.map f e.2) := by
  induction t with
  | nil => rfl
  | cons e t ih => rw [mapEntries, ih, List.map_cons]

variable [LinearOrder N] [LinearOrder S]

/-- A walk goes through the entries in the order of the keys. -/
theorem walkTable_table {m : Type → Type} [Monad m] [LawfulMonad m] [MonadExceptOf Failure m]
    (f : L → m (Option L)) (t : List (Key N S × Nested N S L)) : walkTable f (.table t) =
      if oneKind t then
        ((t.insertionSort byKey).mapM fun e => do return (e.1, ← walkTable f e.2)) >>= fun t =>
          pure (.table t)
      else throw .compare := by
  have hkind : oneKind (visits f t) = oneKind t := by
    rw [visits_eq]
    simp [oneKind, List.all_map, Function.comp_def]
  rw [walkTable, tableSort, hkind]
  split_ifs
  · simp only [visits_eq, ← map_sort, List.mapM_map]
    rfl
  · rfl

variable {m m' : Type → Type} [Monad m] [LawfulMonad m] [Monad m'] [LawfulMonad m']
  [MonadExceptOf Failure m] [MonadExceptOf Failure m']
  {rel : ∀ {α β : Type}, (α → β) → m α → m' β → Prop}

/-- A walk follows another if it does so at each leaf. -/
theorem lifting_walkTable (hr : Lifting Failure rel) {g : L → L'} {f : L → m (Option L)}
    {f' : L' → m' (Option L')} (hf : ∀ x, rel (Option.map g) (f x) (f' (g x))) (v : Nested N S L) :
    rel (Nested.map g) (walkTable f v) (walkTable f' (Nested.map g v)) := by
  induction v with
  | leaf x =>
    simp only [walkTable, Nested.map]
    apply hr.map (hf x)
    intro o
    cases o <;> rfl
  | table t ih =>
    have hkind : oneKind (mapEntries g t) = oneKind t := by
      rw [mapEntries_eq]
      simp [oneKind, List.all_map, Function.comp_def]
    rw [Nested.map, walkTable_table, walkTable_table, hkind]
    split_ifs
    · rw [mapEntries_eq, ← map_sort, List.mapM_map]
      apply hr.map (g := List.map fun e : Key N S × Nested N S L => (e.1, Nested.map g e.2))
      · apply hr.mapM
        intro e he
        exact hr.map (ih e ((List.mem_insertionSort byKey).mp he)) fun v => rfl
      · intro t'
        rw [Nested.map, mapEntries_eq]
    · exact hr.throw _

end

/-! ### Programs without tensors -/

section
variable {A V F N S ι α β : Type}

/-- A message without a tensor. -/
def plainMsg : Msg A → Msg (Content A V)
  | .leaf x => .leaf (.plain x)
  | .count n => .count n

/-- The same sends, the same receives, and related results. -/
def Mirrors (rel : α → β → Prop) : Prog ι A α → Prog ι (Content A V) β → Prop
  | .done a, .done b => rel a b
  | .fail e, .fail e' => e = e'
  | .send j m k, .send j' m' k' => j = j' ∧ m' = plainMsg m ∧ Mirrors rel k k'
  | .recv j k, .recv j' k' => j = j' ∧ ∀ m, Mirrors rel (k m) (k' (plainMsg m))
  | _, _ => False

/-- The routine does what the program does, and leaves the tensors alone. -/
def Follows (g : α → β) (p : Prog ι A α) (p' : Routine ι A V β) : Prop :=
  ∀ mem, Mirrors (fun a r => r = (g a, mem)) p (p'.run mem)

theorem Mirrors.bind {γ δ : Type} {rel : α → β → Prop} {rel' : γ → δ → Prop} {p : Prog ι A α}
    {p' : Prog ι (Content A V) β} {f : α → Prog ι A γ} {f' : β → Prog ι (Content A V) δ}
    (h : Mirrors rel p p') (hf : ∀ a b, rel a b → Mirrors rel' (f a) (f' b)) :
    Mirrors rel' (p >>= f) (p' >>= f') := by
  change Mirrors rel' (p.bind f) (p'.bind f')
  induction p generalizing p' with
  | done a => cases p' with
    | done b => exact hf a b h
    | _ => exact h.elim
  | fail e => cases p' with
    | fail e' => exact h
    | _ => exact h.elim
  | send j m k ih => cases p' with
    | send j' m' k' => exact ⟨h.1, h.2.1, ih h.2.2⟩
    | _ => exact h.elim
  | recv j k ih => cases p' with
    | recv j' k' => exact ⟨h.1, fun m => ih m (h.2 m)⟩
    | _ => exact h.elim
  | connect j k => exact h.elim
  | accept k => exact h.elim

theorem lifting_follows : Lifting Failure fun {α β : Type} (g : α → β) (p : Prog ι A α)
    (p' : Routine ι A V β) => Follows g p p' where
  ret _ _ := rfl
  bind hp hf mem := (hp mem).bind fun a _ hr => hr ▸ hf a mem
  throw _ _ := rfl

variable [LinearOrder N] [LinearOrder S] {torch : Torch V F} {reduce : A → A → Option A}
  {zero : Option (A → ℕ → Option A)} {q : Qsort ι} {conn : Conn ι} {peer : ι}

/-- A reduce function for numbers, strings and the like. -/
def plainReduce (reduce : A → A → Option A) : Reduce A V
  | .plain a, .plain b, mem => ((reduce a b).map .plain, mem)
  | _, _, mem => (none, mem)

def plainZero (zero : A → ℕ → Option A) : Zero A V
  | .plain a, i, mem => ((zero a i).map .plain, mem)
  | .tensor _, _, mem => (none, mem)

theorem follows_recvInto :
    Follows .plain (recvLeaf peer : Prog ι A A) (recvInto torch peer none) := by
  refine fun mem => ⟨rfl, fun m => ?_⟩
  cases m <;> rfl

theorem follows_recvCount :
    Follows id (recvCount peer : Prog ι A ℕ)
      ((recvCount peer : Prog ι (Content A V) ℕ) : Routine ι A V ℕ) := by
  refine fun mem => ⟨rfl, fun m => ?_⟩
  cases m <;> rfl

theorem follows_put (msg : Msg A) : Follows id (Proc.put peer msg : Prog ι A Unit)
    ((Proc.put peer (plainMsg msg) : Prog ι (Content A V) Unit) : Routine ι A V Unit) :=
  fun _ => ⟨rfl, rfl, rfl⟩

theorem follows_reduceLeaf (x : A) : Follows (Option.map .plain)
    (do return reduce x (← recvLeaf peer) : Prog ι A (Option A))
    (reduceLeaf torch (plainReduce reduce) peer (.plain x)) := by
  refine fun mem => ⟨rfl, fun m => ?_⟩
  cases m <;> rfl

theorem follows_sendLeaf (x : A) : Follows (Option.map .plain)
    (do Proc.put peer (.leaf x); return none : Prog ι A (Option A))
    (sendLeaf peer (.plain x) : Routine ι A V _) :=
  fun _ => ⟨rfl, rfl, rfl⟩

theorem follows_reduceUp (clients : List ι) (v : Nested N S A) (numDone : ℕ) :
    Follows (Prod.map (Nested.map .plain) id) (Tree.reduceUp reduce clients v numDone)
      (reduceUp torch (plainReduce reduce) clients (Nested.map .plain v) numDone : Routine ι A V _) := by
  have hr := lifting_follows (ι := ι) (A := A) (V := V)
  rw [reduceUp, Tree.reduceUp]
  apply hr.foldlM (g := Prod.map (Nested.map Leaf.plain) id) _ clients (v, numDone)
  intro acc client
  apply hr.bind (lifting_walkTable hr _ acc.1)
  · intro v'
    exact hr.map follows_recvCount fun n => rfl
  · exact follows_reduceLeaf

theorem follows_sendTo (v : Nested N S A) (numDone : ℕ) : Follows (Nested.map .plain)
    (Tree.sendTo peer v numDone) (sendTo peer (Nested.map .plain v) numDone : Routine ι A V _) := by
  have hr := lifting_follows (ι := ι) (A := A) (V := V)
  apply hr.bind (lifting_walkTable hr follows_sendLeaf v)
  intro v'
  exact hr.map (follows_put _) fun _ => rfl

theorem follows_sendDown (clients : List ι) (v : Nested N S A) (numDone : ℕ) :
    Follows (Nested.map .plain)
    (Tree.sendDown clients v numDone)
    (sendDown clients (Nested.map .plain v) numDone : Routine ι A V _) :=
  lifting_follows.foldlM (fun v' _ => follows_sendTo v' numDone) clients v

theorem follows_exchange (client : Option ι) (v : Nested N S A) (numDone : ℕ) :
    Follows (Prod.map (Nested.map .plain) id) (Tree.exchange client v numDone)
      (exchange torch client (Nested.map .plain v) numDone : Routine ι A V _) := by
  have hr := lifting_follows (ι := ι) (A := A) (V := V)
  cases client with
  | none => exact hr.ret (v, numDone)
  | some peer =>
    apply hr.bind (follows_sendTo v numDone)
    intro v'
    apply hr.bind (lifting_walkTable hr _ v')
    · intro v''
      exact hr.map follows_recvCount fun n => rfl
    · intro x
      exact hr.map follows_recvInto fun y => rfl

theorem follows_round (v : Nested N S A) (numDone : ℕ) : Follows (Prod.map (Nested.map .plain) id)
    (Tree.round q conn reduce v numDone)
    (round torch q conn (plainReduce reduce) (Nested.map .plain v) numDone : Routine ι A V _) := by
  have hr := lifting_follows (ι := ι) (A := A) (V := V)
  apply hr.bind (follows_reduceUp _ v numDone)
  intro r
  apply hr.bind (follows_exchange _ r.1 r.2)
  intro r
  exact hr.map (follows_sendDown _ r.1 r.2) fun v' => rfl

/-! ### Calls -/

variable [One N]

theorem first_map {L L' : Type} (f : L → L') (v : Nested N S L) :
    first (Nested.map f v) = (first v).map (Nested.map f) := by
  cases v with
  | leaf x => rfl
  | table t =>
    rw [Nested.map, mapEntries_eq, first, first, List.find?_map, Option.map_map, Option.map_map]
    rfl

omit [LinearOrder N] [LinearOrder S] in
theorem wrap_map {L L' : Type} (f : L → L') (v : Option (Nested N S L)) :
    wrap (v.map (Nested.map f)) = Nested.map f (wrap v) := by
  rcases v with _ | (x | t) <;> rfl

omit [LinearOrder N] [LinearOrder S] [One N] in
theorem isTable_map {L L' : Type} (f : L → L') (v : Option (Nested N S L)) :
    isTable (v.map (Nested.map f)) = isTable v := by
  rcases v with _ | (x | t) <;> rfl

theorem follows_restore (isLast : Bool) (lastValue : Option (Nested N S A)) (v : Nested N S A) :
    Follows (Prod.map (Nested.map .plain) id) (Tree.restore isLast lastValue v : Prog ι A _)
      (restore isLast (lastValue.map (Nested.map .plain)) (Nested.map .plain v) : Routine ι A V _) := by
  have hr := lifting_follows (ι := ι) (A := A) (V := V)
  unfold restore Tree.restore
  rw [first_map]
  cases first v with
  | some u => exact hr.ret (v, isLast)
  | none => cases lastValue with
    | some last => exact hr.ret (last, true)
    | none => exact hr.throw _

omit [One N] in
theorem follows_zeroAll (zero : A → ℕ → Option A) (v : Nested N S A) : Follows (Nested.map .plain)
    (Tree.zeroAll zero v : Prog ι A _)
    (zeroAll (plainZero zero) (Nested.map .plain v) : Routine ι A V _) := by
  have hr := lifting_follows (ι := ι) (A := A) (V := V)
  rw [zeroAll, Tree.zeroAll, StateT.run', StateT.run', map_eq_pure_bind, map_eq_pure_bind]
  refine hr.map (lifting_walkTable hr.counted ?_ v 0) fun r => rfl
  intro x n mem
  rfl

theorem follows_prepare (isLast : Bool) (lastValue : Option (Nested N S A)) (v : Nested N S A) :
    Follows (Prod.map (Nested.map .plain) id) (Tree.prepare zero isLast lastValue v : Prog ι A _)
      (prepare (zero.map plainZero) isLast (lastValue.map (Nested.map .plain)) (Nested.map .plain v) :
        Routine ι A V _) := by
  have hr := lifting_follows (ι := ι) (A := A) (V := V)
  cases zero with
  | none => exact hr.ret (v, true)
  | some zero =>
    apply hr.bind (follows_restore isLast lastValue v)
    intro r
    exact hr.map (follows_zeroAll zero r.1) fun v' => rfl

/-- The results with their leaves mapped. -/
def Outcome.map {L L' : Type} (f : L → L') (o : Outcome N S L) : Outcome N S L' where
  value := o.value.map (Nested.map f)
  contributed := o.contributed
  lastValue := o.lastValue.map (Nested.map f)
  rounds := o.rounds

theorem follows_allReduceInner (numNodes fuel : ℕ) (isLast : Bool)
    (lastValue : Option (Nested N S A)) (v : Nested N S A) : Follows (Outcome.map .plain)
      (Tree.allReduceInner q conn numNodes reduce zero fuel isLast lastValue v)
      (allReduceInner torch q conn numNodes (plainReduce reduce) (zero.map plainZero) fuel isLast
        (lastValue.map (Nested.map .plain)) (Nested.map .plain v) : Routine ι A V _) := by
  have hr := lifting_follows (ι := ι) (A := A) (V := V)
  induction fuel generalizing isLast lastValue v with
  | zero => exact hr.throw _
  | succ fuel ih =>
    rw [allReduceInner, Tree.allReduceInner, Option.isSome_map]
    apply hr.bind (follows_prepare isLast lastValue v)
    rintro ⟨v', isLast'⟩
    apply hr.bind (follows_round v' _)
    rintro ⟨v'', numDone⟩
    have hlast : (if isLast' then some (Nested.map .plain v'') else lastValue.map (Nested.map .plain)) =
        (if isLast' then some v'' else lastValue).map (Nested.map (Leaf.plain : A → Leaf A)) := by
      cases isLast' <;> rfl
    simp only [Prod.map_apply, id_eq, hlast]
    by_cases hmore : zero.isSome = true ∧ numDone < numNodes
    · rw [if_pos hmore, if_pos hmore]
      exact hr.map (ih isLast' _ v'') fun o => rfl
    · rw [if_neg hmore, if_neg hmore]
      exact hr.ret (Outcome.mk (some v'') _ _ 1)

/-- A call on values without tensors is the call of `AllReduce`. -/
theorem allReduce_plain (numNodes fuel : ℕ) (lastValue value : Option (Nested N S A)) :
    Follows (Outcome.map .plain)
    (Tree.allReduce q conn numNodes fuel reduce zero lastValue value)
    (allReduce torch q conn numNodes fuel (plainReduce reduce) (zero.map plainZero)
      (lastValue.map (Nested.map .plain)) (value.map (Nested.map .plain)) : Routine ι A V _) := by
  have hr := lifting_follows (ι := ι) (A := A) (V := V)
  rw [allReduce, Tree.allReduce, wrap_map, isTable_map]
  apply hr.map (follows_allReduceInner numNodes fuel false lastValue (wrap value))
  intro o
  cases isTable value with
  | true => rfl
  | false =>
    have hfirst : (o.value.map (Nested.map (Leaf.plain : A → Leaf A))).bind first =
        (o.value.bind first).map (Nested.map .plain) := by
      cases o.value with
      | none => rfl
      | some v => exact first_map _ v
    simp only [Outcome.map, Bool.false_eq_true, if_false, hfirst]

end

end TorchIpc.Tree.InPlace
