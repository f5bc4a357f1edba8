import TorchIpc.Map.Threads

/-! The handle of a map (`map_join` and `map_check_errors` of `map.c`). Both join threads
and destroy their buffers; the first looks at the buffer and the second at `ret` to find
the threads that are still there. Proved here: as long as `checkErrors` does not come upon
a thread that it has reported before, and the buffers can be read on the stack there is,
every thread is joined and its buffer destroyed once, and `join` returns the results of the
threads that were not reported. -/

namespace TorchIpc.Map

open Runs

inductive BufferPtr where
  | live (rb : Ringbuffer)
  | null
  | destroyed

/-- A thread that has ended, as the main thread sees it. To join it twice, or to use a
buffer that is not there, is undefined. -/
structure MapThread where
  ret : ℤ
  rb : BufferPtr
  joined : Bool

/-- How a call on the handle ends, and the threads it leaves: it returns values; it raises
an error with the text that `lua_tostring` gave; with what it gave for an index that is
none; or `rb_load` raises an error in the middle. -/
inductive HandleOutcome (P : Type) where
  | returns (values : List (Value P)) (threads : List MapThread)
  | error (text : Option (List UInt8)) (threads : List MapThread)
  | badIndex (threads : List MapThread)
  | raised (threads : List MapThread)
  | undefined
  | timeout

section
variable {P : Type} (lua : Lua P) (numberText : Value P → List UInt8)

def luaTostring : Value P → Option (List UInt8)
  | .string str => some (cstr str)
  | .number bits => some (numberText (.number bits))
  | .integer n => some (numberText (.integer n))
  | _ => none

/-- The end of `map_join`: the error of the last failed thread, whose values begin at
`errRc`, or all values. -/
def joinEnd (rc : ℕ) (errRc : Option ℕ) (stack : List (Value P)) : HandleOutcome P :=
  match errRc with
  | none => .returns (stack.take rc).reverse []
  | some errRc =>
    if rc ≤ errRc then .badIndex []
    else
      match stack[rc - errRc - 1]? with
      | some v => .error (luaTostring numberText v) []
      | none => .badIndex []

/-- The loop of `map_join`, with the threads before and those to come. -/
def joinLoop (fuel : ℕ) :
    (before threads : List MapThread) → (rc : ℕ) → (errRc : Option ℕ) → List (Value P) →
    HandleOutcome P
  | _, [], rc, errRc, stack => joinEnd numberText rc errRc stack
  | before, t :: threads, rc, errRc, stack =>
    match t.rb with
    | .null => joinLoop fuel (before ++ [t]) threads rc errRc stack
    | .destroyed => .undefined
    | .live rb =>
      if t.joined then .undefined
      else
        match drainLoop lua false fuel rc rb stack with
        | .loaded rc' _ stack' =>
          joinLoop fuel (before ++ [⟨t.ret, .destroyed, true⟩]) threads rc'
            (if t.ret ≠ 0 then some rc else errRc) stack'
        | .rejected => .undefined
        | .raised => .raised (before ++ ⟨t.ret, .live rb, true⟩ :: threads)
        | .undefined => .undefined
        | .timeout => .timeout

def mapJoin (threads : List MapThread) (stack : List (Value P)) (fuel : ℕ) : HandleOutcome P :=
  joinLoop lua numberText fuel [] threads 0 none stack

/-- The loop of `map_check_errors`. It may read the `ret` of a thread before the thread has
set it: `seen` tells for which threads it does not. -/
def checkLoop (seen : ℕ → Bool) (stack : List (Value P)) (fuel : ℕ) :
    (before threads : List MapThread) → HandleOutcome P
  | before, [] => .returns [] before
  | before, t :: threads =>
    if t.ret ≠ 0 ∧ seen before.length then
      if t.joined then .undefined
      else
        match t.rb with
        | .live rb =>
          match drainLoop lua false fuel 0 rb stack with
          | .loaded _ _ (v :: _) =>
              .error (luaTostring numberText v) (before ++ ⟨t.ret, .null, true⟩ :: threads)
          | .loaded _ _ [] => .badIndex (before ++ ⟨t.ret, .null, true⟩ :: threads)
          | .rejected => .undefined
          | .raised => .raised (before ++ ⟨t.ret, .live rb, true⟩ :: threads)
          | .undefined => .undefined
          | .timeout => .timeout
        | _ => .undefined
    else checkLoop seen stack fuel (before ++ [t]) threads

def mapCheckErrors (seen : ℕ → Bool) (threads : List MapThread) (stack : List (Value P)) (fuel : ℕ) :
    HandleOutcome P :=
  checkLoop lua numberText seen stack fuel [] threads

inductive HandleCall where
  | checkErrors (seen : ℕ → Bool)
  | join

def HandleCall.run (stack : List (Value P)) (threads : List MapThread) : HandleCall → ℕ →
    HandleOutcome P
  | .checkErrors seen => mapCheckErrors lua numberText seen threads stack
  | .join => mapJoin lua numberText threads stack

def HandleOutcome.threads : HandleOutcome P → Option (List MapThread)
  | .returns _ threads => some threads
  | .error _ threads => some threads
  | .badIndex threads => some threads
  | .raised threads => some threads
  | .undefined => none
  | .timeout => none

/-- A call, with whatever lies below its arguments. What a joined thread has set is seen. -/
def HandleStep (threads : List MapThread) (call : HandleCall × List (Value P)) (threads' : List MapThread) :
    Prop :=
  (∀ seen, call.1 = .checkErrors seen → ∀ i t, threads[i]? = some t → t.joined = true → seen i = true) ∧
    ∃ o, Yields (call.1.run lua numberText call.2 threads) o ∧ o.threads = some threads'

end

/-! ### The threads of a handle -/

section
variable {P : Type}

/-- A thread whose outcome nobody has looked at. One that did not fail left its results. -/
def MapThread.Ended (lua : Lua P) (t : MapThread) : Prop :=
  t.joined = false ∧ ∃ rb, t.rb = .live rb ∧ (t.ret = 0 → ∃ vs, Carries lua rb vs)

/-- The thread after `checkErrors` has reported it. -/
def MapThread.reported (t : MapThread) : MapThread := ⟨t.ret, .null, true⟩

def MapThread.Reported (t : MapThread) : Prop := t.joined = true ∧ t.rb = .null ∧ t.ret ≠ 0

/-- The buffer can be read on this stack: nothing is raised, and there are slots for what is in
it. -/
def Readable (lua : Lua P) (rb : Ringbuffer) (stack stack' : List (Value P)) : Prop :=
  ∀ count, ∃ n rb', Yields (fun fuel => drainLoop lua false fuel count rb stack) (.loaded n rb' stack')

/-- The buffers that are there can be read one after the other. -/
inductive ReadableAll (lua : Lua P) : List MapThread → List (Value P) → Prop where
  | nil {stack} : ReadableAll lua [] stack
  | gone {t ts stack} : t.rb = .null → ReadableAll lua ts stack → ReadableAll lua (t :: ts) stack
  | live {t ts rb stack stack'} : t.rb = .live rb → Readable lua rb stack stack' →
      ReadableAll lua ts stack' →
      ReadableAll lua (t :: ts) stack

/-- The first failed thread that `checkErrors` sees. -/
def FirstSeen (seen : ℕ → Bool) (threads : List MapThread) (i : ℕ) (t : MapThread) : Prop :=
  threads[i]? = some t ∧ t.ret ≠ 0 ∧ seen i = true ∧
    ∀ j < i, ∀ u, threads[j]? = some u → u.ret ≠ 0 → seen j = false

/-- `checkErrors` comes upon a thread that has not been reported, and what a call reads can be
read. -/
def HandleCareful (lua : Lua P) (threads : List MapThread) (stack : List (Value P)) : HandleCall →
    Prop
  | .checkErrors seen => ∀ i t, FirstSeen seen threads i t →
      t.joined = false ∧ ∀ rb, t.rb = .live rb → ∃ stack', Readable lua rb stack stack'
  | .join => ReadableAll lua threads stack

/-- The results of the threads that have not been reported, none of which has failed. -/
inductive Results (lua : Lua P) : List MapThread → List (Value P) → Prop where
  | nil : Results lua [] []
  | reported {t ts vs} : t.rb = .null → Results lua ts vs → Results lua (t :: ts) vs
  | finished {t ts us vs rb} : t.rb = .live rb → t.joined = false → t.ret = 0 → Carries lua rb us →
      Results lua ts vs → Results lua (t :: ts) (us.map Value.received ++ vs)

variable {lua : Lua P} {numberText : Value P → List UInt8}

theorem Carries.readable (hl : lua.Rebuilds) {rb : Ringbuffer} {vs : List (Value P)} (h : Carries lua rb vs)
    {stack : List (Value P)} (hfit : FitsOn lua stack.length vs) :
    Readable lua rb stack ((vs.map Value.received).reverse ++ stack) := by
  intro count
  obtain ⟨rb', -, -, hy⟩ := h.drain hl false count hfit
  exact ⟨_, rb', hy⟩

/-! ### What threads leave -/

/-- The buffer has complete values only. -/
structure Left (lua : Lua P) (rb : Ringbuffer) (vs : List (Value P)) : Prop where
  sound : rb.Sound
  loads : LoadsAll lua rb.content vs

theorem Carries.left (hl : lua.Rebuilds) {rb : Ringbuffer} {vs : List (Value P)} (h : Carries lua rb vs) :
    Left lua rb (vs.map Value.received) :=
      ⟨Or.inl h.valid, h.content_eq ▸ loadsAll_encode hl h.wf h.ok⟩

/-- A buffer without a capacity has nothing in it. -/
theorem Left.cases {rb : Ringbuffer} {vs : List (Value P)} (h : Left lua rb vs) :
    Holds rb rb.content ∨ rb = ringbufferCreate 0 ∧ vs = [] := by
  rcases h.sound with hv | hzero
  · exact Or.inl ⟨hv, rfl⟩
  · have hloads := h.loads
    rw [hzero, Ringbuffer.create_content] at hloads
    cases vs with
    | nil => exact Or.inr ⟨hzero, rfl⟩
    | cons v vs => exact absurd rfl hloads.ne_nil

theorem Left.drain {rb : Ringbuffer} {vs : List (Value P)} (h : Left lua rb vs) (checked : Bool)
    (count : ℕ) {stack : List (Value P)} (hfit : FitsOn lua stack.length vs) :
    ∃ rb', Yields (fun fuel => drainLoop lua checked fuel count rb stack)
      (.loaded (count + vs.length) rb' (vs.reverse ++ stack)) := by
  rcases h.cases with hrb | ⟨rfl, rfl⟩
  · obtain ⟨rb', n, h', -, hn⟩ :=
      h.loads.drain checked [] ((List.append_nil rb.content).symm ▸ hrb) count hfit
    refine ⟨rb', n + 1 + vs.length, fun fuel hf => ?_⟩
    obtain ⟨fuel, rfl⟩ : ∃ k, fuel = k + 1 + vs.length := ⟨fuel - 1 - vs.length, by omega⟩
    simp only [hn (fuel + 1) (by omega), drainLoop, if_pos (peek_eq_zero h')]
  · refine ⟨ringbufferCreate 0, 1, fun fuel hf => ?_⟩
    obtain ⟨fuel, rfl⟩ : ∃ k, fuel = k + 1 := ⟨fuel - 1, by omega⟩
    rfl

/-- A value for which there is no slot is never loaded. -/
theorem Left.drain_full {rb : Ringbuffer} {us : List (Value P)} {v : Value P} {ws : List (Value P)}
    (h : Left lua rb (us ++ v :: ws)) (count : ℕ) {stack : List (Value P)} (hfit : FitsOn lua stack.length us)
    (hfull : lua.stackRoom ≤ stack.length + us.length) :
    Yields (fun fuel => drainLoop lua false fuel count rb stack) .timeout := by
  rcases h.cases with hrb | ⟨-, hnil⟩
  · obtain ⟨bs₁, bs₂, hbs, h₁, h₂⟩ := h.loads.split
    obtain ⟨rb', n, h', -, hn⟩ := h₁.drain false bs₂ (hbs ▸ hrb) count hfit
    refine ⟨n + us.length, fun fuel hf => ?_⟩
    obtain ⟨fuel, rfl⟩ : ∃ k, fuel = k + us.length := ⟨fuel - us.length, by omega⟩
    simp only [hn fuel (by omega)]
    refine drainLoop_full (peek_ne_zero h' h₂.ne_nil) ?_ fuel _
    rw [List.length_append, List.length_reverse]
    omega
  · exact absurd hnil (List.append_ne_nil_of_right_ne_nil us (List.cons_ne_nil v ws))

/-- A thread that has stopped, with what it left. -/
def HasLeft (lua : Lua P) (t : MapThread) (vs : List (Value P)) : Prop :=
  t.joined = false ∧ ∃ rb, t.rb = .live rb ∧ Left lua rb vs

/-- The loop puts all values on the stack, and remembers where a failed thread begins. -/
theorem joinLoop_left (numberText : Value P → List UInt8) {ts : List MapThread} {vss : List (List (Value P))}
    (h : List.Forall₂ (HasLeft lua) ts vss) (rest before : List MapThread) (rc : ℕ) (errRc : Option ℕ)
    {stack : List (Value P)} (hfit : FitsOn lua stack.length vss.flatten) :
    ∃ before' errRc' n, (∀ fuel ≥ n, joinLoop lua numberText fuel before (ts ++ rest) rc errRc stack =
      joinLoop lua numberText fuel before' rest (rc + vss.flatten.length) errRc' (vss.flatten.reverse ++ stack)) ∧
      ((∀ t ∈ ts, t.ret = 0) → errRc' = errRc) := by
  induction h generalizing before rc errRc stack with
  | nil => exact ⟨before, errRc, 0, fun fuel _ => rfl, fun _ => rfl⟩
  | @cons t vs ts vss ht _ ih =>
    obtain ⟨hjoined, rb, hlive, hleft⟩ := ht
    obtain ⟨hvs, hrest⟩ := fitsOn_append.mp hfit
    obtain ⟨rb', n, hn⟩ := hleft.drain false rc hvs
    obtain ⟨before', errRc', m, hm, herr⟩ :=
      @ih (before ++ [⟨t.ret, .destroyed, true⟩]) (rc + vs.length)
      (if t.ret ≠ 0 then some rc else errRc) (vs.reverse ++ stack)
      (by rwa [List.length_append, List.length_reverse, Nat.add_comm])
    refine ⟨before', errRc', max n m, fun fuel hf => ?_, fun hret => ?_⟩
    · have hdrain : drainLoop lua false fuel rc rb stack = .loaded (rc + vs.length) rb' (vs.reverse ++ stack) :=
        hn fuel (by omega)
      rw [List.cons_append]
      simp only [joinLoop, hlive, hjoined, Bool.false_eq_true, if_false, hdrain]
      rw [hm fuel (by omega), List.flatten_cons, List.length_append, List.reverse_append, List.append_assoc,
        Nat.add_assoc]
    · obtain ⟨hzero, hzeros⟩ := List.forall_mem_cons.mp hret
      rw [herr hzeros, if_neg (not_not.mpr hzero)]

/-- If there is no slot for a value, `join` does not return. -/
theorem joinLoop_full (numberText : Value P → List UInt8) {ts : List MapThread} {vss : List (List (Value P))}
    (h : List.Forall₂ (HasLeft lua) ts vss) (before : List MapThread) (rc : ℕ) (errRc : Option ℕ)
    {stack us : List (Value P)} {v : Value P} {ws : List (Value P)} (hvs : vss.flatten = us ++ v :: ws)
    (hfit : FitsOn lua stack.length us) (hfull : lua.stackRoom ≤ stack.length + us.length) :
    Yields (fun fuel => joinLoop lua numberText fuel before ts rc errRc stack) .timeout := by
  induction h generalizing before rc errRc stack us with
  | nil => exact absurd hvs.symm (List.append_ne_nil_of_right_ne_nil us (List.cons_ne_nil v ws))
  | @cons t vs ts vss ht _ ih =>
    obtain ⟨hjoined, rb, hlive, hleft⟩ := ht
    have hbehind : ∀ us', us = vs ++ us' → vss.flatten = us' ++ v :: ws →
        Yields (fun fuel => joinLoop lua numberText fuel before (t :: ts) rc errRc stack) .timeout := by
      rintro us' rfl hflat
      obtain ⟨hfitvs, hfitus⟩ := fitsOn_append.mp hfit
      rw [List.length_append] at hfull
      obtain ⟨rb', n, hn⟩ := hleft.drain false rc hfitvs
      have hheight : (vs.reverse ++ stack).length = stack.length + vs.length := by
        rw [List.length_append, List.length_reverse, Nat.add_comm]
      obtain ⟨m, hm⟩ := @ih (before ++ [⟨t.ret, .destroyed, true⟩]) (rc + vs.length)
        (if t.ret ≠ 0 then some rc else errRc) (vs.reverse ++ stack) us' hflat (by rwa [hheight])
        (by omega)
      refine ⟨max n m, fun fuel hf => ?_⟩
      have hdrain : drainLoop lua false fuel rc rb stack = .loaded (rc + vs.length) rb' (vs.reverse ++ stack) :=
        hn fuel (by omega)
      simp only [joinLoop, hlive, hjoined, Bool.false_eq_true, if_false, hdrain]
      exact hm fuel (by omega)
    rw [List.flatten_cons] at hvs
    rcases List.append_eq_append_iff.mp hvs with ⟨us', hus, hflat⟩ | ⟨cs, hcs, hflat⟩
    · exact hbehind us' hus hflat
    cases cs with
    | nil => exact hbehind [] (by rw [hcs, List.append_nil, List.append_nil]) hflat.symm
    | cons c cs =>
      obtain ⟨n, hn⟩ := Left.drain_full (hcs ▸ hleft) rc hfit hfull
      refine ⟨n, fun fuel hf => ?_⟩
      have hdrain : drainLoop lua false fuel rc rb stack = .timeout := hn fuel hf
      simp only [joinLoop, hlive, hjoined, Bool.false_eq_true, if_false, hdrain]

/-! ### join -/

/-- All results come back, in the order of the threads, if they fit. -/
theorem Results.join (hl : lua.Rebuilds) (numberText : Value P → List UInt8)
    {threads : List MapThread} {vs : List (Value P)} (h : Results lua threads vs)
    (before : List MapThread) {rc : ℕ} {stack : List (Value P)} (hrc : rc ≤ stack.length)
    (hfit : FitsOn lua stack.length vs) :
    Yields (fun fuel => joinLoop lua numberText fuel before threads rc none stack)
      (.returns ((stack.take rc).reverse ++ vs) []) := by
  induction h generalizing before rc stack with
  | nil =>
    refine ⟨0, fun fuel _ => ?_⟩
    simp only [joinLoop, joinEnd, List.append_nil]
  | @reported t ts vs hnull _ ih =>
    obtain ⟨n, hn⟩ := ih (before ++ [t]) hrc hfit
    refine ⟨n, fun fuel hf => ?_⟩
    simp only [joinLoop, hnull]
    exact hn fuel hf
  | @finished t ts us vs rb hlive hjoined hret hcarries _ ih =>
    obtain ⟨hus, hvs⟩ := fitsOn_append.mp hfit
    rw [fitsOn_received] at hus
    rw [List.length_map] at hvs
    obtain ⟨rb', -, -, n, hn⟩ := hcarries.drain hl false rc hus
    have hheight : ((us.map Value.received).reverse ++ stack).length =
        stack.length + us.length := by
      rw [List.length_append, List.length_reverse, List.length_map, Nat.add_comm]
    obtain ⟨m, hm⟩ := @ih (before ++ [⟨0, .destroyed, true⟩]) (rc + us.length)
      ((us.map Value.received).reverse ++ stack) (by omega) (by rwa [hheight])
    refine ⟨max n m, fun fuel hf => ?_⟩
    have hdrain : drainLoop lua false fuel rc rb stack =
        .loaded (rc + us.length) rb' ((us.map Value.received).reverse ++ stack) :=
          hn fuel (by omega)
    have htake : ((us.map Value.received).reverse ++ stack).take (rc + us.length) =
        (us.map Value.received).reverse ++ stack.take rc := by
      have hus : (us.map Value.received).reverse.length = us.length := by
        rw [List.length_reverse, List.length_map]
      rw [Nat.add_comm, ← hus, List.take_length_add_append]
    have hrest := hm fuel (by omega)
    rw [htake, List.reverse_append, List.reverse_reverse, List.append_assoc] at hrest
    simp only [joinLoop, hlive, hjoined, Bool.false_eq_true, if_false, hdrain, hret, ne_eq, not_true_eq_false]
    exact hrest

/-- A value of the stack below is among those that are returned. -/
def HandleOutcome.Spoilt (base : List (Value P)) : HandleOutcome P → Prop
  | .returns values _ => ∃ v ∈ values, v ∈ base
  | _ => True

/-- Where values are missing, those below are returned in place of them. -/
theorem joinLoop_lacks {base : List (Value P)} (hbase : Inert base) (hne : base ≠ []) (fuel : ℕ)
    (before threads : List MapThread) {rc : ℕ} (errRc : Option ℕ) {xs : List (Value P)} (hlt : xs.length < rc) :
    (joinLoop lua numberText fuel before threads rc errRc (xs ++ base)).Spoilt base := by
  induction threads generalizing before rc errRc xs with
  | nil =>
    cases errRc with
    | none =>
      obtain ⟨b, base, rfl⟩ := List.exists_cons_of_ne_nil hne
      refine ⟨b, List.mem_reverse.mpr ?_, List.mem_cons_self⟩
      obtain ⟨k, rfl⟩ : ∃ k, rc = xs.length + (k + 1) := ⟨rc - xs.length - 1, by omega⟩
      rw [List.take_length_add_append, List.take_succ_cons]
      exact List.mem_append_right _ List.mem_cons_self
    | some errRc =>
      simp only [joinLoop, joinEnd]
      split_ifs
      · trivial
      · split <;> trivial
  | cons t threads ih =>
    rw [joinLoop]
    split
    · exact ih _ _ hlt
    · trivial
    · rename_i rb _
      split
      · trivial
      have hdrain := @drainLoop_lacks P lua base hbase false fuel rc rb xs hlt
      generalize drainLoop lua false fuel rc rb (xs ++ base) = o at hdrain
      cases o with
      | loaded count rb' stack =>
        obtain ⟨ys, rfl, hys⟩ := hdrain
        exact ih _ _ hys
      | _ => trivial

/-- If a result does not fit, what is returned has a value in it that was there before. -/
theorem Results.join_lacks (hl : lua.Rebuilds) (numberText : Value P → List UInt8) {threads : List MapThread}
    {vs : List (Value P)} (h : Results lua threads vs) {base : List (Value P)} (hbase : Inert base)
    (hne : base ≠ []) (before : List MapThread) {xs : List (Value P)} (hno : ¬ FitsOn lua (xs ++ base).length vs) :
    ∃ n, ∀ fuel ≥ n, (joinLoop lua numberText fuel before threads xs.length none (xs ++ base)).Spoilt base := by
  induction h generalizing before xs with
  | nil => exact absurd trivial hno
  | @reported t ts vs hnull _ ih =>
    obtain ⟨n, hn⟩ := ih (before ++ [t]) hno
    refine ⟨n, fun fuel hf => ?_⟩
    simp only [joinLoop, hnull]
    exact hn fuel hf
  | @finished t ts us vs rb hlive hjoined hret hcarries _ ih =>
    by_cases hus : FitsOn lua (xs ++ base).length us
    · obtain ⟨rb', -, -, n, hn⟩ := hcarries.drain hl false xs.length hus
      have hvs : ¬ FitsOn lua (((us.map Value.received).reverse ++ xs) ++ base).length vs := by
        refine fun hvs => hno (fitsOn_append.mpr ⟨fitsOn_received.mpr hus, ?_⟩)
        rwa [List.append_assoc, List.length_append, List.length_reverse, Nat.add_comm] at hvs
      obtain ⟨m, hm⟩ := ih (before ++ [⟨0, .destroyed, true⟩]) hvs
      refine ⟨max n m, fun fuel hf => ?_⟩
      have hdrain : drainLoop lua false fuel xs.length rb (xs ++ base) =
          .loaded (xs.length + us.length) rb' ((us.map Value.received).reverse ++ (xs ++ base)) :=
            hn fuel (by omega)
      have hrest := hm fuel (by omega)
      rw [List.length_append, List.length_reverse, List.length_map, Nat.add_comm, List.append_assoc] at hrest
      simp only [joinLoop, hlive, hjoined, Bool.false_eq_true, if_false, hdrain, hret, ne_eq, not_true_eq_false]
      exact hrest
    · obtain ⟨n, hn⟩ := hcarries.drain_lacks hl hbase le_rfl hus
      refine ⟨n, fun fuel hf => ?_⟩
      have hdrain := hn fuel hf
      simp only [joinLoop, hlive, hjoined, Bool.false_eq_true, if_false]
      generalize drainLoop lua false fuel xs.length rb (xs ++ base) = o at hdrain
      cases o with
      | loaded count rb' stack =>
        obtain ⟨ys, rfl, hys⟩ := hdrain
        exact joinLoop_lacks hbase hne fuel _ _ _ hys
      | _ => trivial

theorem joinEnd_threads (rc : ℕ) (errRc : Option ℕ) (stack : List (Value P)) :
    (joinEnd numberText rc errRc stack).threads = some [] := by
  cases errRc with
  | none => rfl
  | some errRc =>
    simp only [joinEnd]
    split_ifs
    · rfl
    · split <;> rfl

/-- Every thread that is there is joined, and its buffer destroyed, once. -/
theorem joinLoop_ends (numberText : Value P → List UInt8) {threads : List MapThread}
    (hts : ∀ t ∈ threads, t.Ended lua ∨ t.Reported) {stack : List (Value P)} (hread : ReadableAll lua threads stack)
    (before : List MapThread) (rc : ℕ) (errRc : Option ℕ) :
    ∃ o, Yields (fun fuel => joinLoop lua numberText fuel before threads rc errRc stack) o ∧
      o.threads = some [] := by
  induction hread generalizing before rc errRc with
  | nil => exact ⟨_, ⟨0, fun fuel _ => rfl⟩, joinEnd_threads rc errRc _⟩
  | @gone t ts stack hnull _ ih =>
    obtain ⟨o, ⟨k, hk⟩, ho⟩ := ih (List.forall_mem_cons.mp hts).2 (before ++ [t]) rc errRc
    refine ⟨o, ⟨k, fun fuel hf => ?_⟩, ho⟩
    simp only [joinLoop, hnull]
    exact hk fuel hf
  | @live t ts rb stack stack' hlive hreadable _ ih =>
    obtain ⟨ht, hrest⟩ := List.forall_mem_cons.mp hts
    -- the buffer of a thread that was reported is gone
    have hjoined : t.joined = false := by
      rcases ht with ⟨hjoined, -⟩ | ⟨-, hnull, -⟩
      · exact hjoined
      · rw [hlive] at hnull
        cases hnull
    obtain ⟨n, rb', m, hm⟩ := hreadable rc
    obtain ⟨o, ⟨k, hk⟩, ho⟩ :=
      ih hrest (before ++ [⟨t.ret, .destroyed, true⟩]) n (if t.ret ≠ 0 then some rc else errRc)
    refine ⟨o, ⟨max m k, fun fuel hf => ?_⟩, ho⟩
    have hdrain : drainLoop lua false fuel rc rb stack = .loaded n rb' stack' := hm fuel (by omega)
    simp only [joinLoop, hlive, hjoined, Bool.false_eq_true, if_false, hdrain]
    exact hk fuel (by omega)

/-! ### checkErrors -/

/-- The loop goes on to the first failed thread that it sees. -/
theorem checkLoop_skip (seen : ℕ → Bool) (stack : List (Value P)) (fuel : ℕ) (before xs ys : List MapThread)
    (hxs : ∀ k u, xs[k]? = some u → u.ret ≠ 0 → seen (before.length + k) = false) :
    checkLoop lua numberText seen stack fuel before (xs ++ ys) =
      checkLoop lua numberText seen stack fuel (before ++ xs) ys := by
  induction xs generalizing before with
  | nil => rw [List.nil_append, List.append_nil]
  | cons t xs ih =>
    have ht : ¬ (t.ret ≠ 0 ∧ seen before.length = true) := by
      rintro ⟨hret, hseen⟩
      have hfalse := hxs 0 t rfl hret
      rw [Nat.add_zero, hseen] at hfalse
      cases hfalse
    rw [List.cons_append, checkLoop, if_neg ht, ih]
    · rw [List.append_assoc, List.singleton_append]
    · intro k u hu hret
      have hnext := hxs (k + 1) u hu hret
      rw [List.length_append, List.length_singleton]
      rwa [Nat.add_assoc, Nat.add_comm 1 k]

theorem firstSeen_or (seen : ℕ → Bool) (threads : List MapThread) :
    (∀ k u, threads[k]? = some u → u.ret ≠ 0 → seen k = false) ∨
    ∃ i t, FirstSeen seen threads i t := by
  by_cases h : ∃ i t, threads[i]? = some t ∧ t.ret ≠ 0 ∧ seen i = true
  · right
    classical
    obtain ⟨t, ht, hret, hseen⟩ := Nat.find_spec h
    refine ⟨Nat.find h, t, ht, hret, hseen, fun j hj u hu huret => ?_⟩
    by_contra hne
    exact Nat.find_min h hj ⟨u, hu, huret, (Bool.not_eq_false _).mp hne⟩
  · left
    intro k u hu hret
    by_contra hne
    exact h ⟨k, u, hu, hret, (Bool.not_eq_false _).mp hne⟩

/-- A call of `checkErrors` returns, or it reports a thread that was not reported. -/
theorem check_cases (numberText : Value P → List UInt8) {seen : ℕ → Bool} {threads : List MapThread}
    (hts : ∀ t ∈ threads, t.Ended lua ∨ t.Reported) {stack : List (Value P)}
    (hcareful : HandleCareful lua threads stack (.checkErrors seen)) :
    ∃ o, Yields (mapCheckErrors lua numberText seen threads stack) o ∧
      (o = .returns [] threads ∨ ∃ i t, threads[i]? = some t ∧ t.Ended lua ∧ t.ret ≠ 0 ∧ seen i = true ∧
        o.threads = some (threads.set i t.reported)) := by
  rcases firstSeen_or seen threads with hnone | ⟨i, t, ht, hret, hseen, hfirst⟩
  · refine ⟨_, ⟨0, fun fuel _ => ?_⟩, Or.inl rfl⟩
    have hskip := @checkLoop_skip P lua numberText seen stack fuel [] threads [] (fun k u hu hur => by
      rw [List.length_nil, Nat.zero_add]
      exact hnone k u hu hur)
    rw [List.append_nil] at hskip
    exact hskip
  · obtain ⟨hjoined, hreadable⟩ := hcareful i t ⟨ht, hret, hseen, hfirst⟩
    have hended : t.Ended lua := (hts t (List.mem_of_getElem? ht)).resolve_right fun hr =>
      Bool.noConfusion (hjoined.symm.trans hr.1)
    obtain ⟨-, rb, hlive, -⟩ := hended
    obtain ⟨stack', hread⟩ := hreadable rb hlive
    obtain ⟨n, rb', m, hm⟩ := hread 0
    obtain ⟨hlt, hget⟩ := List.getElem?_eq_some_iff.mp ht
    have hsplit : threads = threads.take i ++ t :: threads.drop (i + 1) := by
      rw [← hget, List.cons_getElem_drop_succ, List.take_append_drop]
    have hset : threads.set i t.reported = threads.take i ++ t.reported :: threads.drop (i + 1) :=
      List.set_eq_take_append_cons_drop.trans (if_pos hlt)
    have hlen : (threads.take i).length = i := List.length_take_of_le hlt.le
    have hcheck : ∀ fuel ≥ m, mapCheckErrors lua numberText seen threads stack fuel =
        match stack' with
        | v :: _ => .error (luaTostring numberText v) (threads.set i t.reported)
        | [] => .badIndex (threads.set i t.reported) := by
      intro fuel hf
      have hdrain : drainLoop lua false fuel 0 rb stack = .loaded n rb' stack' := hm fuel hf
      rw [mapCheckErrors]
      nth_rewrite 1 [hsplit]
      rw [checkLoop_skip seen stack fuel [] (threads.take i) _ (fun k u hu hur => by
        rw [List.length_nil, Nat.zero_add]
        obtain ⟨hk, -⟩ := List.getElem?_eq_some_iff.mp hu
        rw [hlen] at hk
        rw [List.getElem?_take_of_lt hk] at hu
        exact hfirst k hk u hu hur)]
      rw [List.nil_append, checkLoop, hlen, if_pos ⟨hret, hseen⟩, hlive]
      simp only [hjoined, Bool.false_eq_true, if_false, hdrain]
      rw [hset]
      cases stack' <;> rfl
    refine ⟨_, ⟨m, hcheck⟩, Or.inr ⟨i, t, ht, ⟨hjoined, rb, hlive, fun h => absurd h hret⟩, hret, hseen, ?_⟩⟩
    cases stack' <;> rfl

/-! ### Whole runs -/

/-- Every thread is as it was, or it has failed and been reported; or all are gone. -/
structure HandleInv (lua : Lua P) (start threads : List MapThread) : Prop where
  each : ∀ t ∈ threads, t.Ended lua ∨ t.Reported
  kept : threads = [] ∨ List.Forall₂ (fun t₀ t => t = t₀ ∨ t₀.ret ≠ 0 ∧ t = t₀.reported) start threads

theorem HandleInv.start {start : List MapThread} (h : ∀ t ∈ start, t.Ended lua) :
    HandleInv lua start start :=
  ⟨fun t ht => Or.inl (h t ht), Or.inr (List.forall₂_same.mpr fun _ _ => Or.inl rfl)⟩

theorem HandleInv.report {start threads : List MapThread} (h : HandleInv lua start threads) {i : ℕ}
    {t : MapThread} (ht : threads[i]? = some t) (hended : t.Ended lua) (hret : t.ret ≠ 0) :
    HandleInv lua start (threads.set i t.reported) where
  each u hu := by
    rcases List.mem_or_eq_of_mem_set hu with hu | rfl
    · exact h.each u hu
    · exact Or.inr ⟨rfl, rfl, hret⟩
  kept := by
    rcases h.kept with rfl | hkept
    · exact Or.inl rfl
    · right
      rw [List.forall₂_iff_get] at hkept ⊢
      obtain ⟨hlen, hkept⟩ := hkept
      refine ⟨by rw [List.length_set, hlen], fun j hj hj' => ?_⟩
      rw [List.length_set] at hj'
      have hold := hkept j hj hj'
      simp only [List.get_eq_getElem, List.getElem_set] at hold ⊢
      split_ifs with hij
      · subst hij
        obtain ⟨_, hget⟩ := List.getElem?_eq_some_iff.mp ht
        rw [hget] at hold
        rcases hold with hsame | ⟨-, hreported⟩
        · rw [← hsame]
          exact Or.inr ⟨hret, rfl⟩
        -- a thread that was reported is not as it ended
        · rw [hreported] at hended
          exact absurd hended.1 Bool.noConfusion
      · exact hold

theorem HandleInv.step {start threads threads' : List MapThread}
    (h : HandleInv lua start threads) {call : HandleCall × List (Value P)}
    (hcareful : HandleCareful lua threads call.2 call.1) (hstep : HandleStep lua numberText threads call threads') :
    HandleInv lua start threads' := by
  obtain ⟨call, stack⟩ := call
  obtain ⟨-, o, hy, ho⟩ := hstep
  cases call with
  | checkErrors seen =>
    obtain ⟨o', hy', hcases⟩ := check_cases numberText h.each hcareful
    obtain rfl := hy.unique hy'
    rcases hcases with rfl | ⟨i, t, ht, hended, hret, -, hthreads⟩
    · cases ho
      exact h
    · rw [hthreads] at ho
      cases ho
      exact h.report ht hended hret
  | join =>
    obtain ⟨o', hy', hthreads⟩ := joinLoop_ends numberText h.each hcareful [] 0 none
    obtain rfl := hy.unique hy'
    rw [hthreads] at ho
    cases ho
    exact ⟨nofun, Or.inl rfl⟩

/-- In every run of careful calls: a thread is as it ended, or it was reported once; every
careful call is defined, so no thread is joined twice and no buffer used after it was
destroyed; `checkErrors` returns, or it reports a thread it has not reported before; and
`join` returns the results of the threads not reported, if they fit on the stack. -/
theorem map_handle_consumed_once (hl : lua.Rebuilds) (numberText : Value P → List UInt8)
    {start threads : List MapThread} {calls : List (HandleCall × List (Value P))}
    (hstart : ∀ t ∈ start, t.Ended lua)
    (hrun : Run (fun ts call ts' => HandleCareful lua ts call.2 call.1 ∧ HandleStep lua numberText ts call ts')
      start calls threads) :
    HandleInv lua start threads ∧
    (∀ seen stack, HandleCareful lua threads stack (.checkErrors seen) →
      ∃ o, Yields (mapCheckErrors lua numberText seen threads stack) o ∧
        (o = .returns [] threads ∨ ∃ i t, threads[i]? = some t ∧ t.Ended lua ∧ t.ret ≠ 0 ∧ seen i = true ∧
          o.threads = some (threads.set i t.reported))) ∧
    (∀ stack, HandleCareful lua threads stack .join →
      ∃ o, Yields (mapJoin lua numberText threads stack) o ∧ o.threads = some []) ∧
    ∀ vs, Results lua threads vs → ∀ stack : List (Value P), FitsOn lua stack.length vs →
      Yields (mapJoin lua numberText threads stack) (.returns vs []) := by
  have hinv : HandleInv lua start threads :=
    hrun.invariant (I := fun _ ts => HandleInv lua start ts) (.start hstart)
      fun _ _ _ _ h hstep => h.step hstep.1 hstep.2
  refine ⟨hinv, fun seen stack hcareful => check_cases numberText hinv.each hcareful,
    fun stack hcareful => joinLoop_ends numberText hinv.each hcareful [] 0 none,
      fun vs hvs stack hfit => ?_⟩
  have hjoin := hvs.join hl numberText [] (Nat.zero_le stack.length) hfit
  rwa [List.take_zero, List.reverse_nil, List.nil_append] at hjoin

end

/-- The thread whose function returned a coroutine, and one that returned nothing. -/
def twoThreads : List MapThread :=
  [⟨-Errno.EPERM.toInt, .live (ringbufferCreate 16), false⟩, ⟨0, .live (ringbufferCreate 16), false⟩]

theorem carries_create : Carries sampleLua (ringbufferCreate 16) [] :=
  ⟨Ringbuffer.create_valid (by decide), Ringbuffer.create_content 16, nofun, nofun⟩

theorem twoThreads_ended : ∀ t ∈ twoThreads, t.Ended sampleLua := by
  intro t ht
  rcases List.mem_pair.mp ht with rfl | rfl
  · exact ⟨rfl, _, rfl, fun _ => ⟨[], carries_create⟩⟩
  · exact ⟨rfl, _, rfl, fun _ => ⟨[], carries_create⟩⟩

theorem twoThreads_check : HandleStep sampleLua (fun _ => []) twoThreads
    (.checkErrors fun _ => true, [.userdata .none 1])
    [⟨-Errno.EPERM.toInt, .null, true⟩, ⟨0, .live (ringbufferCreate 16), false⟩] := by
  refine ⟨fun seen hseen _ _ _ _ => ?_, .error none _, ⟨1, fun fuel hf => ?_⟩, rfl⟩
  · cases hseen
    rfl
  · obtain ⟨fuel, rfl⟩ : ∃ k, fuel = k + 1 := ⟨fuel - 1, by omega⟩
    rfl

/-- After a call of `checkErrors` that reports the first thread, `join` returns what the
second one returned. -/
theorem map_handle_consumed_once_reported :
    Yields (mapJoin sampleLua (fun _ => [])
      [⟨-Errno.EPERM.toInt, .null, true⟩, ⟨0, .live (ringbufferCreate 16), false⟩] [.userdata .none 1])
      (.returns [] []) := by
  have hcareful : HandleCareful sampleLua twoThreads [.userdata .none 1] (.checkErrors fun _ => true) := by
    rintro i t ⟨ht, hret, -, -⟩
    obtain ⟨hjoined, rb, hlive, -⟩ := twoThreads_ended t (List.mem_of_getElem? ht)
    refine ⟨hjoined, fun rb' hrb' => ?_⟩
    rcases List.mem_pair.mp (List.mem_of_getElem? ht) with rfl | rfl
    · cases hrb'
      exact ⟨_, carries_create.readable sampleLua_rebuilds trivial⟩
    · exact absurd rfl hret
  have hmain := map_handle_consumed_once sampleLua_rebuilds (fun _ => []) twoThreads_ended
    (Run.nil.snoc ⟨hcareful, twoThreads_check⟩)
  exact hmain.2.2.2 [] (.reported rfl (.finished rfl rfl rfl carries_create .nil)) [.userdata .none 1] trivial

/-- A second call of `checkErrors` joins the reported thread again. -/
theorem reported_thread_joined_again : ∃ threads,
    HandleStep sampleLua (fun _ => []) twoThreads (.checkErrors fun _ => true, [.userdata .none 1]) threads ∧
      Yields (mapCheckErrors sampleLua (fun _ => []) (fun _ => true) threads [.userdata .none 1]) .undefined :=
  ⟨_, twoThreads_check, 0, fun _ _ => rfl⟩

end TorchIpc.Map
