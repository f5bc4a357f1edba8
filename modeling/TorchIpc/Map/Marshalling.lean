import TorchIpc.Map.Handle

/-! A map from its creation to `join`. The threads run and end in any order, each with a
buffer of its own, and the main thread joins them. Proved of every run in which no thread
fails: every thread calls its function once, on the arguments and its number, after the
initialiser of `map_extended`; and `join` returns the results of all threads in order. -/

namespace TorchIpc.Map

open Runs

/-- A thread at work, with the buffer it was given, or what it left. -/
inductive Slot (P : Type) where
  | running (fx : Effects)
  | ended (ret : ℤ) (fx : Effects) (calls : List (Value P × List (Value P)))

/-- The handle has the thread once it has ended. -/
def Slot.thread {P : Type} : Slot P → Option MapThread
  | .running _ => none
  | .ended ret fx _ => some ⟨ret, .live fx.rb, false⟩

/-- The threads; the call of `join`, with the stack below it and how it ended; and whether an
error outside of a protected call has ended the process. -/
structure MapState (P : Type) where
  slots : List (Slot P)
  joined : Option (List (Value P) × HandleOutcome P)
  aborted : Bool

inductive MapEvent (P : Type) where
  | ends (i : ℕ)
  | aborts (i : ℕ)
  | join (stack : List (Value P))

section
variable {P : Type} (lua : Lua P) (numberText : Value P → List UInt8)

def isFunction : Value P → Bool
  | .function _ _ => true
  | .cfunction => true
  | _ => false

/-- `map_open` and `map_extended_open`: with an initialiser it stands in front of the
function. -/
def mapOpen (init : Option (Value P)) (numThreads : UInt32) (f : Value P) (args : List (Value P))
    (fuel : ℕ) :
    Option Created :=
  let initOk : Bool :=
    match init with
    | none => true
    | some .nil => true
    | some (.string _) => true
    | some v => isFunction v
  if initOk && isFunction f then some (coreMap lua numThreads (init.toList ++ f :: args) fuel) else none

def threadBody (init : Option (Value P)) (w : Worker P) : Effects → ℕ → ThreadOutcome P :=
  match init with
  | none => threadFunc lua w
  | some _ => threadExtendedFunc lua w

def MapState.start (fxs : List Effects) : MapState P := ⟨fxs.map .running, none, false⟩

/-- A thread ends, or panics, or all have ended and are joined. `join` waits for one thread after
the other; nothing of what it does before the last has ended concerns the others. -/
inductive MapStep (body : ℕ → Effects → ℕ → ThreadOutcome P) : MapState P → MapEvent P →
    MapState P → Prop where
  | ends {s i fx ret fx' calls} : s.aborted = false → s.slots[i]? = some (.running fx) →
      Yields (body i fx) (.finished ret fx' calls) →
      MapStep body s (.ends i) { s with slots := s.slots.set i (.ended ret fx' calls) }
  | aborts {s i fx} : s.aborted = false → s.slots[i]? = some (.running fx) →
      Yields (body i fx) .panicked →
      MapStep body s (.aborts i) { s with aborted := true }
  | join {s stack threads o} : s.aborted = false → s.joined = none →
      s.slots.map Slot.thread = threads.map some →
      Yields (mapJoin lua numberText threads stack) o →
      MapStep body s (.join stack) { s with joined := some (stack, o) }

end

section
variable {P : Type} {lua : Lua P} {numberText : Value P → List UInt8}

/-- The calls a thread makes before the one of its function. -/
def initCalls (w : Worker P) : Option (Value P) → List (Value P × List (Value P))
  | none => []
  | some v => if (w.initialiser v.received).isNil then [] else [(w.initialiser v.received, [])]

/-- The arguments of the function in the thread `i`. -/
def callArgs (lua : Lua P) (args : List (Value P)) (i : ℕ) : List (Value P) :=
  args.map Value.received ++ [mapid lua i]

/-- The thread has slots for its initialiser, and then for the function and the arguments. -/
def ArgumentsFit (lua : Lua P) (init : Option (Value P)) (f : Value P) (args : List (Value P))
    (w : Worker P) (i : ℕ) :
    Prop :=
  FitsOn lua w.base.length init.toList ∧ FitsOn lua w.base.length (f :: (args ++ [mapid lua i]))

/-- A thread whose libraries load and whose initialiser does not fail calls the function on
the arguments, if they fit. -/
theorem threadBody_calls (hl : lua.Rebuilds) {init : Option (Value P)} {w : Worker P} {f : Value P}
    {args : List (Value P)} {i : ℕ} {fx : Effects}
    (h : Carries lua fx.rb (init.toList ++ f :: args ++ [mapid lua i])) (hfit : ArgumentsFit lua init f args w i)
    (hlibs : w.libraries = .ok ()) (hinit : ∀ call ∈ initCalls w init, ∃ rs, w.pcall [] call.1 call.2 = .ok rs) :
    ∃ rb n, Carries lua rb [] ∧ rb.cb = fx.rb.cb ∧ ∀ fuel ≥ n, threadBody lua init w fx fuel =
      endCall lua w fuel f.received (callArgs lua args i) { fx with rb := rb } (initCalls w init) := by
  have hargs : (args ++ [mapid lua i]).map Value.received = callArgs lua args i := by
    rw [List.map_append, callArgs, List.map_singleton, mapid_received]
  cases init with
  | none =>
    have hf : Carries lua fx.rb (f :: (args ++ [mapid lua i])) := h
    obtain ⟨rb, n, hrb, hcb, hcore⟩ := coreThread_calls hl w hf hfit.2 []
    refine ⟨rb, n, hrb, hcb, fun fuel hfuel => ?_⟩
    rw [threadBody, threadFunc, hlibs, ← hargs]
    exact hcore fuel hfuel
  | some v =>
    have hv : Carries lua fx.rb (v :: f :: (args ++ [mapid lua i])) := h
    obtain ⟨rb₁, hrb₁, hcb₁, m, hm⟩ := hv.load hl hfit.1.1
    have hf : Carries lua ({ fx with rb := rb₁ } : Effects).rb (f :: (args ++ [mapid lua i])) :=
      hrb₁
    obtain ⟨rb, n, hrb, hcb, hcore⟩ := coreThread_calls hl w hf hfit.2 (initCalls w (some v))
    refine ⟨rb, max n m, hrb, hcb.trans hcb₁, fun fuel hfuel => ?_⟩
    have hload : rbLoadIn lua fuel fx.rb w.base = .ret 1 rb₁ (v.received :: w.base) :=
      hm fuel (by omega)
    have hrest := hcore fuel (by omega)
    rw [hargs] at hrest
    rw [threadBody, threadExtendedFunc, hlibs, hload]
    simp only [lt_irrefl, if_false]
    by_cases hnil : (w.initialiser v.received).isNil = true
    · have hnone : initCalls w (some v) = [] := if_pos hnil
      rw [hnone] at hrest ⊢
      rw [if_pos hnil]
      exact hrest
    · have hcalls : initCalls w (some v) = [(w.initialiser v.received, [])] := if_neg hnil
      obtain ⟨rs, hrs⟩ := hinit (w.initialiser v.received, []) (by rw [hcalls]; exact List.mem_singleton_self _)
      rw [hcalls] at hrest ⊢
      simp only [hnil, Bool.false_eq_true, if_false, hrs]
      exact hrest

/-- A thread without slots for its initialiser does not end. -/
theorem initialiser_cramped (hl : lua.Rebuilds) {init : Option (Value P)} {w : Worker P} {vs : List (Value P)}
    {fx : Effects} (h : Carries lua fx.rb (init.toList ++ vs)) (hlibs : w.libraries = .ok ())
    (hno : ¬ FitsOn lua w.base.length init.toList) :
    ∃ n, ∀ fuel ≥ n, ∀ ret fx' calls, threadBody lua init w fx fuel ≠ .finished ret fx' calls := by
  cases init with
  | none => exact absurd trivial hno
  | some v =>
    have hv : lua.stackRoom < w.base.length + v.slots lua := not_le.mp fun hle => hno ⟨hle, trivial⟩
    obtain ⟨n, hn⟩ := script_crampedIn hl v (h.wf v List.mem_cons_self) (h.ok v List.mem_cons_self)
    refine ⟨n, fun fuel hf ret fx' calls => ?_⟩
    have hload := hn fx.rb _ w.base ⟨h.valid, h.content_eq⟩ hv fuel hf false
    rw [threadBody, threadExtendedFunc, hlibs]
    rw [← rbLoadIn] at hload
    generalize rbLoadIn lua fuel fx.rb w.base = o at hload
    cases o with
    | ret code rb stack =>
      cases stack with
      | nil => exact nofun
      | cons u below =>
        have hlow : below.length < w.base.length := hload.2
        simp only [if_pos hlow]
        exact nofun
    | _ => exact nofun

/-- Nor does a thread without slots for the function and the arguments. -/
theorem threadBody_cramped (hl : lua.Rebuilds) {init : Option (Value P)} {w : Worker P} {f : Value P}
    {args : List (Value P)} {i : ℕ} {fx : Effects}
    (h : Carries lua fx.rb (init.toList ++ f :: args ++ [mapid lua i])) (hno : ¬ ArgumentsFit lua init f args w i)
    (hlibs : w.libraries = .ok ()) (hinit : ∀ call ∈ initCalls w init, ∃ rs, w.pcall [] call.1 call.2 = .ok rs) :
    ∃ n, ∀ fuel ≥ n, ∀ ret fx' calls, threadBody lua init w fx fuel ≠ .finished ret fx' calls := by
  rw [List.append_assoc] at h
  by_cases hfit : FitsOn lua w.base.length init.toList
  swap
  · exact initialiser_cramped hl h hlibs hfit
  have hargs : ¬ FitsOn lua w.base.length (f :: (args ++ [mapid lua i])) :=
    fun hargs => hno ⟨hfit, hargs⟩
  cases init with
  | none =>
    obtain ⟨n, hn⟩ := coreThread_cramped hl w h hargs []
    refine ⟨n, fun fuel hf ret fx' calls => ?_⟩
    rw [threadBody, threadFunc, hlibs]
    exact hn fuel hf ret fx' calls
  | some v =>
    obtain ⟨rb₁, hrb₁, -, m, hm⟩ := Carries.load hl h hfit.1
    have hcarries : Carries lua ({ fx with rb := rb₁ } : Effects).rb (f :: (args ++ [mapid lua i])) := hrb₁
    obtain ⟨n, hn⟩ := coreThread_cramped hl w hcarries hargs (initCalls w (some v))
    refine ⟨max n m, fun fuel hf ret fx' calls => ?_⟩
    have hload : rbLoadIn lua fuel fx.rb w.base = .ret 1 rb₁ (v.received :: w.base) :=
      hm fuel (by omega)
    have hcore := hn fuel (by omega) ret fx' calls
    rw [threadBody, threadExtendedFunc, hlibs, hload]
    simp only [lt_irrefl, if_false]
    by_cases hnil : (w.initialiser v.received).isNil = true
    · have hnone : initCalls w (some v) = [] := if_pos hnil
      rw [hnone] at hcore
      rwa [if_pos hnil]
    · have hcalls : initCalls w (some v) = [(w.initialiser v.received, [])] := if_neg hnil
      obtain ⟨rs, hrs⟩ := hinit (w.initialiser v.received, []) (by rw [hcalls]; exact List.mem_singleton_self _)
      rw [hcalls] at hcore
      simp only [hnil, Bool.false_eq_true, if_false, hrs]
      exact hcore

/-- A thread that did not fail has loaded the libraries and run the initialiser. -/
theorem threadBody_started (hl : lua.Rebuilds) {init : Option (Value P)} {w : Worker P} {vs : List (Value P)}
    {fx fx' : Effects} {calls : List (Value P × List (Value P))} (h : Carries lua fx.rb (init.toList ++ vs))
    (hy : Yields (threadBody lua init w fx) (.finished 0 fx' calls)) :
    w.libraries = .ok () ∧ ∀ call ∈ initCalls w init, ∃ rs, w.pcall [] call.1 call.2 = .ok rs := by
  obtain ⟨n, hn⟩ := hy
  have hlibs : w.libraries = .ok () := by
    cases hlib : w.libraries with
    | ok u => rfl
    | error e =>
      have hend : endThread lua w n LUA_ERRRUN [e] fx [] = .finished 0 fx' calls := by
        rw [← hn n le_rfl]
        cases init with
        | none => rw [threadBody, threadFunc, hlib]
        | some v => rw [threadBody, threadExtendedFunc, hlib]
      exact absurd (endThread_zero h.valid hend).1 (by decide)
  refine ⟨hlibs, fun call hcall => ?_⟩
  cases init with
  | none => cases hcall
  | some v =>
    by_cases hnil : (w.initialiser v.received).isNil = true
    · rw [initCalls, if_pos hnil] at hcall
      cases hcall
    · rw [initCalls, if_neg hnil, List.mem_singleton] at hcall
      subst hcall
      have hfit : FitsOn lua w.base.length (some v).toList := by
        by_contra hno
        obtain ⟨m, hm⟩ := initialiser_cramped hl h hlibs hno
        exact hm (max n m) (by omega) 0 fx' calls (hn (max n m) (by omega))
      obtain ⟨rb₁, hrb₁, -, m, hm⟩ := Carries.load hl h hfit.1
      cases hcall : w.pcall [] (w.initialiser v.received) [] with
      | ok rs => exact ⟨rs, rfl⟩
      | error e =>
        have hload : rbLoadIn lua (max n m) fx.rb w.base = .ret 1 rb₁ (v.received :: w.base) :=
          hm _ (by omega)
        have hbody := hn (max n m) (by omega)
        rw [threadBody, threadExtendedFunc, hlibs, hload] at hbody
        simp only [lt_irrefl, hnil, Bool.false_eq_true, if_false, hcall] at hbody
        have hv₁ : ({ fx with rb := rb₁ } : Effects).rb.Valid := hrb₁.valid
        exact absurd (endThread_zero hv₁ hbody).1 (by decide)

/-- A thread that did not fail has called its function once, and left the results. -/
theorem threadBody_zero (hl : lua.Rebuilds) {init : Option (Value P)} {w : Worker P} {f : Value P}
    {args : List (Value P)} {i : ℕ} {fx fx' : Effects} {calls : List (Value P × List (Value P))}
    (h : Carries lua fx.rb (init.toList ++ f :: args ++ [mapid lua i]))
    (hy : Yields (threadBody lua init w fx) (.finished 0 fx' calls)) :
    ∃ rs, w.pcall (initCalls w init) f.received (callArgs lua args i) = .ok rs ∧
      calls = initCalls w init ++ [(f.received, callArgs lua args i)] ∧
      ((∀ v ∈ rs, v.Wf lua) → Carries lua fx'.rb rs) := by
  have hstarted := threadBody_started hl (by rw [← List.append_assoc]; exact h) hy
  obtain ⟨m, hm⟩ := hy
  have hfit : ArgumentsFit lua init f args w i := by
    by_contra hno
    obtain ⟨k, hk⟩ := threadBody_cramped hl h hno hstarted.1 hstarted.2
    exact hk (max m k) (by omega) 0 fx' calls (hm (max m k) (by omega))
  obtain ⟨rb, n, hrb, -, hbody⟩ := threadBody_calls hl h hfit hstarted.1 hstarted.2
  have hend := (hbody (max n m) (by omega)).symm.trans (hm (max n m) (by omega))
  have hv : ({ fx with rb := rb } : Effects).rb.Valid := hrb.valid
  rw [endCall] at hend
  cases hcall : w.pcall (initCalls w init) f.received (callArgs lua args i) with
  | error e =>
    simp only [hcall] at hend
    exact absurd (endThread_zero hv hend).1 (by decide)
  | ok rs =>
    simp only [hcall] at hend
    obtain ⟨-, hcalls, hv', hcontent, hok⟩ := endThread_zero hv hend
    refine ⟨rs, rfl, hcalls, fun hwf => ⟨hv', ?_, hwf, hok⟩⟩
    rw [hcontent, hrb.content_eq]
    rfl

/-- A thread whose function returns values that can be stored does not fail. -/
theorem threadBody_stores (hl : lua.Rebuilds) {init : Option (Value P)} {w : Worker P} {f : Value P}
    {args : List (Value P)} {i : ℕ} {fx : Effects}
    (h : Carries lua fx.rb (init.toList ++ f :: args ++ [mapid lua i])) (hfit : ArgumentsFit lua init f args w i)
    (hlibs : w.libraries = .ok ()) (hinit : ∀ call ∈ initCalls w init, ∃ rs, w.pcall [] call.1 call.2 = .ok rs)
    {rs : List (Value P)} (hcall : w.pcall (initCalls w init) f.received (callArgs lua args i) = .ok rs)
    (hrs : ∀ v ∈ rs, Serialisable lua false v) :
    ∃ fx' calls, Yields (threadBody lua init w fx) (.finished 0 fx' calls) := by
  obtain ⟨rb, n, hrb, -, hbody⟩ := threadBody_calls hl h hfit hlibs hinit
  have hv : ({ fx with rb := rb } : Effects).rb.Valid := hrb.valid
  obtain ⟨fx', m, hm⟩ := endThread_stores w 0 hrs hv (initCalls w init ++ [(f.received, callArgs lua args i)])
  refine ⟨fx', initCalls w init ++ [(f.received, callArgs lua args i)], max n m, fun fuel hf => ?_⟩
  rw [hbody fuel (by omega), endCall, hcall]
  exact hm fuel (by omega)

/-! ### Whole runs -/

structure MapInv (lua : Lua P) (numberText : Value P → List UInt8) (init : Option (Value P))
    (f : Value P) (args : List (Value P)) (w : ℕ → Worker P) (n : ℕ) (s : MapState P) : Prop where
  length : s.slots.length = n
  running : ∀ i fx, s.slots[i]? = some (.running fx) →
    Carries lua fx.rb (init.toList ++ f :: args ++ [mapid lua i])
  ended : ∀ i ret fx calls, s.slots[i]? = some (.ended ret fx calls) →
    ∃ fx₀ : Effects, Carries lua fx₀.rb (init.toList ++ f :: args ++ [mapid lua i]) ∧
      Yields (threadBody lua init (w i) fx₀) (.finished ret fx calls)
  joined : ∀ stack o, s.joined = some (stack, o) →
      ∃ threads, s.slots.map Slot.thread = threads.map some ∧
    Yields (mapJoin lua numberText threads stack) o

variable {init : Option (Value P)} {f : Value P} {args vs : List (Value P)} {w : ℕ → Worker P}
  {n : ℕ} {s s' : MapState P} {threads : List MapThread}

theorem MapInv.step (h : MapInv lua numberText init f args w n s) {e : MapEvent P}
    (hstep : MapStep lua numberText (fun i => threadBody lua init (w i)) s e s') :
    MapInv lua numberText init f args w n s' := by
  cases hstep with
  | aborts => exact ⟨h.length, h.running, h.ended, h.joined⟩
  | @ends i fx ret fx' calls _ hslot hy =>
    have hget : ∀ j slot, (s.slots.set i (.ended ret fx' calls))[j]? = some slot →
        (j = i ∧ slot = .ended ret fx' calls) ∨ s.slots[j]? = some slot := by
      intro j slot hj
      rw [List.getElem?_set] at hj
      split_ifs at hj with hij hlt
      · exact Or.inl ⟨hij.symm, (Option.some.inj hj).symm⟩
      · exact Or.inr hj
    refine ⟨by rw [List.length_set, h.length], fun j fx₁ hj => ?_, fun j ret₁ fx₁ calls₁ hj => ?_, fun stack o ho => ?_⟩
    · rcases hget j _ hj with ⟨-, hne⟩ | hj
      · cases hne
      · exact h.running j fx₁ hj
    · rcases hget j _ hj with ⟨rfl, heq⟩ | hj
      · cases heq
        exact ⟨fx, h.running j fx hslot, hy⟩
      · exact h.ended j ret₁ fx₁ calls₁ hj
    -- after `join` no thread is running
    · obtain ⟨threads, hthreads, -⟩ := h.joined stack o ho
      have hi := congrArg (fun l => l[i]?) hthreads
      simp only [List.getElem?_map, hslot, Option.map_some] at hi
      cases hthread : threads[i]? with
      | none => rw [hthread] at hi; cases hi
      | some t => rw [hthread] at hi; cases hi
  | @join stack threads o _ _ hthreads hy =>
    refine ⟨h.length, h.running, h.ended, fun stack' o' ho' => ?_⟩
    cases ho'
    exact ⟨threads, hthreads, hy⟩

/-- The results of threads that have all ended without a failure. -/
theorem results_of_slots {slots : List (Slot P)} {threads : List MapThread} {rss : ℕ → List (Value P)}
    (hthreads : slots.map Slot.thread = threads.map some) (k : ℕ)
    (hslots : ∀ i ret fx calls, slots[i]? = some (.ended ret fx calls) → ret = 0 ∧ Carries lua fx.rb (rss (k + i))) :
    Results lua threads ((List.range' k slots.length).flatMap fun i => (rss i).map Value.received) := by
  induction slots generalizing threads k with
  | nil =>
    obtain rfl : threads = [] := List.map_eq_nil_iff.mp hthreads.symm
    exact .nil
  | cons slot slots ih =>
    cases threads with
    | nil => cases hthreads
    | cons t threads =>
      rw [List.map_cons, List.map_cons, List.cons.injEq] at hthreads
      obtain ⟨hslot, hrest⟩ := hthreads
      cases slot with
      | running fx => cases hslot
      | ended ret fx calls =>
        cases hslot
        obtain ⟨rfl, hcarries⟩ := hslots 0 ret fx calls rfl
        rw [List.length_cons, List.range'_succ, List.flatMap_cons]
        refine .finished rfl rfl rfl hcarries (ih hrest (k + 1) fun i ret' fx' calls' hi => ?_)
        have hnext := hslots (i + 1) ret' fx' calls' hi
        rwa [Nat.add_assoc, Nat.add_comm 1 i]

theorem threads_of_slots {slots : List (Slot P)} (h : ∀ (i : ℕ) fx, slots[i]? ≠ some (.running fx)) :
    ∃ threads : List MapThread, slots.map Slot.thread = threads.map some := by
  induction slots with
  | nil => exact ⟨[], rfl⟩
  | cons slot slots ih =>
    obtain ⟨threads, hthreads⟩ := ih fun i fx => h (i + 1) fx
    cases slot with
    | running fx => exact absurd rfl (h 0 fx)
    | ended ret fx calls => exact ⟨⟨ret, .live fx.rb, false⟩ :: threads, congrArg (some _ :: ·) hthreads⟩

theorem mapOpen_carries {numThreads : UInt32} {fxs : List Effects}
    (hwf : ∀ v ∈ init.toList ++ f :: args, v.Wf lua)
    (h : Yields (mapOpen lua init numThreads f args) (some (.threads fxs))) :
    fxs.length = numThreads.toNat ∧ ∀ i fx, fxs[i]? = some fx →
      Carries lua fx.rb (init.toList ++ f :: args ++ [mapid lua i]) := by
  obtain ⟨fuel, hopen⟩ := h.exists
  simp only [mapOpen] at hopen
  split_ifs at hopen
  exact coreMap_carries hwf (Option.some.inj hopen)

/-- Every run of a map that was created is such a run. -/
theorem mapInv_of_run {numThreads : UInt32} {fxs : List Effects} (hargs : ∀ v ∈ init.toList ++ f :: args, v.Wf lua)
    (hopen : Yields (mapOpen lua init numThreads f args) (some (.threads fxs))) {es : List (MapEvent P)}
    (hrun : Run (MapStep lua numberText fun i => threadBody lua init (w i)) (.start fxs) es s) :
    MapInv lua numberText init f args w numThreads.toNat s := by
  obtain ⟨hlen, hcarries⟩ := mapOpen_carries hargs hopen
  have hstart : MapInv lua numberText init f args w numThreads.toNat (.start fxs) := by
    refine ⟨by rw [MapState.start, List.length_map, hlen], fun i fx hi => ?_, fun i ret fx calls hi => ?_, nofun⟩
    · rw [MapState.start, List.getElem?_map] at hi
      obtain ⟨fx₀, hfx₀, heq⟩ := Option.map_eq_some_iff.mp hi
      cases heq
      exact hcarries i fx hfx₀
    · rw [MapState.start, List.getElem?_map] at hi
      obtain ⟨fx₀, -, heq⟩ := Option.map_eq_some_iff.mp hi
      cases heq
  exact hrun.invariant (I := fun _ s => MapInv lua numberText init f args w numThreads.toNat s) hstart
    fun _ _ _ _ h hstep => h.step hstep

/-- The results of the threads, one thread after the other. -/
def joinedResults (rss : ℕ → List (Value P)) (n : ℕ) : List (Value P) :=
  (List.range n).flatMap fun i => (rss i).map Value.received

theorem Results.not_mem (h : Results lua threads vs) (ptr : UInt64) : .userdata .none ptr ∉ vs := by
  induction h with
  | nil => exact List.not_mem_nil
  | reported _ _ ih => exact ih
  | @finished t ts us vs rb _ _ _ hcarries _ ih =>
    intro hmem
    rcases List.mem_append.mp hmem with hus | hvs
    · obtain ⟨u, hu, heq⟩ := List.mem_map.mp hus
      -- a userdata without a name is not saved
      have hok := hcarries.ok u hu
      cases u with
      | userdata typename q =>
        cases heq
        cases hok
      | _ => cases heq
    · exact ih hvs

/-- A map whose creation succeeds and whose threads do not fail. Every thread has made exactly
the call it should; one whose results can be stored ends just if its arguments fit on its stack;
and `join` returns the results of all threads in order, whatever the order in which they ran,
just if they fit on the stack that it is called on. -/
theorem map_marshalling (hl : lua.Rebuilds) (numberText : Value P → List UInt8) {numThreads : UInt32}
    {fxs : List Effects} (hargs : ∀ v ∈ init.toList ++ f :: args, v.Wf lua)
    (hopen : Yields (mapOpen lua init numThreads f args) (some (.threads fxs)))
    (hresults : ∀ i calls g as rs, (w i).pcall calls g as = .ok rs → ∀ v ∈ rs, v.Wf lua)
    {es : List (MapEvent P)}
    (hrun : Run (MapStep lua numberText fun i => threadBody lua init (w i)) (.start fxs) es s)
    (hok : ∀ (i : ℕ) ret fx calls, s.slots[i]? = some (.ended ret fx calls) → ret = 0) :
    s.slots.length = numThreads.toNat ∧
    (∀ (i : ℕ) ret fx calls, s.slots[i]? = some (.ended ret fx calls) →
      calls = initCalls (w i) init ++ [(f.received, callArgs lua args i)]) ∧
    (∀ (i : ℕ) fx rs, s.slots[i]? = some (.running fx) → (w i).libraries = .ok () →
      (∀ call ∈ initCalls (w i) init, ∃ rs, (w i).pcall [] call.1 call.2 = .ok rs) →
      (w i).pcall (initCalls (w i) init) f.received (callArgs lua args i) = .ok rs →
      (∀ v ∈ rs, Serialisable lua false v) →
      ((∃ fx' calls, Yields (threadBody lua init (w i) fx) (.finished 0 fx' calls)) ↔
        ArgumentsFit lua init f args (w i) i)) ∧
    ∀ rss : ℕ → List (Value P), (∀ i < numThreads.toNat,
      (w i).pcall (initCalls (w i) init) f.received (callArgs lua args i) = .ok (rss i)) →
      (∀ stack o, s.joined = some (stack, o) → FitsOn lua stack.length (joinedResults rss numThreads.toNat) →
        o = .returns (joinedResults rss numThreads.toNat) []) ∧
      ((∀ (i : ℕ) fx, s.slots[i]? ≠ some (.running fx)) → ∃ threads, s.slots.map Slot.thread = threads.map some ∧
        ∀ height, 1 ≤ height →
          ((∀ stack : List (Value P), stack.length = height →
            Yields (mapJoin lua numberText threads stack) (.returns (joinedResults rss numThreads.toNat) [])) ↔
          FitsOn lua height (joinedResults rss numThreads.toNat))) := by
  have hinv : MapInv lua numberText init f args w numThreads.toNat s :=
    mapInv_of_run hargs hopen hrun
  have hresultsOf : ∀ rss : ℕ → List (Value P), (∀ i < numThreads.toNat,
      (w i).pcall (initCalls (w i) init) f.received (callArgs lua args i) = .ok (rss i)) →
      ∀ threads, s.slots.map Slot.thread = threads.map some →
      Results lua threads (joinedResults rss numThreads.toNat) := by
    intro rss hrss threads hthreads
    have hslots : ∀ (i : ℕ) ret fx calls, s.slots[i]? = some (.ended ret fx calls) →
        ret = 0 ∧ Carries lua fx.rb (rss (0 + i)) := by
      intro i ret fx calls hi
      obtain rfl := hok i ret fx calls hi
      obtain ⟨fx₀, hfx₀, hy⟩ := hinv.ended i 0 fx calls hi
      obtain ⟨rs, hcall, -, hc⟩ := threadBody_zero hl hfx₀ hy
      obtain ⟨hlt, -⟩ := List.getElem?_eq_some_iff.mp hi
      rw [hinv.length] at hlt
      obtain rfl : rss i = rs := Except.ok.inj ((hrss i hlt).symm.trans hcall)
      rw [Nat.zero_add]
      exact ⟨rfl, hc (hresults i _ _ _ _ hcall)⟩
    have hres := results_of_slots hthreads 0 hslots
    rwa [hinv.length, ← List.range_eq_range'] at hres
  have hjoins : ∀ {rss : ℕ → List (Value P)} {threads},
    Results lua threads (joinedResults rss numThreads.toNat) →
      ∀ {stack : List (Value P)}, FitsOn lua stack.length (joinedResults rss numThreads.toNat) →
        Yields (mapJoin lua numberText threads stack) (.returns (joinedResults rss numThreads.toNat) []) := by
    intro rss threads hres stack hfit
    have hjoin := hres.join hl numberText [] (Nat.zero_le stack.length) hfit
    rwa [List.take_zero, List.reverse_nil, List.nil_append] at hjoin
  refine ⟨hinv.length, fun i ret fx calls hi => ?_, fun i fx rs hi hlibs hinit hcall hrs => ⟨?_, fun hfit => ?_⟩,
    fun rss hrss => ⟨fun stack o ho hfit => ?_, fun hall => ?_⟩⟩
  · obtain rfl := hok i ret fx calls hi
    obtain ⟨fx₀, hfx₀, hy⟩ := hinv.ended i 0 fx calls hi
    obtain ⟨rs, -, hcalls, -⟩ := threadBody_zero hl hfx₀ hy
    exact hcalls
  · rintro ⟨fx', calls, n, hn⟩
    by_contra hno
    obtain ⟨m, hm⟩ := threadBody_cramped hl (hinv.running i fx hi) hno hlibs hinit
    exact hm (max n m) (by omega) 0 fx' calls (hn (max n m) (by omega))
  · exact threadBody_stores hl (hinv.running i fx hi) hfit hlibs hinit hcall hrs
  · obtain ⟨threads, hthreads, hy⟩ := hinv.joined stack o ho
    exact hy.unique (hjoins (hresultsOf rss hrss threads hthreads) hfit)
  · obtain ⟨threads, hthreads⟩ := threads_of_slots hall
    have hres := hresultsOf rss hrss threads hthreads
    refine ⟨threads, hthreads, fun height hheight => ⟨fun hreturns => ?_, fun hfit stack hstack =>
      hjoins hres (hstack ▸ hfit)⟩⟩
    -- a stack of userdata that no thread returns
    by_contra hno
    have hbase : Inert (List.replicate height (.userdata .none 0 : Value P)) :=
      fun v hv => ⟨.none, 0, List.eq_of_mem_replicate hv⟩
    have hne : List.replicate height (.userdata .none 0 : Value P) ≠ [] := by
      rw [Ne, List.replicate_eq_nil_iff]
      omega
    have hlen : ([] ++ List.replicate height (.userdata .none 0 : Value P)).length = height := by
      rw [List.nil_append, List.length_replicate]
    obtain ⟨n, hn⟩ := @Results.join_lacks P lua hl numberText threads _ hres _ hbase hne [] []
      (by rwa [hlen])
    obtain ⟨m, hm⟩ := hreturns _ (List.length_replicate ..)
    have hspoilt := hn (max n m) (by omega)
    have hyields := hm (max n m) (by omega)
    rw [mapJoin] at hyields
    rw [List.nil_append, List.length_nil, hyields] at hspoilt
    obtain ⟨v, hv, hmem⟩ := hspoilt
    rw [List.eq_of_mem_replicate hmem] at hv
    exact hres.not_mem 0 hv

end

/-- A worker whose calls all return `true`, so many times. -/
def trueWorker (n : ℕ) : Worker UInt8 where
  base := []
  libraries := .ok ()
  loadstring _ := .nil
  pcall _ _ _ := .ok (List.replicate n (.boolean true))

theorem mapid_slots {P : Type} {lua : Lua P} (i : ℕ) : (mapid lua i).slots lua = 1 := by
  rw [mapid, Value.ofInteger]
  split_ifs
  · rfl
  · rfl

/-- A function without upvalues to be called, but for its environment. -/
def plainFunction : Value UInt8 := .function 5 [none]

theorem plainFunction_serialisable : Serialisable sampleLua false plainFunction :=
  serialisable_of_keyless rfl (by decide +kernel)

theorem plainFunction_wf : plainFunction.Wf sampleLua := by
  simp [plainFunction, Value.Wf, Value.parts, Value.WfNode, sampleLua]

theorem trueWorker_serialisable {n : ℕ} :
    ∀ v ∈ List.replicate n (.boolean true : Value UInt8), Serialisable sampleLua false v := by
  intro v hv
  rw [List.eq_of_mem_replicate hv]
  exact ⟨rfl, by simp [script, puts]⟩

theorem trueWorker_wf {n : ℕ} : ∀ v ∈ List.replicate n (.boolean true : Value UInt8),
    v.Wf sampleLua := by
  intro v hv
  rw [List.eq_of_mem_replicate hv]
  simp [Value.Wf, Value.parts, Value.WfNode]

/-- A map over two threads, with `nil` for an argument, that run one after the other. -/
theorem trueWorker_run (n : ℕ) : ∃ fxs : List Effects,
    Yields (mapOpen sampleLua none 2 plainFunction [.nil]) (some (.threads fxs)) ∧
      ∃ es fx₀ fx₁ calls₀ calls₁, Run (MapStep sampleLua (fun _ => []) fun _ => threadBody sampleLua
        none (trueWorker n)) (.start fxs) es
        ⟨[.ended 0 fx₀ calls₀, .ended 0 fx₁ calls₁], none, false⟩ ∧
      Carries sampleLua fx₀.rb (List.replicate n (.boolean true)) ∧
      Carries sampleLua fx₁.rb (List.replicate n (.boolean true)) := by
  have hargs : ∀ v ∈ [plainFunction, .nil], Serialisable sampleLua false v := by
    intro v hv
    rcases List.mem_pair.mp hv with rfl | rfl
    · exact plainFunction_serialisable
    · exact ⟨rfl, by simp [script, puts]⟩
  have hwf : ∀ v ∈ (none : Option (Value UInt8)).toList ++ plainFunction :: [.nil],
      v.Wf sampleLua := by
    intro v hv
    rcases List.mem_pair.mp hv with rfl | rfl
    · exact plainFunction_wf
    · simp [Value.Wf, Value.parts, Value.WfNode]
  obtain ⟨fxs, k, hk⟩ := createLoop_stores hargs 2 0 []
  have hopen : Yields (mapOpen sampleLua none 2 plainFunction [.nil]) (some (.threads fxs)) :=
    ⟨k, fun fuel hf => congrArg some (hk fuel hf)⟩
  obtain ⟨hlen, hcarries⟩ := mapOpen_carries hwf hopen
  obtain ⟨fx₀, fx₁, rfl⟩ : ∃ fx₀ fx₁, fxs = [fx₀, fx₁] := List.length_eq_two.mp hlen
  have hfit : ∀ i, ArgumentsFit sampleLua none plainFunction [.nil] (trueWorker n) i := by
    refine fun i => ⟨trivial, ?_, ?_, ?_, trivial⟩
    · change 0 + 3 ≤ 8000
      decide
    · change 0 + 1 + 1 ≤ 8000
      decide
    · rw [mapid_slots]
      change 0 + 1 + 1 + 1 ≤ 8000
      decide
  have hends : ∀ (i : ℕ) fx, [fx₀, fx₁][i]? = some fx → ∃ fx' calls,
      Yields (threadBody sampleLua none (trueWorker n) fx) (.finished 0 fx' calls) ∧
        Carries sampleLua fx'.rb (List.replicate n (.boolean true)) := by
    intro i fx hi
    obtain ⟨fx', calls, hy⟩ :=
      threadBody_stores sampleLua_rebuilds (hcarries i fx hi) (hfit i) rfl (by rintro _ ⟨⟩) rfl trueWorker_serialisable
    obtain ⟨rs, hrs, -, hc⟩ := threadBody_zero sampleLua_rebuilds (hcarries i fx hi) hy
    cases hrs
    exact ⟨fx', calls, hy, hc trueWorker_wf⟩
  obtain ⟨fx₀', calls₀, hend₀, hc₀⟩ := hends 0 fx₀ rfl
  obtain ⟨fx₁', calls₁, hend₁, hc₁⟩ := hends 1 fx₁ rfl
  have hrun₁ : Run (MapStep sampleLua (fun _ => []) fun _ => threadBody sampleLua none (trueWorker n))
      (.start [fx₀, fx₁]) [.ends 1] ⟨[.running fx₀, .ended 0 fx₁' calls₁], none, false⟩ :=
    Run.nil.snoc (.ends (i := 1) rfl rfl hend₁)
  exact ⟨_, hopen, _, fx₀', fx₁', calls₀, calls₁, hrun₁.snoc (.ends (i := 0) rfl rfl hend₀), hc₀, hc₁⟩

/-- `join` returns `true` twice. -/
theorem map_marshalling_two : ∃ threads, ∀ stack : List (Value UInt8), stack.length = 1 →
    Yields (mapJoin sampleLua (fun _ => []) threads stack) (.returns [.boolean true, .boolean true] []) := by
  obtain ⟨fxs, hopen, es, fx₀, fx₁, calls₀, calls₁, hrun, -, -⟩ := trueWorker_run 1
  have hwf : ∀ v ∈ (none : Option (Value UInt8)).toList ++ plainFunction :: [.nil],
      v.Wf sampleLua := by
    intro v hv
    rcases List.mem_pair.mp hv with rfl | rfl
    · exact plainFunction_wf
    · simp [Value.Wf, Value.parts, Value.WfNode]
  have hresults : ∀ (_ : ℕ) calls g as rs, (trueWorker 1).pcall calls g as = .ok rs →
      ∀ v ∈ rs, v.Wf sampleLua := by
    intro _ calls g as rs hrs
    cases hrs
    exact trueWorker_wf
  have hok : ∀ (i : ℕ) ret fx calls,
      [Slot.ended 0 fx₀ calls₀, .ended 0 fx₁ calls₁][i]? = some (.ended ret fx calls) →
      ret = 0 := by
    intro i ret fx calls hi
    rcases List.mem_pair.mp (List.mem_of_getElem? hi) with h | h
    · cases h
      rfl
    · cases h
      rfl
  have hended : ∀ (i : ℕ) fx, [Slot.ended 0 fx₀ calls₀, .ended 0 fx₁ calls₁][i]? ≠
      some (.running fx) := by
    intro i fx hi
    rcases List.mem_pair.mp (List.mem_of_getElem? hi) with h | h
    · cases h
    · cases h
  have hmain := map_marshalling sampleLua_rebuilds (fun _ => []) hwf hopen hresults hrun hok
  obtain ⟨threads, -, hjoin⟩ := (hmain.2.2.2 (fun _ => [.boolean true]) fun _ _ => rfl).2 hended
  exact ⟨threads, (hjoin 1 le_rfl).mpr ⟨by decide, by decide, trivial⟩⟩

/-- Two threads that return five thousand values each do not fail, and `join` does not return. -/
theorem results_never_joined : ∃ fxs : List Effects,
    Yields (mapOpen sampleLua none 2 plainFunction [.nil]) (some (.threads fxs)) ∧
      ∃ es fx₀ fx₁ calls₀ calls₁, Run (MapStep sampleLua (fun _ => []) fun _ => threadBody sampleLua
        none (trueWorker 5000)) (.start fxs) es
        ⟨[.ended 0 fx₀ calls₀, .ended 0 fx₁ calls₁], none, false⟩ ∧
      ∀ stack : List (Value UInt8), stack.length = 1 →
        Yields (mapJoin sampleLua (fun _ => []) [⟨0, .live fx₀.rb, false⟩, ⟨0, .live fx₁.rb, false⟩]
          stack) .timeout := by
  obtain ⟨fxs, hopen, es, fx₀, fx₁, calls₀, calls₁, hrun, hc₀, hc₁⟩ := trueWorker_run 5000
  refine ⟨fxs, hopen, es, fx₀, fx₁, calls₀, calls₁, hrun, fun stack hstack => ?_⟩
  have hleft : List.Forall₂ (HasLeft sampleLua) [⟨0, .live fx₀.rb, false⟩, ⟨0, .live fx₁.rb, false⟩]
      [List.replicate 5000 (.boolean true), List.replicate 5000 (.boolean true)] := by
    refine .cons ⟨rfl, fx₀.rb, rfl, ?_⟩ (.cons ⟨rfl, fx₁.rb, rfl, ?_⟩ .nil)
    · have h := hc₀.left sampleLua_rebuilds
      rwa [List.map_replicate] at h
    · have h := hc₁.left sampleLua_rebuilds
      rwa [List.map_replicate] at h
  have hall : [List.replicate 5000 (.boolean true : Value UInt8), List.replicate 5000 (.boolean true)].flatten =
      List.replicate 7999 (.boolean true) ++ .boolean true :: List.replicate 2000 (.boolean true) := by
    rw [← List.replicate_succ, List.flatten_cons, List.flatten_singleton, List.replicate_append_replicate,
      List.replicate_append_replicate]
  refine joinLoop_full (fun _ => []) hleft [] 0 none hall (fitsOn_of_slots (fun v hv => ?_) ?_) ?_
  · rw [List.eq_of_mem_replicate hv]
    rfl
  · rw [List.length_replicate, hstack]
    exact le_rfl
  · rw [List.length_replicate, hstack]
    exact le_rfl

end TorchIpc.Map
