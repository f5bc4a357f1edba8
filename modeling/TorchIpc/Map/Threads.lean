import TorchIpc.Queue.Items
import TorchIpc.Serialize.Heights

/-! `ipc.map` and `ipc.map_extended` (`map.c`): a buffer for each thread takes the function
and its arguments to the thread and the results back. Both sides tell from the buffer alone
how many values there are. Proved here: what the two loops over a buffer do when it holds
complete values. -/

namespace TorchIpc.Map

open Runs

section
variable {P : Type} (lua : Lua P)

/-- A Lua state of a worker thread: what its set-up leaves on the stack, whether the
libraries can be loaded, what `luaL_loadstring` pushes, and what a protected call does
after the calls before it. -/
structure Worker (P : Type) where
  base : List (Value P)
  libraries : Except (Value P) Unit
  loadstring : List UInt8 → Value P
  pcall : List (Value P × List (Value P)) → Value P → List (Value P) →
      Except (Value P) (List (Value P))

/-- Values of consecutive stack indices are saved until one of them fails. -/
def saveValues (fuel : ℕ) : List (Value P) → (index top : ℕ) → Effects → GrowthOutcome
  | [], _, top, fx => .ret 0 fx top
  | v :: vs, index, top, fx =>
    match rbSaveWithGrowth lua v index top fx fuel with
    | .ret code fx top => if code = 0 then saveValues fuel vs (index + 1) top fx else .ret code fx top
    | o => o

/-! ### The main thread creates the map -/

/-- What `core_map` puts into the buffer of the thread `i`: the stack from the index two
on, and the number of the thread. -/
def saveArguments (args : List (Value P)) (i fuel : ℕ) : GrowthOutcome :=
  match saveValues lua fuel args 2 (args.length + 1) ⟨ringbufferCreate MAX_ARG_SIZE, []⟩ with
  | .ret code fx top =>
    if code = 0 then
      saveValues lua fuel [.ofInteger lua.versionNum (UInt64.ofNat (i + 1))] (args.length + 2)
        (top + 1) fx
    else .ret code fx top
  | o => o

/-- The buffers of the threads, or the outcome that ends `core_map` with an error. -/
inductive Created where
  | threads (fxs : List Effects)
  | failed (o : GrowthOutcome)

/-- The loop of `core_map` over the threads still to be created. -/
def createLoop (args : List (Value P)) (fuel : ℕ) : (remaining i : ℕ) → List Effects → Created
  | 0, _, fxs => .threads fxs
  | n + 1, i, fxs =>
    match saveArguments lua args i fuel with
    | .ret code fx top =>
      if code = 0 then createLoop args fuel n (i + 1) (fxs ++ [fx]) else .failed (.ret code fx top)
    | o => .failed o

def coreMap (numThreads : UInt32) (args : List (Value P)) (fuel : ℕ) : Created :=
  createLoop lua args fuel numThreads.toNat 0 []

/-! ### A thread -/

/-- How a loop over a buffer ends: with so many calls of `rb_load`; with the error for a
negative code, if the loop looks at it; or by an error below it. -/
inductive Drained (P : Type) where
  | loaded (count : ℕ) (rb : Ringbuffer) (stack : List (Value P))
  | rejected
  | raised
  | undefined
  | timeout

/-- `while (ringbuffer_peek(rb)) rb_load(L, rb)`. -/
def drainLoop (checked : Bool) : ℕ → ℕ → Ringbuffer → List (Value P) → Drained P
  | 0, _, _, _ => .timeout
  | fuel + 1, count, rb, stack =>
    if ringbufferPeek rb = 0 then .loaded count rb stack
    else
      match rbLoadIn lua fuel rb stack with
      | .ret code rb stack =>
        if checked && decide (code < 0) then .rejected else drainLoop checked fuel (count + 1) rb stack
      | .raise _ => .raised
      | .undefined => .undefined
      | .timeout => .timeout

/-- What a thread leaves: the field `ret`, its buffer, and the protected calls it made. An
error outside of a protected call ends the process. -/
inductive ThreadOutcome (P : Type) where
  | finished (ret : ℤ) (fx : Effects) (calls : List (Value P × List (Value P)))
  | panicked
  | undefined
  | diverges
  | timeout

abbrev LUA_ERRRUN : ℤ := 2

/-- `end_thread`, with the values above `top`. -/
def endThread (w : Worker P) (fuel : ℕ) (ret : ℤ) (values : List (Value P)) (fx : Effects)
    (calls : List (Value P × List (Value P))) : ThreadOutcome P :=
  match saveValues lua fuel values (w.base.length + 1) (w.base.length + values.length) fx with
  | .ret code fx _ => .finished (if code = 0 then ret else code) fx calls
  | .raised _ _ => .panicked
  | .popped _ => .panicked
  | .undefined => .undefined
  | .diverges => .diverges
  | .timeout => .timeout

def coreThread (w : Worker P) (fuel : ℕ) (fx : Effects) (calls : List (Value P × List (Value P))) :
    ThreadOutcome P :=
  match drainLoop lua true fuel 0 fx.rb w.base with
  | .loaded count rb stack =>
    match (stack.take count).reverse with
    | f :: args =>
      match w.pcall calls f args with
      | .ok results => endThread lua w fuel 0 results { fx with rb := rb } (calls ++ [(f, args)])
      | .error e => endThread lua w fuel LUA_ERRRUN [e] { fx with rb := rb } (calls ++ [(f, args)])
    | [] => .undefined
  | .rejected => .panicked
  | .raised => .panicked
  | .undefined => .undefined
  | .timeout => .timeout

def threadFunc (w : Worker P) (fx : Effects) (fuel : ℕ) : ThreadOutcome P :=
  match w.libraries with
  | .error e => endThread lua w fuel LUA_ERRRUN [e] fx []
  | .ok _ => coreThread lua w fuel fx []

/-- The initialiser that is called: a string is source code. -/
def Worker.initialiser (w : Worker P) : Value P → Value P
  | .string str => w.loadstring (cstr str)
  | v => v

/-- If nothing is loaded, the first value above `top` is none. -/
def threadExtendedFunc (w : Worker P) (fx : Effects) (fuel : ℕ) : ThreadOutcome P :=
  match w.libraries with
  | .error e => endThread lua w fuel LUA_ERRRUN [e] fx []
  | .ok _ =>
    match rbLoadIn lua fuel fx.rb w.base with
    | .ret _ rb (v :: below) =>
      if below.length < w.base.length then .undefined
      else if (w.initialiser v).isNil then coreThread lua w fuel { fx with rb := rb } []
      else
        match w.pcall [] (w.initialiser v) [] with
        | .ok _ => coreThread lua w fuel { fx with rb := rb } [(w.initialiser v, [])]
        | .error e =>
          endThread lua w fuel LUA_ERRRUN [e] { fx with rb := rb } [(w.initialiser v, [])]
    | .ret _ _ [] => .undefined
    | .raise _ => .panicked
    | .undefined => .undefined
    | .timeout => .timeout

end

/-! ### Saving complete values -/

section
variable {P : Type} {lua : Lua P}

/-- How the values were saved: all of them, or those before one that was refused. -/
inductive ValuesSaved (lua : Lua P) (vs : List (Value P)) (top : ℕ) (fx : Effects) : GrowthOutcome →
    Prop where
  | stored {fx'} : (∀ v ∈ vs, (script lua false false v).fin = .ok) → fx'.rb.Valid →
      fx'.rb.content = fx.rb.content ++ vs.flatMap (encode lua false false) →
        ValuesSaved lua vs top fx (.ret 0 fx' top)
  | refused {us v ws e place fx' top'} : vs = us ++ v :: ws →
      (∀ u ∈ us, (script lua false false u).fin = .ok) →
      (script lua false false v).fin = .code e place → place ≠ .key → fx'.rb.Sound →
      fx'.rb.content = fx.rb.content ++ us.flatMap (encode lua false false) ++ encode lua false false v →
      ValuesSaved lua vs top fx (.ret (-e.toInt) fx' top')
  | ended {o : GrowthOutcome} : (∀ code fx' top', o ≠ .ret code fx' top') →
      ValuesSaved lua vs top fx o

theorem saveValues_spec {fuel : ℕ} {vs : List (Value P)} {index top : ℕ} {fx : Effects}
    (hv : fx.rb.Valid) (hi : index + vs.length ≤ top + 1) :
    ValuesSaved lua vs top fx (saveValues lua fuel vs index top fx) := by
  induction vs generalizing index fx with
  | nil => exact .stored nofun hv (by simp)
  | cons v vs ih =>
    rw [List.length_cons] at hi
    rw [saveValues]
    have hsaved : Saved lua false v fx (rbSaveWithGrowth lua v index top fx fuel) :=
      growthLoop_saved settles_reset fuel (Or.inl hv) (by omega)
    have htop : ∀ {fx₁ top₁}, rbSaveWithGrowth lua v index top fx fuel = .ret 0 fx₁ top₁ →
        top₁ = top :=
      fun h₁ => growthLoop_top (by omega) (fun n _ => if_neg (Nat.not_lt.mpr (Nat.le_add_right _ _))) fuel h₁
    generalize rbSaveWithGrowth lua v index top fx fuel = o at hsaved htop
    cases hsaved with
    | @stored fx₁ top₁ hfin hsound hcontent =>
      obtain rfl := htop rfl
      have hv₁ : fx₁.rb.Valid := hsound.valid (by
        rw [hcontent]
        exact List.append_ne_nil_of_right_ne_nil _ (encode_ne_nil hfin))
      have hrest := ih hv₁ (show index + 1 + vs.length ≤ top₁ + 1 by omega)
      simp only [if_true]
      generalize saveValues lua fuel vs (index + 1) top₁ fx₁ = o at hrest
      cases hrest with
      | stored hall hv' hcontent' =>
        refine .stored (List.forall_mem_cons.mpr ⟨hfin, hall⟩) hv' ?_
        rw [hcontent', hcontent, List.flatMap_cons, List.append_assoc]
      | @refused us u ws e place fx' top' hvs hall hcode hplace hsound' hcontent' =>
        refine @ValuesSaved.refused _ _ _ _ _ (v :: us) _ _ _ _ _ _ (congrArg (v :: ·) hvs)
          (List.forall_mem_cons.mpr ⟨hfin, hall⟩) hcode
          hplace hsound' ?_
        rw [hcontent', hcontent, List.flatMap_cons, List.append_assoc fx.rb.content]
      | ended hne => exact .ended hne
    | @refused e place fx₁ top₁ hfin hplace hsound hcontent =>
      have hne : ¬ -e.toInt = 0 := by cases e <;> decide
      simp only [if_neg hne]
      refine @ValuesSaved.refused _ _ _ _ _ [] _ _ _ _ _ _ rfl nofun hfin hplace hsound ?_
      rw [hcontent, List.flatMap_nil, List.append_nil]
    | raised => exact .ended nofun
    | undefined => exact .ended nofun
    | diverges => exact .ended nofun
    | timeout => exact .ended nofun

theorem saveValues_saved {fuel : ℕ} {vs : List (Value P)} {index top top' : ℕ} {fx fx' : Effects}
    (hv : fx.rb.Valid) (hi : index + vs.length ≤ top + 1)
    (h : saveValues lua fuel vs index top fx = .ret 0 fx' top') :
    fx'.rb.Valid ∧ fx'.rb.content = fx.rb.content ++ vs.flatMap (encode lua false false) ∧
      top' = top ∧ ∀ v ∈ vs, (script lua false false v).fin = .ok := by
  have hspec : ValuesSaved lua vs top fx (saveValues lua fuel vs index top fx) :=
    saveValues_spec hv hi
  generalize saveValues lua fuel vs index top fx = o at h hspec
  cases hspec with
  | stored hall hv' hcontent =>
    cases h
    exact ⟨hv', hcontent, rfl, hall⟩
  | @refused us v ws e place fx' top' hvs hall hcode hplace hsound hcontent =>
    injection h with hzero
    have hne : ¬ -e.toInt = 0 := by cases e <;> decide
    exact absurd hzero hne
  | ended hne => exact absurd h (hne _ _ _)

theorem saveValues_stores {vs : List (Value P)} (hvs : ∀ v ∈ vs, Serialisable lua false v) {index top : ℕ}
    {fx : Effects} (hv : fx.rb.Valid) (hi : index + vs.length ≤ top + 1) :
    ∃ fx', fx'.rb.Valid ∧ Yields (fun fuel => saveValues lua fuel vs index top fx) (.ret 0 fx' top) := by
  induction vs generalizing index fx with
  | nil => exact ⟨fx, hv, 0, fun _ _ => rfl⟩
  | cons v vs ih =>
    rw [List.length_cons] at hi
    obtain ⟨fx₁, top₁, hv₁, n, hn⟩ :=
      growthLoop_stores settles_reset (show 1 ≤ MAX_ARG_SIZE by decide)
      (show MAX_ARG_SIZE < 2 ^ 63 by decide) (hvs v List.mem_cons_self) hv (show index ≤ top by omega)
    have htop : top₁ = top :=
      growthLoop_top (by omega) (fun k _ => if_neg (Nat.not_lt.mpr (Nat.le_add_right _ _))) n
        (hn n le_rfl)
    rw [htop] at hn
    obtain ⟨fx', hv', m, hm⟩ := ih (fun u hu => hvs u (List.mem_cons_of_mem _ hu)) hv₁
      (show index + 1 + vs.length ≤ top + 1 by omega)
    refine ⟨fx', hv', max n m, fun fuel hf => ?_⟩
    have hfirst : rbSaveWithGrowth lua v index top fx fuel = .ret 0 fx₁ top := hn fuel (by omega)
    simp only [saveValues, hfirst, if_true]
    exact hm fuel (by omega)

/-! ### Loading complete values -/

/-- A buffer with the encodings of these values, which can all be loaded. -/
structure Carries (lua : Lua P) (rb : Ringbuffer) (vs : List (Value P)) : Prop where
  valid : rb.Valid
  content_eq : rb.content = vs.flatMap (encode lua false false)
  wf : ∀ v ∈ vs, v.Wf lua
  ok : ∀ v ∈ vs, (script lua false false v).fin = .ok

theorem Carries.holds {rb : Ringbuffer} {us vs : List (Value P)} (h : Carries lua rb (us ++ vs)) :
    Holds rb (us.flatMap (encode lua false false) ++ vs.flatMap (encode lua false false)) :=
  ⟨h.valid, by rw [h.content_eq, List.flatMap_append]⟩

theorem Carries.of_holds {rb rb' : Ringbuffer} {us vs : List (Value P)} (h : Carries lua rb (us ++ vs))
    (h' : Holds rb' (vs.flatMap (encode lua false false))) : Carries lua rb' vs :=
  ⟨h'.valid, h'.content_eq, fun v hv => h.wf v (List.mem_append_right _ hv),
    fun v hv => h.ok v (List.mem_append_right _ hv)⟩

theorem Carries.load (hl : lua.Rebuilds) {rb : Ringbuffer} {v : Value P} {vs : List (Value P)}
    (h : Carries lua rb (v :: vs)) {stack : List (Value P)} (hfit : stack.length + v.slots lua ≤ lua.stackRoom) :
    ∃ rb', Carries lua rb' vs ∧ rb'.cb = rb.cb ∧
      Yields (fun fuel => rbLoadIn lua fuel rb stack) (.ret 1 rb' (v.received :: stack)) := by
  obtain ⟨n, hn⟩ := loadsIn_script hl false v (h.wf v List.mem_cons_self) (h.ok v List.mem_cons_self)
    (absurd · Bool.false_ne_true)
  obtain ⟨rb', hrb', hload⟩ := hn rb _ stack ⟨h.valid, h.content_eq⟩ (by rwa [v.slots_received])
  exact ⟨rb', @Carries.of_holds P lua rb rb' [v] vs h hrb', rbLoadIn_cb (hload n le_rfl), n, hload⟩

/-- The bytes of complete values, one after the other. -/
inductive LoadsAll (lua : Lua P) : List UInt8 → List (Value P) → Prop where
  | nil : LoadsAll lua [] []
  | cons {bs cs v vs} : bs ≠ [] → LoadsIn lua false bs v → LoadsAll lua cs vs →
      LoadsAll lua (bs ++ cs) (v :: vs)

theorem LoadsAll.append {bs cs : List UInt8} {vs ws : List (Value P)} (h : LoadsAll lua bs vs)
    (h' : LoadsAll lua cs ws) : LoadsAll lua (bs ++ cs) (vs ++ ws) := by
  induction h with
  | nil => exact h'
  | cons hne hload _ ih =>
    rw [List.append_assoc]
    exact .cons hne hload ih

theorem LoadsAll.split {us vs : List (Value P)} {bs : List UInt8} (h : LoadsAll lua bs (us ++ vs)) :
    ∃ bs₁ bs₂, bs = bs₁ ++ bs₂ ∧ LoadsAll lua bs₁ us ∧ LoadsAll lua bs₂ vs := by
  induction us generalizing bs with
  | nil => exact ⟨[], bs, rfl, .nil, h⟩
  | cons u us ih =>
    cases h with
    | @cons bs cs _ _ hne hload hrest =>
      obtain ⟨bs₁, bs₂, rfl, h₁, h₂⟩ := ih hrest
      exact ⟨bs ++ bs₁, bs₂, (List.append_assoc bs bs₁ bs₂).symm, .cons hne hload h₁, h₂⟩

theorem LoadsAll.ne_nil {v : Value P} {vs : List (Value P)} {bs : List UInt8}
    (h : LoadsAll lua bs (v :: vs)) : bs ≠ [] := by
  cases h with
  | cons hne _ _ => exact List.append_ne_nil_of_left_ne_nil hne _

theorem loadsAll_encode (hl : lua.Rebuilds) {vs : List (Value P)} (hwf : ∀ v ∈ vs, v.Wf lua)
    (hok : ∀ v ∈ vs, (script lua false false v).fin = .ok) :
    LoadsAll lua (vs.flatMap (encode lua false false)) (vs.map Value.received) := by
  induction vs with
  | nil => exact .nil
  | cons v vs ih =>
    obtain ⟨hwfv, hwfs⟩ := List.forall_mem_cons.mp hwf
    obtain ⟨hokv, hoks⟩ := List.forall_mem_cons.mp hok
    rw [List.flatMap_cons, List.map_cons]
    exact .cons (encode_ne_nil hokv) (loadsIn_script hl false v hwfv hokv (absurd · Bool.false_ne_true))
      (ih hwfs hoks)

/-- The loop looks into a buffer that has bytes. -/
theorem peek_ne_zero {rb : Ringbuffer} {bs : List UInt8} (h : Holds rb bs) (hne : bs ≠ []) :
    ringbufferPeek rb ≠ 0 := by
  rw [ringbufferPeek, ← h.valid.length_content, h.content_eq]
  exact fun h0 => hne (List.length_eq_zero_iff.mp h0)

theorem peek_eq_zero {rb : Ringbuffer} (h : Holds rb []) : ringbufferPeek rb = 0 := by
  rw [ringbufferPeek, ← h.valid.length_content, h.content_eq]
  rfl

/-- The loop goes on behind complete values, if they fit. -/
theorem LoadsAll.drain {bs : List UInt8} {vs : List (Value P)} (h : LoadsAll lua bs vs) (checked : Bool)
    (rest : List UInt8) {rb : Ringbuffer} (hrb : Holds rb (bs ++ rest)) (count : ℕ) {stack : List (Value P)}
    (hfit : FitsOn lua stack.length vs) :
    ∃ rb' n, Holds rb' rest ∧ rb'.cb = rb.cb ∧
      ∀ fuel ≥ n, drainLoop lua checked (fuel + vs.length) count rb stack =
      drainLoop lua checked fuel (count + vs.length) rb' (vs.reverse ++ stack) := by
  induction h generalizing rb count stack with
  | nil => exact ⟨rb, 0, hrb, rfl, fun fuel _ => rfl⟩
  | @cons bs cs v vs hne hload _ ih =>
    rw [List.append_assoc] at hrb
    obtain ⟨n, hn⟩ := hload
    obtain ⟨rb₁, h₁, hv⟩ := hn rb (cs ++ rest) stack hrb hfit.1
    obtain ⟨rb', m, h', hcb, hm⟩ := @ih rb₁ h₁ (count + 1) (v :: stack) hfit.2
    refine ⟨rb', max n m, h', hcb.trans (rbLoadIn_cb (hv n le_rfl)), fun fuel hf => ?_⟩
    have hpeek := peek_ne_zero hrb (List.append_ne_nil_of_left_ne_nil hne _)
    have hloads : rbLoadIn lua (fuel + vs.length) rb stack = .ret 1 rb₁ (v :: stack) :=
      hv _ (by omega)
    have hcode : (checked && decide ((1 : ℤ) < 0)) = false := by simp
    rw [List.length_cons, ← Nat.add_assoc]
    simp only [drainLoop, if_neg hpeek, hloads, hcode, Bool.false_eq_true, if_false]
    rw [hm fuel (by omega), List.reverse_cons, List.append_assoc, Nat.add_assoc count, Nat.add_comm 1]
    rfl

theorem Carries.drain (hl : lua.Rebuilds) (checked : Bool) {rb : Ringbuffer} {vs : List (Value P)}
    (h : Carries lua rb vs) (count : ℕ) {stack : List (Value P)} (hfit : FitsOn lua stack.length vs) :
    ∃ rb', Carries lua rb' [] ∧ rb'.cb = rb.cb ∧
      Yields (fun fuel => drainLoop lua checked fuel count rb stack)
      (.loaded (count + vs.length) rb' ((vs.map Value.received).reverse ++ stack)) := by
  have hrb : Holds rb (vs.flatMap (encode lua false false) ++ []) :=
    ⟨h.valid, by rw [h.content_eq, List.append_nil]⟩
  obtain ⟨rb', n, h', hcb, hn⟩ :=
    (loadsAll_encode hl h.wf h.ok).drain checked [] hrb count (fitsOn_received.mpr hfit)
  refine ⟨rb', ⟨h'.valid, h'.content_eq, nofun, nofun⟩, hcb, n + 1 + vs.length, fun fuel hf => ?_⟩
  obtain ⟨fuel, rfl⟩ : ∃ k, fuel = k + 1 + vs.length := ⟨fuel - 1 - vs.length, by omega⟩
  have hrest := hn (fuel + 1) (by omega)
  rw [List.length_map] at hrest
  simp only [hrest, drainLoop, if_pos (peek_eq_zero h')]

/-! ### Values that do not fit -/

/-- The loop comes to a value that does not fit. -/
theorem Carries.drain_cramped (hl : lua.Rebuilds) (checked : Bool) {rb : Ringbuffer} {vs : List (Value P)}
    (h : Carries lua rb vs) (count : ℕ) {stack : List (Value P)} (hno : ¬ FitsOn lua stack.length vs) :
    ∃ us rb' n, ringbufferPeek rb' ≠ 0 ∧ (∀ fuel ≥ n,
      (drainLoop lua checked (fuel + us.length) count rb stack =
        drainLoop lua checked fuel (count + us.length) rb' (us ++ stack)) ∧
      (rbLoadIn lua fuel rb' (us ++ stack)).All fun code _ stack' =>
        code < 0 ∧ stack'.length ≤ (us ++ stack).length) := by
  obtain ⟨us, v, ws, rfl, hus, hv⟩ := not_fitsOn hno
  obtain ⟨hwf, hok⟩ := And.intro (h.wf v (by simp)) (h.ok v (by simp))
  obtain ⟨rb', n, h', -, hn⟩ := (loadsAll_encode hl (fun u hu => h.wf u (List.mem_append_left _ hu))
    fun u hu => h.ok u (List.mem_append_left _ hu)).drain checked _ h.holds count (fitsOn_received.mpr hus)
  obtain ⟨m, hm⟩ := script_crampedIn hl v hwf hok
  refine ⟨(us.map Value.received).reverse, rb', max n m,
    peek_ne_zero h' (List.append_ne_nil_of_left_ne_nil (encode_ne_nil hok) _), fun fuel hf =>
      ⟨?_, ?_⟩⟩
  · rw [List.length_reverse]
    exact hn fuel (by omega)
  · refine hm rb' _ _ h' ?_ fuel (by omega) false
    rw [List.length_append, List.length_reverse, List.length_map]
    omega

/-- A loop that looks at the codes does not get past it. -/
theorem Carries.rejected (hl : lua.Rebuilds) {rb : Ringbuffer} {vs : List (Value P)} (h : Carries lua rb vs) (count : ℕ)
    {stack : List (Value P)} (hno : ¬ FitsOn lua stack.length vs) :
    ∃ n, ∀ fuel ≥ n, ∀ count' rb' stack', drainLoop lua true fuel count rb stack ≠
      .loaded count' rb' stack' := by
  obtain ⟨us, rb₁, n, hpeek, hn⟩ := h.drain_cramped hl true count hno
  refine ⟨n + 1 + us.length, fun fuel hf count' rb' stack' => ?_⟩
  obtain ⟨fuel, rfl⟩ : ∃ k, fuel = k + 1 + us.length := ⟨fuel - 1 - us.length, by omega⟩
  have hload := (hn fuel (by omega)).2
  rw [(hn (fuel + 1) (by omega)).1, drainLoop, if_neg hpeek]
  generalize rbLoadIn lua fuel rb₁ (us ++ stack) = o at hload
  cases o with
  | ret code rb stack =>
    simp only [Bool.true_and, decide_eq_true hload.1, if_true]
    exact nofun
  | _ => exact nofun

/-- Without a slot the loop goes round and round. -/
theorem drainLoop_full {rb : Ringbuffer} (hpeek : ringbufferPeek rb ≠ 0) {stack : List (Value P)}
    (hfull : lua.stackRoom ≤ stack.length) (fuel count : ℕ) :
    drainLoop lua false fuel count rb stack = .timeout := by
  induction fuel generalizing count with
  | zero => rfl
  | succ fuel ih =>
    rw [drainLoop, if_neg hpeek, rbLoadIn]
    cases fuel with
    | zero => rfl
    | succ fuel =>
      rw [rbLoadRcsvIn_full hfull]
      exact ih (count + 1)

/-- There are fewer values on top of `base` than were counted. -/
def Drained.Lacks (base : List (Value P)) : Drained P → Prop
  | .loaded count _ stack => ∃ xs, stack = xs ++ base ∧ xs.length < count
  | _ => True

theorem drainLoop_lacks {base : List (Value P)} (hbase : Inert base) (checked : Bool) (fuel : ℕ)
    {count : ℕ} (rb : Ringbuffer) {xs : List (Value P)} (hlt : xs.length < count) :
    (drainLoop lua checked fuel count rb (xs ++ base)).Lacks base := by
  induction fuel generalizing count rb xs with
  | zero => trivial
  | succ fuel ih =>
    rw [drainLoop]
    split_ifs
    · exact ⟨xs, rfl, hlt⟩
    have habove := (@loads_above P lua base rb.cb hbase (some lua.stackRoom) fuel).1 false rb xs rfl
    rw [← rbLoadIn] at habove
    generalize rbLoadIn lua fuel rb (xs ++ base) = o at habove
    cases o with
    | ret code rb' stack =>
      obtain ⟨-, ys, rfl, hys⟩ := habove
      simp only
      split_ifs
      · trivial
      · exact ih rb' (by omega)
    | _ => trivial

/-- The first value that does not fit is missing from then on. -/
theorem Carries.drain_lacks (hl : lua.Rebuilds) {rb : Ringbuffer} {vs : List (Value P)} (h : Carries lua rb vs)
    {base : List (Value P)} (hbase : Inert base) {count : ℕ} {xs : List (Value P)} (hle : xs.length ≤ count)
    (hno : ¬ FitsOn lua (xs ++ base).length vs) :
    ∃ n, ∀ fuel ≥ n, (drainLoop lua false fuel count rb (xs ++ base)).Lacks base := by
  obtain ⟨us, rb₁, n, hpeek, hn⟩ := h.drain_cramped hl false count hno
  refine ⟨n + 1 + us.length, fun fuel hf => ?_⟩
  obtain ⟨fuel, rfl⟩ : ∃ k, fuel = k + 1 + us.length := ⟨fuel - 1 - us.length, by omega⟩
  have hload := (hn fuel (by omega)).2
  have habove := (@loads_above P lua base rb₁.cb hbase (some lua.stackRoom) fuel).1 false rb₁
    (us ++ xs) rfl
  rw [(hn (fuel + 1) (by omega)).1, drainLoop, if_neg hpeek]
  rw [← rbLoadIn, List.append_assoc] at habove
  generalize rbLoadIn lua fuel rb₁ (us ++ (xs ++ base)) = o at hload habove
  cases o with
  | ret code rb' stack =>
    obtain ⟨-, ys, rfl, -⟩ := habove
    have hlen := hload.2
    simp only [List.length_append] at hlen
    simp only [Bool.false_and, Bool.false_eq_true, if_false]
    exact drainLoop_lacks hbase false fuel rb' (by omega)
  | _ => trivial

/-! ### What a thread is given -/

/-- The number of the thread `i`, as Lua has it. -/
def mapid (lua : Lua P) (i : ℕ) : Value P := .ofInteger lua.versionNum (UInt64.ofNat (i + 1))

theorem mapid_wf (lua : Lua P) (i : ℕ) : (mapid lua i).Wf lua := by
  rw [mapid, Value.ofInteger]
  split_ifs with hversion
  · simpa [Value.Wf, Value.parts, Value.WfNode] using hversion
  · simp [Value.Wf, Value.parts, Value.WfNode]

theorem mapid_received (lua : Lua P) (i : ℕ) : (mapid lua i).received = mapid lua i := by
  rw [mapid, Value.ofInteger]
  split_ifs <;> rfl

theorem saveArguments_carries {args : List (Value P)} (hwf : ∀ v ∈ args, v.Wf lua) {i fuel : ℕ}
    {fx : Effects} {top : ℕ} (h : saveArguments lua args i fuel = .ret 0 fx top) :
    Carries lua fx.rb (args ++ [mapid lua i]) := by
  rw [saveArguments] at h
  split at h
  · next code fx₁ top₁ hargs =>
    split_ifs at h with hcode
    · subst hcode
      have hcreate : (ringbufferCreate MAX_ARG_SIZE).Valid := Ringbuffer.create_valid (by decide)
      obtain ⟨hv₁, hcontent, rfl, hok⟩ := saveValues_saved hcreate (by omega) hargs
      obtain ⟨hv', hcontent', -, hok'⟩ := saveValues_saved hv₁ (by rw [List.length_singleton]) h
      refine ⟨hv', ?_, fun v hv => ?_, fun v hv => ?_⟩
      · rw [hcontent', hcontent, Ringbuffer.create_content, List.nil_append, List.flatMap_append]
        rfl
      · rcases List.mem_append.mp hv with hv | hv
        · exact hwf v hv
        · rw [List.mem_singleton.mp hv]
          exact mapid_wf lua i
      · exact (List.mem_append.mp hv).elim (hok v) (hok' v)
    · injection h with hzero
      exact absurd hzero hcode
  · next hne => exact absurd h (hne 0 fx top)

theorem createLoop_carries {args : List (Value P)} (hwf : ∀ v ∈ args, v.Wf lua) {fuel n i : ℕ}
    {fxs fxs' : List Effects} (h : createLoop lua args fuel n i fxs = .threads fxs') :
    ∃ new, fxs' = fxs ++ new ∧ new.length = n ∧
      ∀ j fx, new[j]? = some fx → Carries lua fx.rb (args ++ [mapid lua (i + j)]) := by
  induction n generalizing i fxs with
  | zero =>
    cases h
    exact ⟨[], (List.append_nil _).symm, rfl, nofun⟩
  | succ n ih =>
    rw [createLoop] at h
    split at h
    · next code fx₁ top₁ hargs =>
      split_ifs at h with hcode
      subst hcode
      obtain ⟨new, rfl, hlen, hnew⟩ := ih h
      refine ⟨fx₁ :: new, by rw [List.append_assoc]; rfl, by rw [List.length_cons, hlen], fun j fx hj => ?_⟩
      cases j with
      | zero =>
        cases hj
        exact saveArguments_carries hwf hargs
      | succ j =>
        have hcarries := hnew j fx hj
        rwa [Nat.add_assoc, Nat.add_comm 1 j] at hcarries
    · cases h

/-- Every thread of a new map gets the values on the stack and its number. -/
theorem coreMap_carries {args : List (Value P)} (hwf : ∀ v ∈ args, v.Wf lua) {numThreads : UInt32}
    {fuel : ℕ} {fxs : List Effects} (h : coreMap lua numThreads args fuel = .threads fxs) :
    fxs.length = numThreads.toNat ∧ ∀ i fx, fxs[i]? = some fx →
      Carries lua fx.rb (args ++ [mapid lua i]) := by
  obtain ⟨new, rfl, hlen, hnew⟩ := createLoop_carries hwf h
  refine ⟨hlen, fun i fx hi => ?_⟩
  have hcarries := hnew i fx hi
  rwa [Nat.zero_add] at hcarries

theorem serialisable_mapid (lua : Lua P) (i : ℕ) : Serialisable lua false (mapid lua i) := by
  rw [mapid, Value.ofInteger]
  split_ifs
  · exact ⟨rfl, by simp [script, integerScript, puts]⟩
  · exact ⟨rfl, by simp [script, numberScript, puts]⟩

/-- Arguments that can be stored are put into the buffer of every thread. -/
theorem saveArguments_stores {args : List (Value P)} (hargs : ∀ v ∈ args, Serialisable lua false v)
    (i : ℕ) :
    ∃ fx top, Yields (saveArguments lua args i) (.ret 0 fx top) := by
  have hcreate : (⟨ringbufferCreate MAX_ARG_SIZE, []⟩ : Effects).rb.Valid :=
    Ringbuffer.create_valid (by decide)
  have hmapid : ∀ v ∈ [mapid lua i], Serialisable lua false v := fun v hv =>
    List.mem_singleton.mp hv ▸ serialisable_mapid lua i
  obtain ⟨fx₁, hv₁, n, hn⟩ := saveValues_stores hargs hcreate
    (show 2 + args.length ≤ args.length + 1 + 1 by omega)
  obtain ⟨fx, -, m, hm⟩ := saveValues_stores hmapid hv₁
    (show args.length + 2 + [mapid lua i].length ≤ args.length + 1 + 1 + 1 by rw [List.length_singleton])
  refine ⟨fx, args.length + 1 + 1, max n m, fun fuel hf => ?_⟩
  have hfirst : saveValues lua fuel args 2 (args.length + 1) ⟨ringbufferCreate MAX_ARG_SIZE, []⟩ =
      .ret 0 fx₁ (args.length + 1) := hn fuel (by omega)
  simp only [saveArguments, hfirst, if_true]
  exact hm fuel (by omega)

theorem createLoop_stores {args : List (Value P)} (hargs : ∀ v ∈ args, Serialisable lua false v)
    (n i : ℕ) (fxs : List Effects) :
    ∃ fxs', Yields (fun fuel => createLoop lua args fuel n i fxs) (.threads fxs') := by
  induction n generalizing i fxs with
  | zero => exact ⟨fxs, 0, fun _ _ => rfl⟩
  | succ n ih =>
    obtain ⟨fx, top, m, hm⟩ := saveArguments_stores hargs i
    obtain ⟨fxs', k, hk⟩ := ih (i + 1) (fxs ++ [fx])
    refine ⟨fxs', max m k, fun fuel hf => ?_⟩
    simp only [createLoop, hm fuel (by omega), if_true]
    exact hk fuel (by omega)

/-! ### What a thread does -/

/-- A thread that ends without a failure has saved its results behind what was left in the
buffer. -/
theorem endThread_zero {w : Worker P} {fuel : ℕ} {ret : ℤ} {values : List (Value P)} {fx fx' : Effects}
    {calls calls' : List (Value P × List (Value P))} (hv : fx.rb.Valid)
    (h : endThread lua w fuel ret values fx calls = .finished 0 fx' calls') :
    ret = 0 ∧ calls' = calls ∧ fx'.rb.Valid ∧
      fx'.rb.content = fx.rb.content ++ values.flatMap (encode lua false false) ∧
      ∀ v ∈ values, (script lua false false v).fin = .ok := by
  rw [endThread] at h
  split at h
  · next code fx₁ top hsave =>
    by_cases hcode : code = 0
    · subst hcode
      rw [if_pos rfl] at h
      cases h
      obtain ⟨hv', hcontent, -, hok⟩ := saveValues_saved hv (by omega) hsave
      exact ⟨rfl, rfl, hv', hcontent, hok⟩
    · rw [if_neg hcode] at h
      injection h with hzero
      exact absurd hzero hcode
  · cases h
  · cases h
  · cases h
  · cases h
  · cases h

theorem endThread_stores (w : Worker P) (ret : ℤ) {values : List (Value P)}
    (hvs : ∀ v ∈ values, Serialisable lua false v) {fx : Effects} (hv : fx.rb.Valid)
    (calls : List (Value P × List (Value P))) :
    ∃ fx', Yields (fun fuel => endThread lua w fuel ret values fx calls) (.finished ret fx' calls) := by
  obtain ⟨fx', -, n, hn⟩ := saveValues_stores hvs hv
    (show w.base.length + 1 + values.length ≤ w.base.length + values.length + 1 by omega)
  refine ⟨fx', n, fun fuel hf => ?_⟩
  have hsave : saveValues lua fuel values (w.base.length + 1) (w.base.length + values.length) fx =
      .ret 0 fx' (w.base.length + values.length) := hn fuel hf
  simp only [endThread, hsave, if_true]

def endCall (lua : Lua P) (w : Worker P) (fuel : ℕ) (f : Value P) (args : List (Value P)) (fx : Effects)
    (calls : List (Value P × List (Value P))) : ThreadOutcome P :=
  match w.pcall calls f args with
  | .ok results => endThread lua w fuel 0 results fx (calls ++ [(f, args)])
  | .error e => endThread lua w fuel LUA_ERRRUN [e] fx (calls ++ [(f, args)])

/-- A thread that has a function and arguments in its buffer calls the one on the others. -/
theorem coreThread_calls (hl : lua.Rebuilds) (w : Worker P) {fx : Effects} {f : Value P} {args : List (Value P)}
    (h : Carries lua fx.rb (f :: args)) (hfit : FitsOn lua w.base.length (f :: args))
    (calls : List (Value P × List (Value P))) :
    ∃ rb n, Carries lua rb [] ∧ rb.cb = fx.rb.cb ∧ ∀ fuel ≥ n, coreThread lua w fuel fx calls =
      endCall lua w fuel f.received (args.map Value.received) { fx with rb := rb } calls := by
  obtain ⟨rb, hrb, hcb, n, hn⟩ := h.drain hl true 0 hfit
  refine ⟨rb, n, hrb, hcb, fun fuel hf => ?_⟩
  have hdrain := hn fuel hf
  have htake : ((((f :: args).map Value.received).reverse ++ w.base).take (0 + (f :: args).length)).reverse =
      f.received :: args.map Value.received := by
    have hlen : 0 + (f :: args).length = ((f :: args).map Value.received).reverse.length := by
      rw [List.length_reverse, List.length_map, Nat.zero_add]
    rw [hlen, List.take_left, List.reverse_reverse, List.map_cons]
  simp only at hdrain
  simp only [coreThread, hdrain, htake, endCall]

/-- Where they do not fit on its stack, it does not end. -/
theorem coreThread_cramped (hl : lua.Rebuilds) (w : Worker P) {fx : Effects} {vs : List (Value P)}
    (h : Carries lua fx.rb vs) (hno : ¬ FitsOn lua w.base.length vs) (calls : List (Value P × List (Value P))) :
    ∃ n, ∀ fuel ≥ n, ∀ ret fx' calls', coreThread lua w fuel fx calls ≠
      .finished ret fx' calls' := by
  obtain ⟨n, hn⟩ := h.rejected hl 0 hno
  refine ⟨n, fun fuel hf ret fx' calls' => ?_⟩
  have hdrain := hn fuel hf
  rw [coreThread]
  generalize drainLoop lua true fuel 0 fx.rb w.base = o at hdrain
  cases o with
  | loaded count rb stack => exact absurd rfl (hdrain count rb stack)
  | _ => exact nofun

end

end TorchIpc.Map
