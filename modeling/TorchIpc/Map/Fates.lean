import TorchIpc.Map.Marshalling
import TorchIpc.Serialize.Sizes

/-! How a thread ends, told from its function, its arguments and how its calls end. It needs
slots for what it reads. Then it saves its results or its error, up to a value that is refused
with a code, unless an error is raised meanwhile, which ends the process. -/

namespace TorchIpc.Map

open Runs

section
variable {P : Type} (lua : Lua P)

/-- What a thread still has to read when it stops, whether it has failed, and the results or
the error that it then saves. -/
structure Fate (P : Type) where
  unread : List (Value P)
  code : ℤ
  values : List (Value P)

/-- The fate of a thread that comes to its function. -/
def callFate (init : Option (Value P)) (f : Value P) (args : List (Value P)) (w : Worker P) (i : ℕ) : Fate P :=
  match w.pcall (initCalls w init) f.received (callArgs lua args i) with
  | .ok results => ⟨[], 0, results⟩
  | .error e => ⟨[], LUA_ERRRUN, [e]⟩

def fate (init : Option (Value P)) (f : Value P) (args : List (Value P)) (w : Worker P) (i : ℕ) :
    Fate P :=
  match w.libraries with
  | .error e => ⟨init.toList ++ f :: args ++ [mapid lua i], LUA_ERRRUN, [e]⟩
  | .ok _ =>
    match initCalls w init with
    | [] => callFate lua init f args w i
    | call :: _ =>
      match w.pcall [] call.1 call.2 with
      | .ok _ => callFate lua init f args w i
      | .error e => ⟨f :: args ++ [mapid lua i], LUA_ERRRUN, [e]⟩

def mapFates (init : Option (Value P)) (f : Value P) (args : List (Value P)) (w : ℕ → Worker P)
    (i : ℕ) : Fate P :=
  fate lua init f args (w i) i

/-- The thread has slots for what it reads. -/
def Reads (init : Option (Value P)) (f : Value P) (args : List (Value P)) (w : Worker P) (i : ℕ) :
    Prop :=
  w.libraries = .ok () → FitsOn lua w.base.length init.toList ∧
    ((∀ call ∈ initCalls w init, ∃ rs, w.pcall [] call.1 call.2 = .ok rs) →
      FitsOn lua w.base.length (f :: (args ++ [mapid lua i])))

/-- In a buffer with so much room the values are saved, at least up to one that is refused with a
code: no write fails inside of a key, and there is none that raises an error. -/
inductive Written : ℕ → List (Value P) → Prop where
  | nil {room} : Written room []
  | stored {room K v vs} : (script lua false false v).LastAttempt room MAX_ARG_SIZE K →
      (script lua false false v).StoredIn (roomAt room MAX_ARG_SIZE K) →
      Written (roomAt room MAX_ARG_SIZE K - (encode lua false false v).length) vs →
        Written room (v :: vs)
  | refused {room K v vs e place} : (script lua false false v).LastAttempt room MAX_ARG_SIZE K →
      overflow (script lua false false v).items (roomAt room MAX_ARG_SIZE K) = none →
      (script lua false false v).fin = .code e place → place ≠ .key → Written room (v :: vs)

/-- The room in the buffer of a thread behind what it has not read. -/
def Fate.room (t : Fate P) (fx : Effects) : ℕ :=
  fx.rb.cb - (t.unread.flatMap (encode lua false false)).length

/-- The thread that is given this buffer comes to its end. -/
def Stops (init : Option (Value P)) (f : Value P) (args : List (Value P)) (w : Worker P) (i : ℕ)
    (fx : Effects) : Prop :=
  Reads lua init f args w i ∧
    Written lua ((fate lua init f args w i).room lua fx) (fate lua init f args w i).values

end

section
variable {P : Type} {lua : Lua P}

/-! ### Saving -/

theorem saveValues_written {vs : List (Value P)} {index top : ℕ} {fx : Effects} (h : Written lua fx.rb.room vs)
    (hv : fx.rb.Valid) (hi : index + vs.length ≤ top + 1) :
    ∃ code fx' top', Yields (fun fuel => saveValues lua fuel vs index top fx) (.ret code fx' top') := by
  generalize hroom : fx.rb.room = room at h
  induction h generalizing index fx with
  | nil => exact ⟨0, fx, top, 0, fun _ _ => rfl⟩
  | @stored room K v vs hK hstored _ ih =>
    subst hroom
    rw [List.length_cons] at hi
    obtain ⟨fx₁, top₁, hv₁, hroom₁, n, hn⟩ :=
      growthLoop_stores_at settles_reset hv (show index ≤ top by omega) hK hstored
    have htop : top₁ = top :=
      growthLoop_top (by omega) (fun k _ => if_neg (Nat.not_lt.mpr (Nat.le_add_right _ _))) n
        (hn n le_rfl)
    subst htop
    obtain ⟨code, fx', top', m, hm⟩ :=
      ih hv₁ (show index + 1 + vs.length ≤ top₁ + 1 by omega) hroom₁
    refine ⟨code, fx', top', max n m, fun fuel hf => ?_⟩
    have hfirst : rbSaveWithGrowth lua v index top₁ fx fuel = .ret 0 fx₁ top₁ := hn fuel (by omega)
    simp only [saveValues, hfirst, if_true]
    exact hm fuel (by omega)
  | @refused room K v vs e place hK hfits hfin hplace =>
    subst hroom
    rw [List.length_cons] at hi
    obtain ⟨fx', top', n, hn⟩ :=
      growthLoop_refuses_at settles_reset hv (show index ≤ top by omega) hK hfits hfin hplace
    refine ⟨-e.toInt, fx', top', n, fun fuel hf => ?_⟩
    have hfirst : rbSaveWithGrowth lua v index top fx fuel = .ret (-e.toInt) fx' top' := hn fuel hf
    have hne : ¬ -e.toInt = 0 := by cases e <;> decide
    simp only [saveValues, hfirst, if_neg hne]

theorem saveValues_raises {vs : List (Value P)} {index top : ℕ} {fx : Effects} (h : ¬ Written lua fx.rb.room vs)
    (hv : fx.rb.Valid) (hi : index + vs.length ≤ top + 1) :
    ∃ e fx', Yields (fun fuel => saveValues lua fuel vs index top fx) (.raised e fx') := by
  induction vs generalizing index fx with
  | nil => exact absurd .nil h
  | cons v vs ih =>
    rw [List.length_cons] at hi
    have hle : index ≤ top := by omega
    obtain ⟨fuel, r, hr⟩ := growthLoop_terminates settles_reset (show 1 ≤ MAX_ARG_SIZE by decide)
      (show MAX_ARG_SIZE < 2 ^ 63 by decide) hv hle (script_finite lua false v)
    obtain ⟨K, hK, -, -⟩ := growthLoop_result settles_reset hv hle hr
    by_cases hstored : (script lua false false v).StoredIn (roomAt fx.rb.room MAX_ARG_SIZE K)
    · obtain ⟨fx₁, top₁, hv₁, hroom₁, n, hn⟩ := growthLoop_stores_at settles_reset hv hle hK hstored
      have htop : top₁ = top :=
        growthLoop_top (by omega) (fun k _ => if_neg (Nat.not_lt.mpr (Nat.le_add_right _ _))) n
          (hn n le_rfl)
      subst htop
      have hrest : ¬ Written lua fx₁.rb.room vs :=
        fun hrest => h (.stored hK hstored (hroom₁ ▸ hrest))
      obtain ⟨e, fx', m, hm⟩ := ih hrest hv₁ (show index + 1 + vs.length ≤ top₁ + 1 by omega)
      refine ⟨e, fx', max n m, fun fuel hf => ?_⟩
      have hfirst : rbSaveWithGrowth lua v index top₁ fx fuel = .ret 0 fx₁ top₁ :=
        hn fuel (by omega)
      simp only [saveValues, hfirst, if_true]
      exact hm fuel (by omega)
    have hraise : overflow (script lua false false v).items (roomAt fx.rb.room MAX_ARG_SIZE K) =
        some .key ∨
          (∃ e, (script lua false false v).fin = .raise e) ∨
          ∃ e, (script lua false false v).fin = .code e .key := by
      rcases hK.ends with hkey | ⟨hfits, hfinite⟩
      · exact Or.inl hkey
      cases hfin : (script lua false false v).fin with
      | ok => exact absurd ⟨hfits, hfin⟩ hstored
      | diverges => exact absurd hfin hfinite
      | raise e => exact Or.inr (Or.inl ⟨e, rfl⟩)
      | code e place =>
        by_cases hplace : place = .key
        · exact Or.inr (Or.inr ⟨e, hplace ▸ rfl⟩)
        · exact absurd (.refused hK hfits hfin hplace) h
    obtain ⟨e, fx', n, hn⟩ := growthLoop_raises_at settles_reset hv hle hK hraise
    refine ⟨e, fx', n, fun fuel hf => ?_⟩
    have hfirst : rbSaveWithGrowth lua v index top fx fuel = .raised e fx' := hn fuel hf
    simp only [saveValues, hfirst]

/-! ### A thread -/

variable {init : Option (Value P)} {w : Worker P} {f : Value P} {args : List (Value P)} {i : ℕ}
  {fx : Effects}

/-- A thread that can read what it reads saves what its fate says. -/
theorem threadBody_fate (hl : lua.Rebuilds) (h : Carries lua fx.rb (init.toList ++ f :: args ++ [mapid lua i]))
    (hreads : Reads lua init f args w i) :
    ∃ rb calls n, Carries lua rb (fate lua init f args w i).unread ∧ rb.cb = fx.rb.cb ∧
      ∀ fuel ≥ n, threadBody lua init w fx fuel = endThread lua w fuel (fate lua init f args w i).code
        (fate lua init f args w i).values { fx with rb := rb } calls := by
  have hcalled : w.libraries = .ok () →
    (∀ call ∈ initCalls w init, ∃ rs, w.pcall [] call.1 call.2 = .ok rs) →
      ∃ rb calls n, Carries lua rb (callFate lua init f args w i).unread ∧ rb.cb = fx.rb.cb ∧
        ∀ fuel ≥ n, threadBody lua init w fx fuel = endThread lua w fuel (callFate lua init f args w i).code
          (callFate lua init f args w i).values { fx with rb := rb } calls := by
    intro hlibs hinit
    obtain ⟨hfitInit, hfitArgs⟩ := hreads hlibs
    obtain ⟨rb, n, hrb, hcb, hbody⟩ := threadBody_calls hl h ⟨hfitInit, hfitArgs hinit⟩ hlibs hinit
    refine ⟨rb, initCalls w init ++ [(f.received, callArgs lua args i)], n, ?_, hcb, fun fuel hf => ?_⟩
    · rw [callFate]
      split <;> exact hrb
    · rw [hbody fuel hf, endCall, callFate]
      cases w.pcall (initCalls w init) f.received (callArgs lua args i) with
      | ok results => rfl
      | error e => rfl
  cases hlibs : w.libraries with
  | error e =>
    refine ⟨fx.rb, [], 0, ?_, rfl, fun fuel _ => ?_⟩
    · simpa only [fate, hlibs] using h
    · simp only [fate, hlibs]
      cases init with
      | none => rw [threadBody, threadFunc, hlibs]
      | some v => rw [threadBody, threadExtendedFunc, hlibs]
  | ok u =>
    cases init with
    | none => simpa only [fate, hlibs, initCalls] using hcalled hlibs (by rintro _ ⟨⟩)
    | some v =>
      by_cases hnil : (w.initialiser v.received).isNil = true
      · have hnone : initCalls w (some v) = [] := if_pos hnil
        simpa only [fate, hlibs, hnone] using hcalled hlibs (by rw [hnone]; rintro _ ⟨⟩)
      have hsome : initCalls w (some v) = [(w.initialiser v.received, [])] := if_neg hnil
      cases hcall : w.pcall [] (w.initialiser v.received) [] with
      | ok rs =>
        simpa only [fate, hlibs, hsome, hcall] using hcalled hlibs (by
          intro call hmem
          rw [hsome, List.mem_singleton] at hmem
          exact ⟨rs, hmem ▸ hcall⟩)
      | error e =>
        have hv : Carries lua fx.rb (v :: (f :: args ++ [mapid lua i])) := h
        obtain ⟨rb₁, hrb₁, hcb, m, hm⟩ := hv.load hl (hreads hlibs).1.1
        refine ⟨rb₁, [(w.initialiser v.received, [])], m, ?_, hcb, fun fuel hf => ?_⟩
        · simpa only [fate, hlibs, hsome, hcall] using hrb₁
        · have hload : rbLoadIn lua fuel fx.rb w.base = .ret 1 rb₁ (v.received :: w.base) :=
            hm fuel hf
          simp only [fate, hlibs, hsome, hcall]
          rw [threadBody, threadExtendedFunc, hlibs, hload]
          simp only [lt_irrefl, hnil, Bool.false_eq_true, if_false, hcall]

theorem threadBody_unread (hl : lua.Rebuilds) (h : Carries lua fx.rb (init.toList ++ f :: args ++ [mapid lua i]))
    (hno : ¬ Reads lua init f args w i) :
    ∃ n, ∀ fuel ≥ n, ∀ ret fx' calls, threadBody lua init w fx fuel ≠ .finished ret fx' calls := by
  rw [Reads, Classical.not_imp] at hno
  obtain ⟨hlibs, hno⟩ := hno
  by_cases hfit : FitsOn lua w.base.length init.toList
  · obtain ⟨hinit, hargs⟩ := Classical.not_imp.mp (not_and.mp hno hfit)
    exact threadBody_cramped hl h (fun hboth => hargs hboth.2) hlibs hinit
  · rw [List.append_assoc] at h
    exact initialiser_cramped hl h hlibs hfit

theorem Carries.room_eq {rb : Ringbuffer} {vs : List (Value P)} (h : Carries lua rb vs) :
    rb.room = rb.cb - (vs.flatMap (encode lua false false)).length := by
  rw [← h.content_eq, h.valid.length_content]
  rfl

/-- A thread stops, with its fate; or the process is aborted; or it never comes to save anything. -/
theorem threadBody_stops (hl : lua.Rebuilds) (h : Carries lua fx.rb (init.toList ++ f :: args ++ [mapid lua i]))
    (hstops : Stops lua init f args w i fx) :
    ∃ ret fx' calls, Yields (threadBody lua init w fx) (.finished ret fx' calls) := by
  obtain ⟨hreads, hwritten⟩ := hstops
  obtain ⟨rb, calls, n, hrb, hcb, hbody⟩ := threadBody_fate hl h hreads
  have hunread : Carries lua ({ fx with rb := rb } : Effects).rb (fate lua init f args w i).unread := hrb
  have hroom := hunread.room_eq
  rw [show ({ fx with rb := rb } : Effects).rb.cb = fx.rb.cb from hcb] at hroom
  rw [Fate.room, ← hroom] at hwritten
  obtain ⟨code, fx', top', m, hm⟩ := saveValues_written hwritten hunread.valid
    (show w.base.length + 1 + _ ≤ w.base.length + (fate lua init f args w i).values.length + 1 by omega)
  refine ⟨if code = 0 then (fate lua init f args w i).code else code, fx', calls, max n m, fun fuel hf => ?_⟩
  have hsaved : saveValues lua fuel (fate lua init f args w i).values (w.base.length + 1)
      (w.base.length + (fate lua init f args w i).values.length) { fx with rb := rb } =
        .ret code fx' top' :=
    hm fuel (by omega)
  rw [hbody fuel (by omega), endThread, hsaved]

/-- An error that is raised while a thread saves is raised outside of a protected call. -/
theorem threadBody_panics (hl : lua.Rebuilds) (h : Carries lua fx.rb (init.toList ++ f :: args ++ [mapid lua i]))
    (hreads : Reads lua init f args w i)
    (hno : ¬ Written lua ((fate lua init f args w i).room lua fx) (fate lua init f args w i).values) :
    Yields (threadBody lua init w fx) .panicked := by
  obtain ⟨rb, calls, n, hrb, hcb, hbody⟩ := threadBody_fate hl h hreads
  have hunread : Carries lua ({ fx with rb := rb } : Effects).rb (fate lua init f args w i).unread := hrb
  have hroom := hunread.room_eq
  rw [show ({ fx with rb := rb } : Effects).rb.cb = fx.rb.cb from hcb] at hroom
  rw [Fate.room, ← hroom] at hno
  obtain ⟨e, fx', m, hm⟩ := saveValues_raises hno hunread.valid
    (show w.base.length + 1 + _ ≤ w.base.length + (fate lua init f args w i).values.length + 1 by omega)
  refine ⟨max n m, fun fuel hf => ?_⟩
  have hsaved : saveValues lua fuel (fate lua init f args w i).values (w.base.length + 1)
      (w.base.length + (fate lua init f args w i).values.length) { fx with rb := rb } =
        .raised e fx' :=
    hm fuel (by omega)
  rw [hbody fuel (by omega), endThread, hsaved]

theorem threadBody_ends_iff (hl : lua.Rebuilds) (h : Carries lua fx.rb (init.toList ++ f :: args ++ [mapid lua i])) :
    (∃ ret fx' calls, Yields (threadBody lua init w fx) (.finished ret fx' calls)) ↔
    Stops lua init f args w i fx := by
  refine ⟨fun ⟨ret, fx', calls, hy⟩ => ?_, threadBody_stops hl h⟩
  obtain ⟨n, hn⟩ := hy
  have hreads : Reads lua init f args w i := by
    by_contra hno
    obtain ⟨m, hm⟩ := threadBody_unread hl h hno
    exact hm (max n m) (by omega) ret fx' calls (hn (max n m) (by omega))
  refine ⟨hreads, ?_⟩
  by_contra hno
  obtain ⟨m, hm⟩ := threadBody_panics hl h hreads hno
  cases (hn (max n m) (by omega)).symm.trans (hm (max n m) (by omega))

end

end TorchIpc.Map
