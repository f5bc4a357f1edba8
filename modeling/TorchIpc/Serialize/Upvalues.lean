import TorchIpc.Serialize.Closures

/-! Functions with their upvalues, and what they should be on the other side: the same code,
`_ENV` the globals of the reader, and the other upvalues as they were. A nil upvalue is not
written, so that the loader leaves what `lua_load` has put there, which is not always nil. -/

namespace TorchIpc

section
variable {P : Type} (lua : Lua P)

/-! ### What should come back -/

mutual

/-- The value, with the globals of the reader for every `_ENV`. -/
def Value.rebuilt : Value P → Value P
  | .table es typename => .table (rebuiltEntries es) typename
  | .function p ups => .function p (rebuiltUpvals (lua.upvalueNames p) ups)
  | .nil => .nil
  | .boolean b => .boolean b
  | .lightuserdata => .lightuserdata
  | .number bits => .number bits
  | .integer n => .integer n
  | .string bytes => .string bytes
  | .cfunction => .cfunction
  | .userdata typename ptr => .userdata typename ptr
  | .thread => .thread

def rebuiltEntries : List (Value P × Value P) → List (Value P × Value P)
  | [] => []
  | (k, v) :: es => (k.rebuilt, v.rebuilt) :: rebuiltEntries es

def rebuiltUpvals : List String → List (Option (Value P)) → List (Option (Value P))
  | name :: names, some v :: us => (if name = "_ENV" then none else some v.rebuilt) :: rebuiltUpvals names us
  | _ :: names, none :: us => none :: rebuiltUpvals names us
  | _, [] => []
  | [], _ :: _ => []

end

mutual

/-- The value and everything that goes along with it, in its tables and in the upvalues of
its functions. -/
def Value.deepParts : Value P → List (Value P)
  | .table es typename => .table es typename :: entriesDeepParts es
  | .function p ups => .function p ups :: upvalsDeepParts (lua.upvalueNames p) ups
  | .nil => [.nil]
  | .boolean b => [.boolean b]
  | .lightuserdata => [.lightuserdata]
  | .number bits => [.number bits]
  | .integer n => [.integer n]
  | .string bytes => [.string bytes]
  | .cfunction => [.cfunction]
  | .userdata typename ptr => [.userdata typename ptr]
  | .thread => [.thread]

def entriesDeepParts : List (Value P × Value P) → List (Value P)
  | [] => []
  | (k, v) :: es => k.deepParts ++ v.deepParts ++ entriesDeepParts es

def upvalsDeepParts : List String → List (Option (Value P)) → List (Value P)
  | name :: names, some v :: us => (if name = "_ENV" then [] else v.deepParts) ++ upvalsDeepParts names us
  | _ :: names, none :: us => upvalsDeepParts names us
  | _, [] => []
  | [], _ :: _ => []

end

/-- The kinds of values that can be serialised with upvalues. The only upvalue that is the
table of the globals is `_ENV`: another one would take all of it along, which is cyclic. -/
def Value.MovableNode : Value P → Prop
  | .nil | .boolean _ | .number _ | .integer _ | .string _ | .table _ _ => True
  | .function p ups => ∀ x ∈ (lua.upvalueNames p).zip ups, x.2 = none → x.1 = "_ENV"
  | .userdata typename ptr => typename ≠ .none ∧ lua.retain typename ptr = .called
  | _ => False

def Value.Movable (v : Value P) : Prop := ∀ w ∈ v.deepParts lua, w.MovableNode lua

/-- `lua_load` puts the globals into the first of `n` upvalues, whatever its name. -/
def fillsFirst (n : ℕ) : Bool := 503 ≤ lua.versionNum || (502 ≤ lua.versionNum && n = 1)

/-- The first upvalue is nil, and not `_ENV`. -/
def headNil : List String → List (Option (Value P)) → Bool
  | name :: _, some v :: _ => name ≠ "_ENV" && v.isNil
  | _, _ => false

/-- The first upvalue of the function is nil and not `_ENV`, and `lua_load` sets it. -/
def Value.startsNil : Value P → Bool
  | .function p ups => fillsFirst lua ups.length && headNil (lua.upvalueNames p) ups
  | _ => false

/-- A function has one upvalue named `_ENV` at most. -/
def Lua.EnvOnce : Prop := ∀ p, (lua.upvalueNames p).count "_ENV" ≤ 1

end

section
variable {P : Type} {lua : Lua P}

theorem Value.self_mem_deepParts (v : Value P) : v ∈ v.deepParts lua := by
  cases v <;> simp [Value.deepParts]

theorem forall_deepParts_table {p : Value P → Prop} {es : List (Value P × Value P)} {typename : TypeName} :
    (∀ w ∈ (Value.table es typename).deepParts lua, p w) ↔ p (.table es typename) ∧
    ∀ w ∈ entriesDeepParts lua es, p w := by
  simp [Value.deepParts]

theorem forall_deepParts_function {p : Value P → Prop} {proto : P} {ups : List (Option (Value P))} :
    (∀ w ∈ (Value.function proto ups).deepParts lua, p w) ↔
      p (.function proto ups) ∧ ∀ w ∈ upvalsDeepParts lua (lua.upvalueNames proto) ups, p w := by
  simp [Value.deepParts]

theorem forall_deepParts_cons {p : Value P → Prop} {k v : Value P} {es : List (Value P × Value P)} :
    (∀ w ∈ entriesDeepParts lua ((k, v) :: es), p w) ↔
      (∀ w ∈ k.deepParts lua, p w) ∧ (∀ w ∈ v.deepParts lua, p w) ∧ ∀ w ∈ entriesDeepParts lua es,
      p w := by
  simp only [entriesDeepParts, List.mem_append, or_imp, forall_and, and_assoc]

theorem forall_deepParts_some {p : Value P → Prop} {name : String} {names : List String} {v : Value P}
    {us : List (Option (Value P))} :
    (∀ w ∈ upvalsDeepParts lua (name :: names) (some v :: us), p w) ↔
      (name ≠ "_ENV" → ∀ w ∈ v.deepParts lua, p w) ∧ ∀ w ∈ upvalsDeepParts lua names us, p w := by
  rw [upvalsDeepParts]
  split_ifs with hname <;> simp [hname, or_imp, forall_and]

/-! ### What is accepted -/

theorem functionScript_upval_ok {p : P} {table : Script} :
    (functionScript lua true p table).fin = .ok ↔ lua.lineDefined p ≠ 0 ∧ table.fin = .ok := by
  rw [functionScript, seq_fin rfl, whatIsL]
  by_cases hline : lua.lineDefined p = 0
  · simp [hline]
  · rw [if_neg (by simpa using hline), seq_fin rfl, seq_fin rfl, seq_fin rfl, upvalsTail, if_pos (Bool.true_or _)]
    simp [seq_fin_ok, hline, End.mapPlace_ok]

theorem userdataScript_retained_ok {typename : TypeName} (hne : typename ≠ .none) {ptr : UInt64}
    (hretain : lua.retain typename ptr = .called) :
    (userdataScript lua false typename ptr).fin = .ok := by
  rw [userdataScript, if_neg Bool.false_ne_true]
  cases typename with
  | none => exact absurd rfl hne
  | torch name => simp [hretain, seq_fin_ok]
  | metatable name => simp [hretain, seq_fin_ok]

mutual

/-- Such a value is accepted unless a main chunk is in it. -/
theorem script_upval_ok_iff (v : Value P) (hmov : ∀ w ∈ v.deepParts lua, w.MovableNode lua)
    (hwf : v.DeepWf lua) :
    (script lua false true v).fin = .ok ↔ ∀ w ∈ v.deepParts lua, w.isMainChunk lua = false := by
  have hnode := hmov v v.self_mem_deepParts
  cases v with
  | table es typename =>
    rw [Value.DeepWf] at hwf
    rw [script, tableScript_fin_ok, forall_deepParts_table,
      entriesScript_upval_ok_iff es (forall_deepParts_table.mp hmov).2 hwf.2]
    simp [Value.isMainChunk]
  | function p ups =>
    rw [Value.DeepWf] at hwf
    obtain ⟨hself, hups⟩ := forall_deepParts_function.mp hmov
    rw [script, functionScript_upval_ok, tableScript_fin_ok, forall_deepParts_function,
      upvalsScript_upval_ok_iff 1 (lua.upvalueNames p) ups hself hups hwf.2.2]
    simp [Value.isMainChunk]
  | userdata typename ptr =>
    obtain ⟨hne, hretain⟩ := hnode
    rw [script]
    simp [userdataScript_retained_ok hne hretain, Value.deepParts, Value.isMainChunk]
  | nil => simp [script, Value.deepParts, Value.isMainChunk]
  | boolean b => simp [script, Value.deepParts, Value.isMainChunk]
  | number bits => simp [script, numberScript, Value.deepParts, Value.isMainChunk]
  | integer n => simp [script, integerScript, Value.deepParts, Value.isMainChunk]
  | string bytes => simp [script, Value.deepParts, Value.isMainChunk]
  | lightuserdata => exact hnode.elim
  | cfunction => exact hnode.elim
  | thread => exact hnode.elim

theorem entriesScript_upval_ok_iff (es : List (Value P × Value P))
    (hmov : ∀ w ∈ entriesDeepParts lua es, w.MovableNode lua) (hwf : entriesDeepWf lua es) :
    (entriesScript lua false true es).fin = .ok ↔ ∀ w ∈ entriesDeepParts lua es,
    w.isMainChunk lua = false := by
  match es with
  | [] => simp [entriesScript, entriesDeepParts]
  | (k, v) :: es =>
    rw [entriesDeepWf] at hwf
    obtain ⟨hk, hv, hes⟩ := forall_deepParts_cons.mp hmov
    rw [entriesScript, entryScript_fin_ok, forall_deepParts_cons, script_upval_ok_iff k hk hwf.1,
      script_upval_ok_iff v hv hwf.2.1, entriesScript_upval_ok_iff es hes hwf.2.2]

theorem upvalsScript_upval_ok_iff (i : ℕ) (names : List String) (ups : List (Option (Value P)))
    (hself : ∀ x ∈ names.zip ups, x.2 = none → x.1 = "_ENV")
    (hmov : ∀ w ∈ upvalsDeepParts lua names ups, w.MovableNode lua) (hwf : upvalsDeepWf lua ups) :
    (upvalsScript lua false true i names ups).fin = .ok ↔
      ∀ w ∈ upvalsDeepParts lua names ups, w.isMainChunk lua = false := by
  match names, ups with
  | name :: names, none :: us =>
    rw [upvalsDeepWf] at hwf
    obtain rfl : name = "_ENV" := hself (name, none) (by rw [List.zip_cons_cons]; exact List.mem_cons_self) rfl
    rw [upvalsScript, if_pos rfl, upvalsDeepParts]
    rw [upvalsDeepParts] at hmov
    exact upvalsScript_upval_ok_iff (i + 1) names us
      (fun x hx => hself x (by rw [List.zip_cons_cons]; exact List.mem_cons_of_mem _ hx)) hmov hwf
  | name :: names, some v :: us =>
    rw [upvalsDeepWf] at hwf
    obtain ⟨hv, hus⟩ := forall_deepParts_some.mp hmov
    have ih := upvalsScript_upval_ok_iff (i + 1) names us
      (fun x hx => hself x (by rw [List.zip_cons_cons]; exact List.mem_cons_of_mem _ hx)) hus hwf.2
    rw [forall_deepParts_some, upvalsScript]
    split_ifs with hname hnil
    · rw [ih]
      simp [hname]
    · have hdeep : v.deepParts lua = [.nil] := by
        cases v with
        | nil => rw [Value.deepParts]
        | _ => cases hnil
      rw [ih, hdeep]
      simp [Value.isMainChunk]
    · rw [entryScript_fin_ok, ih, script_upval_ok_iff v (hv hname) hwf.1]
      have hkey : (upvalKeyScript lua.versionNum i).fin = .ok := by
        rw [upvalKeyScript]
        split_ifs <;> rfl
      simp [hname, hkey]
  | [], [] => simp [upvalsScript, upvalsDeepParts]
  | _ :: _, [] => simp [upvalsScript, upvalsDeepParts]
  | [], _ :: _ => simp [upvalsScript, upvalsDeepParts]

end

/-! ### What comes back -/

/-- What a fresh function has when `_ENV` is set. -/
def freshWithEnv : List String → List (Option (Value P)) → List (Option (Value P)) :=
  List.zipWith fun name f => if name = "_ENV" then none else f

theorem envIdx_eq_neg_one {i : ℕ} {names : List String} (h : "_ENV" ∉ names) : envIdx i names = -1 := by
  induction names generalizing i with
  | nil => rfl
  | cons name names ih =>
    rw [List.mem_cons, not_or] at h
    rw [envIdx, ih h.2]
    exact if_neg fun hname => h.1 hname.2.symm

theorem freshWithEnv_of_not_mem {names : List String} {fresh : List (Option (Value P))} (h : "_ENV" ∉ names)
    (hlen : fresh.length = names.length) : freshWithEnv names fresh = fresh := by
  induction names generalizing fresh with
  | nil =>
    rw [List.length_nil, List.length_eq_zero_iff] at hlen
    rw [hlen]
    rfl
  | cons name names ih =>
    obtain ⟨f, fresh, rfl⟩ := List.exists_cons_of_length_eq_add_one hlen
    rw [List.mem_cons, not_or] at h
    rw [freshWithEnv, List.zipWith_cons_cons, if_neg (Ne.symm h.1)]
    exact congrArg (f :: ·) (ih h.2 (Nat.succ.inj hlen))

/-- `lua_setupvalue` with the index that was written, counted from `i`. -/
theorem set_envIdx {i : ℕ} {names : List String} {fresh : List (Option (Value P))} (hone : names.count "_ENV" ≤ 1)
    (hlen : fresh.length = names.length) :
    (if envIdx i names = -1 then fresh else fresh.set (envIdx i names - i).toNat none) =
      freshWithEnv names fresh := by
  induction names generalizing i fresh with
  | nil =>
    rw [List.length_nil, List.length_eq_zero_iff] at hlen
    rw [hlen]
    rfl
  | cons name names ih =>
    obtain ⟨f, fresh, rfl⟩ := List.exists_cons_of_length_eq_add_one hlen
    replace hlen : fresh.length = names.length := Nat.succ.inj hlen
    rw [freshWithEnv, List.zipWith_cons_cons]
    change _ = _ :: freshWithEnv names fresh
    by_cases hname : name = "_ENV"
    · subst hname
      have hrest : "_ENV" ∉ names := by
        rw [List.count_cons_self] at hone
        exact List.count_eq_zero.mp (by omega)
      rw [if_pos rfl, freshWithEnv_of_not_mem hrest hlen, envIdx, envIdx_eq_neg_one hrest]
      simp
    · rw [if_neg hname, ← ih (i := i + 1) (by rwa [List.count_cons_of_ne hname] at hone) hlen]
      have hbounds := envIdx_bounds (i + 1) names
      simp only [envIdx, hname, and_false, if_false]
      split_ifs with hnone
      · rfl
      · push_cast at hbounds ⊢
        rw [show (envIdx (i + 1) names - (i : ℤ)).toNat = (envIdx (i + 1) names - ((i : ℤ) + 1)).toNat + 1 by omega,
          List.set_cons_succ]

theorem setEnv_eq {names : List String} {fresh : List (Option (Value P))} (hone : names.count "_ENV" ≤ 1)
    (hlen : fresh.length = names.length) :
    setEnv (envIdx 1 names) fresh = freshWithEnv names fresh := by
  have hbounds := envIdx_bounds 1 names
  rw [← set_envIdx (i := 1) hone hlen, setEnv]
  push_cast at hbounds ⊢
  split_ifs <;> first | rfl | omega

/-- Fresh upvalues are nil, but for the first one. -/
def freshFrom (first : Option (Value P)) (n : ℕ) : List (Option (Value P)) :=
  (List.replicate n (some .nil)).set 0 first

theorem freshFrom_succ (first : Option (Value P)) (n : ℕ) :
    freshFrom first (n + 1) = first :: freshFrom (some .nil) n := by
  rw [freshFrom, List.replicate_succ, List.set_cons_zero, freshFrom]
  cases n with
  | zero => rfl
  | succ n => rw [List.replicate_succ, List.set_cons_zero]

theorem freshUpvals_eq (lua : Lua P) (n : ℕ) :
    (freshUpvals lua.versionNum n : List (Option (Value P))) =
      freshFrom (if fillsFirst lua n then none else some .nil) n := by
  rw [freshUpvals, fillsFirst]
  by_cases h503 : 503 ≤ lua.versionNum
  · simp [h503, freshFrom]
  · by_cases h502 : 502 ≤ lua.versionNum ∧ n = 1
    · simp [h502, freshFrom]
    · have hnot : (502 ≤ lua.versionNum && n = 1) = false := by simpa using h502
      simp only [h503, h502, if_false, decide_false, Bool.false_or, hnot, Bool.false_eq_true]
      cases n with
      | zero => rfl
      | succ n => rw [freshFrom, List.replicate_succ, List.set_cons_zero]

mutual

/-- The value comes back as it should, unless a function starts with a nil that is lost. -/
theorem loaded_eq_rebuilt_iff (hone : lua.EnvOnce) (v : Value P) (hmov : ∀ w ∈ v.deepParts lua, w.MovableNode lua)
    (hwf : v.DeepWf lua) : v.loaded lua = v.rebuilt lua ↔ ∀ w ∈ v.deepParts lua,
    w.startsNil lua = false := by
  cases v with
  | table es typename =>
    rw [Value.DeepWf] at hwf
    rw [Value.loaded, Value.rebuilt, forall_deepParts_table,
      ← loadedEntries_eq_rebuilt_iff hone es (forall_deepParts_table.mp hmov).2 hwf.2]
    simp [Value.startsNil]
  | function p ups =>
    rw [Value.DeepWf] at hwf
    obtain ⟨hself, hups⟩ := forall_deepParts_function.mp hmov
    have hupvals := loadedUpvals_eq_rebuilt_iff hone (lua.upvalueNames p) ups
      (if fillsFirst lua ups.length then none else some .nil) hwf.1 hself hups hwf.2.2
    rw [Value.loaded, Value.rebuilt, forall_deepParts_function, ← hwf.1, freshUpvals_eq,
      setEnv_eq (hone p) (by rw [← freshUpvals_eq, freshUpvals_length, hwf.1]),
        Value.function.injEq, hupvals]
    refine (and_iff_right rfl).trans (and_congr_left fun _ => ?_)
    rw [Value.startsNil]
    cases fillsFirst lua ups.length <;> simp
  | nil => simp [Value.loaded, Value.rebuilt, Value.deepParts, Value.startsNil]
  | boolean b => simp [Value.loaded, Value.rebuilt, Value.deepParts, Value.startsNil]
  | number bits => simp [Value.loaded, Value.rebuilt, Value.deepParts, Value.startsNil]
  | integer n => simp [Value.loaded, Value.rebuilt, Value.deepParts, Value.startsNil]
  | string bytes => simp [Value.loaded, Value.rebuilt, Value.deepParts, Value.startsNil]
  | lightuserdata => simp [Value.loaded, Value.rebuilt, Value.deepParts, Value.startsNil]
  | cfunction => simp [Value.loaded, Value.rebuilt, Value.deepParts, Value.startsNil]
  | userdata typename ptr => simp [Value.loaded, Value.rebuilt, Value.deepParts, Value.startsNil]
  | thread => simp [Value.loaded, Value.rebuilt, Value.deepParts, Value.startsNil]

theorem loadedEntries_eq_rebuilt_iff (hone : lua.EnvOnce) (es : List (Value P × Value P))
    (hmov : ∀ w ∈ entriesDeepParts lua es, w.MovableNode lua) (hwf : entriesDeepWf lua es) :
    loadedEntries lua es = rebuiltEntries lua es ↔ ∀ w ∈ entriesDeepParts lua es,
      w.startsNil lua = false := by
  match es with
  | [] => simp [loadedEntries, rebuiltEntries, entriesDeepParts]
  | (k, v) :: es =>
    rw [entriesDeepWf] at hwf
    obtain ⟨hk, hv, hes⟩ := forall_deepParts_cons.mp hmov
    rw [loadedEntries, rebuiltEntries, forall_deepParts_cons, ← loaded_eq_rebuilt_iff hone k hk hwf.1,
      ← loaded_eq_rebuilt_iff hone v hv hwf.2.1, ← loadedEntries_eq_rebuilt_iff hone es hes hwf.2.2]
    simp [and_assoc]

theorem loadedUpvals_eq_rebuilt_iff (hone : lua.EnvOnce) (names : List String) (ups : List (Option (Value P)))
    (first : Option (Value P)) (hlen : ups.length = names.length)
    (hself : ∀ x ∈ names.zip ups, x.2 = none → x.1 = "_ENV")
    (hmov : ∀ w ∈ upvalsDeepParts lua names ups, w.MovableNode lua) (hwf : upvalsDeepWf lua ups) :
    loadedUpvals lua names (freshWithEnv names (freshFrom first ups.length)) ups =
      rebuiltUpvals lua names ups ↔
      (headNil names ups = true → first = some .nil) ∧
        ∀ w ∈ upvalsDeepParts lua names ups, w.startsNil lua = false := by
  match names, ups with
  | name :: names, u :: us =>
    have hself' : ∀ x ∈ names.zip us, x.2 = none → x.1 = "_ENV" :=
      fun x hx => hself x (by rw [List.zip_cons_cons]; exact List.mem_cons_of_mem _ hx)
    rw [List.length_cons, freshFrom_succ, freshWithEnv, List.zipWith_cons_cons]
    change loadedUpvals lua (name :: names)
      (_ :: freshWithEnv names (freshFrom (some .nil) us.length)) (u :: us) = _ ↔ _
    match u with
    | none =>
      rw [upvalsDeepWf] at hwf
      rw [upvalsDeepParts] at hmov
      obtain rfl : name = "_ENV" := hself (name, none) (by rw [List.zip_cons_cons]; exact List.mem_cons_self) rfl
      rw [loadedUpvals, rebuiltUpvals, upvalsDeepParts, if_pos rfl, List.cons.injEq,
        loadedUpvals_eq_rebuilt_iff hone names us (some .nil) (Nat.succ.inj hlen) hself' hmov hwf]
      simp [headNil]
    | some v =>
      rw [upvalsDeepWf] at hwf
      obtain ⟨hv, hus⟩ := forall_deepParts_some.mp hmov
      rw [loadedUpvals, rebuiltUpvals, forall_deepParts_some, List.cons.injEq,
        loadedUpvals_eq_rebuilt_iff hone names us (some .nil) (Nat.succ.inj hlen) hself' hus hwf.2]
      by_cases hname : name = "_ENV"
      · simp [hname, headNil]
      · cases hnil : v.isNil with
        | true =>
          obtain rfl : v = .nil := by
            cases v with
            | nil => rfl
            | _ => cases hnil
          simp [hname, headNil, Value.isNil, Value.rebuilt, Value.deepParts, Value.startsNil]
        | false =>
          have hdeep := loaded_eq_rebuilt_iff hone v (hv hname) hwf.1
          simp [hname, headNil, hnil, hdeep]
  | [], [] => simp [loadedUpvals, rebuiltUpvals, upvalsDeepParts, headNil, freshWithEnv]

end

/-! ### The round trip -/

/-- `rb_save` with `upval` appends the encoding, and `rb_load` makes of it what it should. -/
def ClosureRoundTrip (lua : Lua P) (v : Value P) (index : ℕ) (fx : Effects) (top : ℕ) : Prop :=
  ∃ fx', rbSave lua false true v index fx top = .ret 0 fx' top ∧
    fx'.rb.Valid ∧ fx'.rb.content = fx.rb.content ++ encode lua false true v ∧
    ∃ n, ∀ rb rest stack, rb.Valid → rb.content = encode lua false true v ++ rest →
      ∃ rb', rb'.Valid ∧ rb'.content = rest ∧
        ∀ fuel ≥ n, rbLoad lua fuel rb stack = .ret 1 rb' (v.rebuilt lua :: stack)

/-- The round trip is made by what is accepted and comes back as it should. -/
theorem closureRoundTrip_iff_loaded (hl : lua.Rebuilds) (v : Value P) (hwf : v.DeepWf lua) (fx : Effects)
    (hrb : fx.rb.Valid) (hroom : (encode lua false true v).length ≤ fx.rb.room) (index top : ℕ)
    (hi : index ≤ top) :
    ClosureRoundTrip lua v index fx top ↔ (script lua false true v).fin = .ok ∧
      v.loaded lua = v.rebuilt lua := by
  obtain ⟨fx', happ, hrun⟩ :=
    run_of_fits (if index = top then 0 else 1) (script lua false true v) fx top hrb hroom
  rw [← rbSave_eq lua false true v hi] at hrun
  constructor
  · rintro ⟨fx'', hsave, -, -, n, hn⟩
    have hok := outcome_eq_ret_zero (hrun.symm.trans hsave)
    refine ⟨hok, ?_⟩
    -- a buffer with the encoding in front is read in both ways
    obtain ⟨m, hm⟩ := loads_deep hl false v hwf hok (by rintro ⟨⟩)
    obtain ⟨rb, hvalid, hcontent⟩ := Ringbuffer.exists_content (encode lua false true v ++ [])
    obtain ⟨rb₁, -, -, hload₁⟩ := hn rb [] [] hvalid hcontent
    obtain ⟨rb₂, -, hload₂⟩ := hm rb [] [] ⟨hvalid, hcontent⟩
    have hsame := (hload₁ (max n m) (le_max_left n m)).symm.trans (hload₂ (max n m) (le_max_right n m))
    simp only [LoadOutcome.ret.injEq, List.cons.injEq] at hsame
    exact hsame.2.2.1.symm
  · rintro ⟨hok, heq⟩
    rw [hok] at hrun
    obtain ⟨n, hn⟩ := loads_deep hl false v hwf hok (by rintro ⟨⟩)
    refine ⟨fx', hrun, happ.valid, happ.content_eq, n, fun rb rest stack hv hc => ?_⟩
    obtain ⟨rb', h', hload⟩ := hn rb rest stack ⟨hv, hc⟩
    rw [heq] at hload
    exact ⟨rb', h'.valid, h'.content_eq, hload⟩

/-- Every closure makes the round trip, unless it contains the main part of a chunk, or a
function whose first upvalue is nil where `lua_load` puts the globals. -/
theorem closureRoundTrip_iff (hl : lua.Rebuilds) (hone : lua.EnvOnce) (v : Value P) (hwf : v.DeepWf lua)
    (hmov : v.Movable lua) (fx : Effects) (hrb : fx.rb.Valid)
    (hroom : (encode lua false true v).length ≤ fx.rb.room) (index top : ℕ) (hi : index ≤ top) :
    ClosureRoundTrip lua v index fx top ↔
      ∀ w ∈ v.deepParts lua, w.isMainChunk lua = false ∧ w.startsNil lua = false := by
  rw [closureRoundTrip_iff_loaded hl v hwf fx hrb hroom index top hi, script_upval_ok_iff v hmov hwf,
    loaded_eq_rebuilt_iff hone v hmov hwf, forall₂_and]

end

/-- The small Lua with other names for the upvalues of its functions. -/
def closureLua (names : List String) : Lua UInt8 :=
  { sampleLua with upvalueNames := fun _ => names }

theorem closureLua_rebuilds (names : List String) : (closureLua names).Rebuilds :=
  ⟨sampleLua_rebuilds.dump_ne_nil, sampleLua_rebuilds.undump_done, sampleLua_rebuilds.undump_more⟩

/-- A counter that starts at nil, behind `_ENV`. -/
theorem closureRoundTrip_iff_second :
    ClosureRoundTrip (closureLua ["_ENV", "x"]) (.function 1 [none, some .nil]) 1 ⟨ringbufferCreate 128, []⟩ 1 := by
  have hwf : (Value.function (1 : UInt8) [none, some .nil]).DeepWf (closureLua ["_ENV", "x"]) := by
    simp [Value.DeepWf, upvalsDeepWf, closureLua]
  have hmov : (Value.function (1 : UInt8) [none, some .nil]).Movable (closureLua ["_ENV", "x"]) := by
    refine forall_deepParts_function.mpr ⟨fun x hx hnone => ?_, by simp [closureLua, upvalsDeepParts, Value.deepParts,
      Value.MovableNode]⟩
    rcases List.mem_pair.mp hx with rfl | rfl
    · rfl
    · cases hnone
  have hone : (closureLua ["_ENV", "x"]).EnvOnce := fun _ => show ["_ENV", "x"].count "_ENV" ≤ 1 by decide
  exact (closureRoundTrip_iff (closureLua_rebuilds _) hone (.function 1 [none, some .nil]) hwf hmov
    ⟨ringbufferCreate 128, []⟩ (Ringbuffer.create_valid (by decide)) (by decide +kernel) 1 1 le_rfl).mpr (by
      simp [Value.deepParts, upvalsDeepParts, closureLua, Value.isMainChunk, Value.startsNil, headNil, sampleLua])

/-- `local x; function() return x end` comes back with the globals for `x`. -/
theorem nil_upvalue_lost : (closureLua ["x"]).EnvOnce ∧
    (Value.function (1 : UInt8) [some .nil]).DeepWf (closureLua ["x"]) ∧
    (Value.function (1 : UInt8) [some .nil]).Movable (closureLua ["x"]) ∧
    (encode (closureLua ["x"]) false true (.function 1 [some .nil])).length ≤ (ringbufferCreate 128).room ∧
    (Value.function (1 : UInt8) [some .nil]).loaded (closureLua ["x"]) = .function 1 [none] ∧
    ¬ ClosureRoundTrip (closureLua ["x"]) (.function 1 [some .nil]) 1 ⟨ringbufferCreate 128, []⟩ 1 := by
  have hwf : (Value.function (1 : UInt8) [some .nil]).DeepWf (closureLua ["x"]) := by
    simp [Value.DeepWf, upvalsDeepWf, closureLua]
  have hroom : (encode (closureLua ["x"]) false true (.function 1 [some .nil])).length ≤
      (ringbufferCreate 128).room := by
    decide +kernel
  have hloaded : (Value.function (1 : UInt8) [some .nil]).loaded (closureLua ["x"]) = .function 1 [none] := by
    simp [Value.loaded, loadedUpvals, closureLua, sampleLua, freshUpvals, setEnv, envIdx, Value.isNil]
  refine ⟨fun _ => show ["x"].count "_ENV" ≤ 1 by decide, hwf, ?_, hroom, hloaded, fun htrip => ?_⟩
  · simp [Value.Movable, Value.deepParts, upvalsDeepParts, closureLua, Value.MovableNode]
  · have hsame := ((closureRoundTrip_iff_loaded (closureLua_rebuilds _) _ hwf ⟨ringbufferCreate 128, []⟩
      (Ringbuffer.create_valid (by decide)) hroom 1 1 le_rfl).mp htrip).2
    rw [hloaded, Value.rebuilt] at hsame
    simp [closureLua, rebuiltUpvals] at hsame

end TorchIpc
