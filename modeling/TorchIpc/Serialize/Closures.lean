import TorchIpc.Serialize.RoundTrip

/-! Functions with upvalues through the buffer. `rb_save` puts the upvalues into a
table under their indices, without `_ENV` and without those that are nil; the loader
sets what it finds there on the function it has just made. Proved here: every value
that `rb_save` accepts is read back, and what the loader makes of its functions. -/

namespace TorchIpc

open Words

section
variable {P : Type} (lua : Lua P)

/-! ### What is saved and what is loaded -/

mutual

/-- What a Lua state guarantees of a value and of everything in it, upvalues
included. -/
def Value.DeepWf : Value P → Prop
  | .table es typename => (Value.table es typename).WfNode lua ∧ entriesDeepWf es
  | .function p ups => ups.length = (lua.upvalueNames p).length ∧ ups.length < 256 ∧
      upvalsDeepWf ups
  | .integer n => (Value.integer n : Value P).WfNode lua
  | .string bytes => (Value.string bytes : Value P).WfNode lua
  | .userdata typename ptr => (Value.userdata typename ptr : Value P).WfNode lua
  | .nil => True
  | .boolean _ => True
  | .lightuserdata => True
  | .number _ => True
  | .cfunction => True
  | .thread => True

def entriesDeepWf : List (Value P × Value P) → Prop
  | [] => True
  | (k, v) :: es => k.DeepWf ∧ v.DeepWf ∧ entriesDeepWf es

def upvalsDeepWf : List (Option (Value P)) → Prop
  | [] => True
  | none :: us => upvalsDeepWf us
  | some v :: us => v.DeepWf ∧ upvalsDeepWf us

end

def setEnv (env : ℤ) (ups : List (Option (Value P))) : List (Option (Value P)) :=
  if 0 < env then ups.set (env - 1).toNat none else ups

mutual

def Value.loaded : Value P → Value P
  | .table es typename => .table (loadedEntries es) typename
  | .function p ups =>
    .function p (loadedUpvals (lua.upvalueNames p)
      (setEnv (envIdx 1 (lua.upvalueNames p)) (freshUpvals lua.versionNum (lua.upvalueNames p).length))
      ups)
  | .nil => .nil
  | .boolean b => .boolean b
  | .lightuserdata => .lightuserdata
  | .number bits => .number bits
  | .integer n => .integer n
  | .string bytes => .string bytes
  | .cfunction => .cfunction
  | .userdata typename ptr => .userdata typename ptr
  | .thread => .thread

def loadedEntries : List (Value P × Value P) → List (Value P × Value P)
  | [] => []
  | (k, v) :: es => (k.loaded, v.loaded) :: loadedEntries es

/-- The saved upvalues on top of the ones a fresh function has. -/
def loadedUpvals : List String → (fresh ups : List (Option (Value P))) → List (Option (Value P))
  | name :: names, f :: fresh, some v :: us =>
    (if name = "_ENV" ∨ v.isNil then f else some v.loaded) :: loadedUpvals names fresh us
  | _ :: names, f :: fresh, none :: us => f :: loadedUpvals names fresh us
  | _, fresh, [] => fresh
  | [], fresh, _ :: _ => fresh
  | _ :: _, [], _ :: _ => []

end

def upvalEntries : ℕ → List String → List (Option (Value P)) → List (Value P × Value P)
  | i, name :: names, some v :: us =>
    if name = "_ENV" ∨ v.isNil then upvalEntries (i + 1) names us
    else (.ofInteger lua.versionNum (UInt64.ofNat i), v.loaded lua) :: upvalEntries (i + 1) names us
  | i, _ :: names, none :: us => upvalEntries (i + 1) names us
  | _, _, [] => []
  | _, [], _ :: _ => []

end

/-! ### Keys -/

section
variable {P : Type} {lua : Lua P}

theorem loaded_badKey (k : Value P) : (k.loaded lua).badKey = k.badKey := by
  cases k <;> simp [Value.loaded, Value.badKey]

theorem loaded_isNil (v : Value P) : (v.loaded lua).isNil = v.isNil := by
  cases v <;> simp [Value.loaded, Value.isNil]

theorem loaded_sameKey (a b : Value P) : (a.loaded lua).sameKey (b.loaded lua) = a.sameKey b := by
  cases a <;> cases b <;> simp [Value.loaded, Value.sameKey]

theorem loaded_normKey {n : ℕ} {k : Value P} (h : k.normKey n = k) :
    (k.loaded lua).normKey n = k.loaded lua := by
  cases k with
  | number bits => simpa [Value.loaded] using h
  | _ => simp [Value.loaded, Value.normKey]

theorem loadedEntries_eq (es : List (Value P × Value P)) :
    loadedEntries lua es = es.map fun e => (e.1.loaded lua, e.2.loaded lua) := by
  induction es with
  | nil => rfl
  | cons e es ih => rw [loadedEntries, ih, List.map_cons]

theorem loaded_keys {es : List (Value P × Value P)}
    (h : (es.map Prod.fst).Pairwise fun a b => a.sameKey b = false) :
    ((loadedEntries lua es).map Prod.fst).Pairwise fun a b => a.sameKey b = false := by
  rw [loadedEntries_eq, List.map_map, List.pairwise_map]
  rw [List.pairwise_map] at h
  exact h.imp fun hab => (loaded_sameKey _ _).trans hab

theorem numberOfInteger_index : ∀ i < 256,
    numberToInteger (numberOfInteger (UInt64.ofNat i)) = some (UInt64.ofNat i) ∧
      isNaN (numberOfInteger (UInt64.ofNat i)) = false := by
  decide +kernel

theorem toNat_index {i : ℕ} (hi : i < 256) : (UInt64.ofNat i).toNat = i := by
  rw [UInt64.toNat_ofNat']
  exact Nat.mod_eq_of_lt (by omega)

theorem upvalIndex_ofInteger {i : ℕ} (hi : i < 256) (versionNum : ℕ) :
    upvalIndex lua (.ofInteger versionNum (UInt64.ofNat i) : Value P) = some i := by
  have hword : luaTointeger lua (.ofInteger versionNum (UInt64.ofNat i)) =
      some (UInt64.ofNat i) := by
    rw [Value.ofInteger]
    split_ifs
    · rfl
    · rw [luaTointeger, (numberOfInteger_index i hi).1, Option.some_or]
  rw [upvalIndex, hword, Option.map_some, toNat_index hi, Nat.mod_eq_of_lt (by omega)]

theorem sameKey_ofInteger {i j : ℕ} (hi : i < 256) (hj : j < 256) (hpos : 1 ≤ i) (versionNum : ℕ)
    (hne : i ≠ j) :
    (Value.ofInteger versionNum (UInt64.ofNat i) : Value P).sameKey
      (.ofInteger versionNum (UInt64.ofNat j)) = false := by
  have hword : UInt64.ofNat i ≠ UInt64.ofNat j := fun h => hne (by
    rw [← toNat_index hi, h, toNat_index hj])
  rw [Value.ofInteger, Value.ofInteger]
  split_ifs
  · simpa [Value.sameKey] using hword
  · have hnumber : numberOfInteger (UInt64.ofNat i) ≠ numberOfInteger (UInt64.ofNat j) := by
      intro h
      have hback := (numberOfInteger_index i hi).1
      rw [h, (numberOfInteger_index j hj).1] at hback
      exact hword (Option.some.inj hback).symm
    have hzero : (numberOfInteger (UInt64.ofNat i)).toNat % 2 ^ 63 ≠ 0 := by
      intro h
      have hback := (numberOfInteger_index i hi).1
      rw [numberToInteger, if_pos h, Option.some_inj] at hback
      have hnat := toNat_index hi
      rw [← hback] at hnat
      have h0 : (0 : UInt64).toNat = 0 := rfl
      omega
    simp only [Value.sameKey, numberEq, beq_eq_false_iff_ne.mpr hnumber, Bool.false_or, hzero,
      decide_false, Bool.false_and, Bool.and_false]

theorem upvalKey_loads (lua : Lua P) (i : ℕ) :
    Loads lua true (upvalKeyScript lua.versionNum i).bytes
      (.ofInteger lua.versionNum (UInt64.ofNat i)) := by
  rw [upvalKeyScript, Value.ofInteger]
  split_ifs with hver
  · simpa [integerScript] using loads_integer hver true (UInt64.ofNat i)
  · simpa [numberScript] using loads_number lua true (numberOfInteger (UInt64.ofNat i))

theorem badKey_ofInteger {i : ℕ} (hi : i < 256) (versionNum : ℕ) :
    (Value.ofInteger versionNum (UInt64.ofNat i) : Value P).badKey = false := by
  rw [Value.ofInteger]
  split_ifs
  · rfl
  · exact (numberOfInteger_index i hi).2

theorem normKey_ofInteger (versionNum : ℕ) (n : UInt64) :
    (Value.ofInteger versionNum n : Value P).normKey versionNum = .ofInteger versionNum n := by
  rw [Value.ofInteger]
  split_ifs with hver
  · rfl
  · rw [Value.normKey, if_neg hver]

/-- The keys of an upvalue table are the indices from `i` on. -/
theorem upvalEntries_keys {i : ℕ} {names : List String} {ups : List (Option (Value P))} {k : Value P}
    (hk : k ∈ (upvalEntries lua i names ups).map Prod.fst) :
    ∃ j, i ≤ j ∧ j < i + names.length ∧ k = .ofInteger lua.versionNum (UInt64.ofNat j) := by
  induction names generalizing i ups with
  | nil => cases ups <;> cases hk
  | cons name names ih =>
    have hlater : ∀ us, k ∈ (upvalEntries lua (i + 1) names us).map Prod.fst →
        ∃ j, i ≤ j ∧ j < i + (name :: names).length ∧
          k = .ofInteger lua.versionNum (UInt64.ofNat j) := by
      intro us hus
      obtain ⟨j, hij, hj, rfl⟩ := ih hus
      exact ⟨j, by omega, by rw [List.length_cons]; omega, rfl⟩
    match ups with
    | [] => cases hk
    | none :: us => exact hlater us hk
    | some v :: us =>
      rw [upvalEntries] at hk
      split_ifs at hk
      · exact hlater us hk
      · rw [List.map_cons, List.mem_cons] at hk
        rcases hk with rfl | hk
        · exact ⟨i, le_rfl, by rw [List.length_cons]; omega, rfl⟩
        · exact hlater us hk

theorem upvalEntries_pairwise {i : ℕ} (hpos : 1 ≤ i) {names : List String}
    {ups : List (Option (Value P))} (hbound : i + names.length ≤ 256) :
    ((upvalEntries lua i names ups).map Prod.fst).Pairwise fun a b => a.sameKey b = false := by
  induction names generalizing i ups with
  | nil => cases ups <;> exact .nil
  | cons name names ih =>
    rw [List.length_cons] at hbound
    have hlater : ∀ us, ((upvalEntries lua (i + 1) names us).map Prod.fst).Pairwise
        fun a b => a.sameKey b = false := fun us => ih (by omega) (by omega)
    match ups with
    | [] => exact .nil
    | none :: us => exact hlater us
    | some v :: us =>
      rw [upvalEntries]
      split_ifs
      · exact hlater us
      · rw [List.map_cons, List.pairwise_cons]
        refine ⟨fun k hk => ?_, hlater us⟩
        obtain ⟨j, hij, hj, rfl⟩ := upvalEntries_keys hk
        exact sameKey_ofInteger (by omega) (by omega) hpos _ (by omega)

/-! ### Setting the upvalues -/

/-- The loop over the upvalue table fills the upvalues from number `i` on. -/
theorem setUpvals_entries (lua : Lua P) {i : ℕ} {names : List String}
    {fresh ups : List (Option (Value P))} (hfresh : fresh.length = names.length)
    (hups : ups.length = names.length) (done : List (Option (Value P))) (hdone : i = done.length + 1)
    (hbound : i + names.length ≤ 256) :
    setUpvals lua (upvalEntries lua i names ups) (done ++ fresh) =
      some (done ++ loadedUpvals lua names fresh ups) := by
  induction names generalizing i fresh ups done with
  | nil =>
    rw [List.length_nil, List.length_eq_zero_iff] at hfresh hups
    rw [hfresh, hups, upvalEntries, loadedUpvals]
    rfl
  | cons name names ih =>
    obtain ⟨f, fresh, rfl⟩ := List.exists_cons_of_length_eq_add_one hfresh
    obtain ⟨u, us, rfl⟩ := List.exists_cons_of_length_eq_add_one hups
    simp only [List.length_cons, Nat.add_right_cancel_iff] at hfresh hups hbound
    -- one upvalue further, with `g` as this one
    have hnext : ∀ g : Option (Value P),
        setUpvals lua (upvalEntries lua (i + 1) names us) (done ++ g :: fresh) =
          some (done ++ g :: loadedUpvals lua names fresh us) := by
      intro g
      have hlength : i + 1 = (done ++ [g]).length + 1 := by
        rw [List.length_append, List.length_singleton, hdone]
      have h := ih hfresh hups (done ++ [g]) hlength (by omega)
      rwa [List.append_assoc, List.append_assoc] at h
    cases u with
    | none => exact hnext f
    | some v =>
      rw [upvalEntries, loadedUpvals]
      split_ifs
      · exact hnext f
      · rw [setUpvals, upvalIndex_ofInteger (by omega)]
        simp only [hdone]
        rw [if_pos (by rw [List.length_append, List.length_cons]; omega), List.set_append_right _ _ le_rfl,
          Nat.sub_self, List.set_cons_zero, ← hdone]
        exact hnext _

/-- One round of the loop over the upvalue table. -/
def setUpval (lua : Lua P) (e : Value P × Value P) (ups : List (Option (Value P))) :
    Option (List (Option (Value P))) :=
  match upvalIndex lua e.1 with
  | some (i + 1) => if i < ups.length then some (ups.set i (some e.2)) else none
  | _ => none

theorem setUpvals_cons (e : Value P × Value P) (es : List (Value P × Value P)) (ups : List (Option (Value P))) :
    setUpvals lua (e :: es) ups = (setUpval lua e ups).bind (setUpvals lua es) := by
  obtain ⟨k, v⟩ := e
  rw [setUpvals, setUpval]
  rcases upvalIndex lua k with _ | _ | i
  · rfl
  · rfl
  · simp only
    split_ifs <;> rfl

theorem setUpval_comm {e e' : Value P × Value P} (hne : upvalIndex lua e.1 ≠ upvalIndex lua e'.1)
    (ups : List (Option (Value P))) :
    (setUpval lua e ups).bind (setUpval lua e') = (setUpval lua e' ups).bind (setUpval lua e) := by
  rcases hi : upvalIndex lua e.1 with _ | _ | i <;> rcases hj : upvalIndex lua e'.1 with _ | _ | j
  · simp [setUpval, hi, hj]
  · simp [setUpval, hi, hj]
  · by_cases hlt : j < ups.length <;> simp [setUpval, hi, hj, hlt]
  · simp [setUpval, hi, hj]
  · simp [setUpval, hi, hj]
  · by_cases hlt : j < ups.length <;> simp [setUpval, hi, hj, hlt]
  · by_cases hlt : i < ups.length <;> simp [setUpval, hi, hj, hlt]
  · by_cases hlt : i < ups.length <;> simp [setUpval, hi, hj, hlt]
  · have hij : i ≠ j := fun heq => hne (by rw [hi, hj, heq])
    by_cases hlti : i < ups.length <;> by_cases hltj :
      j < ups.length <;> simp [setUpval, hi, hj, hlti, hltj]
    exact List.set_comm _ _ hij

/-- Upvalues with different indices can be set in any order. -/
theorem setUpvals_perm {es es' : List (Value P × Value P)} (hperm : es.Perm es')
    (hkeys : (es.map fun e => upvalIndex lua e.1).Nodup) (ups : List (Option (Value P))) :
    setUpvals lua es ups = setUpvals lua es' ups := by
  induction hperm generalizing ups with
  | nil => rfl
  | cons e _ ih =>
    rw [List.map_cons, List.nodup_cons] at hkeys
    rw [setUpvals_cons, setUpvals_cons]
    exact Option.bind_congr fun ups' _ => ih hkeys.2 ups'
  | swap e e' es =>
    have hne : upvalIndex lua e'.1 ≠ upvalIndex lua e.1 := by
      rw [List.map_cons, List.map_cons, List.nodup_cons] at hkeys
      exact fun heq => hkeys.1 (heq ▸ List.mem_cons_self)
    simp only [setUpvals_cons]
    have hcomm := congrArg (·.bind (setUpvals lua es)) (setUpval_comm hne ups)
    simp only [Option.bind_assoc] at hcomm
    simpa only [setUpvals_cons] using hcomm
  | trans h _ ih ih' => rw [ih hkeys, ih' ((h.map _).nodup_iff.mp hkeys)]

theorem upvalEntries_indices {i : ℕ} {names : List String} {ups : List (Option (Value P))}
    (hbound : i + names.length ≤ 256) :
    ((upvalEntries lua i names ups).map fun e => upvalIndex lua e.1).Nodup := by
  induction names generalizing i ups with
  | nil => cases ups <;> exact .nil
  | cons name names ih =>
    rw [List.length_cons] at hbound
    have hlater : ∀ us, ((upvalEntries lua (i + 1) names us).map fun e => upvalIndex lua
      e.1).Nodup := fun us => ih (by omega)
    match ups with
    | [] => exact .nil
    | none :: us => exact hlater us
    | some v :: us =>
      rw [upvalEntries]
      split_ifs
      · exact hlater us
      · rw [List.map_cons, List.nodup_cons]
        refine ⟨fun hmem => ?_, hlater us⟩
        obtain ⟨e, he, heq⟩ := List.mem_map.mp hmem
        obtain ⟨j, hij, hj, hkey⟩ := upvalEntries_keys (List.mem_map_of_mem he)
        rw [hkey, upvalIndex_ofInteger (by omega), upvalIndex_ofInteger (by omega), Option.some_inj] at heq
        omega

theorem envIdx_bounds (i : ℕ) (names : List String) :
    envIdx i names = -1 ∨ (i : ℤ) ≤ envIdx i names ∧ envIdx i names < i + names.length := by
  induction names generalizing i with
  | nil => exact Or.inl rfl
  | cons name names ih =>
    have h := ih (i + 1)
    simp only [envIdx, List.length_cons]
    push_cast at h ⊢
    split_ifs <;> omega

theorem freshUpvals_length (versionNum n : ℕ) :
    (freshUpvals versionNum n : List (Option (Value P))).length = n := by
  rw [freshUpvals]
  split_ifs <;> simp

theorem setEnv_length (env : ℤ) (ups : List (Option (Value P))) :
    (setEnv env ups).length = ups.length := by
  rw [setEnv]
  split_ifs <;> simp

/-- The upvalue table on top of the fresh function. -/
theorem loadUpvals_entries {p : P} {ups : List (Option (Value P))}
    (hups : ups.length = (lua.upvalueNames p).length) (hbound : ups.length < 256)
    (rb : Ringbuffer) (stack : List (Value P)) :
    loadUpvals lua stack.length (envIdx 1 (lua.upvalueNames p)) rb
      (.table (upvalEntries lua 1 (lua.upvalueNames p) ups) .none ::
        .function p (freshUpvals lua.versionNum (lua.upvalueNames p).length) :: stack) =
      .ret 1 rb ((Value.function p ups).loaded lua :: stack) := by
  have henv := envIdx_bounds 1 (lua.upvalueNames p)
  have hfresh : (setEnv (envIdx 1 (lua.upvalueNames p))
      (freshUpvals lua.versionNum (lua.upvalueNames p).length : List (Option (Value P)))).length =
        (lua.upvalueNames p).length := by
    rw [setEnv_length, freshUpvals_length]
  -- whatever the order of `lua_next`
  have hperm := lua.next_perm (upvalEntries lua 1 (lua.upvalueNames p) ups)
  have hkeys := ((hperm.map fun e => upvalIndex lua e.1).nodup_iff).mpr (upvalEntries_indices (by omega))
  have hset := setUpvals_entries lua hfresh hups [] (show 1 = 0 + 1 from rfl) (by omega)
  rw [List.nil_append, List.nil_append, setEnv, ← setUpvals_perm hperm hkeys] at hset
  rw [loadUpvals, if_neg (by rw [freshUpvals_length]; push_cast at henv; omega)]
  simp only [hset]
  rw [if_neg (not_not.mpr rfl), Value.loaded, setEnv]

/-! ### All values -/

/-- What follows the code of a function, from the table of its upvalues. -/
theorem loadClosure_entries {p : P} {ups : List (Option (Value P))}
    (hups : ups.length = (lua.upvalueNames p).length) (hbound : ups.length < 256) {upval : Bool}
    {body : Script} (hbody : body.fin = .ok)
    (hentries : LoadsEntries lua body.bytes (upvalEntries lua 1 (lua.upvalueNames p) ups))
    (hok : (upvalsTail lua upval p (tableScript body .none)).fin = .ok) :
    ∃ n, ∀ rb rest (stack : List (Value P)),
      Holds rb (intBytes (upvalFlag lua upval p) ++
        ((upvalsTail lua upval p (tableScript body .none)).bytes ++ rest)) →
      ∃ rb', Holds rb' rest ∧ ∀ fuel ≥ n,
        loadClosure lua (rbLoadRcsv lua fuel false) stack.length rb
        (.function p (freshUpvals lua.versionNum (lua.upvalueNames p).length) :: stack) =
          .ret 1 rb' ((Value.function p ups).loaded lua :: stack) := by
  have henv := envIdx_bounds 1 (lua.upvalueNames p)
  push_cast at henv
  obtain ⟨n, hn⟩ := loads_table false hentries
    (upvalEntries_pairwise le_rfl (by omega)) (Or.inl rfl : lua.Knows .none)
  refine ⟨n, fun rb rest stack h => ?_⟩
  rw [upvalsTail_bytes (tableScript_fin_ok.mpr hbody), tableScript_bytes hbody] at h
  obtain ⟨rb₁, h₁, hflag⟩ := Holds.rbRead (P := P) h (length_intBytes _).symm
  have hflagv : intVal (intBytes (upvalFlag lua upval p)) = upvalFlag lua upval p :=
    intVal_intBytes (by rw [upvalFlag]; split_ifs <;> decide)
      (by rw [upvalFlag]; split_ifs <;> decide)
  by_cases hset : (upval || envOnly lua upval p) = true
  · rw [if_pos hset] at h₁
    rw [List.append_assoc] at h₁
    obtain ⟨rb₂, h₂, hidx⟩ := Holds.rbRead (P := P) h₁ (length_intBytes _).symm
    obtain ⟨rb₃, h₃, htable⟩ := hn rb₂ rest
      (.function p (freshUpvals lua.versionNum (lua.upvalueNames p).length) :: stack) h₂
    refine ⟨rb₃, h₃, fun fuel hf => ?_⟩
    rw [loadClosure, hflag, hflagv, if_pos (by rw [upvalFlag, if_pos hset]), hidx, htable fuel hf,
      intVal_intBytes (by omega) (by omega)]
    exact loadUpvals_entries hups hbound rb₃ stack
  -- without the flag there is no upvalue, or saving would have raised
  · rw [if_neg hset] at h₁
    have hnil : lua.upvalueNames p = [] := by
      rw [upvalsTail, if_neg hset] at hok
      split_ifs at hok with hlen
      · simp at hok
      · exact List.length_eq_zero_iff.mp (by omega)
    have hups0 : ups = [] := List.length_eq_zero_iff.mp (by rw [hups, hnil]; rfl)
    refine ⟨rb₁, h₁, fun fuel _ => ?_⟩
    rw [loadClosure, hflag, hflagv, if_neg (by rw [upvalFlag, if_neg hset]; decide), hups0, Value.loaded,
      hnil]
    simp [loadedUpvals, setEnv, envIdx, freshUpvals]

/-- A table of upvalues can be saved only if the function can. -/
theorem upvalsTail_table {upval : Bool} {p : P} {table : Script}
    (hok : (upvalsTail lua upval p table).fin = .ok) :
    table.fin = .ok ∨ lua.upvalueNames p = [] := by
  rw [upvalsTail] at hok
  split_ifs at hok with hset hlen
  · simp only [seq_fin_ok, mapPlace_fin, End.mapPlace_ok] at hok
    exact Or.inl hok.2.1
  · simp at hok
  · exact Or.inr (List.length_eq_zero_iff.mp (by omega))

mutual

/-- Whatever `rb_save` accepts, the loader reads back. -/
theorem loads_deep (hl : lua.Rebuilds) {oop upval : Bool} (isKey : Bool) (v : Value P)
    (hwf : v.DeepWf lua) (hok : (script lua oop upval v).fin = .ok)
    (hkey : isKey = true → v.badKey = false) :
    Loads lua isKey (script lua oop upval v).bytes (v.loaded lua) := by
  cases v with
  | nil =>
    cases isKey with
    | true => exact absurd (hkey rfl) (by simp [Value.badKey])
    | false => simpa [script, Value.loaded] using loads_nil lua
  | boolean b => simpa [script, Value.loaded] using loads_boolean lua isKey b
  | number bits => simpa [script, numberScript, Value.loaded] using loads_number lua isKey bits
  | integer n =>
    rw [Value.DeepWf] at hwf
    simpa [script, integerScript, Value.loaded] using loads_integer hwf isKey n
  | string bytes =>
    rw [Value.DeepWf] at hwf
    simpa [script, Value.loaded] using loads_string lua isKey hwf
  | table es typename =>
    rw [Value.DeepWf] at hwf
    obtain ⟨hnode, hes⟩ := hwf
    rw [script, tableScript_fin_ok] at hok
    rw [script, tableScript_bytes hok, Value.loaded]
    exact loads_table isKey (loadsEntries_deep hl es hes hnode.2.1 hok) (loaded_keys hnode.2.2) hnode.1
  | function p ups =>
    rw [Value.DeepWf] at hwf
    obtain ⟨hups, hbound, hdeep⟩ := hwf
    rw [script] at hok ⊢
    obtain ⟨htail, hbytes⟩ := functionScript_bytes hok
    obtain ⟨hbody, hentries⟩ : (upvalsScript lua oop upval 1 (lua.upvalueNames p) ups).fin = .ok ∧
        LoadsEntries lua (upvalsScript lua oop upval 1 (lua.upvalueNames p) ups).bytes
          (upvalEntries lua 1 (lua.upvalueNames p) ups) := by
      rcases upvalsTail_table htail with htable | hnil
      · rw [tableScript_fin_ok] at htable
        exact ⟨htable, loadsUpvals_deep hl 1 (lua.upvalueNames p) ups hdeep (by omega) htable⟩
      · rw [hnil, List.length_nil, List.length_eq_zero_iff] at hups
        rw [hnil, hups]
        exact ⟨rfl, .nil⟩
    obtain ⟨n, hn⟩ := loadFunction_dump hl p
    obtain ⟨m, hm⟩ := loadClosure_entries hups hbound hbody hentries htail
    rw [hbytes]
    refine Loads.of_tag ⟨max n m, fun rb rest stack h rb₀ hread => ?_⟩
    simp only [List.append_assoc] at h
    obtain ⟨rb₁, h₁, hload⟩ := hn rb _ stack h
    obtain ⟨rb₂, h₂, hclosure⟩ := hm rb₁ rest stack h₁
    refine ⟨rb₂, h₂, fun fuel hf => ?_⟩
    rw [rbLoadRcsv_succ, hread]
    exact (hload fuel (by omega) _).trans (hclosure fuel (by omega))
  | userdata typename ptr =>
    rw [Value.DeepWf] at hwf
    rw [script] at hok ⊢
    rw [Value.loaded]
    exact loads_userdata isKey hwf.1 hwf.2 hok
  | lightuserdata => simp [script] at hok
  | cfunction => simp [script, seq_fin_ok] at hok
  | thread => simp [script] at hok

theorem loadsEntries_deep (hl : lua.Rebuilds) {oop upval : Bool} (es : List (Value P × Value P))
    (hwf : entriesDeepWf lua es)
    (hes : ∀ e ∈ es, e.1.badKey = false ∧ e.1.normKey lua.versionNum = e.1 ∧ e.2.isNil = false)
    (hok : (entriesScript lua oop upval es).fin = .ok) :
    LoadsEntries lua (entriesScript lua oop upval es).bytes (loadedEntries lua es) := by
  match es with
  | [] =>
    rw [loadedEntries]
    exact .nil
  | (k, v) :: es =>
    rw [entriesDeepWf] at hwf
    obtain ⟨hwk, hwv, hwes⟩ := hwf
    rw [entriesScript, entryScript_fin_ok] at hok
    obtain ⟨hk, hv, hrest⟩ := hok
    obtain ⟨hbad, hnorm, hnil⟩ := hes (k, v) List.mem_cons_self
    rw [entriesScript, entryScript_bytes hk hv, loadedEntries]
    refine .cons ⟨⟨_, _, rfl, ?_, ?_⟩, ?_, ?_, ?_⟩
      (loadsEntries_deep hl es hwes (fun e he => hes e (List.mem_cons_of_mem _ he)) hrest)
    · exact loads_deep hl true k hwk hk fun _ => hbad
    · exact loads_deep hl false v hwv hv nofun
    · exact (loaded_badKey k).trans hbad
    · exact loaded_normKey hnorm
    · exact (loaded_isNil v).trans hnil

theorem loadsUpvals_deep (hl : lua.Rebuilds) {oop upval : Bool} (i : ℕ) (names : List String)
    (ups : List (Option (Value P))) (hwf : upvalsDeepWf lua ups) (hbound : i + names.length ≤ 256)
    (hok : (upvalsScript lua oop upval i names ups).fin = .ok) :
    LoadsEntries lua (upvalsScript lua oop upval i names ups).bytes (upvalEntries lua i names ups) := by
  match names, ups with
  | name :: names, none :: us =>
    rw [upvalsDeepWf] at hwf
    rw [List.length_cons] at hbound
    rw [upvalsScript] at hok ⊢
    rw [upvalEntries]
    split_ifs at hok ⊢
    · exact loadsUpvals_deep hl (i + 1) names us hwf (by omega) hok
    · simp at hok
  | name :: names, some v :: us =>
    rw [upvalsDeepWf] at hwf
    obtain ⟨hwv, hwus⟩ := hwf
    rw [List.length_cons] at hbound
    have ih : (upvalsScript lua oop upval (i + 1) names us).fin = .ok →
        LoadsEntries lua (upvalsScript lua oop upval (i + 1) names us).bytes
          (upvalEntries lua (i + 1) names us) :=
      loadsUpvals_deep hl (i + 1) names us hwus (by omega)
    rw [upvalsScript] at hok ⊢
    rw [upvalEntries]
    split_ifs at hok ⊢ with hname hskip hnil hskip
    · exact ih hok
    · exact absurd (Or.inl hname) hskip
    · exact ih hok
    · exact absurd (Or.inr hnil) hskip
    · exact absurd ‹_› (not_or.mpr ⟨hname, hnil⟩)
    · rw [entryScript_fin_ok] at hok
      obtain ⟨hk, hv, hrest⟩ := hok
      rw [entryScript_bytes hk hv]
      refine .cons ⟨⟨_, _, rfl, upvalKey_loads lua i, ?_⟩, ?_, ?_, ?_⟩ (ih hrest)
      · exact loads_deep hl false v hwv hv nofun
      · exact badKey_ofInteger (by omega) _
      · exact normKey_ofInteger _ _
      · rw [loaded_isNil]
        simpa using hnil
  | [], [] => exact .nil
  | _ :: _, [] => exact .nil
  | [], _ :: _ => exact .nil

end

end

end TorchIpc
