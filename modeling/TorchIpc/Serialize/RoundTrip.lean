import TorchIpc.Serialize.Loading

/-! The round trip through the buffer: what `rb_save` appends, `rb_load` reads
back as the same value, up to the identity of tables and with the globals of the
reader for `_ENV`. The one value of the documented kinds that does not make the
trip is a function that is the main part of a chunk: `rb_save` takes it for a C
function. -/

namespace TorchIpc

open Words

section
variable {P : Type}

mutual

/-- The value and everything inside its tables, keys included. -/
def Value.parts : Value P → List (Value P)
  | .table es typename => .table es typename :: entriesParts es
  | .nil => [.nil]
  | .boolean b => [.boolean b]
  | .lightuserdata => [.lightuserdata]
  | .number bits => [.number bits]
  | .integer n => [.integer n]
  | .string bytes => [.string bytes]
  | .function p ups => [.function p ups]
  | .cfunction => [.cfunction]
  | .userdata typename ptr => [.userdata typename ptr]
  | .thread => [.thread]

def entriesParts : List (Value P × Value P) → List (Value P)
  | [] => []
  | (k, v) :: es => k.parts ++ v.parts ++ entriesParts es

end

mutual

/-- The value as the reader has it: `_ENV` is the reader's `_G`. -/
def Value.received : Value P → Value P
  | .table es typename => .table (receivedEntries es) typename
  | .function p ups => .function p (ups.map fun _ => none)
  | .nil => .nil
  | .boolean b => .boolean b
  | .lightuserdata => .lightuserdata
  | .number bits => .number bits
  | .integer n => .integer n
  | .string bytes => .string bytes
  | .cfunction => .cfunction
  | .userdata typename ptr => .userdata typename ptr
  | .thread => .thread

def receivedEntries : List (Value P × Value P) → List (Value P × Value P)
  | [] => []
  | (k, v) :: es => (k.received, v.received) :: receivedEntries es

end

theorem Value.self_mem_parts (v : Value P) : v ∈ v.parts := by
  cases v <;> simp [Value.parts]

/-- A userdata of a torch class does not hold NULL, of which `luaT_pushudata` makes none. -/
def TypeName.MayHold (typename : TypeName) (ptr : UInt64) : Prop :=
  ∀ name, typename = .torch name → ptr ≠ 0

section
variable (lua : Lua P)

/-- What a Lua state of this version guarantees of a single value, and that the
reader knows the types it names. -/
def Value.WfNode : Value P → Prop
  | .integer _ => 503 ≤ lua.versionNum
  | .string bytes => bytes.length < 2 ^ 64
  | .table es typename =>
    lua.Knows typename ∧
    (∀ e ∈ es, e.1.badKey = false ∧ e.1.normKey lua.versionNum = e.1 ∧ e.2.isNil = false) ∧
    (es.map Prod.fst).Pairwise fun a b => a.sameKey b = false
  | .function p ups => ups.length = (lua.upvalueNames p).length
  | .userdata typename ptr => lua.Knows typename ∧ typename.MayHold ptr
  | _ => True

def Value.Wf (v : Value P) : Prop := ∀ w ∈ v.parts, w.WfNode lua

def noUpvalues (p : P) : Prop := lua.upvalueNames p = [] ∨ lua.upvalueNames p = ["_ENV"]

/-- A function, if it is one, has no upvalue but `_ENV`. -/
def Value.NoUpvalues : Value P → Prop
  | .function p _ => noUpvalues lua p
  | _ => True

/-- The kinds of values that the documentation lets through. -/
def Value.PlainNode : Value P → Prop
  | .nil | .boolean _ | .number _ | .integer _ | .string _ | .table _ _ => True
  | .function p _ => noUpvalues lua p
  | _ => False

def Value.Plain (v : Value P) : Prop := ∀ w ∈ v.parts, w.PlainNode lua

/-- A function that is the main part of a chunk. -/
def Value.isMainChunk : Value P → Bool
  | .function p _ => lua.lineDefined p = 0
  | _ => false

end

/-! ### Parts -/

variable {lua : Lua P}

/-- A property of all parts of a table, entry by entry. -/
theorem forall_parts_table {p : Value P → Prop} {es : List (Value P × Value P)}
    {typename : TypeName} :
    (∀ w ∈ (Value.table es typename).parts, p w) ↔
      p (.table es typename) ∧ ∀ w ∈ entriesParts es, p w := by
  simp [Value.parts]

theorem forall_parts_cons {p : Value P → Prop} {k v : Value P} {es : List (Value P × Value P)} :
    (∀ w ∈ entriesParts ((k, v) :: es), p w) ↔
      (∀ w ∈ k.parts, p w) ∧ (∀ w ∈ v.parts, p w) ∧ ∀ w ∈ entriesParts es, p w := by
  simp only [entriesParts, List.mem_append, or_imp, forall_and, and_assoc]

theorem received_badKey (k : Value P) : k.received.badKey = k.badKey := by
  cases k <;> simp [Value.received, Value.badKey]

theorem received_isNil (v : Value P) : v.received.isNil = v.isNil := by
  cases v <;> simp [Value.received, Value.isNil]

theorem received_sameKey (a b : Value P) : a.received.sameKey b.received = a.sameKey b := by
  cases a <;> cases b <;> simp [Value.received, Value.sameKey]

theorem received_normKey {n : ℕ} {k : Value P} (h : k.normKey n = k) :
    k.received.normKey n = k.received := by
  cases k with
  | number bits => exact h
  | _ => simp [Value.received, Value.normKey]

theorem receivedEntries_eq (es : List (Value P × Value P)) :
    receivedEntries es = es.map fun e => (e.1.received, e.2.received) := by
  induction es with
  | nil => rfl
  | cons e es ih => rw [receivedEntries, ih, List.map_cons]

theorem received_keys {es : List (Value P × Value P)}
    (h : (es.map Prod.fst).Pairwise fun a b => a.sameKey b = false) :
    ((receivedEntries es).map Prod.fst).Pairwise fun a b => a.sameKey b = false := by
  rw [receivedEntries_eq, List.map_map, List.pairwise_map]
  rw [List.pairwise_map] at h
  exact h.imp fun hab => (received_sameKey _ _).trans hab

/-! ### Functions -/

theorem noUpvalues_of_envOnly {p : P} (henv : (false || envOnly lua false p) = true) :
    noUpvalues lua p := by
  simp only [envOnly, Bool.not_false, Bool.true_and, Bool.false_or, Bool.and_eq_true, beq_iff_eq] at henv
  obtain ⟨name, hname⟩ := List.length_eq_one_iff.mp henv.1
  rw [hname] at henv
  exact Or.inr (by rw [hname, Option.some.inj henv.2])

theorem upvalsScript_of_noUpvalues {p : P} (hp : noUpvalues lua p)
    {ups : List (Option (Value P))} (hups : ups.length = (lua.upvalueNames p).length)
    (oop upval : Bool) :
    upvalsScript lua oop upval 1 (lua.upvalueNames p) ups = stop .ok := by
  rcases hp with hp | hp
  · rw [hp] at hups ⊢
    rw [List.length_eq_zero_iff.mp hups, upvalsScript]
  · rw [hp] at hups ⊢
    obtain ⟨u, rfl⟩ := List.length_eq_one_iff.mp hups
    simp [upvalsScript]

/-- The upvalue table of such a function is empty. -/
def emptyTableBytes : List UInt8 := LUA_TTABLE :: ([] ++ (LUA_TNIL :: (leBytes 8 0 ++ [])))

theorem tableScript_empty : (tableScript (stop .ok) .none).fin = .ok ∧
    (tableScript (stop .ok) .none).bytes = emptyTableBytes := ⟨rfl, rfl⟩

theorem loads_emptyTable (lua : Lua P) : Loads lua false emptyTableBytes (.table [] .none) :=
  loads_table false .nil List.Pairwise.nil (Or.inl rfl)

theorem upvalsTail_bytes {upval : Bool} {p : P} {table : Script} (htable : table.fin = .ok) :
    (upvalsTail lua upval p table).bytes =
      if upval || envOnly lua upval p then
        intBytes (envIdx 1 (lua.upvalueNames p)) ++ table.bytes
      else [] := by
  rw [upvalsTail]
  split_ifs with henv hups
  · rw [seq_bytes rfl, seq_bytes (by rw [mapPlace_fin, htable]; rfl)]
    simp
  · rfl
  · rfl

theorem functionScript_bytes {upval : Bool} {p : P} {table : Script}
    (hok : (functionScript lua upval p table).fin = .ok) :
    (upvalsTail lua upval p table).fin = .ok ∧ (functionScript lua upval p table).bytes =
      LUA_TFUNCTION :: ((dumpPuts (lua.dump p)).flatten ++ (leBytes 8 0 ++
        (intBytes (upvalFlag lua upval p) ++ (upvalsTail lua upval p table).bytes))) := by
  rw [functionScript, seq_fin rfl] at hok
  rw [functionScript, seq_bytes rfl]
  split_ifs at hok ⊢ with hL
  · exact absurd hok (by simp)
  · rw [seq_fin rfl, seq_fin rfl, seq_fin rfl] at hok
    rw [seq_bytes rfl, seq_bytes rfl, seq_bytes rfl]
    exact ⟨hok, by simp⟩

/-- `_ENV` as the only upvalue, whatever `lua_load` put there. -/
theorem freshUpvals_set (versionNum : ℕ) :
    (freshUpvals versionNum 1 : List (Option (Value P))).length = 1 ∧
      (freshUpvals versionNum 1 : List (Option (Value P))).set 0 none = [none] := by
  rw [freshUpvals]
  split_ifs <;> simp

/-- What is left to read after the code: the flag, and the upvalues if it is set, with a
loader that takes an empty table where it fits. Either way `_ENV` is the reader's global
table. -/
theorem loadClosure_eq {p : P} (hp : noUpvalues lua p) {upval : Bool}
    (hok : (upvalsTail lua upval p (tableScript (stop .ok) .none)).fin = .ok)
    (load : ℕ → Ringbuffer → List (Value P) → LoadOutcome P) (fits : List (Value P) → Prop) {n : ℕ}
    (hn : ∀ rb rest stack, Holds rb (emptyTableBytes ++ rest) → fits stack →
      ∃ rb', Holds rb' rest ∧ ∀ fuel ≥ n,
        load fuel rb stack = .ret 1 rb' (.table [] .none :: stack))
    {rb : Ringbuffer} {rest : List UInt8} {stack : List (Value P)}
    (h : Holds rb (intBytes (upvalFlag lua upval p) ++
      ((upvalsTail lua upval p (tableScript (stop .ok) .none)).bytes ++ rest)))
    (hfits : (upval || envOnly lua upval p) = true →
      fits (.function p (freshUpvals lua.versionNum (lua.upvalueNames p).length) :: stack)) :
    ∃ rb', Holds rb' rest ∧ ∀ fuel ≥ n, loadClosure lua (load fuel) stack.length rb
      (.function p (freshUpvals lua.versionNum (lua.upvalueNames p).length) :: stack) =
        .ret 1 rb' (.function p ((lua.upvalueNames p).map fun _ => none) :: stack) := by
  rw [upvalsTail_bytes rfl, tableScript_empty.2] at h
  obtain ⟨rb₁, h₁, hflag⟩ := Holds.rbRead (P := P) h (length_intBytes _).symm
  have hflagv : intVal (intBytes (upvalFlag lua upval p)) = upvalFlag lua upval p :=
    intVal_intBytes (by rw [upvalFlag]; split_ifs <;> decide)
      (by rw [upvalFlag]; split_ifs <;> decide)
  by_cases henv : (upval || envOnly lua upval p) = true
  · rw [if_pos henv] at h₁
    rw [List.append_assoc] at h₁
    obtain ⟨rb₂, h₂, hidx⟩ := Holds.rbRead (P := P) h₁ (length_intBytes _).symm
    obtain ⟨rb₃, h₃, htable⟩ := hn rb₂ rest
      (.function p (freshUpvals lua.versionNum (lua.upvalueNames p).length) :: stack) h₂ (hfits henv)
    refine ⟨rb₃, h₃, fun fuel hf => ?_⟩
    rw [loadClosure, hflag, hflagv, if_pos (by rw [upvalFlag, if_pos henv]), hidx, htable fuel hf]
    rcases hp with hp | hp
    · simp [hp, LoadOutcome.andThen, loadUpvals, freshUpvals, setUpvals, envIdx,
        intVal_intBytes]
    · have hfresh := freshUpvals_set (P := P) lua.versionNum
      simp [hp, LoadOutcome.andThen, loadUpvals, hfresh, setUpvals, envIdx, intVal_intBytes]
  -- without the flag there is no upvalue, or saving would have raised
  · rw [if_neg henv] at h₁
    have hnil : lua.upvalueNames p = [] := by
      rw [upvalsTail, if_neg henv] at hok
      split_ifs at hok with hups
      · simp at hok
      · exact List.length_eq_zero_iff.mp (by omega)
    refine ⟨rb₁, h₁, fun fuel _ => ?_⟩
    rw [loadClosure, hflag, hflagv, if_neg (by rw [upvalFlag, if_neg henv]; decide), hnil]
    simp [freshUpvals]

/-- The bytes of a function that has no upvalue table, or an empty one. -/
theorem loads_function (hl : lua.Rebuilds) (isKey : Bool) {p : P} (hp : noUpvalues lua p)
    {ups : List (Option (Value P))} (hups : ups.length = (lua.upvalueNames p).length)
    {oop upval : Bool} (hok : (script lua oop upval (.function p ups)).fin = .ok) :
    Loads lua isKey (script lua oop upval (.function p ups)).bytes
      (Value.function p ups).received := by
  rw [script, upvalsScript_of_noUpvalues hp hups] at hok ⊢
  obtain ⟨htail, hbytes⟩ := functionScript_bytes hok
  obtain ⟨n, hn⟩ := loadFunction_dump hl p
  obtain ⟨m, hm⟩ := loads_emptyTable lua
  have hreceived : (Value.function p ups).received =
      .function p ((lua.upvalueNames p).map fun _ => none) := by
    rw [Value.received, List.map_const', List.map_const', hups]
  rw [hbytes, hreceived]
  refine Loads.of_tag ⟨max n m, fun rb rest stack h rb₀ hread => ?_⟩
  simp only [List.append_assoc] at h
  obtain ⟨rb₁, h₁, hload⟩ := hn rb _ stack h
  obtain ⟨rb₂, h₂, hclosure⟩ :=
    loadClosure_eq hp htail (fun fuel => rbLoadRcsv lua fuel false) (fun _ => True)
    (fun rb rest stack h _ => hm rb rest stack h) h₁ fun _ => trivial
  refine ⟨rb₂, h₂, fun fuel hf => ?_⟩
  rw [rbLoadRcsv_succ, hread]
  exact (hload fuel (by omega) _).trans (hclosure fuel (by omega))

/-! ### Userdata -/

def userdataBytes (typename : TypeName) (ptr : UInt64) : List UInt8 :=
  leBytes 8 typename.str.length ++ (typename.str ++ wordBytes ptr)

theorem loadUserdata_eq {typename : TypeName} (hk : lua.Knows typename) (hne : typename ≠ .none)
    {ptr : UInt64} (negative : Bool) (hptr : negative = false → ptr ≠ 0) {rb : Ringbuffer} {rest : List UInt8}
    (h : Holds rb (userdataBytes typename ptr ++ rest)) (stack : List (Value P)) :
    ∃ rb', Holds rb' rest ∧
      loadUserdata lua negative rb stack = .ret 1 rb' (.userdata typename ptr :: stack) := by
  obtain ⟨_, hlt, hget⟩ := hk.resolve_left hne
  simp only [userdataBytes, List.append_assoc] at h
  obtain ⟨rb₁, h₁, hlen⟩ := Holds.rbRead (P := P) h (length_leBytes 8 _).symm
  obtain ⟨rb₂, h₂, hstr⟩ := Holds.rbReadBlock (P := P) h₁ (leVal_length hlt)
  obtain ⟨rb₃, h₃, hread⟩ := Holds.rbRead (P := P) h₂ (length_wordBytes ptr).symm
  refine ⟨rb₃, h₃, ?_⟩
  simp only [loadUserdata, hlen, hstr, hread, cstr_str, hget, wordVal_wordBytes]
  cases negative with
  | true => rfl
  | false =>
    have hnull : ptr ≠ 0 := hptr rfl
    simp only [luaTPushudata, if_neg hnull, if_neg hne, Bool.false_eq_true, if_false]

/-- The bytes are the same whether or not the userdata can be retained. -/
theorem userdataScript_bytes (lua : Lua P) {typename : TypeName} (hne : typename ≠ .none) (ptr : UInt64) :
    ∃ tag : UInt8, ((tag = LUA_TUSERDATA ∧ ∃ name, typename = .torch name) ∨ tag = -LUA_TUSERDATA) ∧
      (userdataScript lua false typename ptr).bytes = tag :: userdataBytes typename ptr := by
  have hretain : (Script.mk [.retain ptr] .ok).bytes = [] := rfl
  rw [userdataScript, if_neg Bool.false_ne_true]
  cases typename with
  | none => exact absurd rfl hne
  | torch name =>
    refine ⟨LUA_TUSERDATA, Or.inl ⟨rfl, name, rfl⟩, ?_⟩
    simp only
    rw [seq_bytes rfl]
    cases lua.retain (.torch name) ptr <;> simp [hretain, userdataBytes, TypeName.str]
  | metatable name =>
    refine ⟨-LUA_TUSERDATA, Or.inr rfl, ?_⟩
    simp only
    rw [seq_bytes rfl]
    cases lua.retain (.metatable name) ptr <;> simp [hretain, userdataBytes, TypeName.str]

theorem loads_userdataBytes (isKey : Bool) {typename : TypeName} (hk : lua.Knows typename)
    (hne : typename ≠ .none) {ptr : UInt64} (hptr : typename.MayHold ptr) :
    Loads lua isKey (userdataScript lua false typename ptr).bytes (.userdata typename ptr) := by
  obtain ⟨tag, htag, hbytes⟩ := userdataScript_bytes lua hne ptr
  rw [hbytes]
  refine Loads.of_tag ⟨0, fun rb rest stack h rb₀ hread => ?_⟩
  rcases htag with ⟨rfl, name, hname⟩ | rfl
  · obtain ⟨rb₁, h₁, hload⟩ := loadUserdata_eq hk hne false (fun _ => hptr name hname) h stack
    refine ⟨rb₁, h₁, fun fuel _ => ?_⟩
    rw [rbLoadRcsv_succ, hread]
    exact hload
  · obtain ⟨rb₁, h₁, hload⟩ := loadUserdata_eq hk hne true (by rintro ⟨⟩) h stack
    refine ⟨rb₁, h₁, fun fuel _ => ?_⟩
    rw [rbLoadRcsv_succ, hread]
    exact hload

theorem userdataScript_ok {typename : TypeName} {ptr : UInt64} {oop : Bool}
    (hok : (userdataScript lua oop typename ptr).fin = .ok) : oop = false ∧ typename ≠ .none := by
  cases oop with
  | true => cases hok
  | false =>
    refine ⟨rfl, ?_⟩
    rintro rfl
    cases hok

theorem loads_userdata (isKey : Bool) {typename : TypeName} (hk : lua.Knows typename)
    {ptr : UInt64} (hptr : typename.MayHold ptr) {oop : Bool}
    (hok : (userdataScript lua oop typename ptr).fin = .ok) :
    Loads lua isKey (userdataScript lua oop typename ptr).bytes (.userdata typename ptr) := by
  obtain ⟨rfl, hne⟩ := userdataScript_ok hok
  exact loads_userdataBytes isKey hk hne hptr

/-! ### All values -/

theorem entryScript_fin_ok {k v rest : Script} :
    (entryScript k v rest).fin = .ok ↔ k.fin = .ok ∧ v.fin = .ok ∧ rest.fin = .ok := by
  simp only [entryScript, seq_fin_ok, mapPlace_fin, End.mapPlace_ok]

theorem entryScript_bytes {k v : Script} (hk : k.fin = .ok) (hv : v.fin = .ok) (rest : Script) :
    (entryScript k v rest).bytes = k.bytes ++ v.bytes ++ rest.bytes := by
  rw [entryScript, seq_bytes (by rw [mapPlace_fin, hk]; rfl), seq_bytes (by rw [mapPlace_fin, hv]; rfl),
    mapPlace_bytes, mapPlace_bytes, List.append_assoc]

theorem tableScript_fin_ok {body : Script} {typename : TypeName} :
    (tableScript body typename).fin = .ok ↔ body.fin = .ok := by
  simp only [tableScript, seq_fin_ok, mapPlace_fin, End.mapPlace_ok, puts_fin, true_and, and_true]

theorem tableScript_bytes {body : Script} (hb : body.fin = .ok) (typename : TypeName) :
    (tableScript body typename).bytes = LUA_TTABLE :: (body.bytes ++
      (LUA_TNIL :: (leBytes 8 typename.str.length ++ typename.str))) := by
  rw [tableScript, seq_bytes rfl, seq_bytes (by rw [mapPlace_fin, hb]; rfl)]
  simp

mutual

/-- Whatever `rb_save` accepts, the loader reads back. -/
theorem loads_script (hl : lua.Rebuilds) {oop upval : Bool} (isKey : Bool) (v : Value P)
    (hwf : ∀ w ∈ v.parts, w.WfNode lua) (hfn : ∀ w ∈ v.parts, w.NoUpvalues lua)
    (hok : (script lua oop upval v).fin = .ok) (hkey : isKey = true → v.badKey = false) :
    Loads lua isKey (script lua oop upval v).bytes v.received := by
  cases v with
  | nil =>
    cases isKey with
    | true => exact absurd (hkey rfl) (by simp [Value.badKey])
    | false => simpa [script, Value.received] using loads_nil lua
  | boolean b => simpa [script, Value.received] using loads_boolean lua isKey b
  | number bits =>
    simpa [script, numberScript, Value.received] using loads_number lua isKey bits
  | integer n =>
    have hver : 503 ≤ lua.versionNum := hwf _ (Value.self_mem_parts _)
    simpa [script, integerScript, Value.received] using loads_integer hver isKey n
  | string bytes =>
    have hlen : bytes.length < 2 ^ 64 := hwf _ (Value.self_mem_parts _)
    simpa [script, Value.received] using loads_string lua isKey hlen
  | table es typename =>
    obtain ⟨hnode, hes⟩ := forall_parts_table.mp hwf
    rw [script, tableScript_fin_ok] at hok
    rw [script, tableScript_bytes hok, Value.received]
    exact loads_table isKey
      (loadsEntries_script hl es hes (forall_parts_table.mp hfn).2 hnode.2.1 hok)
      (received_keys hnode.2.2) hnode.1
  | function p ups =>
    exact loads_function hl isKey (hfn _ (Value.self_mem_parts _))
      (hwf _ (Value.self_mem_parts _)) hok
  | userdata typename ptr =>
    rw [script] at hok ⊢
    have hnode := hwf _ (Value.self_mem_parts _)
    exact loads_userdata isKey hnode.1 hnode.2 hok
  | lightuserdata => simp [script] at hok
  | cfunction => simp [script, seq_fin_ok] at hok
  | thread => simp [script] at hok

theorem loadsEntries_script (hl : lua.Rebuilds) {oop upval : Bool}
    (es : List (Value P × Value P)) (hwf : ∀ w ∈ entriesParts es, w.WfNode lua)
    (hfn : ∀ w ∈ entriesParts es, w.NoUpvalues lua)
    (hes : ∀ e ∈ es, e.1.badKey = false ∧ e.1.normKey lua.versionNum = e.1 ∧ e.2.isNil = false)
    (hok : (entriesScript lua oop upval es).fin = .ok) :
    LoadsEntries lua (entriesScript lua oop upval es).bytes (receivedEntries es) := by
  match es with
  | [] => exact .nil
  | (k, v) :: es =>
    obtain ⟨hwk, hwv, hwes⟩ := forall_parts_cons.mp hwf
    obtain ⟨hfk, hfv, hfes⟩ := forall_parts_cons.mp hfn
    rw [entriesScript, entryScript_fin_ok] at hok
    obtain ⟨hk, hv, hrest⟩ := hok
    obtain ⟨hbad, hnorm, hnil⟩ := hes (k, v) List.mem_cons_self
    rw [entriesScript, entryScript_bytes hk hv, receivedEntries]
    refine .cons ⟨⟨_, _, rfl, ?_, ?_⟩, ?_, ?_, ?_⟩
      (loadsEntries_script hl es hwes hfes (fun e he => hes e (List.mem_cons_of_mem _ he)) hrest)
    · exact loads_script hl true k hwk hfk hk fun _ => hbad
    · exact loads_script hl false v hwv hfv hv (by simp)
    · exact (received_badKey k).trans hbad
    · exact received_normKey hnorm
    · exact (received_isNil v).trans hnil

end

/-! ### The round trip -/

/-- `encode`: the bytes that `rb_save` appends. -/
def encode (lua : Lua P) (oop upval : Bool) (v : Value P) : List UInt8 :=
  (script lua oop upval v).bytes

theorem functionScript_fin_ok {upval : Bool} {p : P} (hp : noUpvalues lua p) {table : Script}
    (htable : table.fin = .ok) :
    (functionScript lua upval p table).fin = .ok ↔ lua.lineDefined p ≠ 0 := by
  have htail : (upvalsTail lua upval p table).fin = .ok := by
    rw [upvalsTail]
    split_ifs with henv hups
    · rw [seq_fin rfl, seq_fin (by rw [mapPlace_fin, htable]; rfl)]
      rfl
    · rcases hp with hp | hp
      · simp [hp] at hups
      · simp [envOnly, hp] at henv
    · rfl
  rw [functionScript, seq_fin rfl, whatIsL]
  by_cases hline : lua.lineDefined p = 0
  · simp [hline]
  · rw [if_neg (by simpa using hline), seq_fin rfl, seq_fin rfl, seq_fin rfl, htail]
    simp [hline]

mutual

/-- A plain value is accepted unless a main chunk is in it. -/
theorem script_fin_ok_iff (oop upval : Bool) (v : Value P) (hwf : ∀ w ∈ v.parts, w.WfNode lua)
    (hplain : ∀ w ∈ v.parts, w.PlainNode lua) :
    (script lua oop upval v).fin = .ok ↔ ∀ w ∈ v.parts, w.isMainChunk lua = false := by
  have hself := hplain v v.self_mem_parts
  cases v with
  | table es typename =>
    rw [script, tableScript_fin_ok, forall_parts_table]
    have hes := entriesScript_fin_ok_iff oop upval es
      (forall_parts_table.mp hwf).2 (forall_parts_table.mp hplain).2
    simp [hes, Value.isMainChunk]
  | function p ups =>
    rw [script, upvalsScript_of_noUpvalues hself (hwf _ (Value.self_mem_parts _)),
      functionScript_fin_ok hself tableScript_empty.1]
    simp [Value.parts, Value.isMainChunk]
  | nil => simp [script, Value.parts, Value.isMainChunk]
  | boolean b => simp [script, Value.parts, Value.isMainChunk]
  | number bits => simp [script, numberScript, Value.parts, Value.isMainChunk]
  | integer n => simp [script, integerScript, Value.parts, Value.isMainChunk]
  | string bytes => simp [script, Value.parts, Value.isMainChunk]
  | lightuserdata => exact hself.elim
  | cfunction => exact hself.elim
  | userdata typename ptr => exact hself.elim
  | thread => exact hself.elim

theorem entriesScript_fin_ok_iff (oop upval : Bool) (es : List (Value P × Value P))
    (hwf : ∀ w ∈ entriesParts es, w.WfNode lua)
    (hplain : ∀ w ∈ entriesParts es, w.PlainNode lua) :
    (entriesScript lua oop upval es).fin = .ok ↔
      ∀ w ∈ entriesParts es, w.isMainChunk lua = false := by
  match es with
  | [] => simp [entriesScript, entriesParts]
  | (k, v) :: es =>
    obtain ⟨hwk, hwv, hwes⟩ := forall_parts_cons.mp hwf
    obtain ⟨hpk, hpv, hpes⟩ := forall_parts_cons.mp hplain
    rw [entriesScript, entryScript_fin_ok, forall_parts_cons, script_fin_ok_iff oop upval k hwk hpk,
      script_fin_ok_iff oop upval v hwv hpv, entriesScript_fin_ok_iff oop upval es hwes hpes]

end

theorem noUpvalues_of_plain {v : Value P} (h : v.Plain lua) : ∀ w ∈ v.parts, w.NoUpvalues lua := by
  intro w hw
  have hnode := h w hw
  cases w with
  | function p ups => exact hnode
  | _ => trivial

/-! ### What was accepted can be loaded -/

mutual

/-- Without `writeup` only functions without upvalues are accepted. -/
theorem noUpvalues_of_ok (oop : Bool) (v : Value P)
    (hok : (script lua oop false v).fin = .ok) : ∀ w ∈ v.parts, w.NoUpvalues lua := by
  cases v with
  | table es typename =>
    rw [script, tableScript_fin_ok] at hok
    exact forall_parts_table.mpr ⟨trivial, noUpvalues_of_entries_ok oop es hok⟩
  | function p ups =>
    rw [script] at hok
    have htail := (functionScript_bytes hok).1
    have hp : noUpvalues lua p := by
      rw [upvalsTail] at htail
      split_ifs at htail with henv hups
      · exact noUpvalues_of_envOnly henv
      · simp at htail
      · exact Or.inl (List.length_eq_zero_iff.mp (by omega))
    simpa [Value.parts, Value.NoUpvalues] using hp
  | _ => simp [Value.parts, Value.NoUpvalues]

theorem noUpvalues_of_entries_ok (oop : Bool) (es : List (Value P × Value P))
    (hok : (entriesScript lua oop false es).fin = .ok) :
    ∀ w ∈ entriesParts es, w.NoUpvalues lua := by
  match es with
  | [] => simp [entriesParts]
  | (k, v) :: es =>
    rw [entriesScript, entryScript_fin_ok] at hok
    exact forall_parts_cons.mpr ⟨noUpvalues_of_ok oop k hok.1, noUpvalues_of_ok oop v hok.2.1,
      noUpvalues_of_entries_ok oop es hok.2.2⟩

end

theorem encode_ne_nil {oop upval : Bool} {v : Value P}
    (hok : (script lua oop upval v).fin = .ok) : encode lua oop upval v ≠ [] := by
  rw [encode]
  cases v with
  | table es typename =>
    rw [script, tableScript_fin_ok] at hok
    rw [script, tableScript_bytes hok]
    exact List.cons_ne_nil _ _
  | function p ups =>
    rw [script] at hok ⊢
    rw [(functionScript_bytes hok).2]
    exact List.cons_ne_nil _ _
  | userdata typename ptr =>
    rw [script] at hok ⊢
    obtain ⟨rfl, hne⟩ := userdataScript_ok hok
    obtain ⟨tag, -, hbytes⟩ := userdataScript_bytes lua hne ptr
    rw [hbytes]
    exact List.cons_ne_nil _ _
  | lightuserdata => simp [script] at hok
  | cfunction => simp [script, seq_fin_ok] at hok
  | thread => simp [script] at hok
  | _ => simp [script, numberScript, integerScript]

theorem outcome_eq_ret_zero {pushed top top' : ℕ} {fx fx' : Effects} {e : End}
    (h : e.outcome pushed fx top = .ret 0 fx' top') : e = .ok := by
  cases e with
  | ok => rfl
  | code e place => cases place <;> cases e <;> simp [End.outcome, failAt, Errno.toInt] at h
  | raise e => simp [End.outcome] at h
  | diverges => simp [End.outcome] at h

/-- The round trip of one value through a buffer: `rb_save` appends its encoding
and leaves the stack alone, and from then on, as soon as the encoding is in front
and whatever follows it, `rb_load` pushes the value and leaves the rest. -/
def RoundTrip (lua : Lua P) (oop upval : Bool) (v : Value P) (index : ℕ) (fx : Effects)
    (top : ℕ) : Prop :=
  ∃ fx', rbSave lua oop upval v index fx top = .ret 0 fx' top ∧
    fx'.rb.Valid ∧ fx'.rb.content = fx.rb.content ++ encode lua oop upval v ∧
    ∃ n, ∀ rb rest stack, rb.Valid → rb.content = encode lua oop upval v ++ rest →
      ∃ rb', rb'.Valid ∧ rb'.content = rest ∧
        ∀ fuel ≥ n, rbLoad lua fuel rb stack = .ret 1 rb' (v.received :: stack)

/-- Every plain value makes the round trip, in every buffer with enough room, unless
it contains the main part of a chunk; then it never does. -/
theorem roundTrip_iff_no_main_chunk (hl : lua.Rebuilds) (oop upval : Bool) (v : Value P)
    (hwf : v.Wf lua) (hplain : v.Plain lua) (fx : Effects) (hrb : fx.rb.Valid)
    (hroom : (encode lua oop upval v).length ≤ fx.rb.room) (index top : ℕ) (hi : index ≤ top) :
    RoundTrip lua oop upval v index fx top ↔ ∀ w ∈ v.parts, w.isMainChunk lua = false := by
  rw [← script_fin_ok_iff oop upval v hwf hplain]
  obtain ⟨fx', happ, hrun⟩ := run_of_fits (if index = top then 0 else 1)
    (script lua oop upval v) fx top hrb hroom
  rw [← rbSave_eq lua oop upval v hi] at hrun
  constructor
  · rintro ⟨fx'', hsave, _⟩
    exact outcome_eq_ret_zero (hrun.symm.trans hsave)
  · intro hok
    rw [hok] at hrun
    obtain ⟨n, hn⟩ := loads_script hl false v hwf (noUpvalues_of_plain hplain) hok (by simp)
    refine ⟨fx', hrun, happ.valid, happ.content_eq, n, fun rb rest stack hv hc => ?_⟩
    obtain ⟨rb', h', hload⟩ := hn rb rest stack ⟨hv, hc⟩
    exact ⟨rb', h'.valid, h'.content_eq, hload⟩

end

/-- A small Lua for concrete values: a prototype is one byte, the line it starts at. -/
def sampleLua : Lua UInt8 where
  versionNum := 503
  dump p := [[27], [p]]
  undump bs :=
    match bs with
    | [] => .more
    | [27] => .more
    | [27, p] => .done p
    | _ => .error []
  undumpEnd _ := .error []
  readsEnd := false
  upvalueNames _ := ["_ENV"]
  shortSrc _ := "sample"
  lineDefined p := p.toNat
  getmetatable name := if name = [84] then .torch [84] else .none
  retain _ _ := .called
  stringInteger s :=
    if s ≠ [] ∧ s.all (fun c => 48 ≤ c && c ≤ 57) then some (s.foldl (fun n c => 10 * n + (c - 48).toUInt64) 0)
    else none
  fractionInteger _ := none
  next es := es
  next_perm es := .refl es
  allocaRoom := 2 ^ 20
  stackRoom := 8000

theorem sampleLua_rebuilds : sampleLua.Rebuilds := by
  refine ⟨fun p => by simp [sampleLua], fun p => rfl, fun p bs hpre hne => ?_⟩
  have hp : bs <+: [27, p] := hpre
  rw [List.prefix_cons_iff] at hp
  rcases hp with rfl | ⟨cs, rfl, hcs⟩
  · rfl
  rw [List.prefix_cons_iff] at hcs
  rcases hcs with rfl | ⟨ds, rfl, hds⟩
  · rfl
  · rw [List.prefix_nil.mp hds] at hne
    exact absurd rfl hne

/-- A table with a typed table under an integer and a function under a string. -/
def sampleTable : Value UInt8 :=
  .table [(.integer 1, .table [] (.torch [84])), (.string [102], .function 3 [none])] .none

theorem sampleTable_wf : sampleTable.Wf sampleLua := by
  intro w hw
  simp only [sampleTable, Value.parts, entriesParts, List.cons_append, List.nil_append,
    List.mem_cons, List.not_mem_nil, or_false] at hw
  rcases hw with rfl | rfl | rfl | rfl | rfl
  · refine ⟨Or.inl rfl, fun e he => ?_, by simp [Value.sameKey]⟩
    rcases List.mem_pair.mp he with rfl | rfl
    · exact ⟨rfl, rfl, rfl⟩
    · exact ⟨rfl, rfl, rfl⟩
  · exact le_refl 503
  · exact ⟨Or.inr ⟨by decide, by decide, rfl⟩, by simp, by simp⟩
  · simp [Value.WfNode]
  · rfl

theorem sampleTable_plain : sampleTable.Plain sampleLua := by
  simp [Value.Plain, sampleTable, Value.parts, entriesParts, Value.PlainNode, noUpvalues, sampleLua]

theorem roundTrip_iff_no_main_chunk_sample :
    RoundTrip sampleLua false false sampleTable 1 ⟨ringbufferCreate 128, []⟩ 1 :=
  (roundTrip_iff_no_main_chunk sampleLua_rebuilds false false sampleTable sampleTable_wf
    sampleTable_plain ⟨ringbufferCreate 128, []⟩ (Ringbuffer.create_valid (by decide))
    (by decide +kernel) 1 1 le_rfl).mpr
    (by simp [sampleTable, Value.parts, entriesParts, Value.isMainChunk, sampleLua])

/-- What `load` returns is refused, with the message for C functions. -/
theorem main_chunk_not_saved :
    (Value.function 0 [none]).Wf sampleLua ∧ (Value.function 0 [none]).Plain sampleLua ∧
      (encode sampleLua false false (.function 0 [none])).length ≤ (ringbufferCreate 128).room ∧
      ¬ RoundTrip sampleLua false false (.function 0 [none]) 1 ⟨ringbufferCreate 128, []⟩ 1 := by
  refine ⟨?_, ?_, by decide +kernel, ?_⟩
  · simp [Value.Wf, Value.parts, Value.WfNode, sampleLua]
  · simp [Value.Plain, Value.parts, Value.PlainNode, noUpvalues, sampleLua]
  · rintro ⟨fx', hsave, _⟩
    exact SaveOutcome.noConfusion hsave

end TorchIpc
