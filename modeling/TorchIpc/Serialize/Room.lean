import TorchIpc.Serialize.Saving

/-! `rb_load` where `lua_checkstack` may fail. A value takes a slot of the stack, and its parts
take slots above it. With all of these slots it is loaded as on a stack without a bound;
without the first nothing is read. -/

namespace TorchIpc

open Words

section
variable {P : Type} (lua : Lua P)

mutual

/-- The slots that are taken while the value is loaded, its own among them. -/
def Value.slots : Value P → ℕ
  | .table es _ => 1 + entriesSlots es
  -- the table of the upvalues, which is empty
  | .function p _ => if envOnly lua false p then 3 else 1
  | _ => 1

/-- The slots above a table: there is one at least, for the key that is not there. -/
def entriesSlots : List (Value P × Value P) → ℕ
  | [] => 1
  | (k, v) :: es => max (max k.slots (1 + v.slots)) (entriesSlots es)

end

/-- The values are loaded one after the other, on a stack of this height. -/
def FitsOn : ℕ → List (Value P) → Prop
  | _, [] => True
  | height, v :: vs => height + v.slots lua ≤ lua.stackRoom ∧ FitsOn (height + 1) vs

variable {lua}

theorem Value.one_le_slots (v : Value P) : 1 ≤ v.slots lua := by
  cases v with
  | table es typename =>
    rw [Value.slots]
    exact Nat.le_add_right 1 _
  | function p ups =>
    rw [Value.slots]
    split_ifs
    · decide
    · exact le_rfl
  | _ => exact le_rfl

mutual

/-- A value that was received takes as many slots. -/
@[simp] theorem Value.slots_received : ∀ v : Value P, v.received.slots lua = v.slots lua
  | .table es typename => by
    rw [Value.received, Value.slots, Value.slots, entriesSlots_received]
  | .function p ups => by rw [Value.received, Value.slots, Value.slots]
  | .nil => by rw [Value.received]
  | .boolean _ => by rw [Value.received]
  | .number _ => by rw [Value.received]
  | .integer _ => by rw [Value.received]
  | .string _ => by rw [Value.received]
  | .userdata _ _ => by rw [Value.received]
  | .lightuserdata => by rw [Value.received]
  | .cfunction => by rw [Value.received]
  | .thread => by rw [Value.received]

theorem entriesSlots_received : ∀ es : List (Value P × Value P),
    entriesSlots lua (receivedEntries es) = entriesSlots lua es
  | [] => rfl
  | (k, v) :: es => by
    rw [receivedEntries, entriesSlots, entriesSlots, k.slots_received, v.slots_received, entriesSlots_received es]

end

theorem fitsOn_append {height : ℕ} {us vs : List (Value P)} :
    FitsOn lua height (us ++ vs) ↔ FitsOn lua height us ∧ FitsOn lua (height + us.length) vs := by
  induction us generalizing height with
  | nil => exact (true_and _).to_iff.symm
  | cons u us ih =>
    rw [List.cons_append, FitsOn, FitsOn, ih, and_assoc, List.length_cons, Nat.add_assoc height, Nat.add_comm 1]

theorem fitsOn_received {height : ℕ} {vs : List (Value P)} :
    FitsOn lua height (vs.map Value.received) ↔ FitsOn lua height vs := by
  induction vs generalizing height with
  | nil => exact Iff.rfl
  | cons v vs ih => rw [List.map_cons, FitsOn, FitsOn, ih, v.slots_received]

theorem fitsOn_of_slots {height : ℕ} {vs : List (Value P)} (hvs : ∀ v ∈ vs, v.slots lua = 1)
    (hle : height + vs.length ≤ lua.stackRoom) : FitsOn lua height vs := by
  induction vs generalizing height with
  | nil => trivial
  | cons v vs ih =>
    obtain ⟨hv, hvs⟩ := List.forall_mem_cons.mp hvs
    rw [List.length_cons] at hle
    exact ⟨by rw [hv]; omega, ih hvs (by omega)⟩

theorem not_fitsOn {height : ℕ} {vs : List (Value P)} (h : ¬ FitsOn lua height vs) :
    ∃ us v ws, vs = us ++ v :: ws ∧ FitsOn lua height us ∧
      lua.stackRoom < height + us.length + v.slots lua := by
  induction vs generalizing height with
  | nil => exact absurd trivial h
  | cons v vs ih =>
    by_cases hv : height + v.slots lua ≤ lua.stackRoom
    · obtain ⟨us, u, ws, rfl, hus, hu⟩ := ih fun hvs => h ⟨hv, hvs⟩
      refine ⟨v :: us, u, ws, rfl, ⟨hv, hus⟩, ?_⟩
      rw [List.length_cons]
      omega
    · exact ⟨[], v, vs, rfl, trivial, not_le.mp hv⟩

/-! ### With all slots -/

theorem luaCheckstack_some {room : ℕ} {stack : List (Value P)} :
    luaCheckstack (some room) stack = false ↔ room ≤ stack.length := by
  rw [luaCheckstack, decide_eq_false_iff_not, not_lt]

theorem slot_free {room : ℕ} {stack : List (Value P)} (hroom : stack.length < room) :
    ¬ luaCheckstack (some room) stack = false :=
      fun hfull => absurd hroom (not_lt.mpr (luaCheckstack_some.mp hfull))

theorem rbLoadRcsvIn_full {stack : List (Value P)} (hfull : lua.stackRoom ≤ stack.length) (fuel : ℕ)
    (isKey : Bool) (rb : Ringbuffer) :
    rbLoadRcsvIn lua (some lua.stackRoom) (fuel + 1) isKey rb stack =
      .ret (-Errno.ENOMEM.toInt) rb stack := by
  rw [rbLoadRcsvIn, if_pos (luaCheckstack_some.mpr hfull)]

/-- What is no table and no function has no parts. -/
theorem rbLoadRcsvIn_leaf {rb : Ringbuffer} {tag : UInt8} {bs : List UInt8} (h : Holds rb (tag :: bs))
    (htable : tag ≠ LUA_TTABLE) (hfunction : tag ≠ LUA_TFUNCTION) {stack : List (Value P)}
    (hroom : stack.length < lua.stackRoom) (fuel : ℕ) (isKey : Bool) :
    rbLoadRcsvIn lua (some lua.stackRoom) (fuel + 1) isKey rb stack =
      rbLoadRcsv lua (fuel + 1) isKey rb stack := by
  obtain ⟨rb₁, -, hread⟩ := Holds.rbRead_byte (P := P) h
  rw [rbLoadRcsvIn, if_neg (slot_free hroom), rbLoadRcsv_succ, hread, hread]
  simp only [List.headD_cons]
  split
  · rfl
  · rfl
  · rfl
  · rfl
  · rfl
  · exact absurd rfl htable
  · exact absurd rfl hfunction
  · rfl
  · rfl
  · rfl

variable (lua) in
/-- These bytes are loaded as this value, where there are the slots for it. -/
def LoadsIn (isKey : Bool) (bs : List UInt8) (v : Value P) : Prop :=
  ∃ n, ∀ rb rest stack, Holds rb (bs ++ rest) → stack.length + v.slots lua ≤ lua.stackRoom →
    ∃ rb', Holds rb' rest ∧ ∀ fuel ≥ n,
      rbLoadRcsvIn lua (some lua.stackRoom) fuel isKey rb stack = .ret 1 rb' (v :: stack)

theorem Loads.loadsIn {isKey : Bool} {tag : UInt8} {bs : List UInt8} {v : Value P} (h : Loads lua isKey (tag :: bs) v)
    (htable : tag ≠ LUA_TTABLE) (hfunction : tag ≠ LUA_TFUNCTION) :
    LoadsIn lua isKey (tag :: bs) v := by
  obtain ⟨n, hn⟩ := h
  refine ⟨n + 1, fun rb rest stack hrb hroom => ?_⟩
  obtain ⟨rb', h', hload⟩ := hn rb rest stack hrb
  refine ⟨rb', h', fun fuel hf => ?_⟩
  obtain ⟨fuel, rfl⟩ : ∃ m, fuel = m + 1 := ⟨fuel - 1, by omega⟩
  have hslot := @Value.one_le_slots P lua v
  rw [rbLoadRcsvIn_leaf hrb htable hfunction (by omega), hload (fuel + 1) (by omega)]

/-! ### Tables -/

theorem loadTableIn_round {bk bv : List UInt8} {k v : Value P} (hk : LoadsIn lua true bk k)
    (hv : LoadsIn lua false bv v) (hbad : k.badKey = false) :
    ∃ n, ∀ rb rest (es : List (Value P × Value P)) stack, Holds rb (bk ++ bv ++ rest) →
      stack.length + 1 + max (k.slots lua) (1 + v.slots lua) ≤ lua.stackRoom →
      ∃ rb', Holds rb' rest ∧ ∀ fuel ≥ n, ∀ startsize,
        loadTableIn lua (some lua.stackRoom) (fuel + 1) startsize rb (.table es .none :: stack) =
          loadTableIn lua (some lua.stackRoom) fuel startsize rb'
            (.table (setEntry (k.normKey lua.versionNum) v es) .none :: stack) := by
  obtain ⟨n, hn⟩ := hk
  obtain ⟨m, hm⟩ := hv
  refine ⟨max n m, fun rb rest es stack h hroom => ?_⟩
  rw [List.append_assoc] at h
  obtain ⟨rb₁, h₁, hkey⟩ := hn rb _ (.table es .none :: stack) h (by rw [List.length_cons]; omega)
  obtain ⟨rb₂, h₂, hvalue⟩ := hm rb₁ _ (k :: .table es .none :: stack) h₁ (by
    rw [List.length_cons, List.length_cons]
    omega)
  refine ⟨rb₂, h₂, fun fuel hf startsize => ?_⟩
  rw [loadTableIn, hkey fuel (by omega)]
  simp only [LoadOutcome.andThen, hvalue fuel (by omega), one_ne_zero, if_false, luaSettable, hbad,
    Bool.false_eq_true]

theorem loadTableIn_nil {rb : Ringbuffer} {rest : List UInt8} (h : Holds rb (LUA_TNIL :: rest))
    {stack : List (Value P)} (hroom : stack.length < lua.stackRoom) :
    ∃ rb', Holds rb' rest ∧ ∀ fuel startsize,
      loadTableIn lua (some lua.stackRoom) (fuel + 2) startsize rb stack =
      loadTypename lua startsize rb' stack := by
  obtain ⟨rb', h', hread⟩ := Holds.rbRead_byte (P := P) h
  refine ⟨rb', h', fun fuel startsize => ?_⟩
  rw [loadTableIn, rbLoadRcsvIn, if_neg (slot_free hroom), hread]
  rfl

variable (lua) in
/-- The bytes of the entries, one after the other. -/
inductive EntriesIn : List UInt8 → List (Value P × Value P) → Prop where
  | nil : EntriesIn [] []
  | cons {bk bv cs k v es} : LoadsIn lua true bk k → LoadsIn lua false bv v → k.badKey = false →
      k.normKey lua.versionNum = k → v.isNil = false → EntriesIn cs es →
        EntriesIn (bk ++ bv ++ cs) ((k, v) :: es)

theorem loadsIn_table (isKey : Bool) {bs : List UInt8} {es : List (Value P × Value P)} (hes : EntriesIn lua bs es)
    (hkeys : (es.map Prod.fst).Pairwise fun a b => a.sameKey b = false) {typename : TypeName}
    (hk : lua.Knows typename) :
    LoadsIn lua isKey (LUA_TTABLE :: (bs ++ (LUA_TNIL :: (leBytes 8 typename.str.length ++ typename.str))))
      (.table es typename) := by
  -- the entries read so far are `acc`; the rest have keys that are new to it
  have hloop : ∃ n, ∀ rb rest (acc : List (Value P × Value P)) stack, (∀ e ∈ es, NewKey e.1 acc) →
      Holds rb (bs ++ (LUA_TNIL :: (leBytes 8 typename.str.length ++ typename.str)) ++ rest) →
      stack.length + 1 + entriesSlots lua es ≤ lua.stackRoom → ∃ rb', Holds rb' rest ∧ ∀ fuel ≥ n,
        loadTableIn lua (some lua.stackRoom) fuel stack.length rb (.table acc .none :: stack) =
          .ret 1 rb' (.table (acc ++ es) typename :: stack) := by
    induction hes with
    | nil =>
      refine ⟨2, fun rb rest acc stack _ h hroom => ?_⟩
      rw [entriesSlots] at hroom
      obtain ⟨rb₁, h₁, hnil⟩ :=
        @loadTableIn_nil P lua rb _ h (.table acc .none :: stack) (by rw [List.length_cons]; omega)
      obtain ⟨rb₂, h₂, htype⟩ := loadTypename_eq hk h₁ acc stack
      refine ⟨rb₂, h₂, fun fuel hf => ?_⟩
      obtain ⟨fuel, rfl⟩ : ∃ m, fuel = m + 2 := ⟨fuel - 2, by omega⟩
      rw [hnil, List.append_nil, htype]
    | @cons bk bv cs k v es hloadk hloadv hbad hnorm hvalue _ ih =>
      rw [List.map_cons, List.pairwise_cons] at hkeys
      obtain ⟨n, hn⟩ := ih hkeys.2
      obtain ⟨m, hm⟩ := loadTableIn_round hloadk hloadv hbad
      refine ⟨max n m + 1, fun rb rest acc stack hnew h hroom => ?_⟩
      rw [entriesSlots] at hroom
      rw [List.append_assoc, List.append_assoc, List.append_assoc, ← List.append_assoc bk] at h
      obtain ⟨rb₁, h₁, hround⟩ := hm rb _ acc stack h (by omega)
      have hnewk : NewKey k acc := hnew (k, v) List.mem_cons_self
      have hnew' : ∀ e ∈ es, NewKey e.1 (acc ++ [(k, v)]) := by
        intro e he' e' he''
        rcases List.mem_append.mp he'' with hacc | hlast
        · exact hnew e (List.mem_cons_of_mem _ he') e' hacc
        · rw [List.mem_singleton.mp hlast]
          exact hkeys.1 e.1 (List.mem_map_of_mem he')
      obtain ⟨rb₂, h₂, hrest⟩ :=
        hn rb₁ rest (acc ++ [(k, v)]) stack hnew' (by rwa [List.append_assoc]) (by omega)
      refine ⟨rb₂, h₂, fun fuel hf => ?_⟩
      obtain ⟨fuel, rfl⟩ : ∃ m, fuel = m + 1 := ⟨fuel - 1, by omega⟩
      rw [hround fuel (by omega), hnorm, setEntry_new hvalue hnewk, hrest fuel (by omega), List.append_assoc]
      rfl
  obtain ⟨n, hn⟩ := hloop
  refine ⟨n + 1, fun rb rest stack h hroom => ?_⟩
  rw [Value.slots] at hroom
  obtain ⟨rb₁, h₁, hread⟩ := Holds.rbRead_byte (P := P) h
  obtain ⟨rb₂, h₂, hload⟩ := hn rb₁ rest [] stack (fun _ _ _ he => by simp at he) h₁ (by omega)
  refine ⟨rb₂, h₂, fun fuel hf => ?_⟩
  obtain ⟨fuel, rfl⟩ : ∃ m, fuel = m + 1 := ⟨fuel - 1, by omega⟩
  rw [rbLoadRcsvIn, if_neg (slot_free (by omega)), hread]
  exact hload fuel (by omega)

theorem loadsIn_emptyTable (lua : Lua P) : LoadsIn lua false emptyTableBytes (.table [] .none) :=
  loadsIn_table false .nil .nil (Or.inl rfl)

/-! ### Functions -/

theorem loadsIn_userdataBytes (isKey : Bool) {typename : TypeName} (hk : lua.Knows typename)
    (hne : typename ≠ .none) {ptr : UInt64} (hptr : typename.MayHold ptr) :
    LoadsIn lua isKey (userdataScript lua false typename ptr).bytes (.userdata typename ptr) := by
  have hloads := loads_userdataBytes isKey hk hne hptr
  obtain ⟨tag, htag, hbytes⟩ := userdataScript_bytes lua hne ptr
  rw [hbytes] at hloads ⊢
  rcases htag with ⟨rfl, -⟩ | rfl
  · exact hloads.loadsIn (by decide) (by decide)
  · exact hloads.loadsIn (by decide) (by decide)

theorem loadsIn_function (hl : lua.Rebuilds) (isKey : Bool) {p : P} (hp : noUpvalues lua p)
    {ups : List (Option (Value P))} (hups : ups.length = (lua.upvalueNames p).length)
    (hok : (script lua false false (.function p ups)).fin = .ok) :
    LoadsIn lua isKey (script lua false false (.function p ups)).bytes (Value.function p ups).received := by
  rw [script, upvalsScript_of_noUpvalues hp hups] at hok ⊢
  obtain ⟨htail, hbytes⟩ := functionScript_bytes hok
  obtain ⟨n, hn⟩ := loadFunction_dump hl p
  obtain ⟨m, hm⟩ := loadsIn_emptyTable lua
  have hreceived : (Value.function p ups).received =
      .function p ((lua.upvalueNames p).map fun _ => none) := by
    rw [Value.received, List.map_const', List.map_const', hups]
  rw [hbytes, hreceived]
  refine ⟨max n m + 1, fun rb rest stack h hroom => ?_⟩
  rw [List.cons_append] at h
  obtain ⟨rb₀, h₀, hread⟩ := Holds.rbRead_byte (P := P) h
  simp only [List.append_assoc] at h₀
  obtain ⟨rb₁, h₁, hload⟩ := hn rb₀ _ stack h₀
  rw [Value.slots] at hroom
  obtain ⟨rb₂, h₂, hclosure⟩ :=
    loadClosure_eq hp htail (fun fuel => rbLoadRcsvIn lua (some lua.stackRoom) fuel false)
    (fun stack => stack.length + 2 ≤ lua.stackRoom)
    (fun rb rest stack h hfits => hm rb rest stack h hfits) h₁ fun henv => by
      have hslots : envOnly lua false p = true := henv
      rw [if_pos hslots] at hroom
      rw [List.length_cons]
      omega
  refine ⟨rb₂, h₂, fun fuel hf => ?_⟩
  obtain ⟨fuel, rfl⟩ : ∃ m, fuel = m + 1 := ⟨fuel - 1, by omega⟩
  rw [rbLoadRcsvIn, if_neg (slot_free (by split_ifs at hroom <;> omega)), hread]
  exact (hload fuel (by omega) _).trans (hclosure fuel (by omega))

/-! ### Saved values -/

mutual

theorem loadsIn_script (hl : lua.Rebuilds) (isKey : Bool) (v : Value P) (hwf : ∀ w ∈ v.parts, w.WfNode lua)
    (hok : (script lua false false v).fin = .ok) (hkey : isKey = true → v.badKey = false) :
    LoadsIn lua isKey (script lua false false v).bytes v.received := by
  have hloads := loads_script hl isKey v hwf (noUpvalues_of_ok false v hok) hok hkey
  cases v with
  | nil => exact hloads.loadsIn (by decide) (by decide)
  | boolean b => exact hloads.loadsIn (by decide) (by decide)
  | number bits => exact hloads.loadsIn (by decide) (by decide)
  | integer n => exact hloads.loadsIn (by decide) (by decide)
  | string bytes => exact hloads.loadsIn (by decide) (by decide)
  | table es typename =>
    obtain ⟨hnode, hes⟩ := forall_parts_table.mp hwf
    rw [script, tableScript_fin_ok] at hok
    rw [script, tableScript_bytes hok, Value.received]
    exact loadsIn_table isKey (entriesIn_script hl es hes hnode.2.1 hok) (received_keys hnode.2.2) hnode.1
  | function p ups =>
    exact loadsIn_function hl isKey (noUpvalues_of_ok false _ hok _ (Value.self_mem_parts _))
      (hwf _ (Value.self_mem_parts _)) hok
  | userdata typename ptr =>
    obtain ⟨hk, hptr⟩ := hwf _ (Value.self_mem_parts (.userdata typename ptr))
    rw [script] at hok
    exact loadsIn_userdataBytes isKey hk (userdataScript_ok hok).2 hptr
  | lightuserdata => cases hok
  | cfunction => simp [script, seq_fin_ok] at hok
  | thread => cases hok

theorem entriesIn_script (hl : lua.Rebuilds) (es : List (Value P × Value P)) (hwf : ∀ w ∈ entriesParts es, w.WfNode lua)
    (hes : ∀ e ∈ es, e.1.badKey = false ∧ e.1.normKey lua.versionNum = e.1 ∧ e.2.isNil = false)
    (hok : (entriesScript lua false false es).fin = .ok) :
    EntriesIn lua (entriesScript lua false false es).bytes (receivedEntries es) := by
  match es with
  | [] => exact .nil
  | (k, v) :: es =>
    obtain ⟨hwk, hwv, hwes⟩ := forall_parts_cons.mp hwf
    rw [entriesScript, entryScript_fin_ok] at hok
    obtain ⟨hk, hv, hrest⟩ := hok
    obtain ⟨hbad, hnorm, hnil⟩ := hes (k, v) List.mem_cons_self
    rw [entriesScript, entryScript_bytes hk hv, receivedEntries]
    exact .cons (loadsIn_script hl true k hwk hk fun _ => hbad) (loadsIn_script hl false v hwv hv nofun)
      ((received_badKey k).trans hbad) (received_normKey hnorm) ((received_isNil v).trans hnil)
      (entriesIn_script hl es hwes (fun e he => hes e (List.mem_cons_of_mem _ he)) hrest)

end

end

end TorchIpc
