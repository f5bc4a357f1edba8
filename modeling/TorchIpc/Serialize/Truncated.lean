import TorchIpc.Serialize.Room

/-! What the loader makes of a value that `rb_save` refused with a code after it had
written a part of it. Nothing at all may have been written, or a userdata that only could
not be retained; otherwise it is the beginning of a table. The loop over the table does not
notice the end of the bytes: it stores whatever lies on the stack into whatever lies below,
until something there is no table. So the beginning of a table is never loaded. -/

namespace TorchIpc

section
variable {P : Type}

def LoadOutcome.Returns : LoadOutcome P → Prop
  | .ret _ _ _ => True
  | _ => False

theorem andThen_not_returns {o : LoadOutcome P} (h : ¬ o.Returns)
    {k : ℤ → Ringbuffer → List (Value P) → LoadOutcome P} :
    ¬ (o.andThen k).Returns := by
  cases o with
  | ret => exact absurd trivial h
  | _ => exact id

/-- Without bytes the loader returns a code, and changes nothing. -/
theorem rbRead_end {rb : Ringbuffer} (h : Holds rb []) {n : ℕ} (hn : n ≠ 0) :
    ∃ rb', Holds rb' [] ∧ ∀ (stack : List (Value P)) k,
      rbRead n rb stack k = .ret (-Errno.ENOMEM.toInt) rb' stack := by
  have hrcb : rb.rcb = 0 := by
    rw [← h.valid.length_content, h.content_eq]
    rfl
  refine ⟨(ringbufferRead rb n).2.2, ⟨Ringbuffer.read_valid h.valid n, ?_⟩, fun stack k => ?_⟩
  · rw [Ringbuffer.read_content h.valid, h.content_eq, List.drop_nil]
  · have hi : (ringbufferRead rb n).1 ≠ n := by
      rw [Ringbuffer.read_fst, hrcb, Nat.min_zero]
      exact hn.symm
    simp only [rbRead]
    exact if_pos hi

variable {lua : Lua P}

theorem rbLoadRcsv_end (lua : Lua P) {rb : Ringbuffer} (h : Holds rb []) :
    ∃ rb', Holds rb' [] ∧ ∀ fuel isKey (stack : List (Value P)),
      rbLoadRcsv lua (fuel + 1) isKey rb stack = .ret (-Errno.ENOMEM.toInt) rb' stack := by
  obtain ⟨rb', h', hread⟩ := rbRead_end (P := P) h one_ne_zero
  refine ⟨rb', h', fun fuel isKey stack => ?_⟩
  rw [rbLoadRcsv_succ, hread]

/-- `lua_settable` goes on with a shorter stack, if it goes on. -/
theorem luaSettable_not_returns {versionNum : ℕ} {rb : Ringbuffer} (stack : List (Value P))
    {next : List (Value P) → LoadOutcome P} (hnext : ∀ stack, ¬ (next stack).Returns) :
    ¬ (luaSettable versionNum rb stack next).Returns := by
  unfold luaSettable
  split
  · split_ifs
    · exact id
    · exact hnext _
  · exact id
  · exact id
  · exact id
  · exact id

/-- At the end of the bytes the loop over a table does not return. -/
theorem loadTable_end (lua : Lua P) (fuel startsize : ℕ) {rb : Ringbuffer} (h : Holds rb [])
    (stack : List (Value P)) : ¬ (loadTable lua fuel startsize rb stack).Returns := by
  induction fuel generalizing rb stack with
  | zero => exact id
  | succ fuel ih =>
    rw [loadTable_succ]
    cases fuel with
    | zero => exact id
    | succ fuel =>
      obtain ⟨rb₁, h₁, hkey⟩ := rbLoadRcsv_end lua h
      obtain ⟨rb₂, h₂, hvalue⟩ := rbLoadRcsv_end lua h₁
      have hcode : ¬ -Errno.ENOMEM.toInt = 0 := by decide
      rw [hkey, LoadOutcome.andThen, if_neg hcode, hvalue, LoadOutcome.andThen]
      exact luaSettable_not_returns stack fun stack => ih h₂ stack

/-! ### Refused values -/

theorem tableScript_not_ok {body : Script} (hb : body.fin ≠ .ok) (typename : TypeName) :
    (tableScript body typename).fin = body.fin.mapPlace valuePlace ∧
      (tableScript body typename).bytes = LUA_TTABLE :: body.bytes := by
  have hplace : (body.mapPlace valuePlace).fin ≠ .ok := fun h => hb (End.mapPlace_ok.mp h)
  rw [tableScript, seq_of_not_ok hplace, seq_fin rfl, seq_bytes rfl, mapPlace_bytes]
  exact ⟨rfl, rfl⟩

/-- Without upvalues a function is written, or an error is raised. -/
theorem functionScript_not_code {p : P} {ups : List (Option (Value P))}
    (hups : ups.length = (lua.upvalueNames p).length) (e : Errno) (place : Place) :
    (script lua false false (.function p ups)).fin ≠ .code e place := by
  rw [script, functionScript, seq_fin rfl]
  split_ifs
  · rintro ⟨⟩
  rw [seq_fin rfl, seq_fin rfl, seq_fin rfl, upvalsTail]
  split_ifs with henv
  · rw [upvalsScript_of_noUpvalues (noUpvalues_of_envOnly henv) hups, seq_fin rfl, seq_fin rfl]
    rintro ⟨⟩
  · rintro ⟨⟩
  · rintro ⟨⟩

/-! ### Cut off values -/

/-- At the end of the bytes there is a code, whether there is a slot or not. -/
theorem rbLoadRcsvIn_end {rb : Ringbuffer} (h : Holds rb []) (fuel : ℕ) (isKey : Bool) (stack : List (Value P)) :
    ∃ rb', Holds rb' [] ∧
      rbLoadRcsvIn lua (some lua.stackRoom) (fuel + 1) isKey rb stack =
        .ret (-Errno.ENOMEM.toInt) rb' stack := by
  by_cases hroom : stack.length < lua.stackRoom
  · obtain ⟨rb', h', hread⟩ := rbRead_end (P := P) h one_ne_zero
    refine ⟨rb', h', ?_⟩
    rw [rbLoadRcsvIn, if_neg (slot_free hroom), hread]
  · exact ⟨rb, h, rbLoadRcsvIn_full (not_lt.mp hroom) fuel isKey rb⟩

theorem loadTableIn_end (fuel startsize : ℕ) {rb : Ringbuffer} (h : Holds rb []) (stack : List (Value P)) :
    ¬ (loadTableIn lua (some lua.stackRoom) fuel startsize rb stack).Returns := by
  induction fuel generalizing rb stack with
  | zero => exact id
  | succ fuel ih =>
    rw [loadTableIn]
    cases fuel with
    | zero => exact id
    | succ fuel =>
      obtain ⟨rb₁, h₁, hkey⟩ := @rbLoadRcsvIn_end P lua rb h fuel true stack
      obtain ⟨rb₂, h₂, hvalue⟩ := @rbLoadRcsvIn_end P lua rb₁ h₁ fuel false stack
      have hcode : ¬ -Errno.ENOMEM.toInt = 0 := by decide
      rw [hkey, LoadOutcome.andThen, if_neg hcode, hvalue, LoadOutcome.andThen]
      exact luaSettable_not_returns stack fun stack => ih h₂ stack

variable (lua) in
/-- The loader does not return from these bytes, when nothing follows them and there are so many
slots. -/
def StuckIn (slots : ℕ) (bs : List UInt8) : Prop :=
  ∃ n, ∀ rb, Holds rb bs → ∀ fuel ≥ n, ∀ isKey stack, stack.length + slots ≤ lua.stackRoom →
    ¬ (rbLoadRcsvIn lua (some lua.stackRoom) fuel isKey rb stack).Returns

variable (lua) in
/-- What was written of a value that was refused with a code. -/
inductive TruncatedIn (bs : List UInt8) : Value P → Prop where
  | nothing {v} : bs = [] → TruncatedIn bs v
  | complete {typename ptr} : (∀ isKey, LoadsIn lua isKey bs (.userdata typename ptr)) →
      TruncatedIn bs (.userdata typename ptr)
  | table {v} : StuckIn lua (v.slots lua) bs → TruncatedIn bs v

variable (lua) in
/-- The loop over a table whose last entry is cut off, with so many slots above the table. -/
def TableStuckIn (slots : ℕ) (bs : List UInt8) : Prop :=
  ∃ n, ∀ rb, Holds rb bs → ∀ fuel ≥ n, ∀ startsize (es : List (Value P × Value P)) stack,
    stack.length + 1 + slots ≤ lua.stackRoom →
      ¬ (loadTableIn lua (some lua.stackRoom) fuel startsize rb (.table es .none :: stack)).Returns

theorem TableStuckIn.stuckIn {slots : ℕ} {bs : List UInt8} (h : TableStuckIn lua slots bs) :
    StuckIn lua (1 + slots) (LUA_TTABLE :: bs) := by
  obtain ⟨n, hn⟩ := h
  refine ⟨n + 1, fun rb hrb fuel hf isKey stack hroom => ?_⟩
  obtain ⟨fuel, rfl⟩ : ∃ m, fuel = m + 1 := ⟨fuel - 1, by omega⟩
  by_cases hslot : stack.length < lua.stackRoom
  · obtain ⟨rb₁, h₁, hread⟩ := Holds.rbRead_byte (P := P) hrb
    rw [rbLoadRcsvIn, if_neg (slot_free hslot), hread]
    exact hn rb₁ h₁ fuel (by omega) stack.length [] stack (by omega)
  · omega

theorem tableStuckIn_key {bs : List UInt8} {k : Value P} (h : TruncatedIn lua bs k) :
    TableStuckIn lua (k.slots lua) bs := by
  cases h with
  | nothing hbs => exact ⟨0, fun rb hrb fuel _ startsize es stack _ => loadTableIn_end fuel startsize (hbs ▸ hrb) _⟩
  | @complete typename ptr hload =>
    obtain ⟨n, hn⟩ := hload true
    refine ⟨n + 2, fun rb hrb fuel hf startsize es stack hroom => ?_⟩
    obtain ⟨fuel, rfl⟩ : ∃ m, fuel = m + 2 := ⟨fuel - 2, by omega⟩
    obtain ⟨rb₁, h₁, hkey⟩ := hn rb [] (.table es .none :: stack) (by rwa [List.append_nil]) hroom
    obtain ⟨rb₂, h₂, hvalue⟩ :=
      @rbLoadRcsvIn_end P lua rb₁ h₁ fuel false (.userdata typename ptr :: .table es .none :: stack)
    rw [loadTableIn, hkey (fuel + 1) (by omega), LoadOutcome.andThen, if_neg one_ne_zero, hvalue,
      LoadOutcome.andThen]
    exact luaSettable_not_returns _ fun stack => loadTableIn_end _ startsize h₂ stack
  | table hstuck =>
    obtain ⟨n, hn⟩ := hstuck
    refine ⟨n + 1, fun rb hrb fuel hf startsize es stack hroom => ?_⟩
    obtain ⟨fuel, rfl⟩ : ∃ m, fuel = m + 1 := ⟨fuel - 1, by omega⟩
    have hkey := hn rb hrb fuel (by omega) true (.table es .none :: stack) hroom
    rw [loadTableIn]
    exact andThen_not_returns hkey

theorem tableStuckIn_value {bk bv : List UInt8} {k v : Value P} (hk : LoadsIn lua true bk k)
    (hbad : k.badKey = false) (h : TruncatedIn lua bv v) :
    TableStuckIn lua (max (k.slots lua) (1 + v.slots lua)) (bk ++ bv) := by
  obtain ⟨n, hn⟩ := hk
  cases h with
  | nothing hbv =>
    subst hbv
    refine ⟨n + 2, fun rb hrb fuel hf startsize es stack hroom => ?_⟩
    obtain ⟨fuel, rfl⟩ : ∃ m, fuel = m + 2 := ⟨fuel - 2, by omega⟩
    obtain ⟨rb₁, h₁, hkey⟩ :=
      hn rb [] (.table es .none :: stack) hrb (by rw [List.length_cons]; omega)
    obtain ⟨rb₂, h₂, hvalue⟩ :=
      @rbLoadRcsvIn_end P lua rb₁ h₁ fuel false (k :: .table es .none :: stack)
    rw [loadTableIn, hkey (fuel + 1) (by omega), LoadOutcome.andThen, if_neg one_ne_zero, hvalue,
      LoadOutcome.andThen]
    exact luaSettable_not_returns _ fun stack => loadTableIn_end _ startsize h₂ stack
  | complete hload =>
    obtain ⟨m, hm⟩ := loadTableIn_round ⟨n, hn⟩ (hload false) hbad
    refine ⟨m + 1, fun rb hrb fuel hf startsize es stack hroom => ?_⟩
    obtain ⟨fuel, rfl⟩ : ∃ m, fuel = m + 1 := ⟨fuel - 1, by omega⟩
    obtain ⟨rb₁, h₁, hround⟩ := hm rb [] es stack (by rwa [List.append_nil]) hroom
    rw [hround fuel (by omega) startsize]
    exact loadTableIn_end fuel startsize h₁ _
  | table hstuck =>
    obtain ⟨m, hm⟩ := hstuck
    refine ⟨max n m + 1, fun rb hrb fuel hf startsize es stack hroom => ?_⟩
    obtain ⟨fuel, rfl⟩ : ∃ m, fuel = m + 1 := ⟨fuel - 1, by omega⟩
    obtain ⟨rb₁, h₁, hkey⟩ :=
      hn rb bv (.table es .none :: stack) hrb (by rw [List.length_cons]; omega)
    have hvalue := hm rb₁ h₁ fuel (by omega) false (k :: .table es .none :: stack) (by
      rw [List.length_cons, List.length_cons]
      omega)
    rw [loadTableIn, hkey fuel (by omega), LoadOutcome.andThen, if_neg one_ne_zero]
    exact andThen_not_returns hvalue

theorem TableStuckIn.mono {slots slots' : ℕ} {bs : List UInt8} (h : TableStuckIn lua slots bs)
    (hle : slots ≤ slots') :
    TableStuckIn lua slots' bs := by
  obtain ⟨n, hn⟩ := h
  exact ⟨n, fun rb hrb fuel hf startsize es stack hroom => hn rb hrb fuel hf startsize es stack (by omega)⟩

theorem TableStuckIn.cons {slots : ℕ} {bk bv bs : List UInt8} {k v : Value P} (h : TableStuckIn lua slots bs)
    (hk : LoadsIn lua true bk k) (hv : LoadsIn lua false bv v) (hbad : k.badKey = false) :
    TableStuckIn lua (max (max (k.slots lua) (1 + v.slots lua)) slots) (bk ++ bv ++ bs) := by
  obtain ⟨m, hm⟩ := loadTableIn_round hk hv hbad
  obtain ⟨n, hn⟩ := h
  refine ⟨max n m + 1, fun rb hrb fuel hf startsize es stack hroom => ?_⟩
  obtain ⟨fuel, rfl⟩ : ∃ m, fuel = m + 1 := ⟨fuel - 1, by omega⟩
  obtain ⟨rb₁, h₁, hround⟩ := hm rb bs es stack hrb (by omega)
  rw [hround fuel (by omega) startsize]
  exact hn rb₁ h₁ fuel (by omega) startsize _ stack (by omega)

mutual

theorem script_truncatedIn (hl : lua.Rebuilds) (v : Value P) (hwf : ∀ w ∈ v.parts, w.WfNode lua)
    {e : Errno} {place : Place} (hfin : (script lua false false v).fin = .code e place) (hplace : place ≠ .key) :
    TruncatedIn lua (script lua false false v).bytes v := by
  cases v with
  | table es typename =>
    obtain ⟨hnode, hes⟩ := forall_parts_table.mp hwf
    rw [script] at hfin
    have hbody : (entriesScript lua false false es).fin ≠ .ok := by
      intro hok
      rw [(tableScript_fin_ok).mpr hok] at hfin
      cases hfin
    obtain ⟨hfin', hbytes⟩ := tableScript_not_ok hbody typename
    rw [script, hbytes]
    rw [hfin'] at hfin
    cases hcode : (entriesScript lua false false es).fin with
    | code e' place' =>
      rw [hcode] at hfin
      cases hfin
      have hstuck := (entriesScript_truncatedIn hl es hes hnode.2.1 hcode (by
        rintro rfl
        exact hplace rfl)).stuckIn
      exact .table hstuck
    | _ =>
      rw [hcode] at hfin
      cases hfin
  | function p ups =>
    have hups : ups.length = (lua.upvalueNames p).length := hwf _ (Value.self_mem_parts _)
    exact absurd hfin (functionScript_not_code hups e place)
  | userdata typename ptr =>
    obtain ⟨hk, hptr⟩ := hwf _ (Value.self_mem_parts (.userdata typename ptr))
    rw [script]
    by_cases hne : typename = .none
    · subst hne
      exact .nothing rfl
    · exact .complete fun isKey => loadsIn_userdataBytes isKey hk hne hptr
  | lightuserdata => exact .nothing rfl
  | thread => exact .nothing rfl
  | _ => cases hfin

theorem entriesScript_truncatedIn (hl : lua.Rebuilds) (es : List (Value P × Value P))
    (hwf : ∀ w ∈ entriesParts es, w.WfNode lua)
    (hes : ∀ e ∈ es, e.1.badKey = false ∧ e.1.normKey lua.versionNum = e.1 ∧ e.2.isNil = false)
    {e : Errno} {place : Place} (hfin : (entriesScript lua false false es).fin = .code e place)
    (hplace : place ≠ .key) :
    TableStuckIn lua (entriesSlots lua es) (entriesScript lua false false es).bytes := by
  match es with
  | [] => cases hfin
  | (k, v) :: es =>
    obtain ⟨hwk, hwv, hwes⟩ := forall_parts_cons.mp hwf
    obtain ⟨hbad, -, -⟩ := hes (k, v) List.mem_cons_self
    rw [entriesScript, entryScript] at hfin ⊢
    rw [entriesSlots]
    by_cases hk : (script lua false false k).fin = .ok
    · have hkplace : ((script lua false false k).mapPlace keyPlace).fin =
        .ok := by rw [mapPlace_fin, hk]; rfl
      have hloadk := loadsIn_script hl true k hwk hk fun _ => hbad
      have hbadk : k.received.badKey = false := (received_badKey k).trans hbad
      rw [seq_fin hkplace] at hfin
      rw [seq_bytes hkplace, mapPlace_bytes]
      by_cases hv : (script lua false false v).fin = .ok
      · have hvplace : ((script lua false false v).mapPlace valuePlace).fin =
          .ok := by rw [mapPlace_fin, hv]; rfl
        rw [seq_fin hvplace] at hfin
        rw [seq_bytes hvplace, mapPlace_bytes, ← List.append_assoc]
        have hrest := entriesScript_truncatedIn hl es hwes (fun e he => hes e (List.mem_cons_of_mem _ he)) hfin hplace
        have hcons := hrest.cons hloadk (loadsIn_script hl false v hwv hv nofun) hbadk
        rwa [k.slots_received, v.slots_received] at hcons
      · have hvplace : ((script lua false false v).mapPlace valuePlace).fin ≠ .ok :=
          fun h => hv (End.mapPlace_ok.mp h)
        rw [seq_of_not_ok hvplace, mapPlace_fin] at hfin
        rw [seq_of_not_ok hvplace, mapPlace_bytes]
        cases hcode : (script lua false false v).fin with
        | code e' place' =>
          rw [hcode] at hfin
          cases hfin
          have hvalue := tableStuckIn_value hloadk hbadk (script_truncatedIn hl v hwv hcode (by
            rintro rfl
            exact hplace rfl))
          rw [k.slots_received] at hvalue
          exact hvalue.mono (Nat.le_max_left _ _)
        | _ =>
          rw [hcode] at hfin
          cases hfin
    · have hkplace : ((script lua false false k).mapPlace keyPlace).fin ≠ .ok :=
        fun h => hk (End.mapPlace_ok.mp h)
      rw [seq_of_not_ok hkplace, mapPlace_fin] at hfin
      rw [seq_of_not_ok hkplace, mapPlace_bytes]
      cases hcode : (script lua false false k).fin with
      | code e' place' =>
        rw [hcode] at hfin
        cases hfin
        have hkey := tableStuckIn_key (script_truncatedIn hl k hwk hcode (by
          rintro rfl
          exact hplace rfl))
        exact hkey.mono ((Nat.le_max_left _ _).trans (Nat.le_max_left _ _))
      | _ =>
        rw [hcode] at hfin
        cases hfin

end

end

end TorchIpc
