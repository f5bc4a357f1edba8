import TorchIpc.Serialize.Format

/-! What the loader accepts is in the format. A table that has not got what it needs goes on with
what lies below it on the stack, and never comes back with a value: a missing entry leaves the
stack too low for the check behind the loop, and the loop itself does not notice that there are
no more bytes. -/

namespace TorchIpc.Format

open Words

section
variable {P : Type}

/-! ### How the loader ends -/

/-- How the loop over a table ends that has lost its table. -/
inductive Low (stack : List (Value P)) : LoadOutcome P → Prop where
  | low {code rb stack'} : Holds rb [] → code < 0 → 0 < stack'.length →
      stack'.length ≤ stack.length →
      Low stack (.ret code rb stack')
  | fails {o} : ¬ o.Returns → Low stack o

/-- How the loop over a table ends, above this stack. -/
inductive LoopEnded (lua : Lua P) (es : List (Value P × Value P)) (bs : List UInt8) (stack : List (Value P)) :
    LoadOutcome P → Prop where
  | named {es' str rest rb} : Encodes lua (.entries es) bs (.table es' .none) (frame str ++ rest) →
      str.length < 2 ^ 64 →
      Holds rb rest → LoopEnded lua es bs stack (.ret 1 rb (.table es' (typeNamed lua str) :: stack))
  | cutOff {es' rest rb} : Encodes lua (.entries es) bs (.table es' .none) rest →
      CutOff lua 1 rest → Holds rb [] →
      LoopEnded lua es bs stack (.ret (-Errno.ENOMEM.toInt) rb (.table es' .none :: stack))
  | low {o} : Low stack o → LoopEnded lua es bs stack o

inductive Ended (lua : Lua P) (isKey : Bool) (bs : List UInt8) (stack : List (Value P)) :
    LoadOutcome P → Prop where
  | closes {rest rb} : isKey = true → bs = LUA_TNIL :: rest → Holds rb rest →
      Ended lua isKey bs stack (.ret 0 rb stack)
  | value {v rest rb} : Encodes lua (.value true) bs v rest → Holds rb rest →
      Ended lua isKey bs stack (.ret 1 rb (v :: stack))
  | message {msg rest rb} : Encodes lua (.value false) bs (.string msg) rest → Holds rb rest →
      Ended lua isKey bs stack (.ret (-Errno.EINVAL.toInt) rb (.string msg :: stack))
  | refused {code rest rb} : RefusedAtOnce lua bs → Holds rb rest → code < 0 →
      Ended lua isKey bs stack (.ret code rb stack)
  | table {bs' o} : bs = LUA_TTABLE :: bs' → LoopEnded lua [] bs' stack o →
      Ended lua isKey bs stack o
  | cutOff {code rb v} : Holds rb [] → code < 0 → (∀ es typename, v ≠ .table es typename) →
      Ended lua isKey bs stack (.ret code rb (v :: stack))
  | low {o} : Low stack o → Ended lua isKey bs stack o

variable {lua : Lua P}

theorem Low.le {stack stack' : List (Value P)} {code : ℤ} {rb : Ringbuffer} (h : Low stack (.ret code rb stack')) :
    Holds rb [] ∧ code < 0 ∧ 0 < stack'.length ∧ stack'.length ≤ stack.length := by
  cases h with
  | low hend hcode hpos hle => exact ⟨hend, hcode, hpos, hle⟩
  | fails hfails => exact absurd trivial hfails

theorem Low.mono {stack stack' : List (Value P)} {o : LoadOutcome P} (h : Low stack o)
    (hle : stack.length ≤ stack'.length) :
    Low stack' o := by
  cases h with
  | low hend hcode hpos hle' => exact .low hend hcode hpos (hle'.trans hle)
  | fails hfails => exact .fails hfails

theorem Ended.le {isKey : Bool} {bs : List UInt8} {stack stack' : List (Value P)} {code : ℤ}
    {rb : Ringbuffer} (h : Ended lua isKey bs stack (.ret code rb stack')) :
    (∃ rest, Holds rb rest) ∧ stack'.length ≤ stack.length + 1 ∧ (code = 0 → stack' = stack) := by
  have hone : ∀ v : Value P, (v :: stack).length ≤ stack.length + 1 := fun v => le_rfl
  cases h with
  | closes _ _ h => exact ⟨⟨_, h⟩, Nat.le_succ _, fun _ => rfl⟩
  | value _ h => exact ⟨⟨_, h⟩, hone _, fun hcode => absurd hcode one_ne_zero⟩
  | message _ h => exact ⟨⟨_, h⟩, hone _, fun hcode => absurd hcode (by decide)⟩
  | refused _ h _ => exact ⟨⟨_, h⟩, Nat.le_succ _, fun _ => rfl⟩
  | table _ hloop =>
    cases hloop with
    | named _ _ h => exact ⟨⟨_, h⟩, hone _, fun hcode => absurd hcode one_ne_zero⟩
    | cutOff _ _ h => exact ⟨⟨_, h⟩, hone _, fun hcode => absurd hcode (by decide)⟩
    | low hlow =>
      obtain ⟨h, hcode, -, hle⟩ := hlow.le
      exact ⟨⟨_, h⟩, hle.trans (Nat.le_succ _), fun hzero => absurd hzero hcode.ne⟩
  | cutOff h hcode _ => exact ⟨⟨_, h⟩, hone _, fun hzero => absurd hzero hcode.ne⟩
  | low hlow =>
    obtain ⟨h, hcode, -, hle⟩ := hlow.le
    exact ⟨⟨_, h⟩, hle.trans (Nat.le_succ _), fun hzero => absurd hzero hcode.ne⟩

/-- `lua_settable` takes two values off the stack, or it fails. -/
theorem luaSettable_cases (versionNum : ℕ) (rb : Ringbuffer) (stack : List (Value P))
    (next : List (Value P) → LoadOutcome P) :
    (∃ stack', 0 < stack'.length ∧ stack'.length + 2 = stack.length ∧
    luaSettable versionNum rb stack next = next stack') ∨
      ¬ (luaSettable versionNum rb stack next).Returns := by
  unfold luaSettable
  split
  · split_ifs
    · exact Or.inr id
    · refine Or.inl ⟨_, ?_, ?_, rfl⟩
      · exact Nat.succ_pos _
      · rfl
  · exact Or.inr id
  · exact Or.inr id
  · exact Or.inr id
  · exact Or.inr id

/-- Without its table the loop does not get past the check of the stack. -/
theorem loadTypename_low (lua : Lua P) {rb : Ringbuffer} {bs : List UInt8} (h : Holds rb bs)
    {startsize : ℕ} {stack : List (Value P)} (hpos : 0 < stack.length) (hle : stack.length ≤ startsize) :
    Low stack (loadTypename lua startsize rb stack) := by
  rcases rbReadField_cases lua 1 h with ⟨str, rest, rb', -, -, h', hread⟩ | ⟨-, rb', h', hread⟩ | ⟨-, hread⟩
  · rw [loadTypename_eq, hread]
    refine .fails ?_
    have hcheck : ∀ stack' : List (Value P), stack'.length = stack.length →
        ¬ (if stack'.length ≠ startsize + 1 then LoadOutcome.raise rb' else .ret 1 rb' stack').Returns := by
      intro stack' hlen
      rw [if_pos (by omega)]
      exact id
    by_cases hname : 0 < leVal (leBytes 8 str.length)
    · rw [if_pos hname]
      cases stack with
      | nil => exact id
      | cons v stack =>
        cases v with
        | table es typename => exact hcheck (.table es _ :: stack) rfl
        | _ => exact id
    · rw [if_neg hname]
      exact hcheck stack rfl
  · rw [loadTypename_eq, hread]
    exact .low h' (by decide) hpos le_rfl
  · rw [loadTypename_eq, hread]
    exact .fails id

/-- How the loader and its loops end within some fuel. -/
structure AllEnded (lua : Lua P) (fuel : ℕ) : Prop where
  value : ∀ isKey {rb bs} stack, Holds rb bs →
      Ended lua isKey bs stack (rbLoadRcsv lua fuel isKey rb stack)
  loop : ∀ {rb bs} es stack, Holds rb bs →
    LoopEnded lua es bs stack (loadTable lua fuel stack.length rb (.table es .none :: stack))
  low : ∀ {rb bs startsize stack}, Holds rb bs → 0 < stack.length → stack.length ≤ startsize →
    Low stack (loadTable lua fuel startsize rb stack)

/-- The second half of a round, at the end of the bytes. -/
theorem value_end {rb : Ringbuffer} (h : Holds rb []) (fuel startsize : ℕ) (stack : List (Value P)) :
    ¬ ((rbLoadRcsv lua fuel false rb stack).andThen fun _ rb stack =>
      luaSettable lua.versionNum rb stack fun stack =>
        loadTable lua fuel startsize rb stack).Returns := by
  cases fuel with
  | zero => exact id
  | succ fuel =>
    obtain ⟨rb', h', hread⟩ := rbLoadRcsv_end lua h
    rw [hread, LoadOutcome.andThen]
    exact luaSettable_not_returns stack fun stack => loadTable_end lua _ startsize h' stack

/-- The rest of a round without a key, and then the loop without its table. -/
theorem round_low {fuel : ℕ} (ih : AllEnded lua fuel) {rb : Ringbuffer} {bs : List UInt8} {startsize : ℕ}
    {stack below : List (Value P)} (h : Holds rb bs) (hle : stack.length ≤ below.length + 1)
    (hbelow : below.length ≤ startsize) :
    Low below ((rbLoadRcsv lua fuel false rb stack).andThen fun _ rb stack =>
      luaSettable lua.versionNum rb stack fun stack => loadTable lua fuel startsize rb stack) := by
  have hvalue := ih.value false stack h
  generalize rbLoadRcsv lua fuel false rb stack = o at hvalue
  cases o with
  | ret code rb' stack' =>
    obtain ⟨⟨bs', h'⟩, hle', -⟩ := hvalue.le
    rw [LoadOutcome.andThen]
    rcases luaSettable_cases lua.versionNum rb' stack' (fun stack => loadTable lua fuel startsize rb' stack) with
      ⟨stack'', hpos, hlen, hset⟩ | hfails
    · rw [hset]
      exact (ih.low h' hpos (by omega)).mono (by omega)
    · exact .fails hfails
  | _ => exact .fails id

theorem loop_low {fuel : ℕ} (ih : AllEnded lua fuel) {rb : Ringbuffer} {bs : List UInt8} {startsize : ℕ}
    {stack : List (Value P)} (h : Holds rb bs) (hpos : 0 < stack.length) (hle : stack.length ≤ startsize) :
    Low stack (loadTable lua (fuel + 1) startsize rb stack) := by
  rw [loadTable_succ]
  have hkey := ih.value true stack h
  generalize rbLoadRcsv lua fuel true rb stack = o at hkey
  cases o with
  | ret code rb₁ stack₁ =>
    obtain ⟨⟨bs₁, h₁⟩, hle₁, hzero⟩ := hkey.le
    rw [LoadOutcome.andThen]
    by_cases hcode : code = 0
    · rw [if_pos hcode, hzero hcode]
      exact loadTypename_low lua h₁ hpos hle
    · rw [if_neg hcode]
      exact round_low ih h₁ hle₁ hle
  | _ => exact .fails id

theorem LoopEnded.entry {es : List (Value P × Value P)} {bs bs' bs'' : List UInt8} {k v : Value P}
    {stack : List (Value P)} {o : LoadOutcome P} (hk : Encodes lua (.value false) bs k bs')
    (hv : Encodes lua (.value false) bs' v bs'') (hbad : k.badKey = false)
    (h : LoopEnded lua (setEntry (k.normKey lua.versionNum) v es) bs'' stack o) :
    LoopEnded lua es bs stack o := by
  cases h with
  | named hes hsize h => exact .named (.entry hk hv hbad hes) hsize h
  | cutOff hes hcut h => exact .cutOff (.entry hk hv hbad hes) hcut h
  | low hlow => exact .low hlow

theorem Encodes.partial {whole : Bool} {bs rest : List UInt8} {v : Value P} (h : Encodes lua (.value whole) bs v rest) :
    Encodes lua (.value false) bs v rest := by
  cases h with
  | nil => exact .nil
  | boolean => exact .boolean
  | number hn => exact .number hn
  | integer hn => exact .integer hn
  | string hsize => exact .string hsize
  | table hes hsize => exact .table hes hsize
  | function hcode hupval hone => exact .function hcode hupval hone
  | closure hcode hupval hone henv hes hsize hups =>
      exact .closure hcode hupval hone henv hes hsize hups
  | closureCutOff hcode hupval hone henv hes hcut hups =>
      exact .closureCutOff hcode hupval hone henv hes hcut hups
  | message hcode => exact .message hcode
  | null hsize hptr hnull => exact .null hsize hptr hnull
  | userdata hsize hptr hnull htype => exact .userdata hsize hptr hnull htype
  | negated hsize hptr => exact .negated hsize hptr

/-- The value of an entry: it is there; or the loop loses its table, or does not return. -/
theorem loop_value {fuel : ℕ} (ih : AllEnded lua fuel) {rb : Ringbuffer} {bs bs' : List UInt8}
    {es : List (Value P × Value P)} {stack : List (Value P)} {k : Value P} (hk : Encodes lua (.value false) bs k bs')
    (h : Holds rb bs') :
    LoopEnded lua es bs stack ((rbLoadRcsv lua fuel false rb (k :: .table es .none :: stack)).andThen fun _ rb stack' =>
      luaSettable lua.versionNum rb stack' fun stack' =>
        loadTable lua fuel stack.length rb stack') := by
  have hset : ∀ {v bs'' rb'}, Encodes lua (.value false) bs' v bs'' → Holds rb' bs'' →
      LoopEnded lua es bs stack
        (luaSettable lua.versionNum rb' (v :: k :: .table es .none :: stack) fun stack' => loadTable
        lua fuel stack.length rb' stack') := by
    intro v bs'' rb' hv h'
    rw [luaSettable]
    split_ifs with hbad
    · exact .low (.fails id)
    · exact (ih.loop _ stack h').entry hk hv (Bool.eq_false_iff.mpr hbad)
  have hend : ∀ code rb' stack', Holds rb' [] → LoopEnded lua es bs stack
      ((LoadOutcome.ret code rb' stack').andThen fun _ rb stack' =>
        luaSettable lua.versionNum rb stack' fun stack' =>
          loadTable lua fuel stack.length rb stack') := by
    intro code rb' stack' h'
    rw [LoadOutcome.andThen]
    exact .low (.fails (luaSettable_not_returns stack' fun _ => loadTable_end lua fuel _ h' _))
  have hlow : ∀ {o}, Low (k :: .table es .none :: stack) o →
      LoopEnded lua es bs stack (o.andThen fun _ rb stack' =>
        luaSettable lua.versionNum rb stack' fun stack' =>
          loadTable lua fuel stack.length rb stack') := by
    intro o ho
    cases ho with
    | low h' => exact hend _ _ _ h'
    | fails hfails => exact .low (.fails (andThen_not_returns hfails))
  have hvalue := ih.value false (k :: .table es .none :: stack) h
  generalize rbLoadRcsv lua fuel false rb (k :: .table es .none :: stack) = o at hvalue
  cases hvalue with
  | closes hkey => cases hkey
  | value hv h' => exact hset hv.partial h'
  | message hv h' => exact hset hv h'
  | @refused code rest rb' _ h' _ =>
    -- the key and the table below it are taken for the value and the key
    rw [LoadOutcome.andThen]
    rcases luaSettable_cases lua.versionNum rb' (k :: .table es .none :: stack)
      (fun stack' => loadTable lua fuel stack.length rb' stack') with ⟨stack', hpos, hlen, hset⟩ | hfails
    · have hle : stack'.length ≤ stack.length := by
        simp only [List.length_cons] at hlen
        omega
      rw [hset]
      exact .low ((ih.low h' hpos hle).mono hle)
    · exact .low (.fails hfails)
  | table hbs hloop =>
    cases hloop with
    | named hes hsize h' =>
      subst hbs
      exact hset (.table hes hsize) h'
    | cutOff _ _ h' => exact hend _ _ _ h'
    | low ho => exact hlow ho
  | cutOff h' => exact hend _ _ _ h'
  | low ho => exact hlow ho

theorem loop_ended {fuel : ℕ} (ih : AllEnded lua fuel) {rb : Ringbuffer} {bs : List UInt8}
    (es : List (Value P × Value P)) (stack : List (Value P)) (h : Holds rb bs) :
    LoopEnded lua es bs stack (loadTable lua (fuel + 1) stack.length rb (.table es .none :: stack)) := by
  rw [loadTable_succ]
  have hend : ∀ {code rb' stack'}, Holds rb' [] → code < 0 → LoopEnded lua es bs stack
      ((LoadOutcome.ret code rb' stack').andThen fun ret rb stack' =>
        if ret = 0 then loadTypename lua stack.length rb stack'
        else (rbLoadRcsv lua fuel false rb stack').andThen fun _ rb stack' =>
          luaSettable lua.versionNum rb stack' fun stack' =>
            loadTable lua fuel stack.length rb stack') := by
    intro code rb' stack' h' hcode
    rw [LoadOutcome.andThen, if_neg hcode.ne]
    exact .low (.fails (value_end h' fuel _ _))
  have hlow : ∀ {o}, Low (.table es .none :: stack) o →
      LoopEnded lua es bs stack (o.andThen fun ret rb stack' =>
          if ret = 0 then loadTypename lua stack.length rb stack'
          else (rbLoadRcsv lua fuel false rb stack').andThen fun _ rb stack' =>
            luaSettable lua.versionNum rb stack' fun stack' =>
              loadTable lua fuel stack.length rb stack') := by
    intro o ho
    cases ho with
    | low h' hcode => exact hend h' hcode
    | fails hfails => exact .low (.fails (andThen_not_returns hfails))
  have hkey := ih.value true (.table es .none :: stack) h
  generalize rbLoadRcsv lua fuel true rb (.table es .none :: stack) = o at hkey
  cases hkey with
  | @closes rest rb' _ hbs h' =>
    subst hbs
    rw [LoadOutcome.andThen, if_pos rfl]
    rcases loadTypename_cases lua h' with ⟨str, rest', rb'', rfl, hsize, h'', hname⟩ | ⟨hcut, rb'', h'', hname⟩ | hname
    · rw [hname]
      exact .named .done hsize h''
    · rw [hname]
      exact .cutOff .done hcut h''
    · rw [hname]
      exact .low (.fails id)
  | value hk h' =>
    rw [LoadOutcome.andThen, if_neg one_ne_zero]
    exact loop_value ih hk.partial h'
  | message hk h' =>
    rw [LoadOutcome.andThen, if_neg (by decide)]
    exact loop_value ih hk h'
  | @refused code rest rb' _ h' hcode =>
    rw [LoadOutcome.andThen, if_neg hcode.ne]
    exact .low (round_low ih h' le_rfl le_rfl)
  | table hbs hloop =>
    cases hloop with
    | named hes hsize h' =>
      subst hbs
      rw [LoadOutcome.andThen, if_neg one_ne_zero]
      exact loop_value ih (.table hes hsize) h'
    | cutOff _ _ h' => exact hend h' (by decide)
    | low ho => exact hlow ho
  | cutOff h' hcode => exact hend h' hcode
  | low ho => exact hlow ho

theorem field_ended {isKey : Bool} {rb : Ringbuffer} {bs bs' : List UInt8} {stack : List (Value P)}
    (h : Holds rb bs') (n : ℕ) {k : List UInt8 → Ringbuffer → LoadOutcome P}
    (hshort : bs'.length < n → RefusedAtOnce lua bs) (hk : ∀ field rest rb', bs' = field ++ rest →
    field.length = n → Holds rb' rest → Ended lua isKey bs stack (k field rb')) :
    Ended lua isKey bs stack (rbRead n rb stack k) := by
  rcases rbRead_cases (P := P) h n with ⟨field, rest, rb', hbs, hlen, h', hread⟩ | ⟨hlt, rb', h', hread⟩
  · rw [hread]
    exact hk field rest rb' hbs hlen h'
  · rw [hread]
    exact .refused (hshort hlt) h' (by decide)

theorem frame_ended {isKey : Bool} {rb : Ringbuffer} {bs bs' : List UInt8} {stack : List (Value P)}
    (h : Holds rb bs') (extra : ℕ) {k : List UInt8 → Ringbuffer → LoadOutcome P}
    (hcut : CutOff lua extra bs' → RefusedAtOnce lua bs)
    (hk : ∀ str rest rb', bs' = frame str ++ rest → str.length < 2 ^ 64 → Holds rb' rest →
      Ended lua isKey bs stack (k str rb')) :
    Ended lua isKey bs stack (rbReadField lua extra rb stack fun _ => k) := by
  rcases rbReadField_cases lua extra h with ⟨str, rest, rb', hbs, hsize, h', hread⟩ | ⟨hoff, rb',
    h', hread⟩ | ⟨-, hread⟩
  · rw [hread]
    exact hk str rest rb' hbs hsize h'
  · rw [hread]
    exact .refused (hcut hoff) h' (by decide)
  · rw [hread]
    exact .low (.fails id)

theorem userdata_ended {isKey : Bool} {rb : Ringbuffer} {bs : List UInt8} (negative : Bool) (stack : List (Value P))
    (h : Holds rb bs) : Ended lua isKey ((if negative then -LUA_TUSERDATA else LUA_TUSERDATA) :: bs) stack
      (loadUserdata lua negative rb stack) := by
  have htag : (if negative then -LUA_TUSERDATA else LUA_TUSERDATA) = LUA_TUSERDATA ∨
      (if negative then -LUA_TUSERDATA else LUA_TUSERDATA) = -LUA_TUSERDATA := by
    cases negative with
    | true => exact Or.inr rfl
    | false => exact Or.inl rfl
  refine frame_ended h 1 (.name htag) fun str bs₁ rb₁ hbs hsize h₁ => ?_
  rw [hbs]
  refine field_ended h₁ 8 (.pointer htag hsize) fun ptr rest rb₂ hrest hptr h₂ => ?_
  rw [hrest]
  cases negative with
  | true => exact .value (.negated hsize hptr) h₂
  | false =>
    simp only [Bool.false_eq_true, if_false, luaTPushudata]
    split_ifs with hnull htype
    · exact .value (.null hsize hptr hnull) h₂
    · exact .low (.fails id)
    · exact .value (.userdata hsize hptr hnull htype) h₂

theorem Encodes.table_cases {whole : Bool} {bs rest : List UInt8} {v : Value P}
    (h : Encodes lua (.value whole) bs v rest) : (∃ bs' es str, bs = LUA_TTABLE :: bs' ∧
    Encodes lua (.entries []) bs' (.table es .none) (frame str ++ rest) ∧
      str.length < 2 ^ 64 ∧ v = .table es (typeNamed lua str)) ∨
        ∀ es typename, v ≠ .table es typename := by
  cases h with
  | table hes hsize => exact Or.inl ⟨_, _, _, rfl, hes, hsize, rfl⟩
  | integer hn =>
    refine Or.inr fun es typename heq => ?_
    rw [Value.ofInteger] at heq
    split_ifs at heq
  | _ => exact Or.inr (by rintro _ _ ⟨⟩)

theorem loadUpvals_of_not_table {v : Value P} (hv : ∀ es typename, v ≠ .table es typename) (startsize : ℕ) (env : ℤ)
    (rb : Ringbuffer) (stack : List (Value P)) :
    ¬ (loadUpvals lua startsize env rb (v :: stack)).Returns := by
  cases v with
  | table es typename => exact absurd rfl (hv es typename)
  | _ => exact id

theorem loadUpvals_low {startsize : ℕ} {stack : List (Value P)} (hle : stack.length ≤ startsize + 1)
    (env : ℤ) (rb : Ringbuffer) : ¬ (loadUpvals lua startsize env rb stack).Returns := by
  unfold loadUpvals
  split
  · rename_i es typename p ups below
    have hne : below.length ≠ startsize := by
      rw [List.length_cons, List.length_cons] at hle
      omega
    simp only [if_pos hne]
    split_ifs
    · exact id
    · cases setUpvals lua (lua.next es) (ups.set (env - 1).toNat none) with
      | some ups => exact id
      | none => exact id
    · cases setUpvals lua (lua.next es) ups with
      | some ups => exact id
      | none => exact id
  · exact id

theorem closure_ended {fuel : ℕ} (ih : AllEnded lua fuel) {isKey : Bool} {rb : Ringbuffer} {bs bs' : List UInt8} {p : P}
    (stack : List (Value P)) (hcode : Code lua [] bs (.ok p) bs') (h : Holds rb bs') :
    Ended lua isKey (LUA_TFUNCTION :: bs) stack (loadClosure lua (rbLoadRcsv lua fuel false) stack.length rb
      (.function p (freshUpvals lua.versionNum (lua.upvalueNames p).length) :: stack)) := by
  rw [loadClosure]
  rcases rbRead_cases (P := P) h 4 with ⟨upval, bs₁, rb₁, rfl, hupval, h₁, hread⟩ | ⟨-, rb₁, h₁, hread⟩
  swap
  · rw [hread]
    exact .cutOff h₁ (by decide) (by rintro _ _ ⟨⟩)
  rw [hread]
  split_ifs with hone
  swap
  · exact .value (.function hcode hupval hone) h₁
  rcases rbRead_cases (P := P) h₁ 4 with ⟨env, bs₂, rb₂, rfl, henv, h₂, hread⟩ | ⟨-, rb₂, h₂, hread⟩
  swap
  · rw [hread]
    exact .cutOff h₂ (by decide) (by rintro _ _ ⟨⟩)
  rw [hread]
  have hupvals : ∀ {bs₃ es typename code rb' rest}, bs₂ = LUA_TTABLE :: bs₃ → Holds rb' rest →
      (∀ ups, closureUpvals lua p (intVal env) es = some ups →
        Encodes lua (.value true) (LUA_TFUNCTION :: bs) (.function p ups) rest) →
      Ended lua isKey (LUA_TFUNCTION :: bs) stack ((LoadOutcome.ret code rb' (.table es typename ::
        .function p (freshUpvals lua.versionNum (lua.upvalueNames p).length) :: stack)).andThen fun _ rb stack' =>
          loadUpvals lua stack.length (intVal env) rb stack') := by
    intro bs₃ es typename code rb' rest _ h' hencodes
    rw [LoadOutcome.andThen, loadUpvals_eq]
    cases hups : closureUpvals lua p (intVal env) es with
    | none => exact .low (.fails id)
    | some ups =>
      simp only
      rw [if_neg fun hne => hne rfl]
      exact .value (hencodes ups hups) h'
  have hlow : ∀ {o}, Low (.function p (freshUpvals lua.versionNum (lua.upvalueNames p).length) :: stack) o →
      Ended lua isKey (LUA_TFUNCTION :: bs) stack
        (o.andThen fun _ rb stack' => loadUpvals lua stack.length (intVal env) rb stack') := by
    intro o ho
    cases ho with
    | low _ _ _ hle => exact .low (.fails (loadUpvals_low hle _ _))
    | fails hfails => exact .low (.fails (andThen_not_returns hfails))
  have hinner := ih.value false (.function p (freshUpvals lua.versionNum (lua.upvalueNames p).length) :: stack) h₂
  generalize rbLoadRcsv lua fuel false rb₂
    (.function p (freshUpvals lua.versionNum (lua.upvalueNames p).length) :: stack) = o
    at hinner
  cases hinner with
  | closes hkey => cases hkey
  | value hv h' =>
    rcases hv.table_cases with ⟨bs₃, es, str, hbs, hes, hsize, rfl⟩ | hnot
    · subst hbs
      exact hupvals rfl h' fun ups hups => .closure hcode hupval hone henv hes hsize hups
    · exact .low (.fails (loadUpvals_of_not_table hnot _ _ _ _))
  | message _ h' => exact .low (.fails id)
  | refused _ h' _ => exact .low (.fails id)
  | table hbs hloop =>
    subst hbs
    cases hloop with
    | named hes hsize h' =>
      exact hupvals rfl h' fun ups hups => .closure hcode hupval hone henv hes hsize hups
    | cutOff hes hcut h' =>
      exact hupvals rfl h' fun ups hups => .closureCutOff hcode hupval hone henv hes hcut hups
    | low ho => exact hlow ho
  | cutOff _ _ hnot => exact .low (.fails (loadUpvals_of_not_table hnot _ _ _ _))
  | low ho => exact hlow ho

theorem function_ended {fuel : ℕ} (ih : AllEnded lua fuel) {isKey : Bool} {rb : Ringbuffer} {bs : List UInt8}
    (stack : List (Value P)) (h : Holds rb bs) :
    Ended lua isKey (LUA_TFUNCTION :: bs) stack (loadFunction lua (rbLoadRcsv lua fuel false) fuel rb stack) := by
  rcases luaLoad_code lua fuel h with ⟨x, rest, hcode, hleaves⟩ | hspent
  · cases x with
    | ok p =>
      obtain ⟨rb', h', hfunction⟩ := leaves_loadFunction hleaves
      rw [hfunction fuel rb stack _ rfl]
      exact closure_ended ih stack hcode h'
    | error msg =>
      rw [loadFunction]
      generalize luaLoad lua fuel [] rb = loaded at hleaves
      cases loaded with
      | error msg' rb' =>
        obtain ⟨hmsg, h'⟩ := hleaves
        cases hmsg
        exact .message (.message hcode) h'
      | proto p rb' readLast => cases readLast <;> cases hleaves.1
      | _ => exact hleaves.elim
  · rw [loadFunction]
    generalize luaLoad lua fuel [] rb = loaded at hspent
    cases loaded with
    | proto p rb' readLast =>
      cases readLast with
      | true => exact hspent.elim
      | false =>
        obtain ⟨rest, h', hlt⟩ := hspent
        rcases rbRead_cases (P := P) h' 8 with ⟨marker, rest', rb'', hbs, hlen, -⟩ | ⟨-, rb'', h'', hread⟩
        · rw [hbs, List.length_append, hlen] at hlt
          omega
        · simp only [Bool.false_eq_true, if_false, hread]
          exact .cutOff h'' (by decide) (by rintro _ _ ⟨⟩)
    | error msg rb' => exact .cutOff hspent (by decide) (by rintro _ _ ⟨⟩)
    | undefined => exact .low (.fails id)
    | timeout => exact .low (.fails id)

theorem value_ended {fuel : ℕ} (ih : AllEnded lua fuel) (isKey : Bool) {rb : Ringbuffer} {bs : List UInt8}
    (stack : List (Value P)) (h : Holds rb bs) :
    Ended lua isKey bs stack (rbLoadRcsv lua (fuel + 1) isKey rb stack) := by
  rw [rbLoadRcsv_succ]
  refine field_ended h 1 (fun hlt => ?_) fun field rest rb₁ hbs hlen h₁ => ?_
  · rw [List.length_eq_zero_iff.mp (Nat.lt_one_iff.mp hlt)]
    exact .empty
  obtain ⟨tag, rfl⟩ := List.length_eq_one_iff.mp hlen
  rw [List.singleton_append] at hbs
  subst hbs
  simp only [List.headD_cons]
  split
  · split_ifs with hkey
    · exact .closes hkey rfl h₁
    · exact .value .nil h₁
  · refine field_ended h₁ 1 (fun hlt => ?_) fun field rest rb₂ hbs hlen h₂ => ?_
    · rw [List.length_eq_zero_iff.mp (Nat.lt_one_iff.mp hlt)]
      exact .boolean
    · obtain ⟨b, rfl⟩ := List.length_eq_one_iff.mp hlen
      rw [hbs]
      exact .value .boolean h₂
  · refine field_ended h₁ 8 (.number (Or.inl rfl)) fun n rest rb₂ hbs hn h₂ => ?_
    rw [hbs]
    exact .value (.number hn) h₂
  · refine field_ended h₁ 8 (.number (Or.inr rfl)) fun n rest rb₂ hbs hn h₂ => ?_
    rw [hbs]
    exact .value (.integer hn) h₂
  · refine frame_ended h₁ 0 .string fun str rest rb₂ hbs hsize h₂ => ?_
    rw [hbs]
    exact .value (.string hsize) h₂
  · exact .table rfl (ih.loop [] stack h₁)
  · exact function_ended ih stack h₁
  · exact userdata_ended false stack h₁
  · exact userdata_ended true stack h₁
  · refine .refused (.unknown fun hmem => ?_) h₁ (by decide)
    simp only [List.mem_cons, List.not_mem_nil, or_false] at hmem
    rcases hmem with rfl | rfl | rfl | rfl | rfl | rfl | rfl | rfl | rfl <;> contradiction

theorem allEnded (lua : Lua P) (fuel : ℕ) : AllEnded lua fuel := by
  induction fuel with
  | zero => exact ⟨fun _ _ _ _ _ => .low (.fails id), fun _ _ _ => .low (.fails id), fun _ _ _ => .fails id⟩
  | succ fuel ih => exact ⟨fun isKey _ _ stack h => value_ended ih isKey stack h,
      fun es stack h => loop_ended ih es stack h, loop_low ih⟩

/-- What is loaded without an error is in the format, and nothing else is touched. -/
theorem rbLoad_encodes (lua : Lua P) {fuel : ℕ} {rb rb' : Ringbuffer} {bs : List UInt8} {stack stack' : List (Value P)}
    {code : ℤ} (h : Holds rb bs) (hload : rbLoad lua fuel rb stack = .ret code rb' stack') (hcode : 0 ≤ code) :
    code = 1 ∧ ∃ v rest, stack' = v :: stack ∧ Encodes lua (.value true) bs v rest := by
  have hended := (allEnded lua fuel).value false stack h
  rw [rbLoad] at hload
  rw [hload] at hended
  cases hended with
  | closes hkey => cases hkey
  | value hv => exact ⟨rfl, _, _, rfl, hv⟩
  | message => exact absurd hcode (by decide)
  | refused _ _ hneg => exact absurd hcode (not_le.mpr hneg)
  | table hbs hloop =>
    subst hbs
    cases hloop with
    | named hes hsize => exact ⟨rfl, _, _, rfl, .table hes hsize⟩
    | cutOff => exact absurd hcode (by decide)
    | low hlow => exact absurd hcode (not_le.mpr hlow.le.2.1)
  | cutOff _ hneg => exact absurd hcode (not_le.mpr hneg)
  | low hlow => exact absurd hcode (not_le.mpr hlow.le.2.1)

end

end TorchIpc.Format
