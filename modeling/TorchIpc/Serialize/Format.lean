import TorchIpc.Serialize.Truncated

/-! The format that `rb_load` accepts, as a relation between bytes and values that knows of
no buffer and no stack, and the bytes that it refuses at once. The loader takes what the
format says from the beginning of any bytes. -/

namespace TorchIpc.Format

open Words

section
variable {P : Type}

/-! ### The format -/

/-- There is no whole field behind its length, and the block of `alloca` has room for what
there is. -/
inductive CutOff (lua : Lua P) (extra : ℕ) : List UInt8 → Prop where
  | length {bs} : bs.length < 8 → CutOff lua extra bs
  | field {n str} : n.length = 8 → str.length < leVal n →
      blockSize (leVal n) extra ≤ lua.allocaRoom →
      str.length ≤ blockSize (leVal n) extra → CutOff lua extra (n ++ str)

/-- The marker behind the code. A loader that asks for one more piece may take a chunk. -/
inductive Marker (lua : Lua P) : List UInt8 → List UInt8 → Prop where
  | skipped {marker rest} : lua.readsEnd = false → marker.length = 8 →
      Marker lua (marker ++ rest) rest
  | read {rest} : lua.readsEnd = true → Marker lua (leBytes 8 0 ++ rest) rest
  | chunk {c marker rest} : lua.readsEnd = true → 0 < c.length → c.length ≤ CHUNK_SIZE →
      marker.length = 8 →
      Marker lua (frame c ++ (marker ++ rest)) rest

/-- The chunks of a function: its code, or the message of the loader. -/
inductive Code (lua : Lua P) : List UInt8 → List UInt8 → Except (List UInt8) P → List UInt8 →
    Prop where
  | more {read c bs x rest} : 0 < c.length → c.length ≤ CHUNK_SIZE →
      lua.undump (read ++ c) = .more →
      Code lua (read ++ c) bs x rest → Code lua read (frame c ++ bs) x rest
  | done {read c bs p rest} : 0 < c.length → c.length ≤ CHUNK_SIZE →
      lua.undump (read ++ c) = .done p →
      Marker lua bs rest → Code lua read (frame c ++ bs) (.ok p) rest
  | error {read c msg rest} : 0 < c.length → c.length ≤ CHUNK_SIZE →
      lua.undump (read ++ c) = .error msg →
      Code lua read (frame c ++ rest) (.error msg) rest
  | last {read rest} : Code lua read (leBytes 8 0 ++ rest) (lua.undumpEnd read) rest

/-- The upvalues of a function from its upvalue table. -/
def closureUpvals (lua : Lua P) (p : P) (env : ℤ) (es : List (Value P × Value P)) :
    Option (List (Option (Value P))) :=
  let ups := freshUpvals lua.versionNum (lua.upvalueNames p).length
  if (ups.length : ℤ) < env then none else setUpvals lua (lua.next es)
    (if 0 < env then ups.set (env - 1).toNat none else ups)

/-- What is encoded: a value, which in a table may be the message that a function could not
be loaded with; or the rest of a table, behind the entries `es`. -/
inductive Part (P : Type) where
  | value (whole : Bool)
  | entries (es : List (Value P × Value P))

/-- The type of the table or userdata that is sent with this name. -/
def typeNamed (lua : Lua P) (str : List UInt8) : TypeName :=
  if 0 < str.length then lua.getmetatable (cstr str) else .none

/-- The bytes begin with an encoding of the value, and then the rest follows. -/
inductive Encodes (lua : Lua P) : Part P → List UInt8 → Value P → List UInt8 → Prop where
  | nil {whole rest} : Encodes lua (.value whole) (LUA_TNIL :: rest) .nil rest
  | boolean {whole b rest} :
      Encodes lua (.value whole) (LUA_TBOOLEAN :: b :: rest) (.boolean (b ≠ 0)) rest
  | number {whole n rest} : n.length = 8 →
      Encodes lua (.value whole) (LUA_TNUMBER :: (n ++ rest)) (.number (wordVal n)) rest
  | integer {whole n rest} : n.length = 8 →
      Encodes lua (.value whole) (EXTRA_LUA_TINTEGER :: (n ++ rest)) (.ofInteger lua.versionNum (wordVal n)) rest
  | string {whole str rest} : str.length < 2 ^ 64 →
      Encodes lua (.value whole) (LUA_TSTRING :: (frame str ++ rest)) (.string str) rest
  | table {whole bs es str rest} :
      Encodes lua (.entries []) bs (.table es .none) (frame str ++ rest) → str.length < 2 ^ 64 →
      Encodes lua (.value whole) (LUA_TTABLE :: bs) (.table es (typeNamed lua str)) rest
  | function {whole bs p upval rest} : Code lua [] bs (.ok p) (upval ++ rest) → upval.length = 4 →
      intVal upval ≠ 1 →
      Encodes lua (.value whole) (LUA_TFUNCTION :: bs)
        (.function p (freshUpvals lua.versionNum (lua.upvalueNames p).length)) rest
  | closure {whole bs p upval env bs' es str ups rest} :
      Code lua [] bs (.ok p) (upval ++ (env ++ (LUA_TTABLE :: bs'))) → upval.length = 4 →
        intVal upval = 1 → env.length = 4 →
      Encodes lua (.entries []) bs' (.table es .none) (frame str ++ rest) → str.length < 2 ^ 64 →
      closureUpvals lua p (intVal env) es = some ups →
      Encodes lua (.value whole) (LUA_TFUNCTION :: bs) (.function p ups) rest
  | closureCutOff {whole bs p upval env bs' es ups rest} :
      Code lua [] bs (.ok p) (upval ++ (env ++ (LUA_TTABLE :: bs'))) → upval.length = 4 →
        intVal upval = 1 → env.length = 4 →
      Encodes lua (.entries []) bs' (.table es .none) rest → CutOff lua 1 rest →
      closureUpvals lua p (intVal env) es = some ups →
      Encodes lua (.value whole) (LUA_TFUNCTION :: bs) (.function p ups) []
  | message {bs msg rest} : Code lua [] bs (.error msg) rest →
      Encodes lua (.value false) (LUA_TFUNCTION :: bs) (.string msg) rest
  | null {whole str ptr rest} : str.length < 2 ^ 64 → ptr.length = 8 → wordVal ptr = 0 →
      Encodes lua (.value whole) (LUA_TUSERDATA :: (frame str ++ (ptr ++ rest))) .nil rest
  | userdata {whole str ptr rest} : str.length < 2 ^ 64 → ptr.length = 8 → wordVal ptr ≠ 0 →
      lua.getmetatable (cstr str) ≠ .none →
        Encodes lua (.value whole) (LUA_TUSERDATA :: (frame str ++ (ptr ++ rest)))
        (.userdata (lua.getmetatable (cstr str)) (wordVal ptr)) rest
  | negated {whole str ptr rest} : str.length < 2 ^ 64 → ptr.length = 8 →
      Encodes lua (.value whole) (-LUA_TUSERDATA :: (frame str ++ (ptr ++ rest)))
        (.userdata (lua.getmetatable (cstr str)) (wordVal ptr)) rest
  | done {es rest} : Encodes lua (.entries es) (LUA_TNIL :: rest) (.table es .none) rest
  | entry {es bs k bs' v bs'' t rest} : Encodes lua (.value false) bs k bs' →
      Encodes lua (.value false) bs' v bs'' →
      k.badKey = false → Encodes lua (.entries (setEntry (k.normKey lua.versionNum) v es)) bs'' t rest →
      Encodes lua (.entries es) bs t rest

/-- The bytes are refused before anything has been made of them: there are none, the tag is unknown,
or a value without parts is cut off. -/
inductive RefusedAtOnce (lua : Lua P) : List UInt8 → Prop where
  | empty : RefusedAtOnce lua []
  | unknown {tag bs} : tag ∉ [LUA_TNIL, LUA_TBOOLEAN, LUA_TNUMBER, EXTRA_LUA_TINTEGER, LUA_TSTRING,
      LUA_TTABLE, LUA_TFUNCTION, LUA_TUSERDATA, -LUA_TUSERDATA] → RefusedAtOnce lua (tag :: bs)
  | boolean : RefusedAtOnce lua [LUA_TBOOLEAN]
  | number {tag n} : tag = LUA_TNUMBER ∨ tag = EXTRA_LUA_TINTEGER → n.length < 8 →
      RefusedAtOnce lua (tag :: n)
  | string {bs} : CutOff lua 0 bs → RefusedAtOnce lua (LUA_TSTRING :: bs)
  | name {tag bs} : tag = LUA_TUSERDATA ∨ tag = -LUA_TUSERDATA → CutOff lua 1 bs →
      RefusedAtOnce lua (tag :: bs)
  | pointer {tag str ptr} : tag = LUA_TUSERDATA ∨ tag = -LUA_TUSERDATA → str.length < 2 ^ 64 →
      ptr.length < 8 →
      RefusedAtOnce lua (tag :: (frame str ++ ptr))

/-! ### Fields -/

/-- A read gets what is there, or there is nothing any more. -/
theorem ringbufferRead_cases {rb : Ringbuffer} {bs : List UInt8} (h : Holds rb bs) (n : ℕ) :
    (∃ field rest rb', bs = field ++ rest ∧ field.length = n ∧ Holds rb' rest ∧ ringbufferRead rb n = (n, field, rb')) ∨
      bs.length < n ∧ ∃ rb', Holds rb' [] ∧ ringbufferRead rb n = (bs.length, bs, rb') := by
  by_cases hn : n ≤ bs.length
  · left
    have hsplit : bs = bs.take n ++ bs.drop n := (List.take_append_drop n bs).symm
    have hlen : (bs.take n).length = n := by
      rw [List.length_take, Nat.min_eq_left hn]
    obtain ⟨rb', h', hread⟩ := Holds.ringbufferRead (hsplit ▸ h)
    rw [hlen] at hread
    exact ⟨bs.take n, bs.drop n, rb', hsplit, hlen, h', hread⟩
  · right
    have hlt : bs.length < n := not_le.mp hn
    have hrcb : rb.rcb = bs.length := by
      rw [← h.valid.length_content, h.content_eq]
    refine ⟨hlt, (ringbufferRead rb n).2.2, ⟨Ringbuffer.read_valid h.valid n, ?_⟩, ?_⟩
    · rw [Ringbuffer.read_content h.valid, h.content_eq, List.drop_eq_nil_of_le hlt.le]
    · rw [Ringbuffer.read_eq h.valid, h.content_eq, hrcb, Nat.min_eq_right hlt.le, List.take_of_length_le hlt.le]

theorem rbRead_cases {rb : Ringbuffer} {bs : List UInt8} (h : Holds rb bs) (n : ℕ) :
    (∃ field rest rb', bs = field ++ rest ∧ field.length = n ∧ Holds rb' rest ∧
        ∀ (stack : List (Value P)) k, rbRead n rb stack k = k field rb') ∨
      bs.length < n ∧ ∃ rb', Holds rb' [] ∧
        ∀ (stack : List (Value P)) k,
          rbRead n rb stack k = .ret (-Errno.ENOMEM.toInt) rb' stack := by
  rcases ringbufferRead_cases h n with ⟨field, rest, rb', hbs, hlen, h', hread⟩ | ⟨hlt, rb', h', hread⟩
  · refine Or.inl ⟨field, rest, rb', hbs, hlen, h', fun stack k => ?_⟩
    simp only [rbRead, hread]
    exact if_neg fun hne => hne rfl
  · refine Or.inr ⟨hlt, rb', h', fun stack k => ?_⟩
    simp only [rbRead, hread]
    exact if_pos hlt.ne

theorem rbReadBlock_cases {rb : Ringbuffer} {bs : List UInt8} (h : Holds rb bs) (n : ℕ) :
    (∃ field rest rb', bs = field ++ rest ∧ field.length = n ∧ Holds rb' rest ∧
        ∀ (lua : Lua P) extra stack k, rbReadBlock lua n extra rb stack k = k field rb') ∨
      bs.length < n ∧ ∃ rb', Holds rb' [] ∧ ∀ (lua : Lua P) extra stack k,
        rbReadBlock lua n extra rb stack k =
        if blockSize n extra ≤ lua.allocaRoom ∧
          bs.length ≤ blockSize n extra then .ret (-Errno.ENOMEM.toInt) rb' stack
        else .undefined := by
  rcases ringbufferRead_cases h n with ⟨field, rest, rb', hbs, hlen, h', hread⟩ | ⟨hlt, rb', h', hread⟩
  · refine Or.inl ⟨field, rest, rb', hbs, hlen, h', fun lua extra stack k => ?_⟩
    simp only [rbReadBlock, hread, if_true]
  · refine Or.inr ⟨hlt, rb', h', fun lua extra stack k => ?_⟩
    simp only [rbReadBlock, hread, if_neg hlt.ne]

theorem length_frame (str : List UInt8) : (frame str).length = 8 + str.length := by
  rw [frame, List.length_append, length_leBytes]

theorem frame_eq {n str : List UInt8} (hn : n.length = 8) (hstr : str.length = leVal n) :
    frame str = n ++ str ∧ str.length < 2 ^ 64 := by
  constructor
  · rw [frame, hstr, ← hn, leBytes_leVal]
  · have hlt := leVal_lt n
    rw [hn, ← hstr] at hlt
    exact hlt

/-- `RB_READ` of a length, and of a field of that length into a block. -/
def rbReadField (lua : Lua P) (extra : ℕ) (rb : Ringbuffer) (stack : List (Value P))
    (k : List UInt8 → List UInt8 → Ringbuffer → LoadOutcome P) : LoadOutcome P :=
  rbRead 8 rb stack fun n rb => rbReadBlock lua (leVal n) extra rb stack (k n)

theorem CutOff.ne_frame {lua : Lua P} {extra : ℕ} {bs : List UInt8} (h : CutOff lua extra bs)
    {str : List UInt8} (hsize : str.length < 2 ^ 64) (rest : List UInt8) :
    bs ≠ frame str ++ rest := by
  intro heq
  cases h with
  | length hlt =>
    rw [heq, List.length_append, length_frame] at hlt
    omega
  | field hn hlt =>
    rw [frame, List.append_assoc] at heq
    obtain ⟨rfl, rfl⟩ := List.append_inj heq (by rw [hn, length_leBytes])
    rw [leVal_length hsize, List.length_append] at hlt
    omega

/-- A field behind its length is there, or there is nothing any more, or it does not go into
its block. -/
theorem rbReadField_cases (lua : Lua P) (extra : ℕ) {rb : Ringbuffer} {bs : List UInt8} (h : Holds rb bs) :
    (∃ str rest rb', bs = frame str ++ rest ∧ str.length < 2 ^ 64 ∧ Holds rb' rest ∧ ∀ stack k,
        rbReadField lua extra rb stack k = k (leBytes 8 str.length) str rb') ∨
      (CutOff lua extra bs ∧ ∃ rb', Holds rb' [] ∧ ∀ stack k,
        rbReadField lua extra rb stack k = .ret (-Errno.ENOMEM.toInt) rb' stack) ∨
      ¬ CutOff lua extra bs ∧ ∀ stack k, rbReadField lua extra rb stack k = .undefined := by
  simp only [rbReadField]
  rcases rbRead_cases (P := P) h 8 with ⟨n, bs₁, rb₁, rfl, hn, h₁, hread⟩ | ⟨hlt, rb₁, h₁, hread⟩
  · rcases rbReadBlock_cases (P := P) h₁ (leVal n) with ⟨str, rest, rb₂, rfl, hstr, h₂, hread'⟩ | ⟨hlt, rb₂, h₂, hread'⟩
    · obtain ⟨hframe, hsize⟩ := frame_eq hn hstr
      refine Or.inl ⟨str, rest, rb₂, by rw [hframe, List.append_assoc], hsize, h₂, fun stack k => ?_⟩
      rw [hread, hread', hstr, ← hn, leBytes_leVal]
    · refine Or.inr ?_
      by_cases hblock : blockSize (leVal n) extra ≤ lua.allocaRoom ∧
        bs₁.length ≤ blockSize (leVal n) extra
      · refine Or.inl ⟨.field hn hlt hblock.1 hblock.2, rb₂, h₂, fun stack k => ?_⟩
        rw [hread, hread', if_pos hblock]
      · refine Or.inr ⟨fun hcut => ?_, fun stack k => by rw [hread, hread', if_neg hblock]⟩
        generalize hbs : n ++ bs₁ = bs at hcut
        cases hcut with
        | length hshort =>
          rw [← hbs, List.length_append] at hshort
          omega
        | field hn' hlt' hroom hle =>
          obtain ⟨rfl, rfl⟩ := List.append_inj hbs (by rw [hn, hn'])
          exact hblock ⟨hroom, hle⟩
  · exact Or.inr (Or.inl ⟨.length hlt, rb₁, h₁, fun stack k => hread stack _⟩)

theorem rbReadField_frame (lua : Lua P) (extra : ℕ) {rb : Ringbuffer} {str rest : List UInt8}
    (hsize : str.length < 2 ^ 64) (h : Holds rb (frame str ++ rest)) : ∃ rb', Holds rb' rest ∧
    ∀ stack k,
      rbReadField lua extra rb stack k = k (leBytes 8 str.length) str rb' := by
  rw [frame, List.append_assoc] at h
  obtain ⟨rb₁, h₁, hlen⟩ := Holds.rbRead (P := P) h (length_leBytes 8 _).symm
  obtain ⟨rb₂, h₂, hstr⟩ := Holds.rbReadBlock (P := P) h₁ (leVal_length hsize)
  exact ⟨rb₂, h₂, fun stack k => (hlen stack _).trans (hstr lua extra stack _)⟩

theorem rbReadField_cutOff {lua : Lua P} {extra : ℕ} {rb : Ringbuffer} {bs : List UInt8} (h : Holds rb bs)
    (hcut : CutOff lua extra bs) : ∃ rb', Holds rb' [] ∧ ∀ stack k,
      rbReadField lua extra rb stack k = .ret (-Errno.ENOMEM.toInt) rb' stack := by
  rcases rbReadField_cases lua extra h with ⟨str, rest, rb', hbs, hsize, -⟩ | ⟨-, hret⟩ | ⟨hnot, -⟩
  · exact absurd hbs (hcut.ne_frame hsize rest)
  · exact hret
  · exact absurd hcut hnot

theorem loadTypename_eq (lua : Lua P) (startsize : ℕ) (rb : Ringbuffer) (stack : List (Value P)) :
    loadTypename lua startsize rb stack = rbReadField lua 1 rb stack fun strLen str rb =>
      if 0 < leVal strLen then setTypename (lua.getmetatable (cstr str)) stack fun stack =>
        if stack.length ≠ startsize + 1 then .raise rb else .ret 1 rb stack
      else if stack.length ≠ startsize + 1 then .raise rb else .ret 1 rb stack := rfl

/-- The type of a table, or the table is left as it is. -/
theorem loadTypename_cases (lua : Lua P) {rb : Ringbuffer} {bs : List UInt8} (h : Holds rb bs) :
    (∃ str rest rb', bs = frame str ++ rest ∧ str.length < 2 ^ 64 ∧ Holds rb' rest ∧ ∀ es (stack : List (Value P)),
        loadTypename lua stack.length rb (.table es .none :: stack) =
          .ret 1 rb' (.table es (typeNamed lua str) :: stack)) ∨
      (CutOff lua 1 bs ∧ ∃ rb', Holds rb' [] ∧ ∀ startsize (stack : List (Value P)),
        loadTypename lua startsize rb stack = .ret (-Errno.ENOMEM.toInt) rb' stack) ∨
      ∀ startsize (stack : List (Value P)), loadTypename lua startsize rb stack = .undefined := by
  rcases rbReadField_cases lua 1 h with ⟨str, rest, rb', rfl, hsize, h', hread⟩ | ⟨hcut, rb', h', hread⟩ | ⟨-, hread⟩
  · refine Or.inl ⟨str, rest, rb', rfl, hsize, h', fun es stack => ?_⟩
    refine (hread _ _).trans ?_
    rw [leVal_length hsize, typeNamed]
    split_ifs with hpos
    · exact if_neg fun hne => hne rfl
    · exact if_neg fun hne => hne rfl
  · exact Or.inr (Or.inl ⟨hcut, rb', h', fun startsize stack => hread stack _⟩)
  · exact Or.inr (Or.inr fun startsize stack => hread stack _)

theorem loadTypename_frame (lua : Lua P) {rb : Ringbuffer} {str rest : List UInt8} (hsize : str.length < 2 ^ 64)
    (h : Holds rb (frame str ++ rest)) : ∃ rb', Holds rb' rest ∧ ∀ es (stack : List (Value P)),
      loadTypename lua stack.length rb (.table es .none :: stack) =
        .ret 1 rb' (.table es (typeNamed lua str) :: stack) := by
  obtain ⟨rb', h', hread⟩ := rbReadField_frame lua 1 hsize h
  refine ⟨rb', h', fun es stack => (hread _ _).trans ?_⟩
  rw [leVal_length hsize, typeNamed]
  split_ifs with hpos
  · exact if_neg fun hne => hne rfl
  · exact if_neg fun hne => hne rfl

theorem loadTypename_cutOff {lua : Lua P} {rb : Ringbuffer} {bs : List UInt8} (h : Holds rb bs)
    (hcut : CutOff lua 1 bs) :
    ∃ rb', Holds rb' [] ∧ ∀ startsize (stack : List (Value P)),
      loadTypename lua startsize rb stack = .ret (-Errno.ENOMEM.toInt) rb' stack := by
  obtain ⟨rb', h', hread⟩ := rbReadField_cutOff h hcut
  exact ⟨rb', h', fun startsize stack => hread stack _⟩

theorem loadUserdata_frame (lua : Lua P) {rb : Ringbuffer} {str ptr rest : List UInt8} (hsize : str.length < 2 ^ 64)
    (hptr : ptr.length = 8) (h : Holds rb (frame str ++ (ptr ++ rest))) : ∃ rb', Holds rb' rest ∧
      ∀ negative (stack : List (Value P)), loadUserdata lua negative rb stack =
        if negative = true then .ret 1 rb' (.userdata (lua.getmetatable (cstr str)) (wordVal ptr) :: stack)
        else luaTPushudata (lua.getmetatable (cstr str)) (wordVal ptr) rb' stack := by
  obtain ⟨rb₁, h₁, hname⟩ := rbReadField_frame lua 1 hsize h
  obtain ⟨rb₂, h₂, hread⟩ := Holds.rbRead (P := P) h₁ hptr.symm
  exact ⟨rb₂, h₂, fun negative stack => (hname stack _).trans (hread stack _)⟩

/-! ### Code -/

inductive Piece : List UInt8 → Chunk × Ringbuffer → Prop where
  | data {c rest rb} : 0 < c.length → c.length ≤ CHUNK_SIZE → Holds rb rest →
      Piece (frame c ++ rest) (.data c, rb)
  | last {rest rb} : Holds rb rest → Piece (leBytes 8 0 ++ rest) (.last, rb)
  | short {bs rb} : Holds rb [] → Piece bs (.short, rb)
  | overrun {bs rb} : Piece bs (.overrun, rb)

theorem rbLuaReader_piece {rb : Ringbuffer} {bs : List UInt8} (h : Holds rb bs) :
    Piece bs (rbLuaReader rb) := by
  rcases ringbufferRead_cases h 8 with ⟨size, bs₁, rb₁, rfl, hsize, h₁, hread⟩ | ⟨hlt, rb₁, h₁, hread⟩
  · simp only [rbLuaReader, hread, ne_eq, not_true_eq_false, if_false]
    by_cases hzero : leVal size = 0
    · rw [if_pos hzero, ← leBytes_leVal size, hsize, hzero]
      exact .last h₁
    rw [if_neg hzero]
    rcases ringbufferRead_cases h₁ (leVal size) with ⟨c, rest, rb₂, rfl, hc, h₂, hread'⟩ | ⟨hlt, rb₂, h₂, hread'⟩
    · simp only [hread', not_true_eq_false, if_false]
      split_ifs with hover
      · exact .overrun
      · rw [← List.append_assoc, ← (frame_eq hsize hc).1]
        exact .data (by omega) (by omega) h₂
    · simp only [hread', hlt.ne, not_false_eq_true, if_true]
      split_ifs
      · exact .overrun
      · exact .short h₂
  · simp only [rbLuaReader, hread, ne_eq, hlt.ne, not_false_eq_true, if_true]
    exact .short h₁

/-- The loader has got the code, or the message, and this rest. -/
def Leaves (x : Except (List UInt8) P) (rest : List UInt8) : Loaded P → Prop
  | .proto p rb true => x = .ok p ∧ Holds rb rest
  | .proto p rb false => x = .ok p ∧ ∃ marker, marker.length = 8 ∧ Holds rb (marker ++ rest)
  | .error msg rb => x = .error msg ∧ Holds rb rest
  | _ => False

/-- The loader has got nothing that a value is made of, for want of bytes. -/
def Spent : Loaded P → Prop
  | .proto _ _ true => False
  | .proto _ rb false => ∃ rest, Holds rb rest ∧ rest.length < 8
  | .error _ rb => Holds rb []
  | _ => True

theorem leaves_marker {lua : Lua P} {rb : Ringbuffer} {bs bs' : List UInt8} (h : Holds rb bs')
    (p : P) (hmarker : ∀ marker rest, bs' = marker ++ rest → marker.length = 8 → Marker lua bs rest) :
    (∃ rest, Marker lua bs rest ∧ Leaves (.ok p) rest (.proto p rb false)) ∨
    Spent (.proto p rb false) := by
  by_cases hlen : bs'.length < 8
  · exact Or.inr ⟨bs', h, hlen⟩
  · have hsplit : bs' = bs'.take 8 ++ bs'.drop 8 := (List.take_append_drop 8 bs').symm
    have htake : (bs'.take 8).length = 8 := by
      rw [List.length_take]
      omega
    exact Or.inl ⟨bs'.drop 8, hmarker _ _ hsplit htake, rfl, bs'.take 8, htake, hsplit ▸ h⟩

theorem loadedProto_marked (lua : Lua P) {rb : Ringbuffer} {bs : List UInt8} (h : Holds rb bs)
    (p : P) : (∃ rest, Marker lua bs rest ∧ Leaves (.ok p) rest (loadedProto lua p rb)) ∨
    Spent (loadedProto lua p rb) := by
  by_cases hend : lua.readsEnd = true
  · have hpiece := rbLuaReader_piece h
    rw [loadedProto, if_pos hend]
    generalize rbLuaReader rb = piece at hpiece
    cases hpiece with
    | @data c rest rb' hc hle h' =>
      refine leaves_marker h' p fun marker rest' heq hlen => ?_
      rw [heq]
      exact .chunk hend hc hle hlen
    | last h' => exact Or.inl ⟨_, .read hend, rfl, h'⟩
    | short h' => exact Or.inr ⟨[], h', by decide⟩
    | overrun => exact Or.inr trivial
  · rw [loadedProto, if_neg hend]
    refine leaves_marker h p fun marker rest heq hlen => ?_
    rw [heq]
    exact .skipped (Bool.eq_false_iff.mpr hend) hlen

/-- The loader takes what the format says, or it runs out of bytes. -/
theorem luaLoad_code (lua : Lua P) (fuel : ℕ) {read bs : List UInt8} {rb : Ringbuffer} (h : Holds rb bs) :
    (∃ x rest, Code lua read bs x rest ∧ Leaves x rest (luaLoad lua fuel read rb)) ∨
    Spent (luaLoad lua fuel read rb) := by
  induction fuel generalizing read bs rb with
  | zero => exact Or.inr trivial
  | succ fuel ih =>
    have hpiece := rbLuaReader_piece h
    rw [luaLoad]
    generalize rbLuaReader rb = piece at hpiece
    cases hpiece with
    | @data c rest rb' hc hle h' =>
      simp only
      cases hundump : lua.undump (read ++ c) with
      | more =>
        rcases @ih (read ++ c) rest rb' h' with ⟨x, rest', hcode, hleaves⟩ | hspent
        · exact Or.inl ⟨x, rest', .more hc hle hundump hcode, hleaves⟩
        · exact Or.inr hspent
      | done p =>
        rcases loadedProto_marked lua h' p with ⟨rest', hmarker, hleaves⟩ | hspent
        · exact Or.inl ⟨.ok p, rest', .done hc hle hundump hmarker, hleaves⟩
        · exact Or.inr hspent
      | error msg => exact Or.inl ⟨.error msg, rest, .error hc hle hundump, rfl, h'⟩
    | @last rest rb' h' =>
      refine Or.inl ⟨_, rest, .last, ?_⟩
      simp only
      cases lua.undumpEnd read with
      | ok p => exact ⟨rfl, h'⟩
      | error msg => exact ⟨rfl, h'⟩
    | short h' =>
      refine Or.inr ?_
      simp only
      cases lua.undumpEnd read with
      | ok p => exact ⟨[], h', by decide⟩
      | error msg => exact h'
    | overrun => exact Or.inr trivial

theorem marker_loadedProto {lua : Lua P} {rb : Ringbuffer} {bs rest : List UInt8} (hmarker : Marker lua bs rest)
    (h : Holds rb bs) (p : P) : Leaves (.ok p) rest (loadedProto lua p rb) := by
  cases hmarker with
  | @skipped marker rest hend hlen =>
    rw [loadedProto, hend, if_neg Bool.false_ne_true]
    exact ⟨rfl, marker, hlen, h⟩
  | read hend =>
    obtain ⟨rb', h', hlast⟩ := rbLuaReader_last h
    rw [loadedProto, if_pos hend, hlast]
    exact ⟨rfl, h'⟩
  | @chunk c marker rest hend hc hle hlen =>
    obtain ⟨rb', h', hdata⟩ := rbLuaReader_frame hc hle h
    rw [loadedProto, if_pos hend, hdata]
    exact ⟨rfl, marker, hlen, h'⟩

theorem code_luaLoad {lua : Lua P} {read bs rest : List UInt8} {x : Except (List UInt8) P}
    (hcode : Code lua read bs x rest) :
    ∃ n, ∀ rb, Holds rb bs → ∃ loaded, Leaves x rest loaded ∧
      ∀ fuel ≥ n, luaLoad lua fuel read rb = loaded := by
  induction hcode with
  | @more read c bs x rest hc hle hundump _ ih =>
    obtain ⟨n, hn⟩ := ih
    refine ⟨n + 1, fun rb h => ?_⟩
    obtain ⟨rb', h', hdata⟩ := rbLuaReader_frame hc hle h
    obtain ⟨loaded, hleaves, hload⟩ := hn rb' h'
    refine ⟨loaded, hleaves, fun fuel hf => ?_⟩
    obtain ⟨fuel, rfl⟩ : ∃ m, fuel = m + 1 := ⟨fuel - 1, by omega⟩
    simp only [luaLoad, hdata, hundump]
    exact hload fuel (by omega)
  | @done read c bs p rest hc hle hundump hmarker =>
    refine ⟨1, fun rb h => ?_⟩
    obtain ⟨rb', h', hdata⟩ := rbLuaReader_frame hc hle h
    refine ⟨_, marker_loadedProto hmarker h' p, fun fuel hf => ?_⟩
    obtain ⟨fuel, rfl⟩ : ∃ m, fuel = m + 1 := ⟨fuel - 1, by omega⟩
    simp only [luaLoad, hdata, hundump]
  | @error read c msg rest hc hle hundump =>
    refine ⟨1, fun rb h => ?_⟩
    obtain ⟨rb', h', hdata⟩ := rbLuaReader_frame hc hle h
    refine ⟨.error msg rb', ⟨rfl, h'⟩, fun fuel hf => ?_⟩
    obtain ⟨fuel, rfl⟩ : ∃ m, fuel = m + 1 := ⟨fuel - 1, by omega⟩
    simp only [luaLoad, hdata, hundump]
  | @last read rest =>
    refine ⟨1, fun rb h => ?_⟩
    obtain ⟨rb', h', hlast⟩ := rbLuaReader_last h
    cases hend : lua.undumpEnd read with
    | ok p =>
      refine ⟨.proto p rb' true, ⟨rfl, h'⟩, fun fuel hf => ?_⟩
      obtain ⟨fuel, rfl⟩ : ∃ m, fuel = m + 1 := ⟨fuel - 1, by omega⟩
      simp only [luaLoad, hlast, hend]
    | error msg =>
      refine ⟨.error msg rb', ⟨rfl, h'⟩, fun fuel hf => ?_⟩
      obtain ⟨fuel, rfl⟩ : ∃ m, fuel = m + 1 := ⟨fuel - 1, by omega⟩
      simp only [luaLoad, hlast, hend]

/-! ### What the format says is loaded -/

/-- With enough fuel the loader takes the value, or the rest of the table. -/
def Taken (lua : Lua P) (bs : List UInt8) (v : Value P) (rest : List UInt8) : Part P → Prop
  | .value whole => ∃ n, ∀ isKey rb stack, Holds rb bs → (isKey = true → v.isNil = false) →
      ∃ code rb', code ≠ 0 ∧ (whole = true → code = 1) ∧ Holds rb' rest ∧
        ∀ fuel ≥ n, rbLoadRcsv lua fuel isKey rb stack = .ret code rb' (v :: stack)
  | .entries es => ∃ n, ∀ rb stack startsize, Holds rb bs → ∃ rb', Holds rb' rest ∧
      ∀ fuel ≥ n, loadTable lua fuel startsize rb (.table es .none :: stack) =
        loadTypename lua startsize rb' (v :: stack)

theorem taken_of_tag {lua : Lua P} {whole : Bool} {tag : UInt8} {bs rest : List UInt8} {v : Value P}
    (h : ∃ n, ∀ isKey rb stack, Holds rb bs → (isKey = true → v.isNil = false) →
      ∃ code rb', code ≠ 0 ∧ (whole = true → code = 1) ∧ Holds rb' rest ∧ ∀ rb₀ : Ringbuffer,
        (∀ k : List UInt8 → Ringbuffer → LoadOutcome P, rbRead 1 rb₀ stack k = k [tag] rb) →
        ∀ fuel ≥ n, rbLoadRcsv lua (fuel + 1) isKey rb₀ stack = .ret code rb' (v :: stack)) :
    Taken lua (tag :: bs) v rest (.value whole) := by
  obtain ⟨n, hn⟩ := h
  refine ⟨n + 1, fun isKey rb stack hr hkey => ?_⟩
  obtain ⟨rb₁, h₁, hread⟩ := Holds.rbRead_byte (P := P) hr
  obtain ⟨code, rb₂, hcode, hwhole, h₂, hload⟩ := hn isKey rb₁ stack h₁ hkey
  refine ⟨code, rb₂, hcode, hwhole, h₂, fun fuel hf => ?_⟩
  obtain ⟨fuel, rfl⟩ : ∃ m, fuel = m + 1 := ⟨fuel - 1, by omega⟩
  exact hload rb (hread stack) fuel (by omega)

theorem leaves_loadFunction {lua : Lua P} {p : P} {rest : List UInt8} {loaded : Loaded P}
    (h : Leaves (.ok p) rest loaded) : ∃ rb', Holds rb' rest ∧ ∀ fuel rb stack loadTable,
    luaLoad lua fuel [] rb = loaded →
      loadFunction lua loadTable fuel rb stack = loadClosure lua loadTable stack.length rb'
        (.function p (freshUpvals lua.versionNum (lua.upvalueNames p).length) :: stack) := by
  match loaded, h with
  | .proto p' rb' true, ⟨hp, h'⟩ =>
    cases hp
    refine ⟨rb', h', fun fuel rb stack loadTable hload => ?_⟩
    simp only [loadFunction, hload, if_true]
  | .proto p' rb' false, ⟨hp, marker, hlen, h'⟩ =>
    cases hp
    obtain ⟨rb₂, h₂, hread⟩ := Holds.rbRead (P := P) h' hlen.symm
    refine ⟨rb₂, h₂, fun fuel rb stack loadTable hload => ?_⟩
    simp only [loadFunction, hload, Bool.false_eq_true, if_false, hread]

theorem loadUpvals_eq (lua : Lua P) (p : P) (env : ℤ) (es : List (Value P × Value P))
    (typename : TypeName) (startsize : ℕ) (rb : Ringbuffer) (stack : List (Value P)) :
    loadUpvals lua startsize env rb
        (.table es typename :: .function p (freshUpvals lua.versionNum (lua.upvalueNames p).length) :: stack) =
      match closureUpvals lua p env es with
      | some ups => if stack.length ≠ startsize then .raise rb else .ret 1 rb (.function p ups :: stack)
      | none => .undefined := by
  simp only [loadUpvals, closureUpvals]
  by_cases hbound : ((freshUpvals (P := P) lua.versionNum (lua.upvalueNames p).length).length : ℤ) <
    env
  · rw [if_pos hbound, if_pos hbound]
  · have hups : ∀ x : Option (List (Option (Value P))), (if ((freshUpvals (P := P) lua.versionNum
        (lua.upvalueNames p).length).length : ℤ) < env then none else x) = x :=
          fun x => if_neg hbound
    rw [hups]
    exact if_neg hbound

/-- The upvalues come from the table that the loader has left on the stack. -/
theorem taken_closure {lua : Lua P} {whole : Bool} {bs upval env bs' bs'' rest : List UInt8} {p : P}
    {es : List (Value P × Value P)} {ups : List (Option (Value P))}
    (hcode : Code lua [] bs (.ok p) (upval ++ (env ++ (LUA_TTABLE :: bs')))) (hupval : upval.length = 4)
    (hone : intVal upval = 1) (henv : env.length = 4) (hes : Taken lua bs' (.table es .none) bs'' (.entries []))
    (htype : ∀ rb, Holds rb bs'' → ∃ code rb' typename, Holds rb' rest ∧ ∀ stack : List (Value P),
      loadTypename lua stack.length rb (.table es .none :: stack) =
        .ret code rb' (.table es typename :: stack))
    (hups : closureUpvals lua p (intVal env) es = some ups) :
    Taken lua (LUA_TFUNCTION :: bs) (.function p ups) rest (.value whole) := by
  obtain ⟨n, hn⟩ := code_luaLoad hcode
  obtain ⟨m, hm⟩ := hes
  refine taken_of_tag ⟨max n (m + 1), fun isKey rb stack h _ => ?_⟩
  obtain ⟨loaded, hleaves, hload⟩ := hn rb h
  obtain ⟨rb₁, h₁, hfunction⟩ := leaves_loadFunction hleaves
  obtain ⟨rb₂, h₂, hread₂⟩ := Holds.rbRead (P := P) h₁ hupval.symm
  obtain ⟨rb₃, h₃, hread₃⟩ := Holds.rbRead (P := P) h₂ henv.symm
  obtain ⟨rb₄, h₄, hread₄⟩ := Holds.rbRead_byte (P := P) h₃
  let below : List (Value P) :=
    .function p (freshUpvals lua.versionNum (lua.upvalueNames p).length) :: stack
  obtain ⟨rb₅, h₅, htable⟩ := hm rb₄ below below.length h₄
  obtain ⟨code, rb₆, typename, h₆, hname⟩ := htype rb₅ h₅
  refine ⟨1, rb₆, one_ne_zero, fun _ => rfl, h₆, fun rb₀ hread fuel hf => ?_⟩
  obtain ⟨fuel, rfl⟩ : ∃ m, fuel = m + 1 := ⟨fuel - 1, by omega⟩
  have hinner : rbLoadRcsv lua (fuel + 1) false rb₃ below = .ret code rb₆ (.table es typename :: below) := by
    rw [rbLoadRcsv_succ, hread₄]
    exact (htable fuel (by omega)).trans (hname below)
  rw [rbLoadRcsv_succ, hread]
  simp only [List.headD_cons]
  rw [hfunction _ rb stack _ (hload _ (by omega)), loadClosure, hread₂, if_pos hone, hread₃, hinner,
    LoadOutcome.andThen, loadUpvals_eq, hups]
  exact if_neg fun hne => hne rfl

theorem Encodes.taken {lua : Lua P} {part : Part P} {bs rest : List UInt8} {v : Value P}
    (h : Encodes lua part bs v rest) :
    Taken lua bs v rest part := by
  induction h with
  | @nil whole rest =>
    refine taken_of_tag ⟨0, fun isKey rb stack h hkey => ⟨1, rb, one_ne_zero, fun _ => rfl, h,
      fun rb₀ hread fuel _ => ?_⟩⟩
    have hvalue : isKey = false := by
      cases isKey with
      | true => cases hkey rfl
      | false => rfl
    rw [rbLoadRcsv_succ, hread, hvalue]
    rfl
  | @boolean whole b rest =>
    refine taken_of_tag ⟨0, fun isKey rb stack h _ => ?_⟩
    obtain ⟨rb', h', hb⟩ := Holds.rbRead_byte (P := P) h
    refine ⟨1, rb', one_ne_zero, fun _ => rfl, h', fun rb₀ hread fuel _ => ?_⟩
    rw [rbLoadRcsv_succ, hread]
    simp only [List.headD_cons, hb]
    rfl
  | @number whole n rest hn =>
    refine taken_of_tag ⟨0, fun isKey rb stack h _ => ?_⟩
    obtain ⟨rb', h', hw⟩ := Holds.rbRead (P := P) h hn.symm
    refine ⟨1, rb', one_ne_zero, fun _ => rfl, h', fun rb₀ hread fuel _ => ?_⟩
    rw [rbLoadRcsv_succ, hread]
    simp only [List.headD_cons, hw]
  | @integer whole n rest hn =>
    refine taken_of_tag ⟨0, fun isKey rb stack h _ => ?_⟩
    obtain ⟨rb', h', hw⟩ := Holds.rbRead (P := P) h hn.symm
    refine ⟨1, rb', one_ne_zero, fun _ => rfl, h', fun rb₀ hread fuel _ => ?_⟩
    rw [rbLoadRcsv_succ, hread]
    simp only [List.headD_cons, hw]
  | @string whole str rest hsize =>
    refine taken_of_tag ⟨0, fun isKey rb stack h _ => ?_⟩
    obtain ⟨rb', h', hstr⟩ := rbReadField_frame lua 0 hsize h
    refine ⟨1, rb', one_ne_zero, fun _ => rfl, h', fun rb₀ hread fuel _ => ?_⟩
    rw [rbLoadRcsv_succ, hread]
    simp only [List.headD_cons]
    exact hstr stack fun _ str rb => .ret 1 rb (.string str :: stack)
  | @table whole bs es str rest _ hsize ih =>
    obtain ⟨n, hn⟩ := ih
    refine taken_of_tag ⟨n, fun isKey rb stack h _ => ?_⟩
    obtain ⟨rb₁, h₁, hload⟩ := hn rb stack stack.length h
    obtain ⟨rb₂, h₂, hname⟩ := loadTypename_frame lua hsize h₁
    refine ⟨1, rb₂, one_ne_zero, fun _ => rfl, h₂, fun rb₀ hread fuel hf => ?_⟩
    rw [rbLoadRcsv_succ, hread]
    exact (hload fuel hf).trans (hname es stack)
  | @function whole bs p upval rest hcode hupval hone =>
    obtain ⟨n, hn⟩ := code_luaLoad hcode
    refine taken_of_tag ⟨n, fun isKey rb stack h _ => ?_⟩
    obtain ⟨loaded, hleaves, hload⟩ := hn rb h
    obtain ⟨rb₁, h₁, hfunction⟩ := leaves_loadFunction hleaves
    obtain ⟨rb₂, h₂, hread₂⟩ := Holds.rbRead (P := P) h₁ hupval.symm
    refine ⟨1, rb₂, one_ne_zero, fun _ => rfl, h₂, fun rb₀ hread fuel hf => ?_⟩
    rw [rbLoadRcsv_succ, hread]
    simp only [List.headD_cons]
    rw [hfunction fuel rb stack _ (hload fuel hf), loadClosure, hread₂, if_neg hone]
  | @closure whole bs p upval env bs' es str ups rest hcode hupval hone henv _ hsize hups ih =>
    refine taken_closure hcode hupval hone henv ih (fun rb h => ?_) hups
    obtain ⟨rb', h', hname⟩ := loadTypename_frame lua hsize h
    exact ⟨1, rb', typeNamed lua str, h', hname es⟩
  | @closureCutOff whole bs p upval env bs' es ups rest hcode hupval hone henv _ hcut hups ih =>
    refine taken_closure hcode hupval hone henv ih (fun rb h => ?_) hups
    obtain ⟨rb', h', hname⟩ := loadTypename_cutOff h hcut
    exact ⟨_, rb', .none, h', fun stack => hname stack.length _⟩
  | @message bs msg rest hcode =>
    obtain ⟨n, hn⟩ := code_luaLoad hcode
    refine taken_of_tag ⟨n, fun isKey rb stack h _ => ?_⟩
    obtain ⟨loaded, hleaves, hload⟩ := hn rb h
    cases loaded with
    | error msg' rb₁ =>
      obtain ⟨hmsg, h₁⟩ := hleaves
      cases hmsg
      refine ⟨-Errno.EINVAL.toInt, rb₁, by decide, by rintro ⟨⟩, h₁, fun rb₀ hread fuel hf => ?_⟩
      rw [rbLoadRcsv_succ, hread]
      simp only [List.headD_cons, loadFunction, hload fuel hf]
    | proto p rb₁ readLast => cases readLast <;> cases hleaves.1
    | _ => exact hleaves.elim
  | @null whole str ptr rest hsize hptr hnull =>
    refine taken_of_tag ⟨0, fun isKey rb stack h _ => ?_⟩
    obtain ⟨rb', h', huserdata⟩ := loadUserdata_frame lua hsize hptr h
    refine ⟨1, rb', one_ne_zero, fun _ => rfl, h', fun rb₀ hread fuel _ => ?_⟩
    rw [rbLoadRcsv_succ, hread]
    exact (huserdata false stack).trans (if_pos hnull)
  | @userdata whole str ptr rest hsize hptr hnull htype =>
    refine taken_of_tag ⟨0, fun isKey rb stack h _ => ?_⟩
    obtain ⟨rb', h', huserdata⟩ := loadUserdata_frame lua hsize hptr h
    refine ⟨1, rb', one_ne_zero, fun _ => rfl, h', fun rb₀ hread fuel _ => ?_⟩
    rw [rbLoadRcsv_succ, hread]
    exact (huserdata false stack).trans ((if_neg hnull).trans (if_neg htype))
  | @negated whole str ptr rest hsize hptr =>
    refine taken_of_tag ⟨0, fun isKey rb stack h _ => ?_⟩
    obtain ⟨rb', h', huserdata⟩ := loadUserdata_frame lua hsize hptr h
    refine ⟨1, rb', one_ne_zero, fun _ => rfl, h', fun rb₀ hread fuel _ => ?_⟩
    rw [rbLoadRcsv_succ, hread]
    exact huserdata true stack
  | @done es rest =>
    refine ⟨2, fun rb stack startsize h => ?_⟩
    obtain ⟨rb', h', hnil⟩ := @loadTable_nil P lua rb rest h (.table es .none :: stack)
    refine ⟨rb', h', fun fuel hf => ?_⟩
    obtain ⟨fuel, rfl⟩ : ∃ m, fuel = m + 2 := ⟨fuel - 2, by omega⟩
    exact hnil fuel startsize
  | @entry es bs k bs' v bs'' t rest _ _ hbad _ ihk ihv iht =>
    obtain ⟨n, hn⟩ := ihk
    obtain ⟨m, hm⟩ := ihv
    obtain ⟨l, hl⟩ := iht
    refine ⟨max (max n m) l + 1, fun rb stack startsize h => ?_⟩
    obtain ⟨code, rb₁, hcode, -, h₁, hkey⟩ := hn true rb (.table es .none :: stack) h
      fun _ => isNil_of_not_badKey hbad
    obtain ⟨_, rb₂, -, -, h₂, hvalue⟩ :=
      hm false rb₁ (k :: .table es .none :: stack) h₁ (by rintro ⟨⟩)
    obtain ⟨rb₃, h₃, hrest⟩ := hl rb₂ stack startsize h₂
    refine ⟨rb₃, h₃, fun fuel hf => ?_⟩
    obtain ⟨fuel, rfl⟩ : ∃ m, fuel = m + 1 := ⟨fuel - 1, by omega⟩
    rw [loadTable_succ, hkey fuel (by omega), LoadOutcome.andThen, if_neg hcode,
      hvalue fuel (by omega), LoadOutcome.andThen, luaSettable, hbad, if_neg Bool.false_ne_true]
    exact hrest fuel (by omega)

variable {lua : Lua P}

theorem Encodes.loads {bs rest : List UInt8} {v : Value P} (h : Encodes lua (.value true) bs v rest) :
    ∃ n, ∀ rb stack, Holds rb bs → ∃ rb', Holds rb' rest ∧
      ∀ fuel ≥ n, rbLoad lua fuel rb stack = .ret 1 rb' (v :: stack) := by
  obtain ⟨n, hn⟩ := h.taken
  refine ⟨n, fun rb stack hrb => ?_⟩
  obtain ⟨code, rb', -, hwhole, h', hload⟩ := hn false rb stack hrb (by rintro ⟨⟩)
  rw [hwhole rfl] at hload
  exact ⟨rb', h', hload⟩

theorem RefusedAtOnce.returns {bs : List UInt8} (hbs : RefusedAtOnce lua bs) {rb : Ringbuffer}
    (h : Holds rb bs) (isKey : Bool) (stack : List (Value P)) : ∃ code rb', code < 0 ∧
    ∀ fuel, rbLoadRcsv lua (fuel + 1) isKey rb stack = .ret code rb' stack := by
  have hcode : -Errno.ENOMEM.toInt < 0 := by decide
  cases hbs with
  | empty =>
    obtain ⟨rb', -, hend⟩ := rbLoadRcsv_end lua h
    exact ⟨_, rb', hcode, fun fuel => hend fuel isKey stack⟩
  | @unknown tag bs htag =>
    obtain ⟨rb₁, h₁, hread⟩ := Holds.rbRead_byte (P := P) h
    refine ⟨-Errno.EINVAL.toInt, rb₁, by decide, fun fuel => ?_⟩
    rw [rbLoadRcsv_succ, hread]
    simp only [List.headD_cons]
    simp only [List.mem_cons, List.not_mem_nil, or_false, not_or] at htag
    obtain ⟨h0, h1, h3, h127, h4, h5, h6, h7, h249⟩ := htag
    split <;> first | rfl | contradiction
  | boolean =>
    obtain ⟨rb₁, h₁, hread⟩ := Holds.rbRead_byte (P := P) h
    obtain ⟨rb₂, -, hend⟩ := rbRead_end (P := P) h₁ one_ne_zero
    refine ⟨_, rb₂, hcode, fun fuel => ?_⟩
    rw [rbLoadRcsv_succ, hread]
    exact hend stack _
  | @number tag n htag hn =>
    obtain ⟨rb₁, h₁, hread⟩ := Holds.rbRead_byte (P := P) h
    rcases rbRead_cases (P := P) h₁ 8 with ⟨field, rest, rb₂, hsplit, hlen, -⟩ | ⟨-, rb₂, -, hend⟩
    · rw [hsplit, List.length_append] at hn
      omega
    · refine ⟨_, rb₂, hcode, fun fuel => ?_⟩
      rw [rbLoadRcsv_succ, hread]
      rcases htag with rfl | rfl
      · exact hend stack _
      · exact hend stack _
  | @string bs hcut =>
    obtain ⟨rb₁, h₁, hread⟩ := Holds.rbRead_byte (P := P) h
    obtain ⟨rb₂, -, hend⟩ := rbReadField_cutOff h₁ hcut
    refine ⟨_, rb₂, hcode, fun fuel => ?_⟩
    rw [rbLoadRcsv_succ, hread]
    exact hend stack fun _ str rb => .ret 1 rb (.string str :: stack)
  | @name tag bs htag hcut =>
    obtain ⟨rb₁, h₁, hread⟩ := Holds.rbRead_byte (P := P) h
    obtain ⟨rb₂, -, hend⟩ := rbReadField_cutOff h₁ hcut
    have huserdata : ∀ negative, loadUserdata lua negative rb₁ stack =
        .ret (-Errno.ENOMEM.toInt) rb₂ stack :=
      fun negative => hend stack _
    refine ⟨_, rb₂, hcode, fun fuel => ?_⟩
    rw [rbLoadRcsv_succ, hread]
    rcases htag with rfl | rfl
    · exact huserdata false
    · exact huserdata true
  | @pointer tag str ptr htag hsize hptr =>
    obtain ⟨rb₁, h₁, hread⟩ := Holds.rbRead_byte (P := P) h
    obtain ⟨rb₂, h₂, hname⟩ := rbReadField_frame lua 1 hsize h₁
    rcases rbRead_cases (P := P) h₂ 8 with ⟨field, rest, rb₃, hsplit, hlen, -⟩ | ⟨-, rb₃, -, hend⟩
    · rw [hsplit, List.length_append] at hptr
      omega
    · have huserdata : ∀ negative, loadUserdata lua negative rb₁ stack =
          .ret (-Errno.ENOMEM.toInt) rb₃ stack := by
        intro negative
        exact (hname stack _).trans (hend stack _)
      refine ⟨_, rb₃, hcode, fun fuel => ?_⟩
      rw [rbLoadRcsv_succ, hread]
      rcases htag with rfl | rfl
      · exact huserdata false
      · exact huserdata true

end

end TorchIpc.Format
