import Mathlib.Data.List.TakeWhile
import TorchIpc.Serialize.Load
import TorchIpc.Serialize.Script

/-! How the loader reads back what `rb_save` wrote: one lemma for each piece of
the format (a field, a chunk of code, the entries of a table), over a buffer that
holds the piece in front of any other bytes. -/

namespace TorchIpc

open Words

/-- A valid buffer with this content. -/
structure Holds (rb : Ringbuffer) (bs : List UInt8) : Prop where
  valid : rb.Valid
  content_eq : rb.content = bs

theorem Holds.ringbufferRead {rb : Ringbuffer} {bs rest : List UInt8} (h : Holds rb (bs ++ rest)) :
    ∃ rb', Holds rb' rest ∧ ringbufferRead rb bs.length = (bs.length, bs, rb') := by
  have hlen : bs.length ≤ rb.rcb := by
    rw [← h.valid.length_content, h.content_eq, List.length_append]
    omega
  refine ⟨(TorchIpc.ringbufferRead rb bs.length).2.2, ⟨Ringbuffer.read_valid h.valid _, ?_⟩, ?_⟩
  · rw [Ringbuffer.read_content h.valid, h.content_eq, List.drop_left]
  · rw [Ringbuffer.read_eq h.valid, h.content_eq, List.take_left, Nat.min_eq_left hlen]

section
variable {P : Type}

theorem Holds.rbRead {rb : Ringbuffer} {bs rest : List UInt8} (h : Holds rb (bs ++ rest)) {n : ℕ}
    (hn : n = bs.length) :
    ∃ rb', Holds rb' rest ∧ ∀ (stack : List (Value P)) k, rbRead n rb stack k = k bs rb' := by
  obtain ⟨rb', h', hread⟩ := h.ringbufferRead
  refine ⟨rb', h', fun stack k => ?_⟩
  simp only [TorchIpc.rbRead, hn, hread, ne_eq, not_true_eq_false, if_false]

theorem Holds.rbReadBlock {rb : Ringbuffer} {bs rest : List UInt8} (h : Holds rb (bs ++ rest))
    {n : ℕ} (hn : n = bs.length) : ∃ rb', Holds rb' rest ∧
      ∀ (lua : Lua P) extra stack k, rbReadBlock lua n extra rb stack k = k bs rb' := by
  obtain ⟨rb', h', hread⟩ := h.ringbufferRead
  refine ⟨rb', h', fun lua extra stack k => ?_⟩
  simp only [TorchIpc.rbReadBlock, hn, hread, if_true]

theorem Holds.rbRead_byte {rb : Ringbuffer} {b : UInt8} {rest : List UInt8}
    (h : Holds rb (b :: rest)) :
    ∃ rb', Holds rb' rest ∧ ∀ (stack : List (Value P)) k,
      TorchIpc.rbRead 1 rb stack k = k [b] rb' :=
  have h' : Holds rb ([b] ++ rest) := h
  h'.rbRead rfl

/-! ### Code -/

def frame (c : List UInt8) : List UInt8 := leBytes 8 c.length ++ c

theorem rbLuaReader_frame {rb : Ringbuffer} {c rest : List UInt8} (h0 : 0 < c.length)
    (hle : c.length ≤ CHUNK_SIZE) (h : Holds rb (frame c ++ rest)) :
    ∃ rb', Holds rb' rest ∧ rbLuaReader rb = (.data c, rb') := by
  rw [frame, List.append_assoc] at h
  obtain ⟨rb₁, h₁, hsize⟩ := h.ringbufferRead
  obtain ⟨rb₂, h₂, hdata⟩ := h₁.ringbufferRead
  have hval : leVal (leBytes 8 c.length) = c.length :=
    leVal_leBytes (hle.trans_lt (by decide))
  rw [length_leBytes] at hsize
  refine ⟨rb₂, h₂, ?_⟩
  simp only [rbLuaReader, hsize, hval, hdata]
  rw [if_neg (by simp), if_neg (by omega), if_neg (by omega), if_neg (by simp)]

theorem rbLuaReader_last {rb : Ringbuffer} {rest : List UInt8}
    (h : Holds rb (leBytes 8 0 ++ rest)) :
    ∃ rb', Holds rb' rest ∧ rbLuaReader rb = (.last, rb') := by
  obtain ⟨rb', h', hsize⟩ := h.ringbufferRead
  rw [length_leBytes] at hsize
  refine ⟨rb', h', ?_⟩
  simp only [rbLuaReader, hsize, leVal_leBytes (show 0 < 256 ^ 8 by decide)]
  rfl

/-- The writer cuts a block into chunks that are not empty and fit into the buffer
of the reader. -/
theorem chunkPuts_frames (fuel : ℕ) (input : List UInt8) (h : input.length ≤ fuel) :
    ∃ cs : List (List UInt8), (∀ c ∈ cs, 0 < c.length ∧ c.length ≤ CHUNK_SIZE) ∧
      cs.flatten = input ∧ (chunkPuts fuel input).flatten = (cs.map frame).flatten := by
  induction fuel generalizing input with
  | zero =>
    have hnil : input = [] := List.length_eq_zero_iff.mp (by omega)
    exact ⟨[], by simp, hnil.symm, rfl⟩
  | succ fuel ih =>
    have hchunk : 0 < CHUNK_SIZE := by decide
    rw [chunkPuts]
    split_ifs with hpos
    · obtain ⟨cs, hcs, hflat, hput⟩ := ih (input.drop (min CHUNK_SIZE input.length))
        (by rw [List.length_drop]; omega)
      have hlen : (input.take (min CHUNK_SIZE input.length)).length =
          min CHUNK_SIZE input.length := by
        rw [List.length_take]
        omega
      refine ⟨input.take (min CHUNK_SIZE input.length) :: cs, ?_, ?_, ?_⟩
      · intro c hc
        rcases List.mem_cons.mp hc with rfl | hc
        · rw [hlen]
          omega
        · exact hcs c hc
      · rw [List.flatten_cons, hflat, List.take_append_drop]
      · simp only [List.flatten_cons, List.map_cons, hput, frame, hlen, List.append_assoc]
    · have hnil : input = [] := List.length_eq_zero_iff.mp (by omega)
      exact ⟨[], by simp, hnil.symm, rfl⟩

theorem dumpPuts_frames (blocks : List (List UInt8)) :
    ∃ cs : List (List UInt8), (∀ c ∈ cs, 0 < c.length ∧ c.length ≤ CHUNK_SIZE) ∧
      cs.flatten = blocks.flatten ∧ (dumpPuts blocks).flatten = (cs.map frame).flatten := by
  induction blocks with
  | nil => exact ⟨[], by simp, rfl, rfl⟩
  | cons block blocks ih =>
    obtain ⟨cs, hcs, hflat, hput⟩ := ih
    obtain ⟨ds, hds, hflat', hput'⟩ := chunkPuts_frames block.length block le_rfl
    refine ⟨ds ++ cs, fun c hc => (List.mem_append.mp hc).elim (hds c) (hcs c), ?_, ?_⟩
    · rw [List.flatten_append, List.flatten_cons, hflat, hflat']
    · have hcons : dumpPuts (block :: blocks) = chunkPuts block.length block ++ dumpPuts blocks :=
        rfl
      rw [hcons, List.map_append, List.flatten_append, List.flatten_append, hput, hput']

/-- What is relied on of Lua: the loader takes the whole of a dump, and nothing
less, for the code it was made from. -/
structure Lua.Rebuilds (lua : Lua P) : Prop where
  dump_ne_nil : ∀ p, (lua.dump p).flatten ≠ []
  undump_done : ∀ p, lua.undump (lua.dump p).flatten = .done p
  undump_more : ∀ p bs, bs <+: (lua.dump p).flatten → bs ≠ (lua.dump p).flatten →
    lua.undump bs = .more

/-- The loader makes `p` of these bytes and takes all of them: it is done at the last
byte, or when it hears that there are no more. -/
structure Lua.Takes (lua : Lua P) (bytes : List UInt8) (p : P) : Prop where
  undump_more : ∀ bs, bs <+: bytes → bs ≠ [] → bs ≠ bytes → lua.undump bs = .more
  undump_all : (bytes ≠ [] ∧ lua.undump bytes = .done p) ∨
    ((bytes = [] ∨ lua.undump bytes = .more) ∧ lua.undumpEnd bytes = .ok p)

theorem Lua.Rebuilds.takes {lua : Lua P} (hl : lua.Rebuilds) (p : P) :
    lua.Takes (lua.dump p).flatten p :=
  ⟨fun bs hpre _ hne => hl.undump_more p bs hpre hne,
    Or.inl ⟨hl.dump_ne_nil p, hl.undump_done p⟩⟩

/-- The chunks that the calls of `rb_lua_reader` return before the one that returns
none. -/
inductive Chunks : Ringbuffer → List (List UInt8) → Ringbuffer → Prop where
  | last {rb rb' : Ringbuffer} : rbLuaReader rb = (.last, rb') → Chunks rb [] rb'
  | data {rb rb₁ rb' : Ringbuffer} {c : List UInt8} {cs : List (List UInt8)} :
      rbLuaReader rb = (.data c, rb₁) → Chunks rb₁ cs rb' → Chunks rb (c :: cs) rb'

theorem chunks_frames {cs : List (List UInt8)} (hcs : ∀ c ∈ cs, 0 < c.length ∧ c.length ≤ CHUNK_SIZE)
    {rb : Ringbuffer} {rest : List UInt8}
    (h : Holds rb ((cs.map frame).flatten ++ (leBytes 8 0 ++ rest))) :
    ∃ rb', Holds rb' rest ∧ Chunks rb cs rb' := by
  induction cs generalizing rb with
  | nil =>
    obtain ⟨rb', h', hlast⟩ := rbLuaReader_last h
    exact ⟨rb', h', .last hlast⟩
  | cons c cs ih =>
    rw [List.map_cons, List.flatten_cons, List.append_assoc] at h
    obtain ⟨hc0, hcle⟩ := hcs c List.mem_cons_self
    obtain ⟨rb₁, h₁, hdata⟩ := rbLuaReader_frame hc0 hcle h
    obtain ⟨rb', h', hchunks⟩ := ih (fun d hd => hcs d (List.mem_cons_of_mem _ hd)) h₁
    exact ⟨rb', h', .data hdata hchunks⟩

/-- The loader asks for chunks until it has them all; it may or may not have read
the marker. -/
theorem luaLoad_chunks {lua : Lua P} {bytes : List UInt8} {p : P} (ht : lua.Takes bytes p)
    {rb rb' : Ringbuffer} {cs : List (List UInt8)} (h : Chunks rb cs rb')
    (hcs : ∀ c ∈ cs, 0 < c.length) (read : List UInt8) (hread : read ++ cs.flatten = bytes)
    (hend : cs = [] → lua.undumpEnd bytes = .ok p) :
    ∃ rb₁ readLast, (if readLast = true then rb₁ = rb' else rbLuaReader rb₁ = (.last, rb')) ∧
      ∀ fuel ≥ cs.length + 1, luaLoad lua fuel read rb = .proto p rb₁ readLast := by
  induction h generalizing read with
  | @last rb rb' hlast =>
    rw [List.flatten_nil, List.append_nil] at hread
    refine ⟨rb', true, rfl, fun fuel hf => ?_⟩
    obtain ⟨fuel, rfl⟩ : ∃ m, fuel = m + 1 := ⟨fuel - 1, by omega⟩
    simp only [luaLoad, hlast, hread, hend rfl]
  | @data rb rb₂ rb' c cs hdata hrest ih =>
    have hc : read ++ c ≠ [] := by
      intro he
      rw [(List.append_eq_nil_iff.mp he).2] at hcs
      exact absurd (hcs [] List.mem_cons_self) (lt_irrefl 0)
    rw [List.flatten_cons, ← List.append_assoc] at hread
    by_cases hmore : lua.undump (read ++ c) = .more
    · obtain ⟨rb₁, readLast, hleft, hload⟩ := ih (fun d hd => hcs d (List.mem_cons_of_mem _ hd))
        (read ++ c) hread fun hnil => by
          rw [hnil, List.flatten_nil, List.append_nil] at hread
          rcases ht.undump_all with ⟨_, hdone⟩ | ⟨_, hok⟩
          · rw [hread, hdone] at hmore
            cases hmore
          · exact hok
      refine ⟨rb₁, readLast, hleft, fun fuel hf => ?_⟩
      rw [List.length_cons] at hf
      obtain ⟨fuel, rfl⟩ : ∃ m, fuel = m + 1 := ⟨fuel - 1, by omega⟩
      simp only [luaLoad, hdata, hmore]
      exact hload fuel (by omega)
    · -- the loader goes on before the last byte, so this chunk is the last one
      have hall : read ++ c = bytes := by
        by_contra hne
        exact hmore (ht.undump_more _ ⟨_, hread⟩ hc hne)
      have hdone : lua.undump (read ++ c) = .done p := by
        rw [hall] at hmore hc ⊢
        rcases ht.undump_all with ⟨_, hdone⟩ | ⟨hnil | hmore', _⟩
        · exact hdone
        · exact absurd hnil hc
        · exact absurd hmore' hmore
      have hnil : cs = [] := by
        rw [hall] at hread
        have hflat : cs.flatten = [] := List.append_right_eq_self.mp hread
        refine List.eq_nil_iff_forall_not_mem.mpr fun d hd => ?_
        have hd0 := hcs d (List.mem_cons_of_mem _ hd)
        rw [List.flatten_eq_nil_iff.mp hflat d hd] at hd0
        exact absurd hd0 (lt_irrefl 0)
      subst hnil
      obtain ⟨hlast⟩ := hrest
      by_cases hasks : lua.readsEnd = true
      · refine ⟨rb', true, rfl, fun fuel hf => ?_⟩
        obtain ⟨fuel, rfl⟩ : ∃ m, fuel = m + 1 := ⟨fuel - 1, by omega⟩
        simp only [luaLoad, hdata, hdone, loadedProto, if_pos hasks, hlast]
      · refine ⟨rb₂, false, hlast, fun fuel hf => ?_⟩
        obtain ⟨fuel, rfl⟩ : ∃ m, fuel = m + 1 := ⟨fuel - 1, by omega⟩
        simp only [luaLoad, hdata, hdone, loadedProto, if_neg hasks]

/-- The marker that the loader left is what the read behind it takes. -/
theorem rbRead_marker {rb rb' : Ringbuffer} (h : rbLuaReader rb = (.last, rb'))
    (stack : List (Value P)) (k : Ringbuffer → LoadOutcome P) :
    rbRead 8 rb stack (fun _ rb => k rb) = k rb' := by
  simp only [rbLuaReader] at h
  split_ifs at h with hsize hzero <;>
    simp only [Prod.mk.injEq, reduceCtorEq, false_and, true_and] at h
  simp only [rbRead, if_neg hsize, h]

/-- A function behind its code, whether or not the loader has read the marker. -/
theorem loadFunction_chunks {lua : Lua P} {rb rb' : Ringbuffer} {cs : List (List UInt8)}
    (h : Chunks rb cs rb') (hcs : ∀ c ∈ cs, 0 < c.length) {p : P} (ht : lua.Takes cs.flatten p)
    (loadTable : Ringbuffer → List (Value P) → LoadOutcome P) (stack : List (Value P)) {fuel : ℕ}
    (hf : cs.length + 1 ≤ fuel) :
    loadFunction lua loadTable fuel rb stack = loadClosure lua loadTable stack.length rb'
      (.function p (freshUpvals lua.versionNum (lua.upvalueNames p).length) :: stack) := by
  obtain ⟨rb₁, readLast, hleft, hload⟩ := luaLoad_chunks ht h hcs [] (List.nil_append _) (by
    rintro rfl
    rcases ht.undump_all with ⟨hne, _⟩ | ⟨_, hok⟩
    · exact absurd rfl hne
    · exact hok)
  cases readLast with
  | true =>
    rw [if_pos rfl] at hleft
    simp only [loadFunction, hload fuel hf, if_true, hleft]
  | false =>
    rw [if_neg Bool.false_ne_true] at hleft
    simp only [loadFunction, hload fuel hf, Bool.false_eq_true, if_false]
    exact rbRead_marker hleft _ _

theorem loadFunction_dump {lua : Lua P} (hl : lua.Rebuilds) (p : P) :
    ∃ n, ∀ rb rest stack,
      Holds rb ((dumpPuts (lua.dump p)).flatten ++ (leBytes 8 0 ++ rest)) →
      ∃ rb', Holds rb' rest ∧ ∀ fuel ≥ n, ∀ loadTable, loadFunction lua loadTable fuel rb stack =
        loadClosure lua loadTable stack.length rb'
          (.function p (freshUpvals lua.versionNum (lua.upvalueNames p).length) :: stack) := by
  obtain ⟨cs, hcs, hflat, hput⟩ := dumpPuts_frames (lua.dump p)
  refine ⟨cs.length + 1, fun rb rest stack h => ?_⟩
  rw [hput] at h
  obtain ⟨rb', h', hchunks⟩ := chunks_frames hcs h
  exact ⟨rb', h', fun fuel hf loadTable => loadFunction_chunks hchunks (fun c hc => (hcs c hc).1)
    (hflat ▸ hl.takes p) loadTable stack hf⟩

/-! ### Values -/

/-- With enough fuel the loader turns these bytes into the value `v`, whatever
follows them and whatever lies on the stack. -/
def Loads (lua : Lua P) (isKey : Bool) (bs : List UInt8) (v : Value P) : Prop :=
  ∃ n, ∀ rb rest stack, Holds rb (bs ++ rest) → ∃ rb', Holds rb' rest ∧
    ∀ fuel ≥ n, rbLoadRcsv lua fuel isKey rb stack = .ret 1 rb' (v :: stack)

theorem Loads.of_tag {lua : Lua P} {isKey : Bool} {tag : UInt8} {bs : List UInt8} {v : Value P}
    (h : ∃ n, ∀ rb rest stack, Holds rb (bs ++ rest) → ∀ rb₀ : Ringbuffer,
      (∀ k : List UInt8 → Ringbuffer → LoadOutcome P, rbRead 1 rb₀ stack k = k [tag] rb) →
      ∃ rb', Holds rb' rest ∧ ∀ fuel ≥ n,
        rbLoadRcsv lua (fuel + 1) isKey rb₀ stack = .ret 1 rb' (v :: stack)) :
    Loads lua isKey (tag :: bs) v := by
  obtain ⟨n, hn⟩ := h
  refine ⟨n + 1, fun rb rest stack hr => ?_⟩
  obtain ⟨rb₁, h₁, hread⟩ := Holds.rbRead_byte (P := P) hr
  obtain ⟨rb₂, h₂, hload⟩ := hn rb₁ rest stack h₁ rb (hread stack)
  refine ⟨rb₂, h₂, fun fuel hf => ?_⟩
  obtain ⟨fuel, rfl⟩ : ∃ m, fuel = m + 1 := ⟨fuel - 1, by omega⟩
  exact hload fuel (by omega)

theorem loads_nil (lua : Lua P) : Loads lua false [LUA_TNIL] .nil := by
  refine Loads.of_tag ⟨0, fun rb rest stack h rb₀ hread => ⟨rb, h, fun fuel _ => ?_⟩⟩
  rw [rbLoadRcsv_succ, hread]
  rfl

theorem loads_boolean (lua : Lua P) (isKey b : Bool) :
    Loads lua isKey [LUA_TBOOLEAN, if b then 1 else 0] (.boolean b) := by
  refine Loads.of_tag ⟨0, fun rb rest stack h rb₀ hread => ?_⟩
  obtain ⟨rb₁, h₁, hb⟩ := Holds.rbRead_byte (P := P) h
  refine ⟨rb₁, h₁, fun fuel _ => ?_⟩
  rw [rbLoadRcsv_succ, hread]
  simp only [List.headD_cons, hb]
  cases b <;> rfl

theorem loads_number (lua : Lua P) (isKey : Bool) (bits : UInt64) :
    Loads lua isKey (LUA_TNUMBER :: wordBytes bits) (.number bits) := by
  refine Loads.of_tag ⟨0, fun rb rest stack h rb₀ hread => ?_⟩
  obtain ⟨rb₁, h₁, hw⟩ := Holds.rbRead (P := P) h (length_wordBytes bits).symm
  refine ⟨rb₁, h₁, fun fuel _ => ?_⟩
  rw [rbLoadRcsv_succ, hread]
  simp only [List.headD_cons, hw, wordVal_wordBytes]

theorem loads_integer {lua : Lua P} (hv : 503 ≤ lua.versionNum) (isKey : Bool) (n : UInt64) :
    Loads lua isKey (EXTRA_LUA_TINTEGER :: wordBytes n) (.integer n) := by
  refine Loads.of_tag ⟨0, fun rb rest stack h rb₀ hread => ?_⟩
  obtain ⟨rb₁, h₁, hw⟩ := Holds.rbRead (P := P) h (length_wordBytes n).symm
  refine ⟨rb₁, h₁, fun fuel _ => ?_⟩
  rw [rbLoadRcsv_succ, hread]
  simp only [List.headD_cons, hw, wordVal_wordBytes, Value.ofInteger, if_pos hv]

theorem leVal_length {bs : List UInt8} (h : bs.length < 2 ^ 64) :
    leVal (leBytes 8 bs.length) = bs.length := leVal_leBytes (by omega)

theorem loads_string (lua : Lua P) (isKey : Bool) {str : List UInt8} (hs : str.length < 2 ^ 64) :
    Loads lua isKey (LUA_TSTRING :: (leBytes 8 str.length ++ str)) (.string str) := by
  refine Loads.of_tag ⟨0, fun rb rest stack h rb₀ hread => ?_⟩
  rw [List.append_assoc] at h
  obtain ⟨rb₁, h₁, hlen⟩ := Holds.rbRead (P := P) h (length_leBytes 8 _).symm
  obtain ⟨rb₂, h₂, hstr⟩ := Holds.rbReadBlock (P := P) h₁ (leVal_length hs)
  refine ⟨rb₂, h₂, fun fuel _ => ?_⟩
  rw [rbLoadRcsv_succ, hread]
  simp only [List.headD_cons, hlen, hstr]

/-! ### Tables -/

def NewKey (k : Value P) (es : List (Value P × Value P)) : Prop :=
  ∀ e ∈ es, e.1.sameKey k = false

theorem setEntry_new {k v : Value P} (hv : v.isNil = false) :
    ∀ {es : List (Value P × Value P)}, NewKey k es → setEntry k v es = es ++ [(k, v)]
  | [], _ => by simp [setEntry, hv]
  | (k', v') :: es, h => by
    have hne : k'.sameKey k = false := h (k', v') List.mem_cons_self
    rw [setEntry, hne, setEntry_new hv fun e he => h e (List.mem_cons_of_mem _ he)]
    rfl

/-- A type name that the reader resolves to the same type. -/
def Lua.Knows (lua : Lua P) (typename : TypeName) : Prop :=
  typename = .none ∨
    (typename.str ≠ [] ∧ typename.str.length < 2 ^ 64 ∧ lua.getmetatable typename.str = typename)

theorem cstr_str (typename : TypeName) : cstr typename.str = typename.str := by
  cases typename with
  | torch name => exact List.takeWhile_idem
  | metatable name => exact List.takeWhile_idem
  | none => rfl

/-- What follows the entries gives the table its type. -/
theorem loadTypename_eq {lua : Lua P} {typename : TypeName} (hk : lua.Knows typename)
    {rb : Ringbuffer} {rest : List UInt8}
    (h : Holds rb (leBytes 8 typename.str.length ++ typename.str ++ rest))
    (es : List (Value P × Value P)) (stack : List (Value P)) :
    ∃ rb', Holds rb' rest ∧
      loadTypename lua stack.length rb (.table es .none :: stack) =
        .ret 1 rb' (.table es typename :: stack) := by
  have hlt : typename.str.length < 2 ^ 64 := by
    rcases hk with rfl | hk
    · decide
    · exact hk.2.1
  rw [List.append_assoc] at h
  obtain ⟨rb₁, h₁, hlen⟩ := Holds.rbRead (P := P) h (length_leBytes 8 _).symm
  obtain ⟨rb₂, h₂, hstr⟩ := Holds.rbReadBlock (P := P) h₁ (leVal_length hlt)
  refine ⟨rb₂, h₂, ?_⟩
  simp only [loadTypename, hlen, hstr]
  rw [leVal_length hlt]
  rcases hk with rfl | ⟨hne, _, hget⟩
  · simp [TypeName.str]
  · rw [if_pos (List.length_pos_iff.mpr hne), cstr_str, hget]
    simp [setTypename]

theorem isNil_of_not_badKey {k : Value P} (hk : k.badKey = false) : k.isNil = false := by
  cases k <;> first | rfl | cases hk

/-- One entry of a table as the loader should see it. -/
structure LoadsEntry (lua : Lua P) (bs : List UInt8) (k v : Value P) : Prop where
  load : ∃ bk bv, bs = bk ++ bv ∧ Loads lua true bk k ∧ Loads lua false bv v
  key_ok : k.badKey = false
  key_norm : k.normKey lua.versionNum = k
  value_ok : v.isNil = false

theorem loadTable_round {lua : Lua P} {bk bv : List UInt8} {k v : Value P} (hk : Loads lua true bk k)
    (hv : Loads lua false bv v) (hbad : k.badKey = false) :
    ∃ n, ∀ rb rest (es : List (Value P × Value P)) stack, Holds rb (bk ++ bv ++ rest) →
      ∃ rb', Holds rb' rest ∧ ∀ fuel ≥ n, ∀ startsize,
        loadTable lua (fuel + 1) startsize rb (.table es .none :: stack) =
          loadTable lua fuel startsize rb' (.table (setEntry (k.normKey lua.versionNum) v es) .none :: stack) := by
  obtain ⟨n, hn⟩ := hk
  obtain ⟨m, hm⟩ := hv
  refine ⟨max n m, fun rb rest es stack h => ?_⟩
  rw [List.append_assoc] at h
  obtain ⟨rb₁, h₁, hkey⟩ := hn rb _ (.table es .none :: stack) h
  obtain ⟨rb₂, h₂, hvalue⟩ := hm rb₁ _ (k :: .table es .none :: stack) h₁
  refine ⟨rb₂, h₂, fun fuel hf startsize => ?_⟩
  rw [loadTable_succ, hkey fuel (by omega)]
  simp only [LoadOutcome.andThen, hvalue fuel (by omega), one_ne_zero, if_false, luaSettable, hbad,
    Bool.false_eq_true]

theorem loadTable_entry {lua : Lua P} {bs : List UInt8} {k v : Value P}
    (he : LoadsEntry lua bs k v) :
    ∃ n, ∀ rb rest (es : List (Value P × Value P)) stack, NewKey k es →
      Holds rb (bs ++ rest) → ∃ rb', Holds rb' rest ∧ ∀ fuel ≥ n, ∀ startsize,
        loadTable lua (fuel + 1) startsize rb (.table es .none :: stack) =
          loadTable lua fuel startsize rb' (.table (es ++ [(k, v)]) .none :: stack) := by
  obtain ⟨bk, bv, rfl, hk, hv⟩ := he.load
  obtain ⟨n, hn⟩ := loadTable_round hk hv he.key_ok
  refine ⟨n, fun rb rest es stack hnew h => ?_⟩
  obtain ⟨rb', h', hround⟩ := hn rb rest es stack h
  refine ⟨rb', h', fun fuel hf startsize => ?_⟩
  rw [hround fuel hf startsize, he.key_norm, setEntry_new he.value_ok hnew]

theorem loadTable_nil {lua : Lua P} {rb : Ringbuffer} {rest : List UInt8}
    (h : Holds rb (LUA_TNIL :: rest)) (stack : List (Value P)) :
    ∃ rb', Holds rb' rest ∧ ∀ fuel startsize, loadTable lua (fuel + 2) startsize rb stack =
      loadTypename lua startsize rb' stack := by
  obtain ⟨rb', h', hread⟩ := Holds.rbRead_byte (P := P) h
  refine ⟨rb', h', fun fuel startsize => ?_⟩
  rw [loadTable_succ, rbLoadRcsv_succ, hread]
  rfl

/-- The bytes of the entries, one after the other. -/
inductive LoadsEntries (lua : Lua P) : List UInt8 → List (Value P × Value P) → Prop where
  | nil : LoadsEntries lua [] []
  | cons {bs cs k v es} : LoadsEntry lua bs k v → LoadsEntries lua cs es →
      LoadsEntries lua (bs ++ cs) ((k, v) :: es)

/-- A table from its entries, which have pairwise different keys. -/
theorem loads_table {lua : Lua P} (isKey : Bool) {bs : List UInt8}
    {es : List (Value P × Value P)} (hes : LoadsEntries lua bs es)
    (hkeys : (es.map Prod.fst).Pairwise fun a b => a.sameKey b = false) {typename : TypeName}
    (hk : lua.Knows typename) :
    Loads lua isKey
      (LUA_TTABLE :: (bs ++ (LUA_TNIL :: (leBytes 8 typename.str.length ++ typename.str))))
      (.table es typename) := by
  -- the entries read so far are `acc`; the rest have keys that are new to it
  have hloop : ∃ n, ∀ rb rest (acc : List (Value P × Value P)) stack,
      (∀ e ∈ es, NewKey e.1 acc) →
      Holds rb (bs ++ (LUA_TNIL :: (leBytes 8 typename.str.length ++ typename.str)) ++ rest) →
      ∃ rb', Holds rb' rest ∧ ∀ fuel ≥ n,
        loadTable lua fuel stack.length rb (.table acc .none :: stack) =
          .ret 1 rb' (.table (acc ++ es) typename :: stack) := by
    induction hes with
    | nil =>
      refine ⟨2, fun rb rest acc stack _ h => ?_⟩
      obtain ⟨rb₁, h₁, hnil⟩ := loadTable_nil h (.table acc .none :: stack)
      obtain ⟨rb₂, h₂, htype⟩ := loadTypename_eq hk h₁ acc stack
      refine ⟨rb₂, h₂, fun fuel hf => ?_⟩
      obtain ⟨fuel, rfl⟩ : ∃ m, fuel = m + 2 := ⟨fuel - 2, by omega⟩
      rw [hnil, List.append_nil, htype]
    | @cons bs cs k v es he _ ih =>
      rw [List.map_cons, List.pairwise_cons] at hkeys
      obtain ⟨n, hn⟩ := ih hkeys.2
      obtain ⟨m, hm⟩ := loadTable_entry he
      refine ⟨max n m + 1, fun rb rest acc stack hnew h => ?_⟩
      simp only [List.append_assoc] at h
      obtain ⟨rb₁, h₁, hround⟩ := hm rb _ acc stack
        (hnew (k, v) List.mem_cons_self) h
      have hnew' : ∀ e ∈ es, NewKey e.1 (acc ++ [(k, v)]) := by
        intro e he' e' he''
        rcases List.mem_append.mp he'' with hacc | hlast
        · exact hnew e (List.mem_cons_of_mem _ he') e' hacc
        · rw [List.mem_singleton.mp hlast]
          exact hkeys.1 e.1 (List.mem_map_of_mem he')
      obtain ⟨rb₂, h₂, hrest⟩ := hn rb₁ rest (acc ++ [(k, v)]) stack hnew'
        (by simpa only [List.append_assoc] using h₁)
      refine ⟨rb₂, h₂, fun fuel hf => ?_⟩
      obtain ⟨fuel, rfl⟩ : ∃ m, fuel = m + 1 := ⟨fuel - 1, by omega⟩
      rw [hround fuel (by omega), hrest fuel (by omega), List.append_assoc]
      rfl
  obtain ⟨n, hn⟩ := hloop
  refine Loads.of_tag ⟨n, fun rb rest stack h rb₀ hread => ?_⟩
  obtain ⟨rb₁, h₁, hload⟩ := hn rb rest [] stack (fun _ _ _ he => by simp at he) h
  refine ⟨rb₁, h₁, fun fuel hf => ?_⟩
  rw [rbLoadRcsv_succ, hread]
  exact hload fuel hf

end

end TorchIpc
