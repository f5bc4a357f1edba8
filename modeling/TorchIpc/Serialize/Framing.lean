import TorchIpc.Serialize.RoundTrip

/-! The code of a function within a stream. `lua_dump` hands out blocks of any size
and `rb_lua_writer` cuts each of them by itself, so the chunks that come back are
not the blocks, only their bytes. A zero length ends the chunks. Whether the loader
takes it or leaves it to `rb_load` depends on the Lua; the buffer ends up at the same
place. -/

namespace TorchIpc

open Words

section
variable {blocks : List (List UInt8)} {startsize pushed : ℕ} {fx : Effects}
  {k : Effects → ℕ → SaveOutcome}

/-- The part of `rb_save` that writes the code of a function and the marker. -/
def saveCode (blocks : List (List UInt8)) (startsize pushed : ℕ) (fx : Effects)
    (k : Effects → ℕ → SaveOutcome) : SaveOutcome :=
  (luaDump blocks fx (startsize + pushed)).andThen fun ret fx top =>
  if ret ≠ 0 then
    let top := top - pushed
    rbStackCheck startsize "lua_dump write" fx top (.ret ret fx top)
  else rbWritePop (leBytes 8 0) pushed fx top fun fx => k fx top

def codeBytes (blocks : List (List UInt8)) : List UInt8 :=
  (dumpPuts blocks).flatten ++ leBytes 8 0

theorem saveFunction_saveCode {P : Type} (lua : Lua P) (upval : Bool) (p : P)
    (saveTable : Effects → ℕ → SaveOutcome) (index : ℕ) (fx : Effects) (top : ℕ) :
    saveFunction lua upval p saveTable index fx top =
      rbWrite [LUA_TFUNCTION] fx top fun fx =>
      let pushed := if index ≠ top then 1 else 0
      if !whatIsL lua p then .raise .persistCFunction fx else
      rbStackCheck (top + pushed) "get debug" fx (top + pushed) <|
      saveCode (lua.dump p) top pushed fx fun fx dumped =>
      rbWritePop (intBytes (if !upval && (lua.upvalueNames p).length == 1 then
        (if envOnly lua upval p then 1 else 0) else (if upval then 1 else 0))) pushed fx dumped
      fun fx => saveFunctionUpvals lua upval p saveTable top pushed index fx dumped := by
  simp only [saveFunction, saveCode]

theorem saveCode_eq : saveCode blocks startsize pushed fx k =
    runItems pushed startsize (k · (startsize + pushed))
      (puts (dumpPuts blocks ++ [leBytes 8 0])).items fx := by
  have hitems : (puts (dumpPuts blocks ++ [leBytes 8 0])).items =
      (puts (dumpPuts blocks)).items.map (Item.mapPlace valuePlace) ++ [.put (leBytes 8 0) .plain] := by
    simp [puts, Item.mapPlace, valuePlace]
  rw [saveCode, luaDump_eq, Script.run, hitems, runItems_append]
  refine runItems_andThen (fun place e fx => ?_) (fun fx => ?_) _ fx
  · cases place <;> cases e <;>
      simp [failAt, valuePlace, SaveOutcome.andThen, rbStackCheck, Errno.toInt]
  · simp [SaveOutcome.andThen, End.outcome, puts, rbWritePop, runItems, failAt]

theorem overflow_puts (bss : List (List UInt8)) {n : ℕ} {place : Place}
    (h : overflow (puts bss).items n = some place) : place = .plain := by
  induction bss generalizing n with
  | nil => cases h
  | cons bs bss ih =>
    rw [puts, List.map_cons, overflow] at h
    split_ifs at h
    · exact ih h
    · exact (Option.some.inj h).symm

/-- With enough room all of it goes into the buffer, else the call fails. -/
theorem saveCode_spec (h : fx.rb.Valid) : ∃ fx',
    Appended fx.rb ((codeBytes blocks).take fx.rb.room) fx'.rb ∧
      saveCode blocks startsize pushed fx k =
        if (codeBytes blocks).length ≤ fx.rb.room then k fx' (startsize + pushed)
        else .ret (-Errno.ENOMEM.toInt) fx' startsize := by
  obtain ⟨fx', happ, hrun⟩ := runItems_spec pushed startsize (k · (startsize + pushed))
    (puts (dumpPuts blocks ++ [leBytes 8 0])).items fx h
  have hbytes : itemBytes (puts (dumpPuts blocks ++ [leBytes 8 0])).items = codeBytes blocks := by
    show (puts _).bytes = _
    rw [puts_bytes, List.flatten_append, List.flatten_singleton, codeBytes]
  rw [hbytes] at happ
  refine ⟨fx', happ, ?_⟩
  rw [saveCode_eq, hrun, ← hbytes]
  cases hover : overflow (puts (dumpPuts blocks ++ [leBytes 8 0])).items fx.rb.room with
  | none => rw [if_pos (overflow_eq_none.mp hover)]
  | some place =>
    have hplain := overflow_puts _ hover
    rw [if_neg fun hfit => Option.some_ne_none _ (hover.symm.trans (overflow_eq_none.mpr hfit)), hplain]
    rfl

end

/-! ### What comes back -/

/-- The blocks come back as chunks, and the decoding of the function ends behind the
marker. -/
theorem code_framing (blocks : List (List UInt8)) :
    ∃ cs : List (List UInt8), (∀ c ∈ cs, c ≠ [] ∧ c.length ≤ CHUNK_SIZE) ∧
      cs.flatten = blocks.flatten ∧
      (∀ startsize pushed (fx : Effects) k, fx.rb.Valid → ∃ fx',
        Appended fx.rb ((codeBytes blocks).take fx.rb.room) fx'.rb ∧
          saveCode blocks startsize pushed fx k =
            if (codeBytes blocks).length ≤ fx.rb.room then k fx' (startsize + pushed)
            else .ret (-Errno.ENOMEM.toInt) fx' startsize) ∧
      ∀ rb rest, Holds rb (codeBytes blocks ++ rest) → ∃ rb', Holds rb' rest ∧ Chunks rb cs rb' ∧
        ∀ (P : Type) (lua : Lua P) (p : P), lua.Takes blocks.flatten p →
          ∀ loadTable stack, ∀ fuel ≥ cs.length + 1, loadFunction lua loadTable fuel rb stack =
            loadClosure lua loadTable stack.length rb'
              (.function p (freshUpvals lua.versionNum (lua.upvalueNames p).length) :: stack) := by
  obtain ⟨cs, hcs, hflat, hput⟩ := dumpPuts_frames blocks
  refine ⟨cs, fun c hc => ⟨List.ne_nil_of_length_pos (hcs c hc).1, (hcs c hc).2⟩, hflat,
    fun startsize pushed fx k h => saveCode_spec h, fun rb rest h => ?_⟩
  rw [codeBytes, hput, List.append_assoc] at h
  obtain ⟨rb', h', hchunks⟩ := chunks_frames hcs h
  refine ⟨rb', h', hchunks, fun P lua p ht loadTable stack fuel hf => ?_⟩
  exact loadFunction_chunks hchunks (fun c hc => (hcs c hc).1) (hflat ▸ ht) loadTable stack hf

theorem sampleLua_takes (readsEnd : Bool) (p : UInt8) :
    { sampleLua with readsEnd := readsEnd }.Takes [27, p] p :=
  have h := sampleLua_rebuilds.takes p
  ⟨h.undump_more, h.undump_all⟩

/-- Either loader takes the function from the buffer and leaves what follows. -/
theorem code_framing_both :
    (∃ fx', fx'.rb.content = codeBytes [[27], [], [3]] ∧
      saveCode [[27], [], [3]] 0 1 ⟨ringbufferCreate 64, []⟩ (fun fx top => .ret 0 fx top) =
        .ret 0 fx' 1) ∧
    ∃ rb rb', Holds rb (codeBytes [[27], [], [3]] ++ [9]) ∧ Holds rb' [9] ∧
      ∃ n, ∀ readsEnd loadTable stack, ∀ fuel ≥ n,
        loadFunction { sampleLua with readsEnd := readsEnd } loadTable fuel rb stack =
          loadClosure { sampleLua with readsEnd := readsEnd } loadTable stack.length rb'
            (.function 3 [none] :: stack) := by
  obtain ⟨cs, _, _, hsave, hload⟩ := code_framing [[27], [], [3]]
  constructor
  · have hvalid : (ringbufferCreate 64).Valid := Ringbuffer.create_valid (by decide)
    obtain ⟨fx', happ, hrun⟩ :=
      hsave 0 1 ⟨ringbufferCreate 64, []⟩ (fun fx top => .ret 0 fx top) hvalid
    have hfit : (codeBytes [[27], [], [3]]).length ≤ (ringbufferCreate 64).room := by decide +kernel
    rw [List.take_of_length_le hfit] at happ
    exact ⟨fx', happ.content_eq, hrun.trans (if_pos hfit)⟩
  · obtain ⟨rb, hvalid, hcontent⟩ := Ringbuffer.exists_content (codeBytes [[27], [], [3]] ++ [9])
    obtain ⟨rb', h', _, htakes⟩ := hload rb [9] ⟨hvalid, hcontent⟩
    exact ⟨rb, rb', ⟨hvalid, hcontent⟩, h', cs.length + 1, fun readsEnd loadTable stack fuel hf =>
      htakes UInt8 _ 3 (sampleLua_takes readsEnd 3) loadTable stack fuel hf⟩

end TorchIpc
