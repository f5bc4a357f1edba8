import TorchIpc.Queue.Items
import TorchIpc.Serialize.Saving

/-! Plain values are appended. Of nil, booleans, numbers, strings and tables of these a
write is refused for want of room only, so every loop that really grows its buffer comes to
an end, with the old content and the complete encoding in it, however often it tried. -/

namespace TorchIpc

open Runs

section
variable {P : Type}

/-! ### Plain values -/

mutual

def Value.plain : Value P → Bool
  | .nil => true
  | .boolean _ => true
  | .number _ => true
  | .integer _ => true
  | .string _ => true
  | .table es _ => plainEntries es
  | .lightuserdata => false
  | .function _ _ => false
  | .cfunction => false
  | .userdata _ _ => false
  | .thread => false

def plainEntries : List (Value P × Value P) → Bool
  | [] => true
  | (k, v) :: es => k.plain && v.plain && plainEntries es

end

/-- Nothing but writes, after none of which anything lies on the stack. -/
def Script.Smooth (s : Script) : Prop := s.fin = .ok ∧ ∀ x ∈ s.items, ∃ bs, x = .put bs .plain

theorem puts_smooth (bss : List (List UInt8)) : (puts bss).Smooth := by
  refine ⟨rfl, fun x hx => ?_⟩
  obtain ⟨bs, -, rfl⟩ := List.mem_map.mp hx
  exact ⟨bs, rfl⟩

theorem Script.Smooth.seq {s t : Script} (hs : s.Smooth) (ht : t.Smooth) : (s.seq t).Smooth := by
  refine ⟨seq_fin_ok.mpr ⟨hs.1, ht.1⟩, fun x hx => ?_⟩
  rw [Script.seq, hs.1] at hx
  exact (List.mem_append.mp hx).elim (hs.2 x) (ht.2 x)

theorem Script.Smooth.mapPlace {s : Script} (hs : s.Smooth) {f : Place → Place} (hf : f .plain = .plain) :
    (s.mapPlace f).Smooth := by
  refine ⟨End.mapPlace_ok.mpr hs.1, fun x hx => ?_⟩
  obtain ⟨y, hy, rfl⟩ := List.mem_map.mp hx
  obtain ⟨bs, rfl⟩ := hs.2 y hy
  exact ⟨bs, by rw [Item.mapPlace, hf]⟩

theorem Script.Smooth.table {body : Script} (hs : body.Smooth) (typename : TypeName) :
    (tableScript body typename).Smooth :=
  (puts_smooth _).seq ((hs.mapPlace rfl).seq (puts_smooth _))

theorem Script.Smooth.entry {k v rest : Script} (hk : k.Smooth) (hv : v.Smooth) (hrest : rest.Smooth) :
    (entryScript k v rest).Smooth :=
  (hk.mapPlace rfl).seq ((hv.mapPlace rfl).seq hrest)

section
variable (lua : Lua P) (oop upval : Bool)

mutual

theorem script_smooth : ∀ v : Value P, v.plain = true → (script lua oop upval v).Smooth
  | .nil, _ => puts_smooth _
  | .boolean _, _ => puts_smooth _
  | .number _, _ => puts_smooth _
  | .integer _, _ => puts_smooth _
  | .string _, _ => puts_smooth _
  | .table es typename, h => (entriesScript_smooth es h).table typename

theorem entriesScript_smooth : ∀ es : List (Value P × Value P), plainEntries es = true →
    (entriesScript lua oop upval es).Smooth
  | [], _ => ⟨rfl, nofun⟩
  | (k, v) :: es, h => by
    rw [plainEntries, Bool.and_eq_true, Bool.and_eq_true] at h
    obtain ⟨⟨hk, hv⟩, hes⟩ := h
    exact (script_smooth k hk).entry (script_smooth v hv) (entriesScript_smooth es hes)

end

end

theorem plain_serialisable (lua : Lua P) (upval : Bool) {v : Value P} (h : v.plain = true) :
    Serialisable lua upval v := by
  obtain ⟨hfin, hitems⟩ := script_smooth lua false upval v h
  refine ⟨hfin, fun bs hbs => ?_⟩
  obtain ⟨bs', heq⟩ := hitems _ hbs
  cases heq

/-! ### The loops -/

/-- What a loop leaves that has stored its value. -/
def GrowthOutcome.stored : GrowthOutcome → Option Effects
  | .ret code fx _ => if code = 0 then some fx else none
  | .raised _ _ => none
  | .popped _ => none
  | .undefined => none
  | .diverges => none
  | .timeout => none

def WriteOutcome.stored : WriteOutcome → Option Effects
  | .done q => some q.toEffects
  | .error _ _ => none
  | .raised _ _ => none
  | .undefined => none
  | .diverges => none
  | .timeout => none

def GrowthLoop.stored (lua : Lua P) (loop : GrowthLoop) (v : Value P) (index top : ℕ) (fx : Effects)
    (fuel : ℕ) :
    Option Effects :=
  match loop with
  | .queue upval sizeIncrement numItems locks =>
    (queueWrite lua upval sizeIncrement fuel [v] { fx with numItems := numItems, locks := locks }).stored
  | .marshal upval sizeIncrement =>
      (Marshal.marshalWrite lua upval sizeIncrement v index top fx fuel).stored
  | .sharedtable size => (Sharedtable.rbSaveWithGrowth lua size v index top fx fuel).stored
  | .map => (Map.rbSaveWithGrowth lua v index top fx fuel).stored

theorem marshalWrite_left (lua : Lua P) (upval : Bool) (inc : ℕ) (v : Value P) (index top : ℕ)
    (fx : Effects) (fuel : ℕ) : (Marshal.marshalWrite lua upval inc v index top fx fuel).stored =
      (growthLoop lua (fun _ top => some top) upval inc v index fuel top fx).stored := by
  rw [Marshal.marshalWrite]
  cases growthLoop lua (fun _ top => some top) upval inc v index fuel top fx with
  | ret code fx top =>
    rw [GrowthOutcome.stored, GrowthOutcome.stored]
    split_ifs <;> rfl
  | _ => rfl

variable {lua : Lua P} {settle : ℕ → ℕ → Option ℕ} {upval : Bool} {inc : ℕ} {v : Value P}

theorem growthLoop_appends (hsettle : Settles settle) {index top : ℕ} {fx : Effects}
    (hs : (script lua false upval v).Storable fx.rb.room inc) (hv : fx.rb.Valid) (hi : index ≤ top) :
    ∃ fx' top', fx'.rb.Valid ∧ fx'.rb.content = fx.rb.content ++ encode lua false upval v ∧
      Yields (fun fuel => growthLoop lua settle upval inc v index fuel top fx) (.ret 0 fx' top') := by
  obtain ⟨K, hK, hstored⟩ := hs
  obtain ⟨fx', top', hv', -, hy⟩ := growthLoop_stores_at hsettle hv hi hK hstored
  refine ⟨fx', top', hv', ?_, hy⟩
  obtain ⟨fuel, hret⟩ := hy.exists
  have hsaved : Saved lua upval v fx (growthLoop lua settle upval inc v index fuel top fx) :=
    growthLoop_saved hsettle fuel (Or.inl hv) hi
  rw [hret] at hsaved
  generalize hcode : (0 : ℤ) = code at hsaved
  cases hsaved with
  | stored _ _ hcontent => exact hcontent
  | @refused e _ _ _ _ _ _ _ => cases e <;> cases hcode

theorem GrowthLoop.appends (loop : GrowthLoop) {index top : ℕ} (hi : index ≤ top) {fx : Effects}
    (hv : fx.rb.Valid) (hs : (script lua false loop.upval v).Storable fx.rb.room loop.increment) :
    ∃ fx', fx'.rb.Valid ∧ fx'.rb.content = fx.rb.content ++ encode lua false loop.upval v ∧
      Yields (fun fuel => loop.stored lua v index top fx fuel) (some fx') := by
  have hloop {settle : ℕ → ℕ → Option ℕ} (hsettle : Settles settle) :=
    growthLoop_appends hsettle hs hv hi
  cases loop with
  | queue upval inc numItems locks =>
    let q := pthreadMutexLock { fx with numItems := numItems, locks := locks }
    obtain ⟨fx', top', hv', hcontent, n, hn⟩ :=
      @growthLoop_appends _ lua _ upval inc v settles_id 2 2 fx hs hv le_rfl
    refine ⟨fx', hv', hcontent, n + 1, fun fuel hf => ?_⟩
    obtain ⟨fuel, rfl⟩ : ∃ k, fuel = k + 1 := ⟨fuel - 1, by omega⟩
    have hdone := writeLoop_of_growthLoop upval inc v 2 fuel 2 q (hn fuel (by omega))
    simp only [GrowthLoop.stored, queueWrite, List.length_singleton]
    rw [hdone]
    rfl
  | marshal upval inc =>
    obtain ⟨fx', top', hv', hcontent, n, hn⟩ := hloop settles_id
    refine ⟨fx', hv', hcontent, n, fun fuel hf => (marshalWrite_left ..).trans ?_⟩
    exact congrArg GrowthOutcome.stored (hn fuel hf)
  | sharedtable size =>
    obtain ⟨fx', top', hv', hcontent, n, hn⟩ := hloop settles_id
    exact ⟨fx', hv', hcontent, n, fun fuel hf => congrArg GrowthOutcome.stored (hn fuel hf)⟩
  | map =>
    obtain ⟨fx', top', hv', hcontent, n, hn⟩ := hloop settles_reset
    exact ⟨fx', hv', hcontent, n, fun fuel hf => congrArg GrowthOutcome.stored (hn fuel hf)⟩

theorem GrowthLoop.run_of_stored {loop : GrowthLoop} {index top fuel : ℕ} {fx fx' : Effects}
    (h : loop.stored lua v index top fx fuel = some fx') :
    loop.run lua v index top fx fuel = some (true, fx'.retained) := by
  have hret : ∀ {o : GrowthOutcome}, o.stored = some fx' →
      o.result = some (true, fx'.retained) := by
    rintro (⟨code, fx₁, top₁⟩ | _ | _ | _ | _ | _) ho
    · rw [GrowthOutcome.stored] at ho
      split_ifs at ho with hcode
      cases ho
      rw [GrowthOutcome.result, hcode]
      rfl
    all_goals cases ho
  cases loop with
  | queue upval inc numItems locks =>
    rw [GrowthLoop.stored] at h
    rw [GrowthLoop.run]
    generalize queueWrite lua upval inc fuel [v] { fx with numItems := numItems, locks := locks } =
      o at h
    cases o with
    | done q =>
      cases h
      rfl
    | _ => cases h
  | marshal upval inc => exact hret h
  | sharedtable size => exact hret h
  | map => exact hret h

theorem roomAt_le (hinc : 2 ^ 63 ≤ inc) (room k : ℕ) : roomAt room inc k ≤ room := by
  induction k generalizing room with
  | zero => exact le_rfl
  | succ k ih =>
    have hnext : nextRoom room inc ≤ room := by
      rw [nextRoom, if_neg (not_lt.mpr hinc)]
      exact Nat.sub_le _ _
    exact (ih _).trans hnext

/-- With an increment that wraps only what fits at once is stored. -/
theorem GrowthLoop.fits_of_stored {loop : GrowthLoop} (hinc : 2 ^ 63 ≤ loop.increment)
    {index top fuel : ℕ} (hi : index ≤ top) {fx fx' : Effects} (hv : fx.rb.Valid)
    (h : loop.stored lua v index top fx fuel = some fx') :
    (encode lua false loop.upval v).length ≤ fx.rb.room := by
  obtain ⟨settle, index', top', hi', hsettle, hiff⟩ := loop.ends_iff lua v fx hi
  obtain ⟨fuel', hresult⟩ := (hiff _ _).mp ⟨fuel, GrowthLoop.run_of_stored h⟩
  obtain ⟨K, -, hok, -⟩ := growthLoop_result hsettle hv hi' hresult
  exact (overflow_eq_none.mp (hok.mp rfl).1).trans (roomAt_le hinc _ K)

/-- A string that is as long as the buffer does not go into it. -/
theorem string_overflows (lua : Lua P) (upval : Bool) (n : ℕ) :
    overflow (script lua false upval (.string (List.replicate n 0))).items n = some .plain := by
  cases hover : overflow (script lua false upval (.string (List.replicate n 0))).items n with
  | none =>
    have hfits := overflow_eq_none.mp hover
    simp [script, puts, itemBytes, Item.bytes] at hfits
  | some place =>
    obtain ⟨bs, hbs⟩ := put_mem_of_overflow hover
    obtain ⟨bs', heq⟩ := (script_smooth lua false upval (.string (List.replicate n 0)) rfl).2 _ hbs
    cases heq
    rfl

/-- A write of a plain value ends, with its encoding behind the old content, exactly when the
value fits at once or the increment does not wrap. -/
theorem write_appends_iff (loop : GrowthLoop) (hinc : 1 ≤ loop.increment) (hplain : v.plain = true)
    {index top : ℕ} (hi : index ≤ top) {fx : Effects} (hv : fx.rb.Valid) :
    (∃ fx', fx'.rb.Valid ∧ fx'.rb.content = fx.rb.content ++ encode lua false loop.upval v ∧
        Yields (fun fuel => loop.stored lua v index top fx fuel) (some fx')) ↔
      (encode lua false loop.upval v).length ≤ fx.rb.room ∨ loop.increment < 2 ^ 63 := by
  have hs := plain_serialisable lua loop.upval hplain
  constructor
  · rintro ⟨fx', -, -, hy⟩
    rw [or_iff_not_imp_right, not_lt]
    intro hwraps
    obtain ⟨fuel, hstored⟩ := hy.exists
    exact GrowthLoop.fits_of_stored hwraps hi hv hstored
  · rintro (hfits | hlt)
    · refine loop.appends hi hv ⟨0, ⟨nofun, Or.inr ⟨overflow_eq_none.mpr hfits, ?_⟩⟩, overflow_eq_none.mpr hfits, hs.1⟩
      rw [hs.1]
      exact nofun
    · exact loop.appends hi hv (hs.storable hinc hlt _)

end

/-- A table goes into a buffer of one byte that grows by one byte at a time. -/
theorem write_appends_iff_table : ∃ fx' : Effects, fx'.rb.Valid ∧
    fx'.rb.content = [] ++ encode sampleLua false false (.table [(.boolean true, .string [97])] .none) ∧
    Yields (fun fuel => (GrowthLoop.sharedtable 1).stored sampleLua (.table [(.boolean true, .string [97])] .none) 1 1
      ⟨ringbufferCreate 1, []⟩ fuel) (some fx') :=
  (@write_appends_iff _ sampleLua (.table [(.boolean true, .string [97])] .none) (.sharedtable 1) le_rfl rfl 1 1 le_rfl
    ⟨ringbufferCreate 1, []⟩ (Ringbuffer.create_valid le_rfl)).mpr (Or.inr (by decide))

/-- With the increment `2 ^ 64 - 2048`, a string of 2048 bytes never gets into a buffer of as
many. -/
theorem wrapped_size_stores_nothing : ¬ ∃ fx' : Effects, fx'.rb.Valid ∧
    fx'.rb.content = [] ++ encode sampleLua false false (.string (List.replicate 2048 0)) ∧
    Yields (fun fuel => (GrowthLoop.queue false (2 ^ 64 - 2048) 0 0).stored sampleLua
      (.string (List.replicate 2048 0)) 2 2
      ⟨ringbufferCreate 2048, []⟩ fuel) (some fx') := by
  rintro ⟨fx', -, -, hy⟩
  obtain ⟨fuel, hstored⟩ := hy.exists
  have hfits := GrowthLoop.fits_of_stored (by decide) le_rfl (Ringbuffer.create_valid (by decide)) hstored
  cases (overflow_eq_none.mpr hfits).symm.trans (string_overflows sampleLua false 2048)

end TorchIpc
