import TorchIpc.Serialize.Load

/-! The loader uses the buffer through `ringbuffer_read` only. So whatever relation
between two buffers the reads keep, a load keeps: it answers the same on both, with
the same stack, and leaves related buffers. Two uses: what no read changes no load
changes, and a load does not look at the write position. -/

namespace TorchIpc

open Words

variable {P : Type}

/-- Reads deliver the same from related buffers and leave them related. -/
def ReadsAlike (R : Ringbuffer → Ringbuffer → Prop) : Prop :=
  ∀ a b n, R a b → ∃ i out a' b', ringbufferRead a n = (i, out, a') ∧
    ringbufferRead b n = (i, out, b') ∧ R a' b'

inductive LoadOutcome.Alike (R : Ringbuffer → Ringbuffer → Prop) :
    LoadOutcome P → LoadOutcome P → Prop where
  | ret {code a b stack} : R a b → Alike R (.ret code a stack) (.ret code b stack)
  | raise {a b} : R a b → Alike R (.raise a) (.raise b)
  | undefined : Alike R .undefined .undefined
  | timeout : Alike R .timeout .timeout

/-- The same code or message, with related buffers. -/
inductive Loaded.Alike (R : Ringbuffer → Ringbuffer → Prop) : Loaded P → Loaded P → Prop where
  | proto {p a b readLast} : R a b → Alike R (.proto p a readLast) (.proto p b readLast)
  | error {msg a b} : R a b → Alike R (.error msg a) (.error msg b)
  | undefined : Alike R .undefined .undefined
  | timeout : Alike R .timeout .timeout

section
variable {R : Ringbuffer → Ringbuffer → Prop} (hR : ReadsAlike R) {a b : Ringbuffer}
include hR

theorem rbRead_alike (h : R a b) (n : ℕ) (stack : List (Value P))
    {k k' : List UInt8 → Ringbuffer → LoadOutcome P}
    (hk : ∀ out a b, R a b → (k out a).Alike R (k' out b)) :
    (rbRead n a stack k).Alike R (rbRead n b stack k') := by
  obtain ⟨i, out, a', b', ha, hb, hrest⟩ := hR a b n h
  unfold rbRead
  rw [ha, hb]
  simp only
  split_ifs
  · exact .ret hrest
  · exact hk _ _ _ hrest

theorem rbReadBlock_alike (lua : Lua P) (h : R a b) (n extra : ℕ) (stack : List (Value P))
    {k k' : List UInt8 → Ringbuffer → LoadOutcome P}
    (hk : ∀ out a b, R a b → (k out a).Alike R (k' out b)) :
    (rbReadBlock lua n extra a stack k).Alike R (rbReadBlock lua n extra b stack k') := by
  obtain ⟨i, out, a', b', ha, hb, hrest⟩ := hR a b n h
  unfold rbReadBlock
  rw [ha, hb]
  simp only
  split_ifs
  · exact hk _ _ _ hrest
  · exact .ret hrest
  · exact .undefined

omit hR in
theorem LoadOutcome.Alike.andThen {o o' : LoadOutcome P} (h : o.Alike R o')
    {k k' : ℤ → Ringbuffer → List (Value P) → LoadOutcome P}
    (hk : ∀ code a b stack, R a b → (k code a stack).Alike R (k' code b stack)) :
    (o.andThen k).Alike R (o'.andThen k') := by
  cases h with
  | ret h => exact hk _ _ _ _ h
  | raise h => exact .raise h
  | undefined => exact .undefined
  | timeout => exact .timeout

omit hR in
theorem luaSettable_alike (versionNum : ℕ) (h : R a b) (stack : List (Value P))
    {k k' : List (Value P) → LoadOutcome P} (hk : ∀ stack, (k stack).Alike R (k' stack)) :
    (luaSettable versionNum a stack k).Alike R (luaSettable versionNum b stack k') := by
  unfold luaSettable
  split
  · split_ifs
    · exact .raise h
    · exact hk _
  · exact .undefined
  · exact .undefined
  · exact .raise h
  · exact .undefined

omit hR in
theorem setTypename_alike (typename : TypeName) (stack : List (Value P))
    {k k' : List (Value P) → LoadOutcome P} (hk : ∀ stack, (k stack).Alike R (k' stack)) :
    (setTypename typename stack k).Alike R (setTypename typename stack k') := by
  unfold setTypename
  split
  · exact hk _
  · exact .undefined

theorem loadTypename_alike (lua : Lua P) (startsize : ℕ) (h : R a b) (stack : List (Value P)) :
    (loadTypename lua startsize a stack).Alike R (loadTypename lua startsize b stack) := by
  refine rbRead_alike hR h 8 stack fun strLen a b h =>
    rbReadBlock_alike hR lua h _ 1 stack fun str a b h => ?_
  have hcheck : ∀ stack : List (Value P), LoadOutcome.Alike R
      (if stack.length ≠ startsize + 1 then .raise a else .ret 1 a stack)
      (if stack.length ≠ startsize + 1 then .raise b else .ret 1 b stack) := by
    intro stack
    split_ifs
    · exact .raise h
    · exact .ret h
  split_ifs
  · exact setTypename_alike _ stack hcheck
  · exact hcheck stack

theorem rbLuaReader_alike (h : R a b) :
    ∃ chunk a' b', rbLuaReader a = (chunk, a') ∧ rbLuaReader b = (chunk, b') ∧ R a' b' := by
  obtain ⟨i, size, a₁, b₁, ha, hb, h₁⟩ := hR a b 8 h
  obtain ⟨j, out, a₂, b₂, ha', hb', h₂⟩ := hR a₁ b₁ (leVal size) h₁
  unfold rbLuaReader
  simp only [ha, hb, ha', hb']
  split_ifs
  · exact ⟨_, _, _, rfl, rfl, h₁⟩
  · exact ⟨_, _, _, rfl, rfl, h₁⟩
  · exact ⟨_, _, _, rfl, rfl, h₂⟩
  · exact ⟨_, _, _, rfl, rfl, h₂⟩
  · exact ⟨_, _, _, rfl, rfl, h₂⟩

theorem loadedProto_alike (lua : Lua P) (p : P) (h : R a b) :
    (loadedProto lua p a).Alike R (loadedProto lua p b) := by
  obtain ⟨chunk, a', b', ha, hb, hrest⟩ := rbLuaReader_alike hR h
  unfold loadedProto
  rw [ha, hb]
  split_ifs
  · cases chunk with
    | data bs => exact .proto hrest
    | last => exact .proto hrest
    | short => exact .proto hrest
    | overrun => exact .undefined
  · exact .proto h

theorem luaLoad_alike (lua : Lua P) (fuel : ℕ) (read : List UInt8) (h : R a b) :
    (luaLoad lua fuel read a).Alike R (luaLoad lua fuel read b) := by
  induction fuel generalizing read a b with
  | zero => exact .timeout
  | succ fuel ih =>
    obtain ⟨chunk, a', b', ha, hb, hrest⟩ := rbLuaReader_alike hR h
    unfold luaLoad
    rw [ha, hb]
    cases chunk with
    | data bs =>
      simp only
      cases lua.undump (read ++ bs) with
      | more => exact ih _ hrest
      | done p => exact loadedProto_alike hR lua p hrest
      | error msg => exact .error hrest
    | last =>
      simp only
      cases lua.undumpEnd read with
      | ok p => exact .proto hrest
      | error msg => exact .error hrest
    | short =>
      simp only
      cases lua.undumpEnd read with
      | ok p => exact .proto hrest
      | error msg => exact .error hrest
    | overrun => exact .undefined

omit hR in
theorem loadUpvals_alike (lua : Lua P) (startsize : ℕ) (env : ℤ) (h : R a b) (stack : List (Value P)) :
    (loadUpvals lua startsize env a stack).Alike R (loadUpvals lua startsize env b stack) := by
  unfold loadUpvals
  split
  · rename_i es typename p ups stack
    by_cases henv : (ups.length : ℤ) < env
    · rw [if_pos henv, if_pos henv]
      exact .undefined
    · rw [if_neg henv, if_neg henv]
      simp only
      generalize setUpvals lua (lua.next es) _ = ups'
      cases ups' with
      | none => exact .undefined
      | some ups' =>
        simp only
        split_ifs
        · exact .raise h
        · exact .ret h
  · exact .undefined

theorem loadClosure_alike (lua : Lua P) {loadTable loadTable' : Ringbuffer → List (Value P) → LoadOutcome P}
    (ht : ∀ a b stack, R a b → (loadTable a stack).Alike R (loadTable' b stack)) (startsize : ℕ)
    (h : R a b) (stack : List (Value P)) :
    (loadClosure lua loadTable startsize a stack).Alike R (loadClosure lua loadTable' startsize b stack) := by
  refine rbRead_alike hR h 4 stack fun upval a b h => ?_
  split_ifs
  · refine rbRead_alike hR h 4 stack fun env a b h => ?_
    exact (ht a b stack h).andThen fun _ a b stack h => loadUpvals_alike lua _ _ h stack
  · exact .ret h

theorem loadFunction_alike (lua : Lua P)
    {loadTable loadTable' : Ringbuffer → List (Value P) → LoadOutcome P}
    (ht : ∀ a b stack, R a b → (loadTable a stack).Alike R (loadTable' b stack)) (fuel : ℕ)
    (h : R a b) (stack : List (Value P)) :
    (loadFunction lua loadTable fuel a stack).Alike R (loadFunction lua loadTable' fuel b stack) := by
  have hload := luaLoad_alike hR lua fuel [] h
  unfold loadFunction
  generalize luaLoad lua fuel [] a = la at hload
  generalize luaLoad lua fuel [] b = lb at hload
  cases hload with
  | proto h =>
    simp only
    split_ifs
    · exact loadClosure_alike hR lua ht _ h _
    · exact rbRead_alike hR h 8 _ fun _ a b h => loadClosure_alike hR lua ht _ h _
  | error h => exact .ret h
  | undefined => exact .undefined
  | timeout => exact .timeout

theorem loadUserdata_alike (lua : Lua P) (negative : Bool) (h : R a b) (stack : List (Value P)) :
    (loadUserdata lua negative a stack).Alike R (loadUserdata lua negative b stack) := by
  refine rbRead_alike hR h 8 stack fun strLen a b h => ?_
  refine rbReadBlock_alike hR lua h _ 1 stack fun str a b h => ?_
  refine rbRead_alike hR h 8 stack fun ptr a b h => ?_
  simp only [luaTPushudata]
  split_ifs
  · exact .ret h
  · exact .ret h
  · exact .raise h
  · exact .ret h

/-- A load keeps every relation that the reads keep. -/
theorem load_alike (lua : Lua P) (fuel : ℕ) :
    (∀ isKey a b stack, R a b →
      (rbLoadRcsv lua fuel isKey a stack).Alike R (rbLoadRcsv lua fuel isKey b stack)) ∧
    ∀ startsize a b stack, R a b →
      (loadTable lua fuel startsize a stack).Alike R (loadTable lua fuel startsize b stack) := by
  induction fuel with
  | zero => exact ⟨fun _ _ _ _ _ => .timeout, fun _ _ _ _ _ => .timeout⟩
  | succ fuel ih =>
    constructor
    · intro isKey a b stack h
      rw [rbLoadRcsv_succ, rbLoadRcsv_succ]
      refine rbRead_alike hR h 1 stack fun type a b h => ?_
      split
      · split_ifs
        · exact .ret h
        · exact .ret h
      · exact rbRead_alike hR h 1 stack fun _ _ _ h => .ret h
      · exact rbRead_alike hR h 8 stack fun _ _ _ h => .ret h
      · exact rbRead_alike hR h 8 stack fun _ _ _ h => .ret h
      · exact rbRead_alike hR h 8 stack fun _ _ _ h =>
          rbReadBlock_alike hR lua h _ 0 stack fun _ _ _ h => .ret h
      · exact ih.2 _ _ _ _ h
      · exact loadFunction_alike hR lua (fun a b stack h => ih.1 false a b stack h) fuel h stack
      · exact loadUserdata_alike hR lua false h stack
      · exact loadUserdata_alike hR lua true h stack
      · exact .ret h
    · intro startsize a b stack h
      rw [loadTable_succ, loadTable_succ]
      refine (ih.1 true a b stack h).andThen fun ret a b stack h => ?_
      split_ifs
      · exact loadTypename_alike hR lua startsize h stack
      · refine (ih.1 false a b stack h).andThen fun _ a b stack h => ?_
        exact luaSettable_alike _ h stack fun stack => ih.2 _ _ _ _ h

end

/-! ### Buffers that only reads are made from -/

/-- The relations between the fields that a read relies on. The write position is
not among them. -/
structure Ringbuffer.Readable (rb : Ringbuffer) : Prop where
  length_buf : rb.buf.length = rb.cb
  rp_lt : rb.rp < rb.cb
  rcb_le : rb.rcb ≤ rb.cb

def Ringbuffer.setWrite (rb : Ringbuffer) (wp savedWp savedRcb : ℕ) : Ringbuffer :=
  { rb with wp := wp, savedWp := savedWp, savedRcb := savedRcb }

theorem ringbufferRead_setWrite (rb : Ringbuffer) (wp savedWp savedRcb n : ℕ) :
    ringbufferRead (rb.setWrite wp savedWp savedRcb) n =
      ((ringbufferRead rb n).1, (ringbufferRead rb n).2.1,
        (ringbufferRead rb n).2.2.setWrite wp savedWp savedRcb) := by
  by_cases hwrap : rb.rp + min n rb.rcb < rb.cb
  · simp [ringbufferRead, Ringbuffer.setWrite, hwrap]
  · simp [ringbufferRead, Ringbuffer.setWrite, hwrap]

/-- The buffer whose write position is behind its content. -/
def Ringbuffer.rewind (rb : Ringbuffer) : Ringbuffer :=
  rb.setWrite ((rb.rp + rb.rcb) % rb.cb) rb.savedWp rb.savedRcb

theorem Ringbuffer.Readable.rewind_valid {rb : Ringbuffer} (h : rb.Readable) : rb.rewind.Valid :=
  ⟨h.length_buf, h.rp_lt, Nat.mod_lt _ (Nat.zero_lt_of_lt h.rp_lt), h.rcb_le, rfl⟩

theorem rbLoad_rewind_alike (lua : Lua P) (rb : Ringbuffer) (fuel : ℕ) (stack : List (Value P)) :
    LoadOutcome.Alike (fun a b => b = a.setWrite rb.wp rb.savedWp rb.savedRcb) (rbLoad lua fuel rb.rewind stack)
      (rbLoad lua fuel rb stack) := by
  have hreads : ReadsAlike fun a b => b = a.setWrite rb.wp rb.savedWp rb.savedRcb := by
    rintro a b n rfl
    exact ⟨_, _, _, _, rfl, ringbufferRead_setWrite a _ _ _ n, rfl⟩
  exact (load_alike hreads lua fuel).1 false rb.rewind rb stack rfl

theorem rbLoad_rewind (lua : Lua P) {rb rb' : Ringbuffer} {fuel : ℕ} {code : ℤ}
    {stack stack' : List (Value P)} (h : rbLoad lua fuel rb.rewind stack = .ret code rb' stack') :
    rbLoad lua fuel rb stack = .ret code (rb'.setWrite rb.wp rb.savedWp rb.savedRcb) stack' := by
  have halike := rbLoad_rewind_alike lua rb fuel stack
  rw [h] at halike
  generalize rbLoad lua fuel rb stack = o at halike
  cases halike with
  | ret hb => rw [hb]

theorem rewind_rbLoad (lua : Lua P) {rb rb' : Ringbuffer} {fuel : ℕ} {code : ℤ}
    {stack stack' : List (Value P)} (h : rbLoad lua fuel rb stack = .ret code rb' stack') :
    ∃ rb₀, rbLoad lua fuel rb.rewind stack = .ret code rb₀ stack' := by
  have halike := rbLoad_rewind_alike lua rb fuel stack
  rw [h] at halike
  generalize rbLoad lua fuel rb.rewind stack = o at halike
  cases halike with
  | @ret code a b stack hb => exact ⟨a, rfl⟩

/-- A read leaves a readable buffer of the same size with no more to read. -/
theorem Ringbuffer.Readable.read {rb : Ringbuffer} (h : rb.Readable) (n : ℕ) :
    (ringbufferRead rb n).2.2.Readable ∧ (ringbufferRead rb n).2.2.cb = rb.cb ∧
      (ringbufferRead rb n).2.2.rcb ≤ rb.rcb := by
  have hrp := h.rp_lt
  have hle := h.rcb_le
  have hmod : (rb.rp + min n rb.rcb) % rb.cb < rb.cb := Nat.mod_lt _ (by omega)
  simp only [ringbufferRead]
  split_ifs with hwrap
  · exact ⟨⟨h.length_buf, hwrap, by simp only; omega⟩, rfl, Nat.sub_le _ _⟩
  · exact ⟨⟨h.length_buf, hmod, by simp only; omega⟩, rfl, Nat.sub_le _ _⟩

theorem rbLoad_readable (lua : Lua P) {rb : Ringbuffer} (h : rb.Readable) (fuel : ℕ)
    (stack : List (Value P)) : ∀ rb', (rbLoad lua fuel rb stack = .raise rb' ∨
      ∃ code stack', rbLoad lua fuel rb stack = .ret code rb' stack') →
      rb'.Readable ∧ rb'.cb = rb.cb ∧ rb'.rcb ≤ rb.rcb := by
  have hreads : ReadsAlike fun a b => a = b ∧ a.Readable ∧ a.cb = rb.cb ∧ a.rcb ≤ rb.rcb := by
    rintro a b n ⟨rfl, ha, hcb, hrcb⟩
    obtain ⟨ha', hcb', hrcb'⟩ := ha.read n
    exact ⟨_, _, _, _, rfl, rfl, rfl, ha', hcb'.trans hcb, hrcb'.trans hrcb⟩
  have halike := (load_alike hreads lua fuel).1 false rb rb stack ⟨rfl, h, rfl, le_rfl⟩
  change LoadOutcome.Alike _ (rbLoad lua fuel rb stack) (rbLoad lua fuel rb stack) at halike
  rintro rb' (hraise | ⟨code, stack', hret⟩)
  · rw [hraise] at halike
    cases halike with
    | raise hb => exact hb.2
  · rw [hret] at halike
    cases halike with
    | ret hb => exact hb.2

end TorchIpc
