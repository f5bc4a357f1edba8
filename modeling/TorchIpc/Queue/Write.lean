import TorchIpc.Base.Runs
import TorchIpc.Serialize.RoundTrip

/-! The queue under a workqueue direction (`queue_t`) and a channel (`channel_t`):
a ring buffer of encoded items, their count in 32 bits, and a recursive mutex. Both
write their arguments with the same loop: mark the write position, save, and on a
short write roll back, grow and try again. Proved here: what the loop leaves in the
queue, however it ends. -/

namespace TorchIpc

open Words

/-- The fields that `queue_t` and `channel_t` share. `locks` is how often the
calling thread holds the mutex. -/
structure Queue extends Effects where
  numItems : UInt32
  locks : ℕ

def pthreadMutexLock (q : Queue) : Queue := { q with locks := q.locks + 1 }

def pthreadMutexUnlock (q : Queue) : Queue := { q with locks := q.locks - 1 }

/-- How a write ends: normally; by `LUA_HANDLE_ERROR` with the code `rb_save`
returned; by an error that `rb_save` raised; or not at all. -/
inductive WriteOutcome where
  | done (q : Queue)
  | error (code : ℤ) (q : Queue)
  | raised (e : LuaError) (q : Queue)
  | undefined
  | diverges
  | timeout

section
variable {P : Type} (lua : Lua P)

/-- The loop over the arguments, the first of which is at `index`. The stack
height is kept, because a save that ran out of room may leave a copy of a function
on the stack. -/
def writeLoop (upval : Bool) (sizeIncrement : ℕ) :
    ℕ → List (Value P) → (index height : ℕ) → Queue → WriteOutcome
  | 0, _, _, _, _ => .timeout
  | _ + 1, [], _, _, q => .done q
  | fuel + 1, v :: vs, index, height, q =>
    match rbSave lua false upval v index ⟨ringbufferPushWritePos q.rb, q.retained⟩ height with
    | .ret ret fx height =>
      if ret = -Errno.ENOMEM.toInt then
        match ringbufferGrowBy (ringbufferPopWritePos fx.rb) sizeIncrement with
        | some rb =>
          writeLoop upval sizeIncrement fuel (v :: vs) index height
            { q with rb := rb, retained := fx.retained }
        | none => .undefined
      else if ret ≠ 0 then
        .error ret { q with rb := ringbufferPopWritePos fx.rb, retained := fx.retained }
      else
        writeLoop upval sizeIncrement fuel vs (index + 1) height
          { q with rb := fx.rb, retained := fx.retained, numItems := q.numItems + 1 }
    | .raise e fx => .raised e { q with rb := fx.rb, retained := fx.retained }
    | .undefined => .undefined
    | .diverges => .diverges

/-- `workqueue_queue_write`, but for the signal at its end; `channel_write` once it
has found the channel open. The arguments start at index 2. -/
def queueWrite (upval : Bool) (sizeIncrement fuel : ℕ) (vs : List (Value P)) (q : Queue) :
    WriteOutcome :=
  match writeLoop lua upval sizeIncrement fuel vs 2 (vs.length + 1) (pthreadMutexLock q) with
  | .done q => .done (pthreadMutexUnlock q)
  | .error code q => .error code (pthreadMutexUnlock q)
  | o => o

end

/-! ### Buffers of a queue -/

/-- The buffers that occur: valid ones, and the one created with size zero, into
which nothing can be written. -/
def Ringbuffer.Sound (rb : Ringbuffer) : Prop := rb.Valid ∨ rb = ringbufferCreate 0

theorem Ringbuffer.create_sound (size : ℕ) : (ringbufferCreate size).Sound := by
  rcases Nat.eq_zero_or_pos size with rfl | hpos
  · exact Or.inr rfl
  · exact Or.inl (Ringbuffer.create_valid hpos)

/-- A write that the buffer has no room for is told so, valid or not. -/
theorem runItems_overflow (pushed top : ℕ) (k : Effects → SaveOutcome) {place : Place}
    (items : List Item) (fx : Effects) (hcb : fx.rb.cb ≠ 0)
    (hover : overflow items fx.rb.room = some place) :
    ∃ fx', fx'.rb.cb = fx.rb.cb ∧ fx'.rb.savedRcb = fx.rb.savedRcb ∧
      runItems pushed top k items fx = failAt pushed place .ENOMEM fx' top := by
  induction items generalizing fx with
  | nil => simp [overflow] at hover
  | cons x xs ih =>
    cases x with
    | retain ptr =>
      exact ih { fx with retained := fx.retained ++ [ptr] } hcb hover
    | put bs place' =>
      simp only [overflow] at hover
      simp only [runItems, if_neg hcb, Ringbuffer.write_fst]
      split_ifs at hover with hfit
      · rw [if_neg (by omega)]
        have hroom : (ringbufferWrite fx.rb (some bs) bs.length).2.room =
            fx.rb.room - bs.length := by
          simp only [Ringbuffer.room, Ringbuffer.write_cb, Ringbuffer.write_rcb]
          unfold Ringbuffer.room at hfit
          omega
        obtain ⟨fx', hcb', hsaved, hrun⟩ := ih
          ⟨(ringbufferWrite fx.rb (some bs) bs.length).2, fx.retained⟩ (by simpa using hcb)
          (by rwa [hroom])
        exact ⟨fx', by simpa using hcb', by simpa using hsaved, hrun⟩
      · rw [if_pos (by omega)]
        cases hover
        exact ⟨_, by simp, by simp, rfl⟩

theorem runItems_zero (pushed top : ℕ) (k : Effects → SaveOutcome) (items : List Item)
    (fx : Effects) (hcb : fx.rb.cb = 0) :
    runItems pushed top k items fx = .undefined ∨
      ∃ fx', fx'.rb = fx.rb ∧ itemBytes items = [] ∧ runItems pushed top k items fx = k fx' := by
  induction items generalizing fx with
  | nil => exact Or.inr ⟨fx, rfl, rfl, rfl⟩
  | cons x xs ih =>
    cases x with
    | retain ptr => exact ih { fx with retained := fx.retained ++ [ptr] } hcb
    | put bs place =>
      left
      simp only [runItems, if_pos hcb]

/-! ### One attempt -/

section
variable {P : Type} {lua : Lua P}

/-- What one `rb_save` between the mark and the rollback can do. -/
inductive Attempt (lua : Lua P) (upval : Bool) (v : Value P) (rb : Ringbuffer) (height : ℕ) :
    SaveOutcome → Prop where
  /-- Every write fits, and the script ends in its own way. -/
  | fits {pushed fx} : fx.rb.Sound → fx.rb.content = rb.content ++ encode lua false upval v →
      (ringbufferPopWritePos fx.rb).Sound → (ringbufferPopWritePos fx.rb).content = rb.content →
      Attempt lua upval v rb height
        ((script lua false upval v).fin.outcome pushed fx height)
  /-- A write does not fit. -/
  | short {pushed fx place} : rb.Valid →
      overflow (script lua false upval v).items rb.room = some place →
      (ringbufferPopWritePos fx.rb).Valid → (ringbufferPopWritePos fx.rb).content = rb.content →
      (ringbufferPopWritePos fx.rb).cb = rb.cb →
      Attempt lua upval v rb height (failAt pushed place .ENOMEM fx height)
  /-- The capacity is zero. -/
  | undefined : rb = ringbufferCreate 0 → Attempt lua upval v rb height .undefined

theorem rbSave_attempt (lua : Lua P) (upval : Bool) (v : Value P) {rb : Ringbuffer} (hrb : rb.Sound)
    (retained : List UInt64) {index height : ℕ} (hi : index ≤ height) :
    Attempt lua upval v rb height
      (rbSave lua false upval v index ⟨ringbufferPushWritePos rb, retained⟩ height) := by
  rw [rbSave_eq lua false upval v hi]
  generalize (if index = height then 0 else 1) = pushed
  rcases hrb with hv | rfl
  · have hv' := Ringbuffer.pushWritePos_valid hv
    have hmark := Ringbuffer.pushWritePos_marked hv
    obtain ⟨fx, happ, hrun⟩ := runItems_spec pushed height
      (fun fx => (script lua false upval v).fin.outcome pushed fx height)
      (script lua false upval v).items ⟨ringbufferPushWritePos rb, retained⟩ hv'
    have hmarked := happ.marked _ hmark
    have hpop := Ringbuffer.popWritePos_valid happ.valid hmarked
    have hcontent : (ringbufferPopWritePos fx.rb).content = rb.content := by
      rw [Ringbuffer.popWritePos_content hmarked, happ.content_eq, Ringbuffer.pushWritePos_content,
        List.take_left]
    have hroom : (ringbufferPushWritePos rb).room = rb.room := rfl
    rw [Script.run, hrun]
    simp only [hroom] at happ ⊢
    cases hover : overflow (script lua false upval v).items rb.room with
    | none =>
      refine .fits (Or.inl happ.valid) ?_ (Or.inl hpop) hcontent
      rw [happ.content_eq, List.take_of_length_le (overflow_eq_none.mp hover)]
      rfl
    | some place => exact .short hv hover hpop hcontent happ.cb_eq
  -- the buffer of size zero is not changed by the mark or the rollback
  · rcases runItems_zero pushed height
      (fun fx => (script lua false upval v).fin.outcome pushed fx height)
      (script lua false upval v).items
      ⟨ringbufferPushWritePos (ringbufferCreate 0), retained⟩ rfl with hu | ⟨fx, hfx, hbytes, hk⟩
    · rw [Script.run, hu]
      exact .undefined rfl
    · have hcreate : fx.rb = ringbufferCreate 0 := hfx
      rw [Script.run, hk]
      refine .fits (Or.inr hcreate) ?_ (by rw [hcreate]; exact Or.inr rfl) (by rw [hcreate]; rfl)
      rw [hcreate, encode, Script.bytes, hbytes, List.append_nil]

/-! ### The loop -/

/-- The queue got the complete encodings of `vs` behind its content and counted
them. -/
structure Wrote (lua : Lua P) (upval : Bool) (q : Queue) (vs : List (Value P)) (q' : Queue) :
    Prop where
  sound : q'.rb.Sound
  content_eq : q'.rb.content = q.rb.content ++ vs.flatMap (encode lua false upval)
  numItems_eq : q'.numItems = q.numItems + UInt32.ofNat vs.length
  locks_eq : q'.locks = q.locks
  all_ok : ∀ v ∈ vs, (script lua false upval v).fin = .ok

theorem Wrote.append {upval : Bool} {q₁ q₂ q₃ : Queue} {us vs : List (Value P)}
    (h₁ : Wrote lua upval q₁ us q₂) (h₂ : Wrote lua upval q₂ vs q₃) :
    Wrote lua upval q₁ (us ++ vs) q₃ where
  sound := h₂.sound
  content_eq := by
    rw [h₂.content_eq, h₁.content_eq, List.flatMap_append, List.append_assoc]
  numItems_eq := by
    rw [h₂.numItems_eq, h₁.numItems_eq, List.length_append, UInt32.ofNat_add, UInt32.add_assoc]
  locks_eq := h₂.locks_eq.trans h₁.locks_eq
  all_ok v hv := (List.mem_append.mp hv).elim (h₁.all_ok v) (h₂.all_ok v)

/-- What the loop has done when it ends. A stack check apart, an error comes from
the first argument that is not serialisable, and the ones before it are stored. -/
inductive WriteSpec (lua : Lua P) (upval : Bool) (q : Queue) (vs : List (Value P)) :
    WriteOutcome → Prop where
  | done {q'} : Wrote lua upval q vs q' → WriteSpec lua upval q vs (.done q')
  | error {q' before bad after e place} : vs = before ++ bad :: after →
      (script lua false upval bad).fin = .code e place → place ≠ .key →
      Wrote lua upval q before q' → WriteSpec lua upval q vs (.error (-e.toInt) q')
  | raised {q₁ q' before bad after e} : vs = before ++ bad :: after →
      (script lua false upval bad).fin = .raise e → Wrote lua upval q before q₁ →
      q'.locks = q.locks → WriteSpec lua upval q vs (.raised e q')
  | stackCheck {q' loc} : q'.locks = q.locks →
      WriteSpec lua upval q vs (.raised (.stackCheck loc) q')
  | undefined : WriteSpec lua upval q vs .undefined
  | diverges : WriteSpec lua upval q vs .diverges
  | timeout : WriteSpec lua upval q vs .timeout

/-- What is true of the rest of a write is true of the whole. -/
theorem WriteSpec.after {upval : Bool} {q q₁ : Queue} {us vs : List (Value P)} {o : WriteOutcome}
    (hw : Wrote lua upval q us q₁) (h : WriteSpec lua upval q₁ vs o) :
    WriteSpec lua upval q (us ++ vs) o := by
  cases h with
  | done h => exact .done (hw.append h)
  | error hvs hfin hplace h =>
    exact .error (by rw [hvs, List.append_assoc]) hfin hplace (hw.append h)
  | raised hvs hfin h hlocks =>
    exact .raised (by rw [hvs, List.append_assoc]) hfin (hw.append h) (hlocks.trans hw.locks_eq)
  | stackCheck hlocks => exact .stackCheck (hlocks.trans hw.locks_eq)
  | undefined => exact .undefined
  | diverges => exact .diverges
  | timeout => exact .timeout

/-- How the loop goes on that finds no room for its argument. -/
inductive WriteOutcome.Stuck (locks : ℕ) : WriteOutcome → Prop where
  | stackCheck {q' loc} : q'.locks = locks → Stuck locks (.raised (.stackCheck loc) q')
  | undefined : Stuck locks .undefined
  | timeout : Stuck locks .timeout

theorem WriteOutcome.Stuck.spec {upval : Bool} {q : Queue} {o : WriteOutcome} (h : o.Stuck q.locks)
    (vs : List (Value P)) :
    WriteSpec lua upval q vs o := by
  cases h with
  | stackCheck hlocks => exact .stackCheck hlocks
  | undefined => exact .undefined
  | timeout => exact .timeout

/-- With an increment of zero, or one that wraps, what does not fit is never stored. -/
theorem writeLoop_stuck {upval : Bool} {v : Value P} {inc : ℕ} (hinc : inc = 0 ∨ 2 ^ 63 ≤ inc)
    (fuel : ℕ) (vs : List (Value P)) {index height : ℕ} (hi : index ≤ height) (q : Queue)
    (hover : q.rb.room < (encode lua false upval v).length) :
    (writeLoop lua upval inc fuel (v :: vs) index height q).Stuck q.locks := by
  induction fuel generalizing height q with
  | zero => exact .timeout
  | succ fuel ih =>
    have hsave := rbSave_eq lua false upval v hi ⟨ringbufferPushWritePos q.rb, q.retained⟩
    rw [writeLoop, hsave, Script.run]
    by_cases hcb : q.rb.cb = 0
    · rcases runItems_zero (if index = height then 0 else 1) height
        (fun fx => (script lua false upval v).fin.outcome (if index = height then 0 else 1) fx height)
        (script lua false upval v).items ⟨ringbufferPushWritePos q.rb, q.retained⟩ hcb with hu | ⟨_, _, hbytes, _⟩
      · rw [hu]
        exact .undefined
      · rw [encode, Script.bytes, hbytes] at hover
        exact absurd hover (Nat.not_lt_zero _)
    obtain ⟨place, hplace⟩ : ∃ place, overflow (script lua false upval v).items q.rb.room =
        some place :=
      Option.ne_none_iff_exists'.mp fun hnone =>
        absurd hover (not_lt.mpr (overflow_eq_none.mp hnone))
    obtain ⟨fx, hcb', hsaved, hrun⟩ := runItems_overflow (if index = height then 0 else 1) height
      (fun fx => (script lua false upval v).fin.outcome (if index = height then 0 else 1) fx height)
      (script lua false upval v).items ⟨ringbufferPushWritePos q.rb, q.retained⟩ hcb hplace
    rw [hrun]
    have hnext : ∀ height' ≥ height, WriteOutcome.Stuck q.locks
        (match ringbufferGrowBy (ringbufferPopWritePos fx.rb) inc with
        | some rb => writeLoop lua upval inc fuel (v :: vs) index height' { q with rb := rb, retained := fx.retained }
        | none => .undefined) := by
      intro height' hh
      cases hgrow : ringbufferGrowBy (ringbufferPopWritePos fx.rb) inc with
      | none => exact .undefined
      | some rb =>
        -- the new block has no more room than the old one
        have hroom : rb.room ≤ q.rb.room := by
          refine (Ringbuffer.growBy_le hinc hgrow).2.2.trans (le_of_eq ?_)
          simp only [Ringbuffer.room, ringbufferPopWritePos, hcb', hsaved, ringbufferPushWritePos]
        exact ih (hi.trans hh) { q with rb := rb, retained := fx.retained } (hroom.trans_lt hover)
    cases place with
    | plain => exact hnext height le_rfl
    | upvals => exact hnext _ (Nat.le_add_right _ _)
    | key => exact .stackCheck rfl

theorem Wrote.refl {upval : Bool} {q : Queue} (h : q.rb.Sound) : Wrote lua upval q [] q :=
  ⟨h, by simp, by simp, rfl, by simp⟩

/-- Rolling back and moving to another block leaves the items alone. -/
theorem Wrote.moved {upval : Bool} {q : Queue} {rb : Ringbuffer} (hv : rb.Valid)
    (hc : rb.content = q.rb.content) (retained : List UInt64) :
    Wrote lua upval q [] { q with rb := rb, retained := retained } where
  sound := Or.inl hv
  content_eq := by simp [hc]
  numItems_eq := by simp
  locks_eq := rfl
  all_ok := by simp

/-- The loop meets its specification, whatever the increment. -/
theorem writeLoop_spec (lua : Lua P) (upval : Bool) (inc fuel : ℕ) (vs : List (Value P)) (index height : ℕ)
    (q : Queue) (hrb : q.rb.Sound) (hi : index + vs.length ≤ height + 1) :
    WriteSpec lua upval q vs (writeLoop lua upval inc fuel vs index height q) := by
  induction fuel generalizing vs index height q with
  | zero => exact .timeout
  | succ fuel ih =>
    cases vs with
    | nil => exact .done (.refl hrb)
    | cons v vs =>
      rw [List.length_cons] at hi
      have hle : index ≤ height := by omega
      have hattempt := rbSave_attempt lua upval v hrb q.retained hle
      rw [writeLoop]
      generalize rbSave lua false upval v index ⟨ringbufferPushWritePos q.rb, q.retained⟩ height = o
        at hattempt
      cases hattempt with
      | undefined _ => exact .undefined
      | @short pushed fx place hv hover hpop hcontent hcb =>
        have hretry : ∀ height' ≥ height, WriteSpec lua upval q (v :: vs)
            (match ringbufferGrowBy (ringbufferPopWritePos fx.rb) inc with
            | some rb => writeLoop lua upval inc fuel (v :: vs) index height'
                { q with rb := rb, retained := fx.retained }
            | none => .undefined) := by
          intro height' hh
          have hrcb : (ringbufferPopWritePos fx.rb).rcb = q.rb.rcb := by
            rw [← hpop.length_content, hcontent, hv.length_content]
          have hroom : (ringbufferPopWritePos fx.rb).room = q.rb.room := by
            rw [Ringbuffer.room, Ringbuffer.room, hcb, hrcb]
          by_cases hinc : inc = 0 ∨ 2 ^ 63 ≤ inc
          · cases hgrow : ringbufferGrowBy (ringbufferPopWritePos fx.rb) inc with
            | none => exact .undefined
            | some rb =>
              have hle' := (Ringbuffer.growBy_le hinc hgrow).2.2.trans hroom.le
              have hshort : q.rb.room < (encode lua false upval v).length :=
                not_le.mp fun hfit => by simp [overflow_eq_none.mpr hfit] at hover
              have hstuck := writeLoop_stuck hinc fuel vs (hle.trans hh) { q with rb := rb, retained := fx.retained }
                (hle'.trans_lt hshort)
              exact WriteOutcome.Stuck.spec (q := q) hstuck _
          · obtain ⟨rb, hgrow, hvalid, hkept, -⟩ :=
              Ringbuffer.growBy_grows hpop (n := inc) (by rw [nextRoom_of_lt (by omega)]; omega)
            simp only [hgrow]
            exact WriteSpec.after (.moved hvalid (hkept.trans hcontent) fx.retained)
              (ih (v :: vs) index height' _ (Or.inl hvalid) (by rw [List.length_cons]; omega))
        cases place with
        | plain => exact hretry height le_rfl
        | upvals => exact hretry _ (Nat.le_add_right _ _)
        | key => exact .stackCheck rfl
      | @fits pushed fx hsound hcontent hpop hpopc =>
        cases hfin : (script lua false upval v).fin with
        | ok =>
          have hone : Wrote lua upval q [v]
              { q with rb := fx.rb, retained := fx.retained, numItems := q.numItems + 1 } :=
            ⟨hsound, by simpa using hcontent, rfl, rfl, by simpa using hfin⟩
          exact WriteSpec.after hone (ih vs (index + 1) height _ hsound (by omega))
        | code e place =>
          have hshort := script_notShort lua false upval v
          rw [hfin] at hshort
          have herror : place ≠ .key → WriteSpec lua upval q (v :: vs) (.error (-e.toInt)
              { q with rb := ringbufferPopWritePos fx.rb, retained := fx.retained }) :=
                fun hplace =>
            .error (List.nil_append (v :: vs)).symm hfin hplace
              ⟨hpop, by simpa using hpopc, by simp, rfl, by simp⟩
          cases place with
          | key => exact .stackCheck rfl
          | plain =>
            cases e with
            | ENOMEM => exact absurd rfl hshort
            | EPERM => exact herror (by rintro ⟨⟩)
            | EINVAL => exact herror (by rintro ⟨⟩)
          | upvals =>
            cases e with
            | ENOMEM => exact absurd rfl hshort
            | EPERM => exact herror (by rintro ⟨⟩)
            | EINVAL => exact herror (by rintro ⟨⟩)
        | raise e => exact .raised (List.nil_append (v :: vs)).symm hfin (.refl hrb) rfl
        | diverges => exact .diverges

end

end TorchIpc
