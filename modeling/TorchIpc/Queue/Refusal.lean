import TorchIpc.Queue.Channel

/-! Writes that fail because an argument cannot be serialised. `rb_save` refuses a
value in two ways. When it returns a code the write rolls back and gives the mutex
back, as if it had been called with the arguments before the refused one only. When
it raises an error, that error passes the rollback and the unlock by: the queue stays
locked, with a part of the refused argument in its buffer. -/

namespace TorchIpc

open Monitor

/-- The outcome of a write on a channel, seen as one on its queue. -/
def ChannelWriteOutcome.toWrite : ChannelWriteOutcome → WriteOutcome
  | .status _ ch => .done ch.toQueue
  | .error code ch => .error code ch.toQueue
  | .raised e ch => .raised e ch.toQueue
  | .undefined => .undefined
  | .diverges => .diverges
  | .timeout => .timeout

def End.isOk : End → Bool
  | .ok => true
  | _ => false

/-- A return code that reaches the caller of `rb_save`. -/
def End.isCode : End → Bool
  | .code _ place => place ≠ .key
  | _ => false

/-- A return code that a stack check turns into an error on its way. -/
def End.isKeyCode : End → Bool
  | .code _ .key => true
  | _ => false

section
variable {P : Type} (lua : Lua P)

/-- The first argument that cannot be serialised. -/
def firstRefused (upval : Bool) (vs : List (Value P)) : Option (Value P) :=
  vs.find? fun v => !(script lua false upval v).fin.isOk

/-- `rb_save` refuses the value with a return code: the first part it cannot serialise
is a coroutine, a light userdata, or a userdata without a type name or `retain`, and it
is not among the upvalues of a table key. -/
def refusedByCode (upval : Bool) (v : Value P) : Bool := (script lua false upval v).fin.isCode

/-- The write raised an error for an argument that cannot be serialised. A stack check
counts if it stands for such a refusal, not if a short write brought it about. -/
def Refused (upval : Bool) (vs : List (Value P)) : WriteOutcome → Prop
  | .error _ _ => True
  | .raised (.stackCheck _) _ =>
    ∃ bad, firstRefused lua upval vs = some bad ∧ (script lua false upval bad).fin.isKeyCode = true
  | .raised _ _ => True
  | _ => False

/-- The failed write left the queue as a successful write of the arguments before the
refused one does: their complete encodings are in the buffer and counted, and the
mutex is given back. -/
def FailedAtomically (upval : Bool) (q : Queue) (vs : List (Value P)) : WriteOutcome → Prop
  | .error _ q' | .raised _ q' =>
    ∃ before bad after, vs = before ++ bad :: after ∧ firstRefused lua upval vs = some bad ∧
      Wrote lua upval q before q'
  | _ => False

variable {lua}

theorem firstRefused_eq {upval : Bool} {before after : List (Value P)} {bad : Value P}
    (hok : ∀ v ∈ before, (script lua false upval v).fin = .ok)
    (hbad : (script lua false upval bad).fin ≠ .ok) :
    firstRefused lua upval (before ++ bad :: after) = some bad := by
  have hskip : before.find? (fun v => !(script lua false upval v).fin.isOk) = none := by
    rw [List.find?_eq_none]
    intro v hv
    simp [hok v hv, End.isOk]
  have hisOk : (script lua false upval bad).fin.isOk = false := by
    cases hfin : (script lua false upval bad).fin with
    | ok => exact absurd hfin hbad
    | code e place => rfl
    | raise e => rfl
    | diverges => rfl
  rw [firstRefused, List.find?_append, hskip, Option.none_or,
    List.find?_cons_of_pos (by simp [hisOk])]

theorem queueWrite_refused {upval : Bool} {inc fuel : ℕ} {vs : List (Value P)} {q : Queue}
    (hrb : q.rb.Sound) (href : Refused lua upval vs (queueWrite lua upval inc fuel vs q)) :
    FailedAtomically lua upval q vs (queueWrite lua upval inc fuel vs q) ↔
      ∃ bad, firstRefused lua upval vs = some bad ∧ refusedByCode lua upval bad = true := by
  have hspec := writeLoop_spec lua upval inc fuel vs 2 (vs.length + 1) (pthreadMutexLock q) hrb
    (by omega)
  rw [queueWrite] at href ⊢
  generalize writeLoop lua upval inc fuel vs 2 (vs.length + 1) (pthreadMutexLock q) = o
    at hspec href ⊢
  cases hspec with
  | done _ => exact href.elim
  | @error q' before bad after e place hvs hfin hplace hw =>
    have hfirst : firstRefused lua upval vs = some bad := by
      rw [hvs]
      exact firstRefused_eq hw.all_ok (by rw [hfin]; rintro ⟨⟩)
    constructor
    · intro _
      exact ⟨bad, hfirst, by simpa [refusedByCode, hfin, End.isCode] using hplace⟩
    · intro _
      refine ⟨before, bad, after, hvs, hfirst, hw.sound, hw.content_eq, hw.numItems_eq, ?_, hw.all_ok⟩
      have hlocks : q'.locks = q.locks + 1 := hw.locks_eq
      simp [pthreadMutexUnlock, hlocks]
  | @raised q₁ q' before bad after e hvs hfin hw hlocks =>
    have hfirst : firstRefused lua upval vs = some bad := by
      rw [hvs]
      exact firstRefused_eq hw.all_ok (by rw [hfin]; rintro ⟨⟩)
    constructor
    -- the mutex is still held
    · rintro ⟨_, _, _, _, _, hw'⟩
      have hheld : q'.locks = q.locks + 1 := hlocks
      have hfree := hw'.locks_eq
      omega
    · rintro ⟨bad', hfirst', hcode⟩
      obtain rfl : bad = bad' := Option.some.inj (hfirst.symm.trans hfirst')
      rw [refusedByCode, hfin] at hcode
      exact absurd hcode (by rintro ⟨⟩)
  | @stackCheck q' loc hlocks =>
    obtain ⟨bad, hfirst, hkey⟩ := href
    constructor
    · rintro ⟨_, _, _, _, _, hw'⟩
      have hheld : q'.locks = q.locks + 1 := hlocks
      have hfree := hw'.locks_eq
      omega
    · rintro ⟨bad', hfirst', hcode⟩
      obtain rfl : bad = bad' := Option.some.inj (hfirst.symm.trans hfirst')
      rw [refusedByCode] at hcode
      cases hfin : (script lua false upval bad).fin with
      | code e place => cases place <;> simp [hfin, End.isCode, End.isKeyCode] at hkey hcode
      | ok => simp [hfin, End.isKeyCode] at hkey
      | raise e => simp [hfin, End.isKeyCode] at hkey
      | diverges => simp [hfin, End.isKeyCode] at hkey
  | undefined => exact href.elim
  | diverges => exact href.elim
  | timeout => exact href.elim

/-- A write that fails for an argument it cannot serialise is atomic exactly when
`rb_save` refuses that argument with a code. -/
theorem refused_write_atomic_iff (lua : Lua P) :
    (∀ upval inc fuel vs (q : Queue), q.rb.Sound →
      Refused lua upval vs (queueWrite lua upval inc fuel vs q) →
      (FailedAtomically lua upval q vs (queueWrite lua upval inc fuel vs q) ↔
        ∃ bad, firstRefused lua upval vs = some bad ∧ refusedByCode lua upval bad = true)) ∧
    (∀ fuel vs (ch : Channel), ch.rb.Sound →
      Refused lua false vs (channelWrite lua vs ch fuel).toWrite →
      (FailedAtomically lua false ch.toQueue vs (channelWrite lua vs ch fuel).toWrite ↔
        ∃ bad, firstRefused lua false vs = some bad ∧ refusedByCode lua false bad = true)) := by
  constructor
  · intro upval inc fuel vs q hrb href
    exact queueWrite_refused hrb href
  · intro fuel vs ch hrb href
    have hwrite : (channelWrite lua vs ch fuel).toWrite = .done ch.toQueue ∨
        (channelWrite lua vs ch fuel).toWrite =
          queueWrite lua false DEFAULT_CHANNEL_SIZE fuel vs ch.toQueue := by
      rw [channelWrite]
      split_ifs
      · exact Or.inl rfl
      · exact Or.inl rfl
      · right
        cases queueWrite lua false DEFAULT_CHANNEL_SIZE fuel vs ch.toQueue <;> rfl
    rcases hwrite with hdone | heq
    · rw [hdone] at href
      exact href.elim
    · rw [heq] at href ⊢
      exact queueWrite_refused hrb href

end

/-- A coroutine after a nil: the nil is stored, the rest is as before. -/
theorem refused_write_atomic_iff_coroutine :
    FailedAtomically sampleLua false (workqueueInitQueue 16) [.nil, .thread]
      (queueWrite sampleLua false 16 4 [.nil, .thread] (workqueueInitQueue 16)) :=
  ((refused_write_atomic_iff sampleLua).1 false 16 4 [.nil, .thread] (workqueueInitQueue 16)
    (Ringbuffer.create_sound 16) trivial).mpr ⟨.thread, rfl, rfl⟩

/-- A C function: the error unwinds with the mutex held and the type byte written. -/
theorem cfunction_write_not_atomic :
    Refused sampleLua false [.cfunction]
        (queueWrite sampleLua false 16 2 [.cfunction] (workqueueInitQueue 16)) ∧
      ¬ FailedAtomically sampleLua false (workqueueInitQueue 16) [.cfunction]
        (queueWrite sampleLua false 16 2 [.cfunction] (workqueueInitQueue 16)) := by
  refine ⟨trivial, ?_⟩
  rintro ⟨_, _, _, _, _, hw⟩
  exact absurd hw.locks_eq (by decide)

end TorchIpc
