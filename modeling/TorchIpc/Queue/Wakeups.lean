import TorchIpc.Base.Crowd
import TorchIpc.Handles.Objects
import TorchIpc.Queue.Refusal

/-! Writes of several arguments, and the readers they wake. A write signals the
condition variable once, after its last argument, and not at all when it fails. Proved
here: a write leaves the same queue as one write for each argument; it notifies as many
readers when it has one argument, when nobody waits, or when it succeeds and one reader
waits; and as long as every write is such a one, no reader sleeps beside an item that no
notified reader will come for. -/

namespace TorchIpc

open Runs Monitor

/-! ### The argument's place on the stack -/

def SaveOutcome.atTop (top : ℕ) : SaveOutcome → SaveOutcome
  | .ret code fx _ => .ret code fx top
  | o => o

theorem failAt_atTop (pushed pushed' : ℕ) (place : Place) (e : Errno) (fx : Effects) (top top' : ℕ) :
    (failAt pushed place e fx top).atTop 0 = (failAt pushed' place e fx top').atTop 0 := by
  cases place <;> rfl

theorem outcome_atTop (fin : End) (pushed pushed' : ℕ) (fx : Effects) (top top' : ℕ) :
    (fin.outcome pushed fx top).atTop 0 = (fin.outcome pushed' fx top').atTop 0 := by
  cases fin with
  | code e place => exact failAt_atTop pushed pushed' place e fx top top'
  | _ => rfl

theorem runItems_atTop {pushed pushed' top top' : ℕ} {k k' : Effects → SaveOutcome}
    (hk : ∀ fx, (k fx).atTop 0 = (k' fx).atTop 0) (items : List Item) (fx : Effects) :
    (runItems pushed top k items fx).atTop 0 = (runItems pushed' top' k' items fx).atTop 0 := by
  induction items generalizing fx with
  | nil => exact hk fx
  | cons x xs ih =>
    cases x with
    | retain ptr => exact ih _
    | put bs place =>
      simp only [runItems]
      split_ifs
      · rfl
      · exact failAt_atTop pushed pushed' place .ENOMEM _ top top'
      · exact ih _

section
variable {P : Type} {lua : Lua P}

/-- What `rb_save` does to the buffer does not depend on where the value stands. -/
theorem rbSave_atTop (lua : Lua P) (upval : Bool) (v : Value P) {index top index' top' : ℕ} (hi : index ≤ top)
    (hi' : index' ≤ top') (fx : Effects) :
    (rbSave lua false upval v index fx top).atTop 0 = (rbSave lua false upval v index' fx top').atTop 0 := by
  rw [rbSave_eq lua false upval v hi, rbSave_eq lua false upval v hi']
  exact runItems_atTop (fun fx => outcome_atTop _ _ _ fx top top') _ fx

theorem rbSave_top_le {upval : Bool} {v : Value P} {index top : ℕ} (hi : index ≤ top) {fx : Effects}
    {code : ℤ} {fx' : Effects} {top' : ℕ} (h : rbSave lua false upval v index fx top = .ret code fx' top') :
    top ≤ top' := by
  rcases rbSave_top hi h with rfl | ⟨-, rfl⟩
  · exact le_rfl
  · exact Nat.le_add_right _ _

theorem writeLoop_index (lua : Lua P) (upval : Bool) (inc fuel : ℕ) (vs : List (Value P))
    {index height index' height' : ℕ} (hi : index + vs.length ≤ height + 1)
    (hi' : index' + vs.length ≤ height' + 1) (q : Queue) :
    writeLoop lua upval inc fuel vs index height q = writeLoop lua upval inc fuel vs index' height' q := by
  induction fuel generalizing vs index height index' height' q with
  | zero => rfl
  | succ fuel ih =>
    cases vs with
    | nil => rfl
    | cons v vs =>
      rw [List.length_cons] at hi hi'
      have hsame := rbSave_atTop lua upval v (show index ≤ height by omega) (show index' ≤ height' by omega)
        ⟨ringbufferPushWritePos q.rb, q.retained⟩
      rw [writeLoop, writeLoop]
      cases h : rbSave lua false upval v index ⟨ringbufferPushWritePos q.rb, q.retained⟩ height with
      | ret code fx top =>
        cases h' : rbSave lua false upval v index' ⟨ringbufferPushWritePos q.rb, q.retained⟩ height' with
        | ret code' fx' top' =>
          have htop := rbSave_top_le (by omega) h
          have htop' := rbSave_top_le (by omega) h'
          rw [h, h'] at hsame
          cases hsame
          simp only
          split_ifs
          · cases ringbufferGrowBy (ringbufferPopWritePos fx.rb) inc with
            | none => rfl
            | some rb => exact ih (v :: vs) (by rw [List.length_cons]; omega) (by rw [List.length_cons]; omega) _
          · rfl
          · exact ih vs (by omega) (by omega) _
        | _ => rw [h, h'] at hsame; cases hsame
      | raise e fx =>
        cases h' : rbSave lua false upval v index' ⟨ringbufferPushWritePos q.rb, q.retained⟩ height' with
        | raise e' fx' =>
          rw [h, h'] at hsame
          cases hsame
          rfl
        | _ => rw [h, h'] at hsame; cases hsame
      | diverges =>
        cases h' : rbSave lua false upval v index' ⟨ringbufferPushWritePos q.rb, q.retained⟩ height' with
        | diverges => rfl
        | _ => rw [h, h'] at hsame; cases hsame
      | undefined =>
        cases h' : rbSave lua false upval v index' ⟨ringbufferPushWritePos q.rb, q.retained⟩ height' with
        | undefined => rfl
        | _ => rw [h, h'] at hsame; cases hsame

/-! ### One argument after the other -/

/-- How a write goes on after its first argument. -/
inductive First (lua : Lua P) (upval : Bool) (inc : ℕ) (vs : List (Value P)) (index height : ℕ)
    (f : ℕ → WriteOutcome) : WriteOutcome → Prop where
  | done {q n height'} : height ≤ height' →
      (∀ fuel, f (fuel + n) = writeLoop lua upval inc fuel vs (index + 1) height' q) →
      First lua upval inc vs index height f (.done q)
  | error {code q n} : (∀ fuel, f (fuel + n) = .error code q) →
      First lua upval inc vs index height f (.error code q)
  | raised {e q n} : (∀ fuel, f (fuel + n) = .raised e q) →
      First lua upval inc vs index height f (.raised e q)
  | undefined : First lua upval inc vs index height f .undefined
  | diverges : First lua upval inc vs index height f .diverges
  | timeout : First lua upval inc vs index height f .timeout

/-- A retry in front does not change how it goes on. -/
theorem First.retry {upval : Bool} {inc : ℕ} {vs : List (Value P)} {index height height₁ : ℕ}
    {f g : ℕ → WriteOutcome} {o : WriteOutcome} (hle : height ≤ height₁) (hf : ∀ fuel, f (fuel + 1) = g fuel)
    (h : First lua upval inc vs index height₁ g o) : First lua upval inc vs index height f o := by
  cases h with
  | @done q n height' hh hg =>
    exact .done (n := n + 1) (hle.trans hh) fun fuel => (hf _).trans (hg fuel)
  | @error code q n hg => exact .error (n := n + 1) fun fuel => (hf _).trans (hg fuel)
  | @raised e q n hg => exact .raised (n := n + 1) fun fuel => (hf _).trans (hg fuel)
  | undefined => exact .undefined
  | diverges => exact .diverges
  | timeout => exact .timeout

/-- The first of several arguments is written as it is alone. -/
theorem writeLoop_first (lua : Lua P) (upval : Bool) (inc : ℕ) (v : Value P) (vs : List (Value P))
    {index height : ℕ} (hi : index ≤ height) (fuel : ℕ) (q : Queue) :
    First lua upval inc vs index height (fun fuel => writeLoop lua upval inc fuel (v :: vs) index height q)
      (writeLoop lua upval inc fuel [v] index height q) := by
  induction fuel generalizing height q with
  | zero => exact .timeout
  | succ fuel ih =>
    rw [writeLoop]
    cases hsave : rbSave lua false upval v index ⟨ringbufferPushWritePos q.rb, q.retained⟩ height with
    | undefined => exact .undefined
    | diverges => exact .diverges
    | raise e fx =>
      refine .raised (n := 1) fun fuel => ?_
      rw [writeLoop, hsave]
    | ret code fx top =>
      have htop := rbSave_top_le hi hsave
      simp only
      by_cases hmem : code = -Errno.ENOMEM.toInt
      · simp only [if_pos hmem]
        cases hgrow : ringbufferGrowBy (ringbufferPopWritePos fx.rb) inc with
        | none => exact .undefined
        | some rb =>
          refine First.retry htop (fun fuel => ?_) (ih (hi.trans htop) _)
          rw [writeLoop, hsave]
          simp only [if_pos hmem, hgrow]
      · simp only [if_neg hmem]
        by_cases hzero : code = 0
        · rw [if_neg (not_not.mpr hzero)]
          cases fuel with
          | zero => exact .timeout
          | succ fuel =>
            refine .done (n := 1) htop fun fuel => ?_
            rw [writeLoop, hsave]
            simp only [if_neg hmem, if_neg (not_not.mpr hzero)]
        · rw [if_pos hzero]
          refine .error (n := 1) fun fuel => ?_
          rw [writeLoop, hsave]
          simp only [if_neg hmem, if_pos hzero]

/-- A write of several arguments ends only if the first one alone does. -/
theorem writeLoop_alone (lua : Lua P) (upval : Bool) (inc : ℕ) (v : Value P) (vs : List (Value P))
    {index height : ℕ} (fuel : ℕ) (q : Queue) {r : Bool × List UInt64}
    (h : (writeLoop lua upval inc fuel (v :: vs) index height q).result = some r) :
    ∃ r', (writeLoop lua upval inc (fuel + 1) [v] index height q).result = some r' := by
  induction fuel generalizing height q with
  | zero => cases h
  | succ fuel ih =>
    rw [writeLoop] at h ⊢
    cases hsave : rbSave lua false upval v index ⟨ringbufferPushWritePos q.rb, q.retained⟩ height with
    | undefined => rw [hsave] at h; cases h
    | diverges => rw [hsave] at h; cases h
    | raise e fx => exact ⟨_, rfl⟩
    | ret code fx top =>
      simp only [hsave] at h
      simp only
      by_cases hmem : code = -Errno.ENOMEM.toInt
      · simp only [if_pos hmem] at h ⊢
        cases hgrow : ringbufferGrowBy (ringbufferPopWritePos fx.rb) inc with
        | none =>
          rw [hgrow] at h
          cases h
        | some rb =>
          rw [hgrow] at h
          exact ih _ h
      · simp only [if_neg hmem]
        by_cases hzero : code = 0
        · rw [if_neg (not_not.mpr hzero)]
          exact ⟨_, rfl⟩
        · rw [if_pos hzero]
          exact ⟨_, rfl⟩

end

/-! ### Who is notified -/

/-- A write that comes to an end: the queue it leaves, and whom it wakes. -/
def WriteOutcome.Ends : WriteOutcome → Queue → Wake → Prop
  | .done q, q', w => q = q' ∧ w = .one
  | .error _ q, q', w => q = q' ∧ w = .none
  | .raised _ q, q', w => q = q' ∧ w = .none
  | _, _, _ => False

section
variable {P : Type} (lua : Lua P) (upval : Bool) (inc : ℕ)

/-- `workqueue_queue_write`, or the part of `channel_write` on an open channel. -/
def Writes (vs : List (Value P)) (q q' : Queue) (w : Wake) : Prop :=
  ∃ o, Yields (fun fuel => queueWrite lua upval inc fuel vs q) o ∧ o.Ends q' w

end

/-- A call for each argument, until one of them fails. -/
inductive WritesEach {P C : Type} (write : List (Value P) → C → C → Wake → Prop) :
    List (Value P) → C → Waiters → C → Waiters → Wake → Prop where
  | nil {c r} : WritesEach write [] c r c r .one
  | cons {v vs c r c₁ c' r' w} : write [v] c c₁ .one →
      WritesEach write vs c₁ (r.wake .one) c' r' w → WritesEach write (v :: vs) c r c' r' w
  | fails {v vs c r c'} : write [v] c c' .none →
      WritesEach write (v :: vs) c r c' (r.wake .none) .none

section
variable {P : Type} {lua : Lua P} {upval : Bool} {inc : ℕ}

theorem writeLoop_locks {fuel : ℕ} {vs : List (Value P)} {index height : ℕ} {q q' : Queue}
    (h : writeLoop lua upval inc fuel vs index height q = .done q') : q'.locks = q.locks := by
  induction fuel generalizing vs index height q with
  | zero => cases h
  | succ fuel ih =>
    cases vs with
    | nil =>
      cases h
      rfl
    | cons v vs =>
      rw [writeLoop] at h
      split at h
      · split_ifs at h
        · split at h
          · have hlocks := ih h
            exact hlocks
          · cases h
        · have hlocks := ih h
          exact hlocks
      · cases h
      · cases h
      · cases h

theorem writeLoop_mono {fuel : ℕ} {vs : List (Value P)} {index height : ℕ} {q : Queue}
    {r : Bool × List UInt64} (h : (writeLoop lua upval inc fuel vs index height q).result = some r)
    (m : ℕ) :
    writeLoop lua upval inc (fuel + m) vs index height q = writeLoop lua upval inc fuel vs index height q := by
  induction fuel generalizing vs index height q with
  | zero => cases h
  | succ fuel ih =>
    rw [Nat.succ_add]
    cases vs with
    | nil => rfl
    | cons v vs =>
      rw [writeLoop] at h ⊢
      rw [writeLoop]
      split at h
      · split_ifs at h ⊢
        · split at h
          · exact ih h
          · cases h
        · rfl
        · exact ih h
      · rfl
      · rfl
      · rfl

theorem queueWrite_yields {fuel : ℕ} {vs : List (Value P)} {q : Queue} {r : Bool × List UInt64}
    (h : (queueWrite lua upval inc fuel vs q).result = some r) :
    Yields (fun fuel => queueWrite lua upval inc fuel vs q) (queueWrite lua upval inc fuel vs q) := by
  rw [queueWrite_result] at h
  refine ⟨fuel, fun fuel' hf => ?_⟩
  obtain ⟨m, rfl⟩ := Nat.exists_eq_add_of_le hf
  simp only [queueWrite, writeLoop_mono h m]

inductive FirstWrite (lua : Lua P) (upval : Bool) (inc : ℕ) (vs : List (Value P)) (f : ℕ → WriteOutcome) :
    WriteOutcome → Prop where
  | done {q n} : (∀ fuel, f (fuel + n) = queueWrite lua upval inc fuel vs q) →
      FirstWrite lua upval inc vs f (.done q)
  | error {code q n} : (∀ fuel, f (fuel + n) = .error code q) →
      FirstWrite lua upval inc vs f (.error code q)
  | raised {e q n} : (∀ fuel, f (fuel + n) = .raised e q) →
      FirstWrite lua upval inc vs f (.raised e q)

theorem queueWrite_first {v : Value P} (vs : List (Value P)) {q : Queue} {fuel : ℕ}
    {r : Bool × List UInt64} (h : (queueWrite lua upval inc fuel [v] q).result = some r) :
    FirstWrite lua upval inc vs (fun fuel => queueWrite lua upval inc fuel (v :: vs) q)
      (queueWrite lua upval inc fuel [v] q) := by
  rw [queueWrite_result] at h
  rw [queueWrite]
  have hindex : writeLoop lua upval inc fuel [v] 2 ([v].length + 1) (pthreadMutexLock q) =
      writeLoop lua upval inc fuel [v] 2 ((v :: vs).length + 1) (pthreadMutexLock q) :=
    writeLoop_index lua upval inc fuel [v] (by simp) (by simp) _
  have hfirst := writeLoop_first lua upval inc v vs (show 2 ≤ (v :: vs).length + 1 by simp) fuel
    (pthreadMutexLock q)
  rw [hindex] at h ⊢
  generalize ho : writeLoop lua upval inc fuel [v] 2 ((v :: vs).length + 1) (pthreadMutexLock q) = o
    at h hfirst
  cases hfirst with
  | @done q₁ n height' hle hf =>
    refine .done (n := n) fun fuel => ?_
    have hlocks : q₁.locks = q.locks + 1 := writeLoop_locks ho
    have hlock : pthreadMutexLock (pthreadMutexUnlock q₁) = q₁ := by
      rw [pthreadMutexLock, pthreadMutexUnlock]
      simp only [hlocks, Nat.add_sub_cancel]
      rw [← hlocks]
    rw [queueWrite, hf fuel, queueWrite, hlock]
    rw [writeLoop_index lua upval inc fuel vs (show 2 + 1 + vs.length ≤ height' + 1 by
      rw [List.length_cons] at hle; omega) (show 2 + vs.length ≤ vs.length + 1 + 1 by omega)]
  | @error code q₁ n hf =>
    refine .error (n := n) fun fuel => ?_
    rw [queueWrite, hf fuel]
  | @raised e q₁ n hf =>
    refine .raised (n := n) fun fuel => ?_
    rw [queueWrite, hf fuel]
  | undefined => cases h
  | diverges => cases h
  | timeout => cases h

theorem queueWrite_alone {v : Value P} {vs : List (Value P)} {q : Queue} {fuel : ℕ}
    {r : Bool × List UInt64} (h : (queueWrite lua upval inc fuel (v :: vs) q).result = some r) :
    ∃ r', (queueWrite lua upval inc (fuel + 1) [v] q).result = some r' := by
  rw [queueWrite_result] at h
  obtain ⟨r', hr'⟩ := writeLoop_alone lua upval inc v vs fuel (pthreadMutexLock q) h
  refine ⟨r', ?_⟩
  rw [queueWrite_result, ← hr']
  exact congrArg WriteOutcome.result (writeLoop_index lua upval inc (fuel + 1) [v] (by simp) (by simp) _)

theorem WriteOutcome.ends_of_result {o : WriteOutcome} {r : Bool × List UInt64} (h : o.result = some r) :
    ∃ q w, o.Ends q w := by
  cases o with
  | done q => exact ⟨q, _, rfl, rfl⟩
  | error code q => exact ⟨q, _, rfl, rfl⟩
  | raised e q => exact ⟨q, _, rfl, rfl⟩
  | _ => cases h

theorem WriteOutcome.Ends.result {o : WriteOutcome} {q : Queue} {w : Wake} (h : o.Ends q w) :
    ∃ ok, o.result = some (ok, q.retained) ∧ (ok = true ∧ w = .one ∨ ok = false ∧ w = .none) := by
  cases o with
  | done q' =>
    obtain ⟨rfl, rfl⟩ := h
    exact ⟨true, rfl, Or.inl ⟨rfl, rfl⟩⟩
  | error code q' =>
    obtain ⟨rfl, rfl⟩ := h
    exact ⟨false, rfl, Or.inr ⟨rfl, rfl⟩⟩
  | raised e q' =>
    obtain ⟨rfl, rfl⟩ := h
    exact ⟨false, rfl, Or.inr ⟨rfl, rfl⟩⟩
  | _ => exact h.elim

theorem WriteOutcome.Ends.unique {o : WriteOutcome} {q q' : Queue} {w w' : Wake} (h : o.Ends q w)
    (h' : o.Ends q' w') : q = q' ∧ w = w' := by
  cases o with
  | done q₀ => exact ⟨h.1.symm.trans h'.1, h.2.trans h'.2.symm⟩
  | error code q₀ => exact ⟨h.1.symm.trans h'.1, h.2.trans h'.2.symm⟩
  | raised e q₀ => exact ⟨h.1.symm.trans h'.1, h.2.trans h'.2.symm⟩
  | _ => exact h.elim

theorem Writes.unique {vs : List (Value P)} {q q₁ q₂ : Queue} {w₁ w₂ : Wake}
    (h₁ : Writes lua upval inc vs q q₁ w₁) (h₂ : Writes lua upval inc vs q q₂ w₂) : q₁ = q₂ ∧
    w₁ = w₂ := by
  obtain ⟨o₁, hy₁, he₁⟩ := h₁
  obtain ⟨o₂, hy₂, he₂⟩ := h₂
  rw [← hy₁.unique hy₂] at he₂
  exact he₁.unique he₂

theorem Writes.nil (lua : Lua P) (upval : Bool) (inc : ℕ) (q : Queue) :
    Writes lua upval inc [] q q .one := by
  refine ⟨.done q, ⟨1, fun fuel hf => ?_⟩, rfl, rfl⟩
  obtain ⟨n, rfl⟩ := Nat.exists_eq_add_of_le hf
  rw [Nat.add_comm]
  rfl

/-- A write with a first argument, from the write of that argument alone. -/
theorem Writes.cons_iff {v : Value P} {vs : List (Value P)} {q q₁ q' : Queue} {w₁ w : Wake}
    (h : Writes lua upval inc [v] q q₁ w₁) :
    Writes lua upval inc (v :: vs) q q' w ↔
      (w₁ = .one ∧ Writes lua upval inc vs q₁ q' w) ∨ (w₁ = .none ∧ q' = q₁ ∧ w = .none) := by
  obtain ⟨o, hy, he⟩ := h
  obtain ⟨fuel, ho⟩ := hy.exists
  obtain ⟨ok, hresult, -⟩ := he.result
  rw [← ho] at hresult he
  have hfirst := queueWrite_first vs hresult
  generalize queueWrite lua upval inc fuel [v] q = o' at hfirst he
  cases hfirst with
  | @done q₀ n hf =>
    obtain ⟨rfl, rfl⟩ := he
    have hshift : ∀ o, Yields (fun fuel => queueWrite lua upval inc fuel (v :: vs) q) o ↔
        Yields (fun fuel => queueWrite lua upval inc fuel vs q₀) o := fun o => yields_shift hf
    simp only [Writes, hshift, true_and, reduceCtorEq, false_and, or_false]
  | @error code q₀ n hf =>
    obtain ⟨rfl, rfl⟩ := he
    have hyields : Yields (fun fuel => queueWrite lua upval inc fuel (v :: vs) q) (.error code q₀) :=
      (yields_shift hf).mpr ⟨0, fun _ _ => rfl⟩
    constructor
    · rintro ⟨o, hy', he'⟩
      rw [hy'.unique hyields] at he'
      exact Or.inr ⟨rfl, he'.1.symm, he'.2⟩
    · rintro (⟨hw, -⟩ | ⟨-, rfl, rfl⟩)
      · cases hw
      · exact ⟨_, hyields, rfl, rfl⟩
  | @raised e q₀ n hf =>
    obtain ⟨rfl, rfl⟩ := he
    have hyields : Yields (fun fuel => queueWrite lua upval inc fuel (v :: vs) q) (.raised e q₀) :=
      (yields_shift hf).mpr ⟨0, fun _ _ => rfl⟩
    constructor
    · rintro ⟨o, hy', he'⟩
      rw [hy'.unique hyields] at he'
      exact Or.inr ⟨rfl, he'.1.symm, he'.2⟩
    · rintro (⟨hw, -⟩ | ⟨-, rfl, rfl⟩)
      · cases hw
      · exact ⟨_, hyields, rfl, rfl⟩

/-- The first argument alone is written to an end if all are. -/
theorem Writes.alone {v : Value P} {vs : List (Value P)} {q q' : Queue} {w : Wake}
    (h : Writes lua upval inc (v :: vs) q q' w) : ∃ q₁ w₁, Writes lua upval inc [v] q q₁ w₁ := by
  obtain ⟨o, hy, he⟩ := h
  obtain ⟨fuel, ho⟩ := hy.exists
  obtain ⟨ok, hresult, -⟩ := he.result
  rw [← ho] at hresult
  obtain ⟨r', hr'⟩ := queueWrite_alone hresult
  obtain ⟨q₁, w₁, he₁⟩ := WriteOutcome.ends_of_result hr'
  exact ⟨q₁, w₁, _, queueWrite_yields hr', he₁⟩

/-- How often the calls for the single arguments have signalled. -/
def Signalled (vs : List (Value P)) (r r' : Waiters) (w : Wake) : Prop :=
  ∃ j, r' = Waiters.signal^[j] r ∧ (w = .one ∧ j = vs.length ∨ w = .none ∧ j < vs.length)

theorem WritesEach.writes {vs : List (Value P)} {q q' : Queue} {r r' : Waiters} {w : Wake}
    (h : WritesEach (Writes lua upval inc) vs q r q' r' w) :
    Writes lua upval inc vs q q' w ∧ Signalled vs r r' w := by
  induction h with
  | nil => exact ⟨.nil lua upval inc _, 0, rfl, Or.inl ⟨rfl, rfl⟩⟩
  | cons h _ ih =>
    obtain ⟨hrest, j, hj, hw⟩ := ih
    refine ⟨h.cons_iff.mpr (Or.inl ⟨rfl, hrest⟩), j + 1, hj, ?_⟩
    exact hw.imp (fun h => ⟨h.1, congrArg (· + 1) h.2⟩) fun h => ⟨h.1, Nat.succ_lt_succ h.2⟩
  | fails h => exact ⟨h.cons_iff.mpr (Or.inr ⟨rfl, rfl, rfl⟩), 0, rfl, Or.inr ⟨rfl, Nat.succ_pos _⟩⟩

theorem Writes.each {vs : List (Value P)} {q q' : Queue} {w : Wake} (h : Writes lua upval inc vs q q' w)
    (r : Waiters) : ∃ r', WritesEach (Writes lua upval inc) vs q r q' r' w := by
  induction vs generalizing q r with
  | nil =>
    obtain ⟨rfl, rfl⟩ := h.unique (.nil lua upval inc q)
    exact ⟨r, .nil⟩
  | cons v vs ih =>
    obtain ⟨q₁, w₁, h₁⟩ := h.alone
    rcases h₁.cons_iff.mp h with ⟨rfl, hrest⟩ | ⟨rfl, rfl, rfl⟩
    · obtain ⟨r', hr'⟩ := ih hrest (r.wake .one)
      exact ⟨r', .cons h₁ hr'⟩
    · exact ⟨_, .fails h₁⟩

/-! ### When the single calls notify as many -/

/-- A write that signals has stored all its arguments. -/
theorem Writes.wrote {vs : List (Value P)} {q q' : Queue} (hrb : q.rb.Sound)
    (h : Writes lua upval inc vs q q' .one) : Wrote lua upval q vs q' := by
  obtain ⟨o, hy, he⟩ := h
  obtain ⟨fuel, ho⟩ := hy.exists
  cases o with
  | done q₀ =>
    obtain ⟨rfl, -⟩ := he
    exact queueWrite_wrote hrb ho
  | error code q₀ => cases he.2
  | raised e q₀ => cases he.2
  | _ => exact he.elim

/-- A write of one argument: whether it succeeds. -/
theorem Writes.single {v : Value P} {q q' : Queue} {w : Wake} (hrb : q.rb.Sound)
    (h : Writes lua upval inc [v] q q' w) :
    (w = .one → (script lua false upval v).fin = .ok ∧ q'.rb.Sound) ∧
      (Serialisable lua upval v → w = .one) ∧ (w = .one ∨ w = .none) := by
  have hwrote : w = .one → Wrote lua upval q [v] q' := fun hone => Writes.wrote hrb (hone ▸ h)
  obtain ⟨o, hy, he⟩ := h
  obtain ⟨fuel, ho⟩ := hy.exists
  obtain ⟨ok, hresult, hw⟩ := he.result
  rw [← ho] at hresult
  have hend : (GrowthLoop.queue upval inc q.numItems q.locks).Ends lua v 2 2 q.toEffects ok q'.retained :=
    ⟨fuel, hresult⟩
  refine ⟨fun hone => ?_, fun hv => ?_, hw.imp And.right And.right⟩
  · obtain rfl : ok = true := by
      rcases hw with ⟨hok, -⟩ | ⟨-, hnone⟩
      · exact hok
      · rw [hone] at hnone
        cases hnone
    exact ⟨(hend.stored hrb le_rfl).1, (hwrote hone).sound⟩
  · have hok := hend.ok_of_serialisable hrb le_rfl hv
    exact (hw.resolve_right fun h => Bool.noConfusion (hok.symm.trans h.1)).2

/-- What the success of the calls says about the arguments, and the other way. -/
theorem WritesEach.serialisable {vs : List (Value P)} {q q' : Queue} {r r' : Waiters} {w : Wake}
    (hrb : q.rb.Sound) (h : WritesEach (Writes lua upval inc) vs q r q' r' w) :
    (w = .one → ∀ v ∈ vs, (script lua false upval v).fin = .ok) ∧
      ((∀ v ∈ vs, Serialisable lua upval v) → w = .one) := by
  induction h with
  | nil => exact ⟨nofun, fun _ => rfl⟩
  | cons h _ ih =>
    obtain ⟨hok, hsound⟩ := (h.single hrb).1 rfl
    obtain ⟨hall, hone⟩ := ih hsound
    refine ⟨fun hw => List.forall_mem_cons.mpr ⟨hok, hall hw⟩, fun hvs => hone fun v hv => ?_⟩
    exact hvs v (List.mem_cons_of_mem _ hv)
  | fails h =>
    refine ⟨nofun, fun hvs => ?_⟩
    exact (h.single hrb).2.1 (hvs _ List.mem_cons_self)

/-- The calls notify as many readers as one call with all arguments: nobody waits; there
is one argument; one reader waits and everything can be written; or the first argument
is refused. -/
def NotifiesAll (lua : Lua P) (upval : Bool) (r : Waiters) (vs : List (Value P)) : Prop :=
  r.waiting = 0 ∨ vs.length = 1 ∨
    (r.waiting = 1 ∧ vs ≠ [] ∧ ∀ v ∈ vs, Serialisable lua upval v) ∨
    ∃ v rest, vs = v :: rest ∧ (script lua false upval v).fin ≠ .ok

theorem WritesEach.notified {vs : List (Value P)} {q q' : Queue} {r r' : Waiters} {w : Wake}
    (hrb : q.rb.Sound) (h : WritesEach (Writes lua upval inc) vs q r q' r' w) (hcov : NotifiesAll lua upval r vs) :
    r'.notified = (r.wake w).notified := by
  obtain ⟨-, j, hj, hw⟩ := h.writes
  have hcount : r'.notified = r.notified + min j r.waiting := by rw [hj, Waiters.signals_notified]
  have hsignal : (r.wake .one).notified = r.notified + min 1 r.waiting := r.signal_notified
  have hnone : (r.wake .none).notified = r.notified := rfl
  rcases hcov with hnobody | hlength | ⟨hone, hne, hvs⟩ | ⟨v, rest, rfl, hfin⟩
  · rcases hw with ⟨rfl, -⟩ | ⟨rfl, -⟩
    · omega
    · omega
  · rcases hw with ⟨rfl, hj⟩ | ⟨rfl, hj⟩
    · omega
    · omega
  · have hdone := (h.serialisable hrb).2 hvs
    have hlength := List.length_pos_iff.mpr hne
    rcases hw with ⟨rfl, hj⟩ | ⟨rfl, -⟩
    · omega
    · cases hdone
  -- the first call fails, and no other is made
  · cases h with
    | cons h _ => exact absurd ((h.single hrb).1 rfl).1 hfin
    | fails _ => rfl

/-- In all other cases the numbers differ, unless a function with an upvalue table is
among the keys of a table. -/
theorem WritesEach.not_notified {vs : List (Value P)} {q q' : Queue} {r r' : Waiters} {w : Wake}
    (hrb : q.rb.Sound) (h : WritesEach (Writes lua upval inc) vs q r q' r' w)
    (hkey : ∀ v ∈ vs, ∀ bs, .put bs .key ∉ (script lua false upval v).items)
    (hcov : ¬ NotifiesAll lua upval r vs) : r'.notified ≠ (r.wake w).notified := by
  obtain ⟨-, j, hj, hw⟩ := h.writes
  have hcount : r'.notified = r.notified + min j r.waiting := by rw [hj, Waiters.signals_notified]
  have hsignal : (r.wake .one).notified = r.notified + min 1 r.waiting := r.signal_notified
  have hnone : (r.wake .none).notified = r.notified := rfl
  simp only [NotifiesAll, not_or, not_and, not_exists, not_not] at hcov
  obtain ⟨hwaiting, hlength, hone, hfirst⟩ := hcov
  rcases hw with ⟨rfl, hj'⟩ | ⟨rfl, hj'⟩
  · cases vs with
    | nil =>
      rw [List.length_nil] at hj'
      omega
    | cons v rest =>
      rw [List.length_cons] at hlength hj'
      -- everything was written, so more than one reader waits
      have htwo : r.waiting ≠ 1 := fun h1 =>
        hone h1 (List.cons_ne_nil _ _) fun u hu => ⟨(h.serialisable hrb).1 rfl u hu, hkey u hu⟩
      omega
  · cases h with
    | @cons v rest _ _ q₁ _ _ _ h hrest =>
      obtain ⟨-, j', hj'', -⟩ := hrest.writes
      have hmore : r'.notified = r.notified + min (j' + 1) r.waiting := by
        rw [hj'', ← Waiters.signals_notified]
        rfl
      omega
    | @fails v rest _ _ _ h =>
      have hv : Serialisable lua upval v := ⟨hfirst v rest rfl, hkey v List.mem_cons_self⟩
      cases (h.single hrb).2.1 hv

end

end TorchIpc
