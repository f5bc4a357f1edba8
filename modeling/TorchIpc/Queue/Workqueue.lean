import TorchIpc.Base.Monitor
import TorchIpc.Queue.Items

/-! The calls on a queue, and one direction of a workqueue (`workqueue.c`) as a
monitor: a write is one pass, a read makes a pass each time it gets the mutex.
Every pass of a workqueue acts on the stored items as a queue does. -/

namespace TorchIpc

open Runs Monitor

/-- `STATUS_OPEN`, `STATUS_CLOSED`, `STATUS_DRAINED`. -/
inductive Status where
  | OPEN
  | CLOSED
  | DRAINED
  deriving Repr, DecidableEq

def Status.toNat : Status → ℕ
  | .OPEN => 0
  | .CLOSED => 1
  | .DRAINED => 2

/-- A call, with the Lua stack of a reader below its results. -/
inductive Call (P : Type) where
  | write (vs : List (Value P))
  | read (doNotBlock : Bool) (stack : List (Value P))
  | close

/-- What a call did. Only channels answer with a status. -/
inductive Reply (P : Type) where
  | wrote (vs : List (Value P))
  | refused (status : Status)
  | took (status : Option Status) (v : Value P)
  | nothing (status : Option Status)
  | closed
  | failed

section
variable {P C : Type}

def Reply.adds : Reply P → List (Value P)
  | .wrote vs => vs
  | _ => []

def Reply.takes : Reply P → List (Value P)
  | .took _ v => [v]
  | _ => []

/-- How one pass of a read ends: `rb_load` returned a code and left a stack; there
was nothing to read; the thread waits; or `rb_load` raised an error. -/
inductive ReadOutcome (P C : Type) where
  | value (status : Option Status) (code : ℤ) (stack : List (Value P)) (obj : C) (wakesAll : Bool)
  | nothing (status : Option Status) (obj : C)
  | wait (obj : C)
  | raised (obj : C)
  | undefined
  | timeout

/-- What the reader makes of a pass, if its results go on top of `base`. -/
inductive ReadOutcome.Replies (base : List (Value P)) :
    ReadOutcome P C → Outcome C (Reply P) → Prop where
  | took {status v c wakesAll} : Replies base (.value status 1 (v :: base) c wakesAll)
      (.returns (.took status v) c (if wakesAll then .all else .none))
  | failed {status code stack c wakesAll} : (¬ ∃ v, code = 1 ∧ stack = v :: base) →
      Replies base (.value status code stack c wakesAll)
        (.returns .failed c (if wakesAll then .all else .none))
  | nothing {status c} : Replies base (.nothing status c) (.returns (.nothing status) c .none)
  | wait {c} : Replies base (.wait c) (.waits c)
  | raised {c} : Replies base (.raised c) (.returns .failed c .none)
  | undefined {c} : Replies base .undefined (.returns .failed c .none)

@[simp] theorem unlock_lock (q : Queue) : pthreadMutexUnlock (pthreadMutexLock q) = q := rfl

/-! ### One direction of a workqueue -/

def workqueueInitQueue (size : ℕ) : Queue where
  rb := ringbufferCreate size
  retained := []
  numItems := 0
  locks := 0

theorem workqueueInitQueue_stored (lua : Lua P) (size : ℕ) :
    Stored lua (workqueueInitQueue size) [] :=
  ⟨Ringbuffer.create_sound size, by simp [workqueueInitQueue], rfl, rfl, by simp, by simp⟩

variable (lua : Lua P)

/-- A pass of `workqueue_queue_read`, from getting the mutex to giving it back. -/
def workqueueQueueRead (doNotBlock : Bool) (stack : List (Value P)) (q : Queue) (fuel : ℕ) :
    ReadOutcome P Queue :=
  let q := pthreadMutexLock q
  if q.numItems ≠ 0 then
    match rbLoad lua fuel q.rb stack with
    | .ret ret rb stack =>
      .value none ret stack
        (pthreadMutexUnlock { q with rb := rb, numItems := q.numItems - 1 }) false
    | .raise rb => .raised { q with rb := rb }
    | .undefined => .undefined
    | .timeout => .timeout
  else if doNotBlock then .nothing none (pthreadMutexUnlock q)
  else .wait (pthreadMutexUnlock q)

/-- The passes of a workqueue direction whose writes succeed. -/
def workqueuePass (sizeIncrement : ℕ) : Call P → Queue → Outcome Queue (Reply P) → Prop
  | .write vs, q, o =>
    q.locks = 0 ∧ (∀ v ∈ vs, v.Wf lua) ∧
      ∃ q', Yields (fun fuel => queueWrite lua false sizeIncrement fuel vs q) (.done q') ∧
        o = .returns (.wrote vs) q' .one
  | .read doNotBlock stack, q, o =>
    q.locks = 0 ∧ ∃ r, Yields (workqueueQueueRead lua doNotBlock stack q) r ∧ r.Replies stack o
  | .close, _, _ => False

/-- The write does not overflow the counter. -/
def CountFits : Call P → Queue → Prop
  | .write vs, q => q.numItems.toNat + vs.length < 2 ^ 32
  | _, _ => True

variable {lua}

/-- A read takes the oldest item, or finds the queue empty. -/
theorem workqueueQueueRead_stored (hl : lua.Rebuilds) {q : Queue} {pending : List (Value P)}
    (hs : Stored lua q pending) (doNotBlock : Bool) (stack : List (Value P)) :
    (∃ v rest q', pending = v :: rest ∧ Stored lua q' rest ∧
      Yields (workqueueQueueRead lua doNotBlock stack q)
        (.value none 1 (v.received :: stack) q' false)) ∨
    (pending = [] ∧ Yields (workqueueQueueRead lua doNotBlock stack q)
      (if doNotBlock then .nothing none q else .wait q)) := by
  cases pending with
  | nil =>
    right
    have h0 : q.numItems = 0 := hs.numItems_eq_zero.mpr rfl
    refine ⟨rfl, 0, fun fuel _ => ?_⟩
    simp only [workqueueQueueRead]
    rw [if_neg (by simp [pthreadMutexLock, h0]), unlock_lock]
  | cons v rest =>
    left
    have hne : (pthreadMutexLock q).numItems ≠ 0 := fun h0 => by
      simpa using hs.numItems_eq_zero.mp h0
    obtain ⟨rb, ⟨n, hn⟩, hrest⟩ := hs.load hl stack
    refine ⟨v, rest, { q with rb := rb, numItems := q.numItems - 1 }, rfl, hrest, n,
      fun fuel hf => ?_⟩
    have hload : rbLoad lua fuel (pthreadMutexLock q).rb stack =
        .ret 1 rb (v.received :: stack) := hn fuel hf
    simp only [workqueueQueueRead, hload]
    rw [if_pos hne]
    rfl

/-- Every pass that does not overflow the counter acts on the stored items as the
pass of a queue does; none fails. -/
theorem workqueuePass_stored (hl : lua.Rebuilds) {inc : ℕ} {k : Call P} {q : Queue}
    {o : Outcome Queue (Reply P)} {pending : List (Value P)} (hs : Stored lua q pending)
    (hfit : CountFits k q) (hp : workqueuePass lua inc k q o) :
    (∃ vs q', o = .returns (.wrote vs) q' .one ∧ Stored lua q' (pending ++ vs)) ∨
    (∃ v rest q', o = .returns (.took none v.received) q' .none ∧ pending = v :: rest ∧
      Stored lua q' rest) ∨
    (o = .returns (.nothing none) q .none ∧ pending = []) ∨
    (o = .waits q ∧ pending = []) := by
  cases k with
  | write vs =>
    obtain ⟨_, hwf, q', hy, rfl⟩ := hp
    obtain ⟨fuel, hdone⟩ := hy.exists
    exact Or.inl ⟨vs, q', rfl, hs.write hwf hfit hdone⟩
  | read doNotBlock stack =>
    obtain ⟨_, r, hy, hreply⟩ := hp
    rcases workqueueQueueRead_stored hl hs doNotBlock stack with
      ⟨v, rest, q', hpend, hs', hy'⟩ | ⟨hpend, hy'⟩
    · rw [hy.unique hy'] at hreply
      cases hreply with
      | took => exact Or.inr (Or.inl ⟨v, rest, q', rfl, hpend, hs'⟩)
      | failed hno => exact absurd ⟨_, rfl, rfl⟩ hno
    · rw [hy.unique hy'] at hreply
      cases doNotBlock with
      | true =>
        cases hreply
        exact Or.inr (Or.inr (Or.inl ⟨rfl, hpend⟩))
      | false =>
        cases hreply
        exact Or.inr (Or.inr (Or.inr ⟨rfl, hpend⟩))
  | close => exact hp.elim

end

end TorchIpc
