import Mathlib.Logic.Function.Iterate
import TorchIpc.Base.Monitor

/-! Monitors whose waiting calls are only counted: how many are blocked on the condition
variable, and how many have been notified and will make another pass. The rule here
proves of every run that, as long as somebody is blocked, there are no more items in the
object than notified calls that come for them. -/

namespace TorchIpc.Monitor

open Runs

/-- The calls in a wait: the blocked ones, and those that have been notified and have not
run yet. -/
structure Waiters where
  waiting : ℕ
  notified : ℕ

namespace Waiters

def signal (r : Waiters) : Waiters :=
  if r.waiting = 0 then r else ⟨r.waiting - 1, r.notified + 1⟩

def broadcast (r : Waiters) : Waiters := ⟨0, r.notified + r.waiting⟩

def wake (r : Waiters) : Wake → Waiters
  | .none => r
  | .one => r.signal
  | .all => r.broadcast

def leave (r : Waiters) (again : Bool) : Waiters :=
  if again then { r with notified := r.notified - 1 } else r

def sleep (r : Waiters) : Waiters := { r with waiting := r.waiting + 1 }

theorem signal_notified (r : Waiters) : r.signal.notified = r.notified + min 1 r.waiting := by
  rw [signal]
  split_ifs with h
  · rw [h]
    rfl
  · change r.notified + 1 = _
    omega

theorem signal_waiting (r : Waiters) : r.signal.waiting = r.waiting - 1 := by
  rw [signal]
  split_ifs with h
  · rw [h]
  · rfl

theorem signals_notified (j : ℕ) (r : Waiters) :
    (signal^[j] r).notified = r.notified + min j r.waiting := by
  induction j generalizing r with
  | zero => simp
  | succ j ih =>
    rw [Function.iterate_succ_apply, ih, signal_notified, signal_waiting]
    omega

/-- A wake-up leaves nobody blocked that was not, and takes nobody's notice back. -/
theorem wake_le (r : Waiters) (w : Wake) :
    (r.wake w).waiting ≤ r.waiting ∧ r.notified ≤ (r.wake w).notified := by
  cases w with
  | none => exact ⟨Nat.le_refl _, Nat.le_refl _⟩
  | one =>
    have hw := r.signal_waiting
    have hn := r.signal_notified
    exact ⟨by change r.signal.waiting ≤ _; omega, by change _ ≤ r.signal.notified; omega⟩
  | all => exact ⟨Nat.zero_le _, Nat.le_add_right _ _⟩

theorem leave_waiting (r : Waiters) (again : Bool) : (r.leave again).waiting = r.waiting := by
  cases again <;> rfl

theorem leave_notified (r : Waiters) (again : Bool) :
    r.notified ≤ (r.leave again).notified + 1 := by
  cases again with
  | false => exact Nat.le_succ _
  | true =>
    change r.notified ≤ r.notified - 1 + 1
    omega

end Waiters

structure Crowd (C : Type*) where
  obj : C
  waiters : Waiters

inductive CrowdEvent (K : Type*) where
  | pass (k : K) (again : Bool)
  | spurious

section
variable {C K A : Type*}

/-- A pass of the call `k`: of a new one, or again of one that was notified, if it is of
the kind that can wait. -/
inductive CrowdStep (canWait : K → Prop) (pass : K → C → Outcome C A → Prop) :
    Crowd C → CrowdEvent K → Crowd C → Prop where
  | returns {s k again a c w} : (again = true → canWait k ∧ 0 < s.waiters.notified) →
      pass k s.obj (.returns a c w) →
      CrowdStep canWait pass s (.pass k again) ⟨c, (s.waiters.leave again).wake w⟩
  | waits {s k again c} : canWait k → (again = true → 0 < s.waiters.notified) →
      pass k s.obj (.waits c) →
      CrowdStep canWait pass s (.pass k again) ⟨c, (s.waiters.leave again).sleep⟩
  | spurious {s} : 0 < s.waiters.waiting →
      CrowdStep canWait pass s .spurious
        ⟨s.obj, ⟨s.waiters.waiting - 1, s.waiters.notified + 1⟩⟩

/-- Nobody is blocked while there are more items than notified calls. -/
def Awake (items : C → ℕ) (s : Crowd C) : Prop :=
  0 < s.waiters.waiting → items s.obj ≤ s.waiters.notified

/-- What a call may do to the items without leaving somebody asleep: one that can wait
takes an item or finds none; another adds none, or adds one and signals, or signals the
only one that is blocked. -/
def Considerate (canWait : K → Prop) (items : C → ℕ) (r : Waiters) (k : K) (c c' : C) (w : Wake) :
    Prop :=
  (canWait k → items c' + 1 ≤ items c ∨ items c' = 0) ∧
    (¬ canWait k → r.waiting = 0 ∨ items c' ≤ items c ∨
      w = .one ∧ (items c' ≤ items c + 1 ∨ r.waiting = 1))

variable {canWait : K → Prop} {pass : K → C → Outcome C A → Prop} {items : C → ℕ} {s : Crowd C}

theorem Awake.returns (h : Awake items s) {k : K} {again : Bool} {c : C} {w : Wake}
    (hagain : again = true → canWait k ∧ 0 < s.waiters.notified)
    (hc : Considerate canWait items s.waiters k s.obj c w) :
    Awake items ⟨c, (s.waiters.leave again).wake w⟩ := by
  intro hblocked
  obtain ⟨hle, hge⟩ := (s.waiters.leave again).wake_le w
  have hwaiting := s.waiters.leave_waiting again
  have hnotified := s.waiters.leave_notified again
  change 0 < ((s.waiters.leave again).wake w).waiting at hblocked
  change items c ≤ ((s.waiters.leave again).wake w).notified
  have hitems := h (by omega)
  by_cases hk : canWait k
  · rcases hc.1 hk with hless | hnone
    · omega
    · omega
  · obtain rfl : again = false := by
      cases again with
      | false => rfl
      | true => exact absurd (hagain rfl).1 hk
    have hsame : s.waiters.leave false = s.waiters := rfl
    rw [hsame] at hblocked hle hge ⊢
    rcases hc.2 hk with hnobody | hless | ⟨rfl, hmore⟩
    · omega
    · omega
    · have hw : (s.waiters.wake .one).waiting = s.waiters.waiting - 1 := s.waiters.signal_waiting
      have hn : (s.waiters.wake .one).notified = _ := s.waiters.signal_notified
      omega

/-- The rule: every pass is considerate, and one that waits finds no item. -/
theorem awake_run {I : C → Prop} {Covered : Crowd C → CrowdEvent K → Prop} {c₀ : C}
    {es : List (CrowdEvent K)}
    (hrun : Run (fun s e s' => Covered s e ∧ CrowdStep canWait pass s e s') ⟨c₀, ⟨0, 0⟩⟩ es s)
    (h0 : I c₀) (hret : ∀ (s : Crowd C) k again a c w, I s.obj → Covered s (.pass k again) →
      pass k s.obj (.returns a c w) → I c ∧ Considerate canWait items s.waiters k s.obj c w)
    (hwait : ∀ k c c', I c → pass k c (.waits c') → I c' ∧ items c' = 0) : Awake items s := by
  refine (hrun.invariant (I := fun _ s => I s.obj ∧ Awake items s) ⟨h0, nofun⟩ ?_).2
  rintro _ s e s' ⟨hI, hawake⟩ ⟨hcov, hstep⟩
  cases hstep with
  | returns hagain hp =>
    obtain ⟨hI', hc⟩ := hret s _ _ _ _ _ hI hcov hp
    exact ⟨hI', hawake.returns hagain hc⟩
  | waits _ _ hp =>
    obtain ⟨hI', hnone⟩ := hwait _ _ _ hI hp
    exact ⟨hI', fun _ => Nat.le_trans (Nat.le_of_eq hnone) (Nat.zero_le _)⟩
  | spurious hpos =>
    refine ⟨hI, fun hblocked => ?_⟩
    have hitems := hawake hpos
    exact Nat.le_trans hitems (Nat.le_succ _)

end

end TorchIpc.Monitor
