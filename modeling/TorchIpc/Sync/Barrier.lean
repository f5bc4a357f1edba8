import Mathlib.Data.Fintype.Card
import TorchIpc.Base.Monitor

/-! `mutex_barrier` of `mutex.c`. The call counts itself under the mutex; the last one
wakes all the others and clears the counter, and the others wait on the condition
variable. There is no generation number, and nothing is looked at again after the wait.
Proved here: when as many threads take part as the barrier counts, and no wait ends
without a broadcast, then nobody returns from a barrier that somebody has not entered. -/

namespace TorchIpc

open Runs Monitor

/-- What the call does before it waits or returns: the new value of `mutex->barrier`,
and whether it broadcasts. -/
def mutexBarrier (count barrier : ℤ) : ℤ × Bool :=
  let barrier := barrier + 1
  if barrier = count then (0, true) else (barrier, false)

/-- A mutex and the threads that meet at it, with the number of barriers that each has
entered and has returned from. A waiting call has nothing to remember. -/
structure Barrier (T : Type*) where
  barrier : ℤ
  thread : T → Activity Unit
  entered : T → ℕ
  returned : T → ℕ

inductive BarrierEvent (T : Type*) where
  | enters (t : T)
  | wakes (t : T)
  | leaves (t : T)

namespace Barrier

section
variable {T : Type*} [DecidableEq T]

def start : Barrier T := ⟨0, fun _ => .idle, fun _ => 0, fun _ => 0⟩

/-- The code between two waits runs under the mutex and is one step. A wait ends after a
broadcast, or for no reason (`wakes`). -/
inductive Step (count : ℤ) : Barrier T → BarrierEvent T → Barrier T → Prop where
  | passes {s t barrier threads} : s.thread t = .idle →
      mutexBarrier count s.barrier = (barrier, true) →
      Wakes .all s.thread threads →
      Step count s (.enters t)
        { barrier := barrier
          thread := threads
          entered := Function.update s.entered t (s.entered t + 1)
          returned := Function.update s.returned t (s.returned t + 1) }
  | waits {s t barrier} : s.thread t = .idle → mutexBarrier count s.barrier = (barrier, false) →
      Step count s (.enters t)
        { s with
          barrier := barrier
          thread := Function.update s.thread t (.waiting ())
          entered := Function.update s.entered t (s.entered t + 1) }
  | wakes {s t} : s.thread t = .waiting () →
      Step count s (.wakes t) { s with thread := Function.update s.thread t (.notified ()) }
  | leaves {s t} : s.thread t = .notified () →
      Step count s (.leaves t)
        { s with
          thread := Function.update s.thread t .idle
          returned := Function.update s.returned t (s.returned t + 1) }

def Covered : BarrierEvent T → Prop
  | .wakes _ => False
  | _ => True

def CoveredStep (count : ℤ) (s : Barrier T) (e : BarrierEvent T) (s' : Barrier T) : Prop :=
  Covered e ∧ Step count s e s'

variable [Fintype T]

/-- Nobody has returned from a barrier before `count` threads have entered it. -/
def Separates (count : ℤ) (s : Barrier T) : Prop :=
  ∀ t k, k ≤ s.returned t → count ≤ ((Finset.univ.filter fun u => k ≤ s.entered u).card : ℤ)

/-! ### What every run keeps -/

/-- How far a thread is when `g` barriers have opened. -/
def Place (g : ℕ) : Activity Unit → ℕ → ℕ → Prop
  | .idle, entered, returned => entered = g ∧ returned = g
  | .waiting _, entered, returned => entered = g + 1 ∧ returned = g
  | .notified _, entered, returned => entered = g ∧ returned + 1 = g

def isWaiting : Activity Unit → Bool
  | .waiting _ => true
  | _ => false

@[simp] theorem isWaiting_idle : isWaiting .idle = false := rfl
@[simp] theorem isWaiting_waiting (k : Unit) : isWaiting (.waiting k) = true := rfl
@[simp] theorem isWaiting_notified (k : Unit) : isWaiting (.notified k) = false := rfl

/-- The counter is the number of the threads that wait. -/
structure Inv (s : Barrier T) (g : ℕ) : Prop where
  place : ∀ t, Place g (s.thread t) (s.entered t) (s.returned t)
  barrier_eq : s.barrier = (Finset.univ.filter fun t => isWaiting (s.thread t)).card

variable {s s' : Barrier T} {g : ℕ} {count : ℤ}

omit [DecidableEq T] in
theorem Inv.start : Inv (start : Barrier T) 0 where
  place _ := ⟨rfl, rfl⟩
  barrier_eq := by simp [Barrier.start]

/-- The threads that wait, when one of them begins to. -/
theorem waiting_update {threads : T → Activity Unit} {t : T} (ht : isWaiting (threads t) = false) :
    (Finset.univ.filter fun u => isWaiting (Function.update threads t (.waiting ()) u)) =
      insert t (Finset.univ.filter fun u => isWaiting (threads u)) := by
  ext u
  rcases eq_or_ne u t with rfl | hne
  · simp
  · simp [hne]

/-- The one who opens the barrier finds all others waiting. -/
theorem Inv.all_waiting (h : s.Inv g) (hcount : (Fintype.card T : ℤ) = count)
    (hlast : s.barrier + 1 = count) {t : T} (ht : s.thread t = .idle) {u : T} (hu : u ≠ t) :
    s.thread u = .waiting () := by
  have hnot : t ∉ Finset.univ.filter fun u => isWaiting (s.thread u) := by simp [ht]
  have hall : insert t (Finset.univ.filter fun u => isWaiting (s.thread u)) = Finset.univ := by
    rw [← Finset.card_eq_iff_eq_univ, Finset.card_insert_of_notMem hnot]
    have hb := h.barrier_eq
    omega
  have hmem : u ∈ insert t (Finset.univ.filter fun u => isWaiting (s.thread u)) := by
    rw [hall]
    exact Finset.mem_univ u
  have hw : isWaiting (s.thread u) = true := by simpa [hu] using hmem
  cases hx : s.thread u with
  | waiting => rfl
  | idle => simp [hx] at hw
  | notified => simp [hx] at hw

theorem Inv.passes (h : s.Inv g) (hcount : (Fintype.card T : ℤ) = count) {t : T} {barrier : ℤ}
    {threads : T → Activity Unit} (ht : s.thread t = .idle)
    (hpass : mutexBarrier count s.barrier = (barrier, true)) (hwake : Wakes .all s.thread threads) :
    Inv
      { barrier := barrier
        thread := threads
        entered := Function.update s.entered t (s.entered t + 1)
        returned := Function.update s.returned t (s.returned t + 1) } (g + 1) := by
  have hlast : s.barrier + 1 = count ∧ barrier = 0 := by
    simp only [mutexBarrier] at hpass
    split_ifs at hpass with hb
    · exact ⟨hb, (congrArg Prod.fst hpass).symm⟩
    · cases hpass
  constructor
  · intro u
    have hplace := h.place u
    have hu := hwake u
    rcases eq_or_ne u t with rfl | hne
    · rw [ht] at hplace hu
      simp only [Function.update_self, hu]
      exact ⟨congrArg (· + 1) hplace.1, congrArg (· + 1) hplace.2⟩
    · rw [h.all_waiting hcount hlast.1 ht hne] at hplace hu
      simp only [Function.update_of_ne hne, hu]
      exact ⟨hplace.1, congrArg (· + 1) hplace.2⟩
  · have hnone : ∀ u, isWaiting (threads u) = false := by
      intro u
      rw [hwake u]
      cases s.thread u <;> rfl
    simp [hnone, hlast.2]

theorem Inv.waits (h : s.Inv g) {t : T} {barrier : ℤ} (ht : s.thread t = .idle)
    (hpass : mutexBarrier count s.barrier = (barrier, false)) :
    Inv
      { s with
        barrier := barrier
        thread := Function.update s.thread t (.waiting ())
        entered := Function.update s.entered t (s.entered t + 1) } g := by
  have hbarrier : s.barrier + 1 = barrier := by
    simp only [mutexBarrier] at hpass
    split_ifs at hpass
    · cases hpass
    · exact congrArg Prod.fst hpass
  constructor
  · intro u
    have hplace := h.place u
    rcases eq_or_ne u t with rfl | hne
    · rw [ht] at hplace
      simp only [Function.update_self]
      exact ⟨congrArg (· + 1) hplace.1, hplace.2⟩
    · simp only [Function.update_of_ne hne]
      exact hplace
  · have hidle : isWaiting (s.thread t) = false := by rw [ht]; rfl
    rw [waiting_update hidle, Finset.card_insert_of_notMem (by simp [hidle]), ← hbarrier, h.barrier_eq]
    push_cast
    rfl

theorem Inv.leaves (h : s.Inv g) {t : T} (ht : s.thread t = .notified ()) :
    Inv
      { s with
        thread := Function.update s.thread t .idle
        returned := Function.update s.returned t (s.returned t + 1) } g := by
  constructor
  · intro u
    have hplace := h.place u
    rcases eq_or_ne u t with rfl | hne
    · rw [ht] at hplace
      simp only [Function.update_self]
      exact hplace
    · simp only [Function.update_of_ne hne]
      exact hplace
  · have hsame : ∀ u, isWaiting (Function.update s.thread t .idle u) = isWaiting (s.thread u) := by
      intro u
      rcases eq_or_ne u t with rfl | hne
      · rw [Function.update_self, ht]
        rfl
      · rw [Function.update_of_ne hne]
    simp only [hsame]
    exact h.barrier_eq

theorem Inv.step (h : s.Inv g) (hcount : (Fintype.card T : ℤ) = count) {e : BarrierEvent T}
    (hstep : CoveredStep count s e s') : ∃ g', s'.Inv g' := by
  obtain ⟨hcov, hstep⟩ := hstep
  cases hstep with
  | passes ht hpass hwake => exact ⟨g + 1, h.passes hcount ht hpass hwake⟩
  | waits ht hpass => exact ⟨g, h.waits ht hpass⟩
  | wakes _ => exact hcov.elim
  | leaves ht => exact ⟨g, h.leaves ht⟩

omit [DecidableEq T] in
/-- Everybody has entered every barrier that somebody has returned from. -/
theorem Inv.separates (h : s.Inv g) (hcount : (Fintype.card T : ℤ) = count) :
    s.Separates count := by
  intro t k hk
  have ht : s.returned t ≤ g := by
    have hplace := h.place t
    cases hx : s.thread t <;> rw [hx] at hplace <;> have := hplace.2 <;> omega
  have hall : ∀ u, k ≤ s.entered u := by
    intro u
    have hplace := h.place u
    cases hx : s.thread u <;> rw [hx] at hplace <;> have := hplace.1 <;> omega
  simp [hall, hcount]

end

end Barrier

/-- In every run in which no wait ends for no reason, of as many threads as the barrier
counts, nobody has returned from its `k`-th barrier before all have entered their
`k`-th. -/
theorem barrier_separates {T : Type*} [DecidableEq T] [Fintype T] {count : ℤ}
    (hcount : (Fintype.card T : ℤ) = count) {es : List (BarrierEvent T)} {s : Barrier T}
    (hrun : Run (Barrier.CoveredStep count) .start es s) : s.Separates count := by
  obtain ⟨g, hg⟩ : ∃ g, s.Inv g :=
    hrun.invariant (I := fun _ s => ∃ g, s.Inv g) ⟨0, .start⟩ fun _ _ _ _ ⟨_, h⟩ hs =>
      h.step hcount hs
  exact hg.separates hcount

def oneWaits : Barrier Bool :=
  ⟨1, Function.update (fun _ => .idle) false (.waiting ()), Function.update (fun _ => 0) false 1, fun _ => 0⟩

theorem oneWaits_step : Barrier.Step 2 .start (.enters false) oneWaits := .waits rfl rfl

/-- Two threads meet once. -/
theorem barrier_separates_two : ∃ s : Barrier Bool, s.returned true = 1 ∧ s.Separates 2 := by
  have h₁ : Barrier.CoveredStep 2 .start (.enters false) oneWaits := ⟨trivial, oneWaits_step⟩
  have h₂ : Barrier.CoveredStep 2 oneWaits (.enters true) _ :=
    ⟨trivial, .passes rfl rfl fun _ => rfl⟩
  exact ⟨_, rfl, barrier_separates rfl ((Run.nil.snoc h₁).snoc h₂)⟩

/-- One of two threads waits, wakes for no reason, and returns alone. -/
theorem barrier_opens_early : ∃ es, ∃ s : Barrier Bool,
    Run (Barrier.Step 2) .start es s ∧ ¬ s.Separates 2 := by
  have h₂ : Barrier.Step 2 oneWaits (.wakes false) _ := .wakes rfl
  have h₃ : Barrier.Step 2
      { oneWaits with thread := Function.update oneWaits.thread false (.notified ()) }
      (.leaves false) _ := .leaves rfl
  refine ⟨_, _, ((Run.nil.snoc oneWaits_step).snoc h₂).snoc h₃, fun h => ?_⟩
  exact absurd (h false 1 (by decide)) (by decide)

end TorchIpc
