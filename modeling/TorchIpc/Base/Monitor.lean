import TorchIpc.Base.Runs
import Mathlib.Logic.Function.Basic

/-! Monitors: an object behind a mutex with one condition variable. A call takes
the mutex and makes a pass over the object; the pass either returns, possibly
waking waiting calls, or waits, and then makes another pass some time after it is
notified. A signal wakes at least one waiting call, a broadcast all of them, and a
call may also wake for no reason. The rules here prove of every run that items go
through the object in order, and that nobody waits once some condition is
reached. -/

namespace TorchIpc.Monitor

open Runs

/-- What a thread does: nothing, or a call that waits or has been notified. -/
inductive Activity (K : Type*) where
  | idle
  | waiting (call : K)
  | notified (call : K)

inductive Wake where
  | none
  | one
  | all

inductive Outcome (C A : Type*) where
  | returns (reply : A) (obj : C) (wake : Wake)
  | waits (obj : C)

structure Shared (T C K : Type*) where
  obj : C
  thread : T → Activity K

section
variable {T C K A V R : Type*}

def Wakes (w : Wake) (a b : T → Activity K) : Prop :=
  match w with
  | .none => b = a
  | .one =>
    (∀ t, b t = a t ∨ ∃ k, a t = .waiting k ∧ b t = .notified k) ∧
      ((∃ t k, a t = .waiting k) → ∃ t k, a t = .waiting k ∧ b t = .notified k)
  | .all => ∀ t, b t = match a t with
    | .waiting k => .notified k
    | x => x

theorem Wakes.of_waiting {w : Wake} {a b : T → Activity K} (h : Wakes w a b) {t : T} {k : K}
    (ht : b t = .waiting k) : w ≠ .all ∧ a t = .waiting k := by
  cases w with
  | none =>
    rw [show b = a from h] at ht
    exact ⟨nofun, ht⟩
  | one =>
    rcases h.1 t with he | ⟨k', _, he⟩
    · exact ⟨nofun, he ▸ ht⟩
    · rw [he] at ht
      exact absurd ht nofun
  | all =>
    have he := h t
    cases ha : a t with
    | idle => simp [he, ha] at ht
    | waiting k' => simp [he, ha] at ht
    | notified k' => simp [he, ha] at ht

variable [DecidableEq T]

/-- A pass of the call `k` of thread `t`, which is idle or has been notified. -/
inductive Step (pass : K → C → Outcome C A → Prop) :
    Shared T C K → Option A → Shared T C K → Prop where
  | returns {s t k a c w b} : s.thread t = .idle ∨ s.thread t = .notified k →
      pass k s.obj (.returns a c w) → Wakes w (Function.update s.thread t .idle) b →
      Step pass s (some a) ⟨c, b⟩
  | waits {s t k c} : s.thread t = .idle ∨ s.thread t = .notified k →
      pass k s.obj (.waits c) → Step pass s none ⟨c, Function.update s.thread t (.waiting k)⟩
  | spurious {s t k} : s.thread t = .waiting k →
      Step pass s none ⟨s.obj, Function.update s.thread t (.notified k)⟩

def start (c : C) : Shared T C K := ⟨c, fun _ => .idle⟩

variable {pass : K → C → Outcome C A → Prop} {c₀ : C} {es : List (Option A)} {s : Shared T C K}

/-- The replies of the calls that have returned, in the order of their last passes. -/
def replies (es : List (Option A)) : List A := es.filterMap id

@[simp] theorem replies_some (es : List (Option A)) (a : A) :
    replies (es ++ [some a]) = replies es ++ [a] := by
  simp [replies]

@[simp] theorem replies_none (es : List (Option A)) : replies (es ++ [none]) = replies es := by
  simp [replies]

/-- An invariant of the object and the replies: what one pass keeps, every run keeps. -/
theorem run_invariant {I : List A → C → Prop} (hrun : Run (Step pass) (start c₀) es s)
    (h0 : I [] c₀)
    (hret : ∀ as k c a c' w, I as c → pass k c (.returns a c' w) → I (as ++ [a]) c')
    (hwait : ∀ as k c c', I as c → pass k c (.waits c') → I as c') :
    I (replies es) s.obj := by
  refine hrun.invariant (I := fun es (s : Shared T C K) => I (replies es) s.obj) h0 ?_
  intro es s e s' hI hstep
  cases hstep with
  | returns _ hp _ =>
    rw [replies_some]
    exact hret _ _ _ _ _ _ hI hp
  | waits _ hp =>
    rw [replies_none]
    exact hwait _ _ _ _ hI hp
  | spurious _ =>
    rw [replies_none]
    exact hI

/-- First in, first out. `Rep` says that the object holds a list of items; a reply
tells the items it `adds` and the results it `takes`, where an item `v` comes out as
`f v`. -/
theorem fifo_run {Rep : C → List V → Prop} {adds : A → List V} {takes : A → List R} {f : V → R}
    (hrun : Run (Step pass) (start c₀) es s) (h0 : Rep c₀ [])
    (hret : ∀ k c a c' w pending, Rep c pending → pass k c (.returns a c' w) →
      ∃ front pending', pending ++ adds a = front ++ pending' ∧ takes a = front.map f ∧
        Rep c' pending')
    (hwait : ∀ k c c' pending, Rep c pending → pass k c (.waits c') → Rep c' pending) :
    ∃ taken pending, (replies es).flatMap adds = taken ++ pending ∧
      (replies es).flatMap takes = taken.map f ∧ Rep s.obj pending := by
  refine run_invariant (I := fun as c => ∃ taken pending, as.flatMap adds = taken ++ pending ∧
    as.flatMap takes = taken.map f ∧ Rep c pending) hrun ⟨[], [], rfl, rfl, h0⟩ ?_ ?_
  · rintro as k c a c' w ⟨taken, pending, hadds, htakes, hrep⟩ hp
    obtain ⟨front, pending', hfront, htake, hrep'⟩ := hret k c a c' w pending hrep hp
    refine ⟨taken ++ front, pending', ?_, ?_, hrep'⟩
    · rw [List.flatMap_append, List.flatMap_singleton, hadds, List.append_assoc, hfront,
        List.append_assoc]
    · rw [List.flatMap_append, List.flatMap_singleton, htakes, htake, List.map_append]
  · rintro as k c c' ⟨taken, pending, hadds, htakes, hrep⟩ hp
    exact ⟨taken, pending, hadds, htakes, hwait k c c' pending hrep hp⟩

/-- Nobody waits un-notified once `Closed` holds, if a pass that establishes it wakes
all and no pass waits under it. -/
theorem run_no_waiter {I : List A → C → Prop} (Closed : C → Prop)
    (hrun : Run (Step pass) (start c₀) es s) (hI : ∀ es s, Run (Step pass) (start c₀) es s →
      I (replies es) (s : Shared T C K).obj)
    (hret : ∀ as k c a c' w, I as c → pass k c (.returns a c' w) → Closed c' →
      Closed c ∨ w = .all)
    (hwait : ∀ as k c c', I as c → pass k c (.waits c') → ¬ Closed c') :
    Closed s.obj → ∀ t k, s.thread t ≠ .waiting k := by
  induction hrun with
  | nil => exact fun _ t k => nofun
  | snoc hpre hstep ih =>
    have hinv := hI _ _ hpre
    cases hstep with
    | @returns t k a c w b _ hp hw =>
      intro hc t' k' ht'
      obtain ⟨hne, hbefore⟩ := hw.of_waiting ht'
      have hclosed := (hret _ _ _ _ _ _ hinv hp hc).resolve_right hne
      rcases eq_or_ne t' t with rfl | hdiff
      · simp at hbefore
      · rw [Function.update_of_ne hdiff] at hbefore
        exact ih hclosed t' k' hbefore
    | waits _ hp => exact fun hc => absurd hc (hwait _ _ _ _ hinv hp)
    | @spurious t k ht =>
      intro hc t' k' ht'
      rcases eq_or_ne t' t with rfl | hdiff
      · simp at ht'
      · simp only [Function.update_of_ne hdiff] at ht'
        exact ih hc t' k' ht'

end

end TorchIpc.Monitor
