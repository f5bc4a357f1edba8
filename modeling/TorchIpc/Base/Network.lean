import TorchIpc.Base.Runs
import Mathlib.Logic.Function.Basic
import Mathlib.Control.Basic
import Mathlib.Tactic

/-! Sequential processes over reliable first-in first-out links. A process sends,
receives from a named peer, connects to a peer that listens, and accepts the
connection at the head of its own backlog; sends and connects never block. A
network takes the steps of its processes in any order. -/

namespace TorchIpc.Network

open Runs

/-! ### Processes -/

/-- A process that returns an `α` or stops with an error. -/
inductive Proc (ι M ε α : Type) where
  | done (a : α)
  | fail (e : ε)
  | send (peer : ι) (m : M) (k : Proc ι M ε α)
  | recv (peer : ι) (k : M → Proc ι M ε α)
  | connect (peer : ι) (k : Proc ι M ε α)
  | accept (k : ι → Proc ι M ε α)

namespace Proc

variable {ι M ε α β : Type}

def bind : Proc ι M ε α → (α → Proc ι M ε β) → Proc ι M ε β
  | .done a, f => f a
  | .fail e, _ => .fail e
  | .send j m k, f => .send j m (k.bind f)
  | .recv j k, f => .recv j fun m => (k m).bind f
  | .connect j k, f => .connect j (k.bind f)
  | .accept k, f => .accept fun c => (k c).bind f

/-- Run the handler where the process stops with an error. -/
def catchError : Proc ι M ε α → (ε → Proc ι M ε α) → Proc ι M ε α
  | .done a, _ => .done a
  | .fail e, h => h e
  | .send j m k, h => .send j m (k.catchError h)
  | .recv j k, h => .recv j fun m => (k m).catchError h
  | .connect j k, h => .connect j (k.catchError h)
  | .accept k, h => .accept fun c => (k c).catchError h

instance : Monad (Proc ι M ε) where
  pure := .done
  bind := bind

instance : MonadExceptOf ε (Proc ι M ε) where
  throw := .fail
  tryCatch := catchError

theorem bind_done (p : Proc ι M ε α) : p.bind .done = p := by
  induction p with
  | done | fail => rfl
  | send j m k ih => rw [bind, ih]
  | recv j k ih => rw [bind]; congr 1; funext m; exact ih m
  | connect j k ih => rw [bind, ih]
  | accept k ih => rw [bind]; congr 1; funext c; exact ih c

theorem bind_bind {γ : Type} (p : Proc ι M ε α) (f : α → Proc ι M ε β)
    (g : β → Proc ι M ε γ) : (p.bind f).bind g = p.bind fun a => (f a).bind g := by
  induction p with
  | done | fail => rfl
  | send j m k ih => simp only [bind, ih]
  | recv j k ih => simp only [bind, ih]
  | connect j k ih => simp only [bind, ih]
  | accept k ih => simp only [bind, ih]

instance : LawfulMonad (Proc ι M ε) :=
  LawfulMonad.mk' (Proc ι M ε) (fun p => bind_done p) (fun _ _ => rfl) (fun p f g => bind_bind p f g)

def put (j : ι) (m : M) : Proc ι M ε Unit := .send j m (.done ())

def get (j : ι) : Proc ι M ε M := .recv j .done

def dial (j : ι) : Proc ι M ε Unit := .connect j (.done ())

def answer : Proc ι M ε ι := .accept .done

def result : Proc ι M ε α → Option α
  | .done a => some a
  | _ => none

theorem eq_done_of_result {p : Proc ι M ε α} {a : α} (h : p.result = some a) : p = .done a := by
  cases p with
  | done b => rw [Option.some.inj h]
  | _ => cases h

/-- What a sequence has returned was returned by its second part. -/
theorem bind_eq_done {p : Proc ι M ε α} {f : α → Proc ι M ε β} {b : β} (h : (p >>= f) = pure b) :
    ∃ a, p = pure a ∧ f a = pure b := by
  cases p with
  | done a => exact ⟨a, rfl, h⟩
  | _ => cases h

@[simp] theorem done_bind (a : α) (f : α → Proc ι M ε β) : (Proc.done a >>= f) = f a := rfl

@[simp] theorem throw_bind (e : ε) (f : α → Proc ι M ε β) :
    ((throw e : Proc ι M ε α) >>= f) = .fail e := rfl

@[simp] theorem put_bind (j : ι) (m : M) (f : Unit → Proc ι M ε β) :
    (put j m >>= f) = .send j m (f ()) := rfl

@[simp] theorem get_bind (j : ι) (f : M → Proc ι M ε β) : (get j >>= f) = .recv j f := rfl

@[simp] theorem dial_bind (j : ι) (f : Unit → Proc ι M ε β) : (dial j >>= f) = .connect j (f ()) :=
  rfl

@[simp] theorem answer_bind (f : ι → Proc ι M ε β) : (answer >>= f) = .accept f := rfl

end Proc

/-! ### Networks -/

variable {ι M ε α : Type} [DecidableEq ι]

/-- The processes, the messages sent from one to another and not yet received,
and the connections each has not yet accepted. -/
structure Net (ι M ε α : Type) where
  proc : ι → Proc ι M ε α
  chan : ι → ι → List M
  backlog : ι → List ι

def setLink {β : Type*} (f : ι → ι → β) (i j : ι) (b : β) : ι → ι → β :=
  fun a c => if a = i ∧ c = j then b else f a c

/-- The next step of process `i`, if it can take one. -/
def step (i : ι) (s : Net ι M ε α) : Option (Net ι M ε α) :=
  match s.proc i with
  | .done _ => none
  | .fail _ => none
  | .send j m k => some
    { s with
      proc := Function.update s.proc i k
      chan := setLink s.chan i j (s.chan i j ++ [m]) }
  | .recv j k =>
    match s.chan j i with
    | [] => none
    | m :: ms => some
      { s with
        proc := Function.update s.proc i (k m)
        chan := setLink s.chan j i ms }
  | .connect j k => some
    { s with
      proc := Function.update s.proc i k
      backlog := Function.update s.backlog j (s.backlog j ++ [i]) }
  | .accept k =>
    match s.backlog i with
    | [] => none
    | c :: cs => some
      { s with
        proc := Function.update s.proc i (k c)
        backlog := Function.update s.backlog i cs }

def Step (s : Net ι M ε α) (i : ι) (s' : Net ι M ε α) : Prop := step i s = some s'

def Stuck (s : Net ι M ε α) : Prop := ∀ i, step i s = none

def start (proc : ι → Proc ι M ε α) : Net ι M ε α := ⟨proc, fun _ _ => [], fun _ => []⟩

theorem step_cases {s s' : Net ι M ε α} {i : ι} (h : Step s i s') :
    (∃ j m k, s.proc i = .send j m k ∧
      s' = ⟨Function.update s.proc i k, setLink s.chan i j (s.chan i j ++ [m]), s.backlog⟩) ∨
    (∃ j k m ms, s.proc i = .recv j k ∧ s.chan j i = m :: ms ∧
      s' = ⟨Function.update s.proc i (k m), setLink s.chan j i ms, s.backlog⟩) ∨
    (∃ j k, s.proc i = .connect j k ∧
      s' = ⟨Function.update s.proc i k, s.chan, Function.update s.backlog j (s.backlog j ++ [i])⟩) ∨
    (∃ k c cs, s.proc i = .accept k ∧ s.backlog i = c :: cs ∧
      s' = ⟨Function.update s.proc i (k c), s.chan, Function.update s.backlog i cs⟩) := by
  unfold Step step at h
  cases hp : s.proc i with
  | done a => simp [hp] at h
  | fail e => simp [hp] at h
  | send j m k =>
    simp only [hp, Option.some.injEq] at h
    exact .inl ⟨j, m, k, rfl, h.symm⟩
  | recv j k =>
    simp only [hp] at h
    cases hc : s.chan j i with
    | nil => simp [hc] at h
    | cons m ms =>
      simp only [hc, Option.some.injEq] at h
      exact .inr (.inl ⟨j, k, m, ms, rfl, hc, h.symm⟩)
  | connect j k =>
    simp only [hp, Option.some.injEq] at h
    exact .inr (.inr (.inl ⟨j, k, rfl, h.symm⟩))
  | accept k =>
    simp only [hp] at h
    cases hb : s.backlog i with
    | nil => simp [hb] at h
    | cons c cs =>
      simp only [hb, Option.some.injEq] at h
      exact .inr (.inr (.inr ⟨k, c, cs, rfl, rfl, h.symm⟩))

/-! ### Processes that may fail early -/

/-- The first process does what the second does, but may fail with an error in `P` on the way. -/
def Proc.Cut (P : ε → Prop) : Proc ι M ε α → Proc ι M ε α → Prop
  | .done a, q => q = .done a
  | .fail e, q => P e ∨ q = .fail e
  | .send j m k, q => ∃ k', q = .send j m k' ∧ k.Cut P k'
  | .recv j k, q => ∃ k', q = .recv j k' ∧ ∀ m, (k m).Cut P (k' m)
  | .connect j k, q => ∃ k', q = .connect j k' ∧ k.Cut P k'
  | .accept k, q => ∃ k', q = .accept k' ∧ ∀ c, (k c).Cut P (k' c)

section
variable {β σ : Type} {P : ε → Prop} {p q : Proc ι M ε α} {f g : α → Proc ι M ε β}

omit [DecidableEq ι] in
theorem Proc.Cut.refl (P : ε → Prop) (p : Proc ι M ε α) : p.Cut P p := by
  induction p with
  | done a => rfl
  | fail e => exact .inr rfl
  | send j m k ih => exact ⟨k, rfl, ih⟩
  | recv j k ih => exact ⟨k, rfl, ih⟩
  | connect j k ih => exact ⟨k, rfl, ih⟩
  | accept k ih => exact ⟨k, rfl, ih⟩

omit [DecidableEq ι] in
theorem Proc.Cut.bind (h : p.Cut P q) (hf : ∀ a, (f a).Cut P (g a)) :
    (p >>= f).Cut P (q >>= g) := by
  induction p generalizing q with
  | done a =>
    obtain rfl := h
    exact hf a
  | fail e =>
    rcases h with h | rfl
    · exact .inl h
    · exact .inr rfl
  | send j m k ih =>
    obtain ⟨k', rfl, hk⟩ := h
    exact ⟨_, rfl, ih hk⟩
  | recv j k ih =>
    obtain ⟨k', rfl, hk⟩ := h
    exact ⟨_, rfl, fun m => ih m (hk m)⟩
  | connect j k ih =>
    obtain ⟨k', rfl, hk⟩ := h
    exact ⟨_, rfl, ih hk⟩
  | accept k ih =>
    obtain ⟨k', rfl, hk⟩ := h
    exact ⟨_, rfl, fun c => ih c (hk c)⟩

omit [DecidableEq ι] in
theorem Proc.Cut.foldlM {f g : σ → β → Proc ι M ε σ} (h : ∀ s c, (f s c).Cut P (g s c)) (cs : List β) (s : σ) :
    (cs.foldlM f s).Cut P (cs.foldlM g s) := by
  induction cs generalizing s with
  | nil => rfl
  | cons c cs ih =>
    rw [List.foldlM_cons, List.foldlM_cons]
    exact (h s c).bind ih

/-- The same state of a network whose processes may fail early. -/
structure CutNet (P : ι → ε → Prop) (s t : Net ι M ε α) : Prop where
  proc : ∀ i, (s.proc i).Cut (P i) (t.proc i)
  chan : s.chan = t.chan
  backlog : s.backlog = t.backlog

variable {P : ι → ε → Prop} {s s' t : Net ι M ε α} {i : ι}

theorem CutNet.update (h : CutNet P s t) {k k' : Proc ι M ε α} (hk : k.Cut (P i) k') (chan : ι → ι → List M)
    (backlog : ι → List ι) : CutNet P ⟨Function.update s.proc i k, chan, backlog⟩
      ⟨Function.update t.proc i k', chan, backlog⟩ := by
  refine ⟨fun j => ?_, rfl, rfl⟩
  by_cases hj : j = i
  · subst hj
    simpa using hk
  · simpa [hj] using h.proc j

theorem CutNet.step (h : CutNet P s t) (hs : Step s i s') : ∃ t', Step t i t' ∧ CutNet P s' t' := by
  have hi := h.proc i
  rcases step_cases hs with ⟨j, m, k, hp, rfl⟩ | ⟨j, k, m, ms, hp, hc, rfl⟩ | ⟨j, k, hp, rfl⟩ |
    ⟨k, c, cs, hp, hb, rfl⟩
  · rw [hp] at hi
    obtain ⟨k', hq, hk⟩ := hi
    refine ⟨_, by simp only [Step, Network.step, hq]; rfl, ?_⟩
    rw [h.chan, h.backlog]
    exact h.update hk _ _
  · rw [hp] at hi
    obtain ⟨k', hq, hk⟩ := hi
    refine ⟨_, by simp only [Step, Network.step, hq, ← h.chan, hc]; rfl, ?_⟩
    rw [h.backlog]
    exact h.update (hk m) _ _
  · rw [hp] at hi
    obtain ⟨k', hq, hk⟩ := hi
    refine ⟨_, by simp only [Step, Network.step, hq]; rfl, ?_⟩
    rw [h.chan, h.backlog]
    exact h.update hk _ _
  · rw [hp] at hi
    obtain ⟨k', hq, hk⟩ := hi
    refine ⟨_, by simp only [Step, Network.step, hq, ← h.backlog, hb]; rfl, ?_⟩
    rw [h.chan]
    exact h.update (hk c) _ _

/-- A run of processes that may fail early is a run of those that do not. -/
theorem CutNet.run (h : CutNet P s t) {es : List ι} (hrun : Run Step s es s') :
    ∃ t', Run Step t es t' ∧ CutNet P s' t' := by
  induction hrun with
  | nil => exact ⟨t, .nil, h⟩
  | snoc _ hs ih =>
    obtain ⟨t₁, hrun₁, h₁⟩ := ih
    obtain ⟨t₂, hstep, h₂⟩ := h₁.step hs
    exact ⟨t₂, hrun₁.snoc hstep, h₂⟩

end

/-! ### Schedules -/

/-- The processes named by a schedule take their steps one after another. -/
theorem run_of_schedule {s₀ s : Net ι M ε α} {es : List ι}
    (h : es.foldlM (fun s i => step i s) s₀ = some s) : Run Step s₀ es s := by
  induction es using List.reverseRecOn generalizing s with
  | nil =>
    cases h
    exact .nil
  | append_singleton es i ih =>
    rw [List.foldlM_append, Option.bind_eq_bind, Option.bind_eq_some_iff] at h
    obtain ⟨s', hs', hlast⟩ := h
    have hstep : step i s' = some s := by simpa using hlast
    exact (ih hs').snoc hstep

end TorchIpc.Network
