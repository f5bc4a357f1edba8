import Mathlib.Data.List.Basic

/-! Two ways of saying what a machine does: the value that a function with a fuel
argument settles on, and the runs of a labelled step relation, with the rule that
proves an invariant of the history and the state together. -/

namespace TorchIpc.Runs

/-! ### Fuel -/

section
variable {α : Type*}

/-- From some fuel on, the result is `a`. -/
def Yields (f : ℕ → α) (a : α) : Prop := ∃ n, ∀ fuel ≥ n, f fuel = a

theorem Yields.unique {f : ℕ → α} {a b : α} (ha : Yields f a) (hb : Yields f b) : a = b := by
  obtain ⟨n, hn⟩ := ha
  obtain ⟨m, hm⟩ := hb
  exact (hn (max n m) (by omega)).symm.trans (hm (max n m) (by omega))

/-- A function that takes `n` more steps to the same results. -/
theorem yields_shift {f g : ℕ → α} {n : ℕ} (h : ∀ fuel, f (fuel + n) = g fuel) {a : α} :
    Yields f a ↔ Yields g a := by
  constructor
  · rintro ⟨m, hm⟩
    exact ⟨m, fun fuel hf => (h fuel).symm.trans (hm (fuel + n) (by omega))⟩
  · rintro ⟨m, hm⟩
    refine ⟨m + n, fun fuel hf => ?_⟩
    have hfuel := h (fuel - n)
    rw [Nat.sub_add_cancel (by omega)] at hfuel
    exact hfuel.trans (hm (fuel - n) (by omega))

theorem yields_map_iff {β : Type*} {f : ℕ → α} {g : α → β} (hg : ∀ a a', g a = g a' → a = a')
    {b : β} :
    Yields (fun fuel => g (f fuel)) b ↔ ∃ a, g a = b ∧ Yields f a := by
  constructor
  · rintro ⟨n, hn⟩
    exact ⟨f n, hn n (Nat.le_refl n), n, fun fuel hf => hg _ _ ((hn fuel hf).trans (hn n (Nat.le_refl n)).symm)⟩
  · rintro ⟨a, rfl, n, hn⟩
    exact ⟨n, fun fuel hf => congrArg g (hn fuel hf)⟩

theorem Yields.exists {f : ℕ → α} {a : α} (h : Yields f a) : ∃ fuel, f fuel = a := by
  obtain ⟨n, hn⟩ := h
  exact ⟨n, hn n (Nat.le_refl n)⟩

end

/-! ### Runs -/

section
variable {σ ε : Type*}

/-- The runs from `s₀`, with their events in order. -/
inductive Run (step : σ → ε → σ → Prop) (s₀ : σ) : List ε → σ → Prop where
  | nil : Run step s₀ [] s₀
  | snoc {es e s s'} : Run step s₀ es s → step s e s' → Run step s₀ (es ++ [e]) s'

variable {step : σ → ε → σ → Prop} {s₀ s s' : σ} {es es' : List ε}

/-- What holds of the empty history and is kept by every step holds of every run. -/
theorem Run.invariant {I : List ε → σ → Prop} (hrun : Run step s₀ es s) (h0 : I [] s₀)
    (hstep : ∀ es s e s', I es s → step s e s' → I (es ++ [e]) s') : I es s := by
  induction hrun with
  | nil => exact h0
  | snoc _ hs ih => exact hstep _ _ _ _ ih hs

theorem Run.append (h : Run step s₀ es s) (h' : Run step s es' s') :
    Run step s₀ (es ++ es') s' := by
  induction h' with
  | nil => rwa [List.append_nil]
  | snoc _ hs ih =>
    rw [← List.append_assoc]
    exact ih.snoc hs

theorem Run.split {e : ε} (h : Run step s₀ (es ++ e :: es') s) :
    ∃ s₁ s₂, Run step s₀ es s₁ ∧ step s₁ e s₂ ∧ Run step s₂ es' s := by
  generalize heq : es ++ e :: es' = all at h
  induction h generalizing es' with
  | nil => simp at heq
  | @snoc init e' s s' hrun hs ih =>
    rcases List.eq_nil_or_concat es' with rfl | ⟨rest, last, rfl⟩
    · obtain ⟨rfl, hlast⟩ := List.append_inj' heq rfl
      obtain rfl := List.singleton_inj.mp hlast
      exact ⟨s, s', hrun, hs, .nil⟩
    · rw [List.concat_eq_append, ← List.cons_append, ← List.append_assoc] at heq
      obtain ⟨hinit, hlast⟩ := List.append_inj' heq rfl
      obtain rfl := List.singleton_inj.mp hlast
      obtain ⟨s₁, s₂, hbefore, hstep, hafter⟩ := ih hinit
      rw [List.concat_eq_append]
      exact ⟨s₁, s₂, hbefore, hstep, hafter.snoc hs⟩

theorem Run.mono {step' : σ → ε → σ → Prop} (hmono : ∀ s e s', step s e s' → step' s e s')
    (h : Run step s₀ es s) : Run step' s₀ es s := by
  induction h with
  | nil => exact .nil
  | snoc _ hs ih => exact ih.snoc (hmono _ _ _ hs)

end

end TorchIpc.Runs
