import Mathlib.Data.List.Forall2

/-! Runs of a deterministic machine that answers every input, and the rule by
which one machine refines another: a relation between their states that good
inputs preserve, while any other input makes them disagree at once. The machines
then agree all along a permitted run exactly when its inputs are good. -/

namespace TorchIpc.Simulation

variable {ι ο σ τ : Type*}

/-- The answer to each input and the state after it. -/
def trace (step : σ → ι → ο × σ) : σ → List ι → List (ο × σ)
  | _, [] => []
  | s, i :: is => step s i :: trace step (step s i).2 is

/-- Every input is permitted in the state that it meets. -/
def Permitted (step : σ → ι → ο × σ) (ok : σ → ι → Prop) : σ → List ι → Prop
  | _, [] => True
  | s, i :: is => ok s i ∧ Permitted step ok (step s i).2 is

instance (step : σ → ι → ο × σ) (ok : σ → ι → Prop) [∀ s i, Decidable (ok s i)] :
    ∀ s is, Decidable (Permitted step ok s is)
  | _, [] => .isTrue trivial
  | s, i :: is =>
    have := instDecidablePermitted step ok (step s i).2 is
    inferInstanceAs (Decidable (ok s i ∧ Permitted step ok (step s i).2 is))

theorem trace_forall₂_iff {stepA : σ → ι → ο × σ} {stepB : τ → ι → ο × τ} {ok good : τ → ι → Prop}
    {R : σ → τ → Prop} {Agree : ο × σ → ο × τ → Prop}
    (hgood : ∀ s t i, R s t → ok t i → good t i →
      Agree (stepA s i) (stepB t i) ∧ R (stepA s i).2 (stepB t i).2)
    (hbad : ∀ s t i, R s t → Agree (stepA s i) (stepB t i) → good t i)
    (is : List ι) (s : σ) (t : τ) (hR : R s t) (hok : Permitted stepB ok t is) :
    List.Forall₂ Agree (trace stepA s is) (trace stepB t is) ↔ Permitted stepB good t is := by
  induction is generalizing s t with
  | nil => exact iff_of_true .nil trivial
  | cons i is ih =>
    obtain ⟨hi, hrest⟩ := hok
    rw [trace, trace, List.forall₂_cons]
    constructor
    · rintro ⟨hagree, htail⟩
      have hg := hbad s t i hR hagree
      exact ⟨hg, (ih _ _ (hgood s t i hR hi hg).2 hrest).mp htail⟩
    · rintro ⟨hg, htail⟩
      obtain ⟨hagree, hR'⟩ := hgood s t i hR hi hg
      exact ⟨hagree, (ih _ _ hR' hrest).mpr htail⟩

end TorchIpc.Simulation
