import Mathlib.Data.List.Basic
import Mathlib.Control.Basic

/-! Two programs side by side, in different monads: the second does what the first does, and its
result is the image of the first one's result. -/

namespace TorchIpc

variable {ε : Type} {m m' : Type → Type} [Monad m] [Monad m'] [MonadExceptOf ε m]
  [MonadExceptOf ε m']

variable (ε) in
/-- `rel g p p'` is to say that `p'` does what `p` does, and that its result is the image under
`g`. -/
structure Lifting (rel : ∀ {α β : Type}, (α → β) → m α → m' β → Prop) : Prop where
  ret {α β : Type} {g : α → β} (a : α) : rel g (pure a) (pure (g a))
  bind {α β γ δ : Type} {g : α → β} {h : γ → δ} {p : m α} {p' : m' β} {f : α → m γ}
    {f' : β → m' δ} :
    rel g p p' → (∀ a, rel h (f a) (f' (g a))) → rel h (p >>= f) (p' >>= f')
  throw {α β : Type} {g : α → β} (e : ε) : rel g (throw e) (throw e)

variable {rel : ∀ {α β : Type}, (α → β) → m α → m' β → Prop} {α β γ δ : Type} {g : α → β}

namespace Lifting

theorem map (hr : Lifting ε rel) {h : γ → δ} {p : m α} {p' : m' β} {f : α → γ} {f' : β → δ}
    (hp : rel g p p') (hf : ∀ a, f' (g a) = h (f a)) :
    rel h (p >>= fun a => pure (f a)) (p' >>= fun b => pure (f' b)) := by
  apply hr.bind hp
  intro a
  rw [hf]
  exact hr.ret (f a)

theorem mapM [LawfulMonad m] [LawfulMonad m'] (hr : Lifting ε rel) {f : γ → m α} {f' : γ → m' β}
    {xs : List γ} (hf : ∀ x ∈ xs, rel g (f x) (f' x)) :
    rel (List.map g) (xs.mapM f) (xs.mapM f') := by
  induction xs with
  | nil => exact hr.ret []
  | cons x xs ih =>
    rw [List.mapM_cons, List.mapM_cons]
    apply hr.bind (hf x List.mem_cons_self)
    intro y
    exact hr.map (ih fun x' hx' => hf x' (List.mem_cons_of_mem x hx')) fun ys => rfl

theorem foldlM (hr : Lifting ε rel) {f : α → γ → m α} {f' : β → γ → m' β}
    (hf : ∀ a c, rel g (f a c) (f' (g a) c)) (cs : List γ) (a : α) :
    rel g (cs.foldlM f a) (cs.foldlM f' (g a)) := by
  induction cs generalizing a with
  | nil => exact hr.ret a
  | cons c cs ih =>
    rw [List.foldlM_cons, List.foldlM_cons]
    exact hr.bind (hf a c) ih

/-- A counter beside both does not matter. -/
theorem counted (hr : Lifting ε rel) : Lifting ε fun {α β : Type} (g : α → β) (p : StateT ℕ m α)
    (p' : StateT ℕ m' β) => ∀ n, rel (Prod.map g id) (p.run n) (p'.run n) where
  ret a n := hr.ret (a, n)
  bind hp hf n := hr.bind (hp n) fun r => hf r.1 r.2
  throw e n := hr.bind (hr.throw e) fun a => hr.ret (a, n)

end Lifting

end TorchIpc
