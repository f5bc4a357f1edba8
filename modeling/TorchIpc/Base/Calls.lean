import TorchIpc.Base.Runs

/-! Programs that make calls and go on with their answers. A kernel says which answers
it may give in which state of the world, and what they make of it. The weakest
precondition of a program is a condition on the world under which every call it makes
is in order and every result it returns is as wanted; it composes along `bind`, and it
holds of every trace. On top are sessions: an object served by one program for each
request, any number of times and in any order. -/

namespace TorchIpc.Calls

open Runs

universe u v w x

/-- `done a` returns, `call c next` goes on with the answer to `c`, and at `stop` the
fuel of a loop is used up. -/
inductive Prog (C : Type u) (A : C → Type v) (α : Type w) where
  | done (a : α)
  | call (c : C) (next : A c → Prog C A α)
  | stop

namespace Prog

variable {C : Type u} {A : C → Type v} {α β : Type w}

def bind : Prog C A α → (α → Prog C A β) → Prog C A β
  | done a, f => f a
  | call c next, f => call c fun a => (next a).bind f
  | stop, _ => stop

instance : Monad (Prog C A) where
  pure := done
  bind := bind

def ask {C : Type u} {A : C → Type w} (c : C) : Prog C A (A c) := call c done

theorem bind_eq (p : Prog C A α) (f : α → Prog C A β) : p >>= f = p.bind f := rfl

end Prog

/-- Which answers may come in a state of the world, and the state after. -/
structure Kernel (W : Type x) (C : Type u) (A : C → Type v) where
  may : W → (c : C) → A c → Prop
  after : W → (c : C) → A c → W

section
variable {C : Type u} {A : C → Type v} {W : Type x} {α β : Type w}

/-! ### Traces -/

/-- The program makes these calls, with these answers, and is left with the rest. -/
inductive Makes (K : Kernel W C A) :
    Prog C A α → W → List ((c : C) × A c) → Prog C A α → W → Prop where
  | nil {p w} : Makes K p w [] p w
  | call {c next a w es p w'} : K.may w c a → Makes K (next a) (K.after w c a) es p w' →
      Makes K (.call c next) w (⟨c, a⟩ :: es) p w'

/-- The kernel that gives only answers of some kind. -/
def Kernel.restrict (K : Kernel W C A) (extra : (c : C) → A c → Prop) : Kernel W C A where
  may w c a := K.may w c a ∧ extra c a
  after := K.after

variable {K : Kernel W C A} {p p' : Prog C A α} {w w' : W} {es : List ((c : C) × A c)}

theorem Makes.restrict {extra : (c : C) → A c → Prop} (h : Makes K p w es p' w')
    (hes : ∀ e ∈ es, extra e.1 e.2) : Makes (K.restrict extra) p w es p' w' := by
  induction h with
  | nil => exact .nil
  | call hmay _ ih =>
    rw [List.forall_mem_cons] at hes
    exact .call ⟨hmay, hes.1⟩ (ih hes.2)

theorem Makes.at_call {es' : List ((c : C) × A c)} {c : C} {a : A c}
    (h : Makes K p w (es ++ ⟨c, a⟩ :: es') p' w') :
    ∃ next w₁, Makes K p w es (.call c next) w₁ := by
  induction es generalizing p w with
  | nil =>
    cases h
    exact ⟨_, _, .nil⟩
  | cons e es ih =>
    cases h with
    | call hmay hrest =>
      obtain ⟨next, w₁, hmakes⟩ := ih hrest
      exact ⟨next, w₁, .call hmay hmakes⟩

/-! ### Weakest preconditions -/

/-- Every call is `ok` where it is made and every result is as `Q` says; the program
runs out of fuel only if `stop`. -/
def wp (K : Kernel W C A) (ok : W → C → Prop) (stop : Prop) :
    Prog C A α → (α → W → Prop) → W → Prop
  | .done a, Q, w => Q a w
  | .call c next, Q, w => ok w c ∧ ∀ a, K.may w c a → wp K ok stop (next a) Q (K.after w c a)
  | .stop, _, _ => stop

variable {ok : W → C → Prop} {stop : Prop} {Q Q' : α → W → Prop}

@[simp] theorem wp_done {a : α} : wp K ok stop (.done a) Q w ↔ Q a w := Iff.rfl

@[simp] theorem wp_pure {a : α} : wp K ok stop (pure a) Q w ↔ Q a w := Iff.rfl

@[simp] theorem wp_stop : wp K ok stop (.stop : Prog C A α) Q w ↔ stop := Iff.rfl

theorem wp_call {c : C} {next : A c → Prog C A α} : wp K ok stop (.call c next) Q w ↔
    ok w c ∧ ∀ a, K.may w c a → wp K ok stop (next a) Q (K.after w c a) := Iff.rfl

theorem wp_bind {p : Prog C A α} {f : α → Prog C A β} {Q : β → W → Prop} :
    wp K ok stop (p >>= f) Q w ↔ wp K ok stop p (fun a => wp K ok stop (f a) Q) w := by
  rw [Prog.bind_eq]
  induction p generalizing w with
  | done => exact Iff.rfl
  | stop => exact Iff.rfl
  | call c next ih =>
    simp only [Prog.bind, wp_call]
    exact and_congr_right fun _ => forall₂_congr fun a _ => ih a

theorem wp_mono (h : wp K ok stop p Q w) (hQ : ∀ a w, Q a w → Q' a w) :
    wp K ok stop p Q' w := by
  induction p generalizing w with
  | done a => exact hQ a w h
  | stop => exact h
  | call c next ih => exact ⟨h.1, fun a ha => ih a (h.2 a ha)⟩

/-! ### Soundness -/

/-- What holds before some calls holds of the rest of the program after them. -/
theorem Makes.wp (h : Makes K p w es p' w') (hp : wp K ok stop p Q w) :
    Calls.wp K ok stop p' Q w' := by
  induction h with
  | nil => exact hp
  | call hmay _ ih => exact ih (hp.2 _ hmay)

theorem Makes.returns {a : α} (h : Makes K p w es (.done a) w') (hp : Calls.wp K ok stop p Q w) :
    Q a w' := h.wp hp

/-- What a call that is in order keeps, the whole trace keeps. -/
theorem Makes.keeps {J : W → Prop} (h : Makes K p w es p' w') (hp : Calls.wp K ok stop p Q w)
    (hstep : ∀ w c a, J w → ok w c → K.may w c a → J (K.after w c a)) (hw : J w) : J w' := by
  induction h with
  | nil => exact hw
  | call hmay _ ih => exact ih (hp.2 _ hmay) (hstep _ _ _ hw hp.1 hmay)

/-- The calls of a trace are in order where they are made. -/
theorem Makes.ok_call {c : C} {next : A c → Prog C A α} (h : Makes K p w es (.call c next) w')
    (hp : Calls.wp K ok stop p Q w) : ok w' c := (h.wp hp).1

/-- What is in order of a call by itself holds of every call of a trace. -/
theorem Makes.forall_calls {P : C → Prop} (h : Makes K p w es p' w')
    (hp : Calls.wp K (fun _ => P) stop p Q w) : ∀ e ∈ es, P e.1 := by
  intro e he
  obtain ⟨before, after, rfl⟩ := List.append_of_mem he
  obtain ⟨next, w₁, hmakes⟩ := h.at_call
  exact hmakes.ok_call hp

end

/-! ### Programs with a state, that may raise -/

abbrev Proc (C : Type u) (A : C → Type v) (σ ε : Type w) := ExceptT ε (StateT σ (Prog C A))

namespace Proc

variable {C : Type u} {W : Type x} {σ ε α β : Type w}

def ask {A : C → Type w} (c : C) : Proc C A σ ε (A c) :=
  ExceptT.mk fun s => .call c fun a => .done (.ok a, s)

variable {A : C → Type v} (K : Kernel W C A) (ok : W → C → Prop) (stop : Prop)

/-- A loop whose fuel is used up. -/
def exhausted : Proc C A σ ε α := ExceptT.mk fun _ => .stop

/-- The weakest precondition on the state and the world. -/
def wp (x : Proc C A σ ε α) (Q : Except ε α → σ → W → Prop) (s : σ) (w : W) : Prop :=
  Calls.wp K ok stop (x.run.run s) (fun r => Q r.1 r.2) w

variable {K ok stop} {Q Q' : Except ε α → σ → W → Prop} {s : σ} {w : W}

@[simp] theorem wp_pure {a : α} : wp K ok stop (pure a) Q s w ↔ Q (.ok a) s w := Iff.rfl

@[simp] theorem wp_throw {e : ε} : wp K ok stop (throw e) Q s w ↔ Q (.error e) s w := Iff.rfl

@[simp] theorem wp_get {Q : Except ε σ → σ → W → Prop} :
    wp K ok stop get Q s w ↔ Q (.ok s) s w := Iff.rfl

@[simp] theorem wp_set {Q : Except ε PUnit → σ → W → Prop} {s' : σ} :
    wp K ok stop (set s') Q s w ↔ Q (.ok ⟨⟩) s' w := Iff.rfl

@[simp] theorem wp_modify {Q : Except ε PUnit → σ → W → Prop} {f : σ → σ} :
    wp K ok stop (modify f) Q s w ↔ Q (.ok ⟨⟩) (f s) w := Iff.rfl

theorem wp_ask {A : C → Type w} {K : Kernel W C A} {c : C} {Q : Except ε (A c) → σ → W → Prop} :
    wp K ok stop (ask c) Q s w ↔ ok w c ∧ ∀ a, K.may w c a → Q (.ok a) s (K.after w c a) := Iff.rfl

@[simp] theorem wp_exhausted : wp K ok stop (exhausted : Proc C A σ ε α) Q s w ↔ stop := Iff.rfl

theorem wp_bind {x : Proc C A σ ε α} {f : α → Proc C A σ ε β} {Q : Except ε β → σ → W → Prop} :
    wp K ok stop (x >>= f) Q s w ↔ wp K ok stop x (fun r s w => match r with
      | .ok a => wp K ok stop (f a) Q s w
      | .error e => Q (.error e) s w) s w := by
  have hrun : ((x >>= f).run.run s : Prog C A (Except ε β × σ)) = x.run.run s >>= fun r =>
      match r.1 with
      | .ok a => (f a).run.run r.2
      | .error e => .done (.error e, r.2) := by
    refine congrArg (Prog.bind (x.run.run s)) (funext fun r => ?_)
    rcases r with ⟨_ | a, s⟩ <;> rfl
  rw [wp, hrun, Calls.wp_bind, wp]
  refine iff_of_eq (congrFun (congrArg (Calls.wp K ok stop _) (funext fun r => funext fun w => ?_)) w)
  rcases r with ⟨_ | a, s⟩ <;> rfl

theorem wp_get_bind {f : σ → Proc C A σ ε β} {Q : Except ε β → σ → W → Prop} :
    wp K ok stop (get >>= f) Q s w ↔ wp K ok stop (f s) Q s w := Iff.rfl

theorem wp_set_bind {s' : σ} {f : PUnit → Proc C A σ ε β} {Q : Except ε β → σ → W → Prop} :
    wp K ok stop (set s' >>= f) Q s w ↔ wp K ok stop (f ⟨⟩) Q s' w := Iff.rfl

theorem wp_modify_bind {g : σ → σ} {f : PUnit → Proc C A σ ε β} {Q : Except ε β → σ → W → Prop} :
    wp K ok stop (modify g >>= f) Q s w ↔ wp K ok stop (f ⟨⟩) Q (g s) w := Iff.rfl

theorem wp_mono {x : Proc C A σ ε α} (h : wp K ok stop x Q s w)
    (hQ : ∀ r s w, Q r s w → Q' r s w) : wp K ok stop x Q' s w :=
  Calls.wp_mono h fun r => hQ r.1 r.2

end Proc

/-! ### Histories -/

/-- What holds at every place of a history, and at one more event. -/
theorem forall_split_snoc {ε : Type u} {es : List ε} {e : ε} {P : List ε → ε → Prop}
    (h : ∀ before e' after, es = before ++ e' :: after → P before e') (hlast : P es e) :
    ∀ before e' after, es ++ [e] = before ++ e' :: after → P before e' := by
  intro before e' after heq
  rcases List.eq_nil_or_concat after with rfl | ⟨rest, last, rfl⟩
  · obtain ⟨rfl, hsame⟩ := List.append_inj' heq rfl
    obtain rfl := List.singleton_inj.mp hsame
    exact hlast
  · rw [List.concat_eq_append, ← List.cons_append, ← List.append_assoc] at heq
    obtain ⟨hinit, -⟩ := List.append_inj' heq rfl
    exact h before e' rest hinit

/-! ### Sessions -/

/-- An object, the world around it, and whether a request is still being served. -/
structure Session (σ : Type w) (W : Type x) where
  object : σ
  world : W
  pending : Bool

/-- A request, the calls made for it, and its result if it has returned. -/
structure Served (Req : Type w) (β : Type w) (C : Type u) (A : C → Type v) where
  request : Req
  calls : List ((c : C) × A c)
  result : Option β

section
variable {C : Type u} {A : C → Type v} {W : Type x} {σ Req β : Type w}

/-- One request at a time is served; one that does not return is the last. -/
inductive Serves (K : Kernel W C A) (serve : Req → ℕ → σ → Prog C A (β × σ)) :
    Session σ W → Served Req β C A → Session σ W → Prop where
  | returned {r fuel s w calls b s' w'} : Makes K (serve r fuel s) w calls (.done (b, s')) w' →
      Serves K serve ⟨s, w, false⟩ ⟨r, calls, some b⟩ ⟨s', w', false⟩
  | pending {r fuel s w calls p w'} : Makes K (serve r fuel s) w calls p w' →
      Serves K serve ⟨s, w, false⟩ ⟨r, calls, none⟩ ⟨s, w', true⟩

end

end TorchIpc.Calls
