import TorchIpc.Base.Arrivals
import Mathlib.Data.Option.Basic

/-! Programs put together from others: one after the other on the same links, and over links
that carry further kinds of messages. What each part keeps to on its own, the whole keeps to. -/

namespace TorchIpc.Network

variable {ι M M' ε α β T : Type}

/-! ### Other messages on the links -/

/-- The process on links that also carry messages other than its own, which are an error to it. -/
def Proc.embed (f : M → M') (g : M' → Option M) (e : ε) : Proc ι M ε α → Proc ι M' ε α
  | .done a => .done a
  | .fail e' => .fail e'
  | .send j m k => .send j (f m) (k.embed f g e)
  | .recv j k => .recv j fun m' =>
    match g m' with
    | some m => (k m).embed f g e
    | none => .fail e
  | .connect j k => .connect j (k.embed f g e)
  | .accept k => .accept fun c => (k c).embed f g e

variable [DecidableEq ι]

/-- The plan with its messages as the links carry them. -/
def Plan.map (f : M → M') (w : Plan ι M T) : Plan ι M' T where
  out j := (w.out j).map (Prod.map id f)
  inp j := (w.inp j).map (Prod.map id f)
  dials := w.dials
  guests := w.guests

theorem Plan.map_setOut (f : M → M') (w : Plan ι M T) (j : ι) (ms : List (T × M)) :
    (w.setOut j ms).map f = (w.map f).setOut j (ms.map (Prod.map id f)) := by
  ext1
  · funext k
    by_cases hk : k = j <;> simp [Plan.map, Plan.setOut, hk]
  · rfl
  · rfl
  · rfl

theorem Plan.map_setInp (f : M → M') (w : Plan ι M T) (j : ι) (ms : List (T × M)) :
    (w.setInp j ms).map f = (w.map f).setInp j (ms.map (Prod.map id f)) := by
  ext1
  · rfl
  · funext k
    by_cases hk : k = j <;> simp [Plan.map, Plan.setInp, hk]
  · rfl
  · rfl

omit [DecidableEq ι] in
theorem Plan.Spent.map {w : Plan ι M T} (h : w.Spent) (f : M → M') : (w.map f).Spent :=
  ⟨fun j => by simp [Plan.map, h.1 j], h.2⟩

section
variable [Preorder T] {next : T → T} {Q : α → Plan ι M T → Prop} {p : Proc ι M ε α} {t : T}
  {w : Plan ι M T}

theorem Conforms.embed {P : α → Plan ι M' T → Prop} {f : M → M'} {g : M' → Option M}
    (hfg : ∀ m, g (f m) = some m) (e : ε) (h : Conforms next Q p t w)
    (hP : ∀ a w', Q a w' → P a (w'.map f)) : Conforms next P (p.embed f g e) t (w.map f) := by
  induction p generalizing t w with
  | done a => exact ⟨h.1.map f, hP a w h.2⟩
  | fail e' => exact h.elim
  | send j m k ih =>
    obtain ⟨τ, rest, hout, hτ, hk⟩ := h
    refine ⟨τ, rest.map (Prod.map id f), by simp [Plan.map, hout], hτ, ?_⟩
    rw [← Plan.map_setOut]
    exact ih hk
  | recv j k ih =>
    obtain ⟨τ, m, rest, t', hinp, ht, hτ, hk⟩ := h
    rw [Proc.embed]
    refine ⟨τ, f m, rest.map (Prod.map id f), t', by simp [Plan.map, hinp], ht, hτ, ?_⟩
    rw [← Plan.map_setInp]
    simp only [hfg]
    exact ih m hk
  | connect j k ih => exact ⟨h.1, ih h.2⟩
  | accept k ih => exact ⟨h.1, fun c hc => ih c (h.2 c hc)⟩

/-- What becomes of the messages does not depend on the arrivals. -/
theorem Conforms.embed_foretold {Q : α × List ι → Plan ι (Option M) T → Prop}
    {P : α × List ι → Plan ι (Option M') T → Prop} {future : List ι} {w : Plan ι (Option M) T}
    {f : M → M'} {g : M' → Option M} (hfg : ∀ m, g (f m) = some m) (e : ε) (h : Conforms next Q (p.foretold future) t w)
    (hP : ∀ a w', Q a w' → P a (w'.map (Option.map f))) :
    Conforms next P ((p.embed f g e).foretold future) t (w.map (Option.map f)) := by
  induction p generalizing future t w with
  | done a => exact ⟨h.1.map _, hP _ w h.2⟩
  | fail e' => exact h.elim
  | send j m k ih =>
    obtain ⟨τ, rest, hout, hτ, hk⟩ := h
    refine ⟨τ, rest.map (Prod.map id (Option.map f)), by simp [Plan.map, hout], hτ, ?_⟩
    rw [← Plan.map_setOut]
    exact ih hk
  | recv j k ih =>
    rw [Proc.foretold] at h
    obtain ⟨τ, m, rest, t', hinp, ht, hτ, hk⟩ := h
    cases m with
    | none => exact hk.elim
    | some m =>
      rw [Proc.embed, Proc.foretold]
      refine ⟨τ, some (f m), rest.map (Prod.map id (Option.map f)), t', by simp [Plan.map, hinp], ht, hτ, ?_⟩
      rw [← Plan.map_setInp]
      simp only [hfg]
      exact ih m hk
  | connect j k ih =>
    obtain ⟨τ, rest, hout, hτ, hk⟩ := h
    refine ⟨τ, rest.map (Prod.map id (Option.map f)), by simp [Plan.map, hout], hτ, ?_⟩
    rw [← Plan.map_setOut]
    exact ih hk
  | accept k ih =>
    cases future with
    | nil => exact h.elim
    | cons c future =>
      rw [Proc.foretold] at h
      obtain ⟨τ, m, rest, t', hinp, ht, hτ, hk⟩ := h
      cases m with
      | some m => exact hk.elim
      | none =>
        rw [Proc.embed, Proc.foretold]
        refine ⟨τ, none, rest.map (Prod.map id (Option.map f)), t', by simp [Plan.map, hinp], ht, hτ, ?_⟩
        rw [← Plan.map_setInp]
        exact ih c hk

/-- A process that neither connects nor accepts needs no foretelling. -/
theorem Conforms.foretold {P : α × List ι → Plan ι (Option M) T → Prop} (future : List ι)
    (h : Conforms next Q p t w) (hdials : w.dials = ∅) (hguests : w.guests = ∅)
    (hP : ∀ a w', Q a w' → P (a, future) (w'.map some)) :
    Conforms next P (p.foretold future) t (w.map some) := by
  induction p generalizing t w with
  | done a => exact ⟨h.1.map some, hP a w h.2⟩
  | fail e => exact h.elim
  | send j m k ih =>
    obtain ⟨τ, rest, hout, hτ, hk⟩ := h
    refine ⟨τ, rest.map (Prod.map id some), by simp [Plan.map, hout], hτ, ?_⟩
    rw [← Plan.map_setOut]
    exact ih hk hdials hguests
  | recv j k ih =>
    obtain ⟨τ, m, rest, t', hinp, ht, hτ, hk⟩ := h
    rw [Proc.foretold]
    refine ⟨τ, some m, rest.map (Prod.map id some), t', by simp [Plan.map, hinp], ht, hτ, ?_⟩
    rw [← Plan.map_setInp]
    exact ih m hk hdials hguests
  | connect j k ih => simp [Conforms, hdials] at h
  | accept k ih => simp [Conforms, hguests] at h

end

/-! ### Counting the steps -/

/-- A run that has come to its end has sent and received every message of the script, and done
nothing else. -/
theorem length_of_conforms [Fintype ι] [Preorder T] {next : T → T} {proc : ι → Proc ι M ε α} {t : T}
    {script : ι → ι → List (T × M)}
    (hconf : ∀ i, Conforms next (fun _ w => ∀ j, w.inp j = []) (proc i) t (planOf script i))
    {es : List ι} {s : Net ι M ε α} (hrun : Runs.Run Step (start proc) es s)
    (hdone : ∀ i, ∃ a, s.proc i = .done a) : es.length = 2 * ∑ i, ∑ j, (script i j).length := by
  have h0 : Agrees next (fun _ _ w => ∀ j, w.inp j = []) (start proc) (planOf script) (fun _ => t)
      fun _ _ => [] :=
    agrees_start hconf (fun _ _ => rfl) fun _ _ => by simp [planOf]
  obtain ⟨plan, clock, wire, h, hlen, hguests⟩ := h0.run hrun
  have hnone : remaining plan = 0 := by
    apply Finset.sum_eq_zero
    intro i _
    obtain ⟨a, ha⟩ := hdone i
    obtain ⟨⟨hout, hdials⟩, hinp⟩ := h.of_done ha
    have hg : (plan i).guests = ∅ := Finset.subset_empty.mp (hguests i)
    simp [Plan.size, hout, hdials, hinp, hg]
  have hall : remaining (planOf script) = 2 * ∑ i, ∑ j, (script i j).length := by
    simp only [remaining, Plan.size, planOf, Finset.card_empty, Nat.add_zero, Finset.sum_add_distrib]
    rw [Finset.sum_comm (f := fun i j => (script j i).length), two_mul]
  omega

/-- A network whose runs are bounded has one that cannot go on. -/
theorem exists_stuck {proc : ι → Proc ι M ε α} {bound : ℕ}
    (h : ∀ es s, Runs.Run Step (start proc) es s → es.length ≤ bound) :
    ∃ es s, Runs.Run Step (start proc) es s ∧ Stuck s := by
  by_contra hnone
  have hlong : ∀ k, ∃ es s, Runs.Run Step (start proc) es s ∧ es.length = k := by
    intro k
    induction k with
    | zero => exact ⟨[], _, .nil, rfl⟩
    | succ k ih =>
      obtain ⟨es, s, hrun, hlen⟩ := ih
      have hgo : ¬ Stuck s := fun hstuck => hnone ⟨es, s, hrun, hstuck⟩
      unfold Stuck at hgo
      push Not at hgo
      obtain ⟨i, hi⟩ := hgo
      obtain ⟨s', hs'⟩ := Option.ne_none_iff_exists'.mp hi
      exact ⟨es ++ [i], s', hrun.snoc hs', by simp [hlen]⟩
  obtain ⟨es, s, hrun, hlen⟩ := hlong (bound + 1)
  have := h es s hrun
  omega

/-! ### One after the other -/

def Plan.followed (w : Plan ι M T) (out inp : ι → List (T × M)) : Plan ι M T :=
  { w with
    out := fun j => w.out j ++ out j
    inp := fun j => w.inp j ++ inp j }

theorem Plan.followed_setOut (w : Plan ι M T) (out inp : ι → List (T × M)) (j : ι) (ms : List (T × M)) :
    (w.setOut j ms).followed out inp = (w.followed out inp).setOut j (ms ++ out j) := by
  ext1
  · funext k
    by_cases hk : k = j
    · subst hk
      simp [Plan.followed, Plan.setOut]
    · simp [Plan.followed, Plan.setOut, hk]
  · rfl
  · rfl
  · rfl

theorem Plan.followed_setInp (w : Plan ι M T) (out inp : ι → List (T × M)) (j : ι) (ms : List (T × M)) :
    (w.setInp j ms).followed out inp = (w.followed out inp).setInp j (ms ++ inp j) := by
  ext1
  · rfl
  · funext k
    by_cases hk : k = j
    · subst hk
      simp [Plan.followed, Plan.setInp]
    · simp [Plan.followed, Plan.setInp, hk]
  · rfl
  · rfl

section
variable [LinearOrder T] {next : T → T} {Q : α → Plan ι M T → Prop} {P : β → Plan ι M T → Prop}
  {p : Proc ι M ε α} {f : α → Proc ι M ε β} {t B : T} {w : Plan ι M T}

/-- The second part may leave its first messages to the end of the first, when all that the first
receives is stamped before `B`; what the first has not received lies ahead of it. -/
theorem Conforms.bind (out inp : ι → List (T × M)) (h : Conforms next Q p t w)
    (hB : ∀ j, ∀ x ∈ w.inp j, next x.1 ≤ B) (ht : t ≤ B)
    (hk : ∀ a w', Q a w' → Conforms next P (f a) B ⟨out, fun j => w'.inp j ++ inp j, ∅, w'.guests⟩) :
    Conforms next P (p >>= f) t (w.followed out inp) := by
  change Conforms next P (p.bind f) t (w.followed out inp)
  induction p generalizing t w with
  | done a =>
    have hplan : w.followed out inp = ⟨out, fun j => w.inp j ++ inp j, ∅, w.guests⟩ := by
      simp [Plan.followed, h.1.1, h.1.2]
    rw [hplan]
    exact (hk a w h.2).anti ht
  | fail e => exact h.elim
  | send j m k ih =>
    obtain ⟨τ, rest, hout, hτ, hk'⟩ := h
    refine ⟨τ, rest ++ out j, by simp [Plan.followed, hout], hτ, ?_⟩
    rw [← Plan.followed_setOut]
    exact ih hk' hB ht
  | recv j k ih =>
    obtain ⟨τ, m, rest, t', hinp, ht', hτ, hk'⟩ := h
    have hτB : next τ ≤ B := hB j (τ, m) (by simp [hinp])
    -- the clock need not go further than the message received
    refine ⟨τ, m, rest ++ inp j, max t (next τ), by simp [Plan.followed, hinp], le_max_left _ _,
      le_max_right _ _, ?_⟩
    rw [← Plan.followed_setInp]
    apply ih m (hk'.anti (max_le ht' hτ)) _ (max_le ht hτB)
    intro j' x hx
    by_cases hj : j' = j
    · subst hj
      rw [Plan.setInp_inp] at hx
      exact hB j' x (by simp [hinp, hx])
    · rw [Plan.setInp_inp_of_ne w hj] at hx
      exact hB j' x hx
  | connect j k ih => exact ⟨h.1, ih h.2 hB ht⟩
  | accept k ih => exact ⟨h.1, fun c hc => ih c (h.2 c hc) hB ht⟩

/-- Messages that nobody reads do no harm behind the others. -/
theorem Conforms.unread {P : α → Plan ι M T → Prop} (inp : ι → List (T × M)) (h : Conforms next Q p t w)
    (hB : ∀ j, ∀ x ∈ w.inp j, next x.1 ≤ B) (ht : t ≤ B)
    (hP : ∀ a w', Q a w' → P a ⟨fun _ => [], fun j => w'.inp j ++ inp j, ∅, w'.guests⟩) :
    Conforms next P p t (w.followed (fun _ => []) inp) := by
  have := h.bind (f := pure) (fun _ => []) inp hB ht fun a w' ha =>
    ⟨⟨fun _ => rfl, rfl⟩, hP a w' ha⟩
  rwa [bind_pure] at this

end

end TorchIpc.Network
