import TorchIpc.Base.Scripts
import Mathlib.Data.Fintype.List
import Mathlib.Data.List.ReduceOption

/-! Networks in which several processes race to connect to one. Once it is fixed who
arrives in which order, a connection is a message like any other and to accept it is to
receive it, so that the scripts of a network may depend on the order. A run follows the
script of the order in which its own connections were made: if for every order the
processes keep to a script, every run of the network comes to an end. -/

namespace TorchIpc.Network

open Runs

variable {ι M ε α β T : Type}

/-! ### Foretold arrivals -/

namespace Proc

/-- The process for which the peers in the list connect, in this order. A connection is the
message `none`; the error `none` is an arrival other than the one foretold. -/
def foretold : Proc ι M ε α → List ι → Proc ι (Option M) (Option ε) (α × List ι)
  | .done a, future => .done (a, future)
  | .fail e, _ => .fail (some e)
  | .send j m k, future => .send j (some m) (k.foretold future)
  | .recv j k, future => .recv j fun
    | some m => (k m).foretold future
    | none => .fail none
  | .connect j k, future => .send j none (k.foretold future)
  | .accept _, [] => .fail none
  | .accept k, c :: future => .recv c fun
    | some _ => .fail none
    | none => (k c).foretold future

theorem foretold_bind (p : Proc ι M ε α) (f : α → Proc ι M ε β) (future : List ι) :
    (p >>= f).foretold future = p.foretold future >>= fun r => (f r.1).foretold r.2 := by
  change (p.bind f).foretold future = (p.foretold future).bind _
  induction p generalizing future with
  | done a => rfl
  | fail e => rfl
  | send j m k ih => simp only [bind, foretold, ih]
  | recv j k ih =>
    simp only [bind, foretold]
    congr 1
    funext m
    cases m with
    | none => rfl
    | some m => exact ih m future
  | connect j k ih => simp only [bind, foretold, ih]
  | accept k ih =>
    cases future with
    | nil => rfl
    | cons c future =>
      simp only [bind, foretold]
      congr 1
      funext m
      cases m with
      | none => exact ih c future
      | some m => rfl

end Proc

/-- The orders in which the guests of each process can arrive. -/
def Arrivals (guests : ι → Finset ι) (σ : ι → List ι) : Prop :=
  ∀ j, (σ j).Nodup ∧ ∀ c, c ∈ σ j ↔ c ∈ guests j

theorem Arrivals.exists_extends [DecidableEq ι] {guests : ι → Finset ι} {seen : ι → List ι}
    (hnd : ∀ j, (seen j).Nodup) (hmem : ∀ j, ∀ c ∈ seen j, c ∈ guests j) :
    ∃ σ, Arrivals guests σ ∧ ∀ j, seen j <+: σ j := by
  refine ⟨fun j => seen j ++ (guests j \ (seen j).toFinset).toList, fun j => ⟨?_, fun c => ?_⟩,
    fun j => List.prefix_append _ _⟩
  · apply (hnd j).append (Finset.nodup_toList _)
    intro c hc hc'
    simp [hc] at hc'
  · have := hmem j c
    simp only [List.mem_append, Finset.mem_toList, Finset.mem_sdiff, List.mem_toFinset]
    tauto

theorem Arrivals.bounded [Fintype ι] [DecidableEq ι] (guests : ι → Finset ι) (f : (ι → List ι) → ℕ) :
    ∃ bound, ∀ σ, Arrivals guests σ → f σ ≤ bound := by
  have hfinite : {σ | Arrivals guests σ}.Finite := by
    apply (Set.finite_range fun (σ : ι → {l : List ι // l.Nodup}) j => (σ j).1).subset
    intro σ hσ
    exact ⟨fun j => ⟨σ j, (hσ j).1⟩, rfl⟩
  obtain ⟨bound, hbound⟩ := (hfinite.image f).bddAbove
  exact ⟨bound, fun σ hσ => hbound ⟨σ, hσ, rfl⟩⟩

/-! ### A run and the order of its arrivals -/

variable [DecidableEq ι] [Fintype ι] [Preorder T] {next : T → T}

def knocks (ms : List (Option M)) : ℕ := ms.countP Option.isNone

@[simp] theorem knocks_nil : knocks ([] : List (Option M)) = 0 := rfl

@[simp] theorem knocks_cons_none (ms : List (Option M)) : knocks (none :: ms) = knocks ms + 1 := by
  simp [knocks]

@[simp] theorem knocks_cons_some (m : M) (ms : List (Option M)) :
    knocks (some m :: ms) = knocks ms := by
  simp [knocks]

@[simp] theorem knocks_append (ms ms' : List (Option M)) :
    knocks (ms ++ ms') = knocks ms + knocks ms' :=
  List.countP_append

/-- The connections among some planned messages. -/
def calls (ms : List (T × Option M)) : ℕ := knocks (ms.map Prod.snd)

/-- The state `s` after `k` steps, seen as one of the network whose arrivals are `σ`: the
connections made so far are the first ones of `σ`, and `accepted` those of them that are
accepted. -/
structure Tells (next : T → T) (Q : ι → α → Prop) (script : ι → ι → List (T × Option M))
    (σ accepted future : ι → List ι) (k : ℕ) (s : Net ι M ε α)
    (r : Net ι (Option M) (Option ε) (α × List ι)) (plan : ι → Plan ι (Option M) T) (clock : ι → T)
    (wire : ι → ι → List (T × Option M)) : Prop where
  eq_append : ∀ j, σ j = accepted j ++ future j
  proc_eq : ∀ i, r.proc i = (s.proc i).foretold (future i)
  chan_eq : ∀ i j, (r.chan i j).reduceOption = s.chan i j
  knocks_eq : ∀ i j, knocks (r.chan i j) = (s.backlog j).count i
  agrees : Agrees next (fun i a _ => Q i a.1) r plan clock wire
  guests_eq : ∀ i, (plan i).guests = ∅
  size_eq : k + remaining plan = remaining (planOf script)
  calls_eq : ∀ i j, calls ((plan i).out j) + (accepted j ++ s.backlog j).count i =
      calls (script i j)

section
variable {Q : ι → α → Prop} {script : ι → ι → List (T × Option M)} {σ accepted future : ι → List ι}
  {k : ℕ} {s : Net ι M ε α} {r : Net ι (Option M) (Option ε) (α × List ι)}
  {plan : ι → Plan ι (Option M) T} {clock : ι → T} {wire : ι → ι → List (T × Option M)} {i : ι}

omit [Preorder T] [Fintype ι] in
theorem foretold_update {proc : ι → Proc ι M ε α}
    {proc' : ι → Proc ι (Option M) (Option ε) (α × List ι)}
    (h : ∀ i, proc' i = (proc i).foretold (future i)) {p : Proc ι M ε α} {l : List ι}
    {p' : Proc ι (Option M) (Option ε) (α × List ι)} (hp : p' = p.foretold l) (a : ι) :
    Function.update proc' i p' a =
      (Function.update proc i p a).foretold (Function.update future i l a) := by
  by_cases ha : a = i
  · subst ha
    simpa using hp
  · simpa [ha] using h a

theorem tells_start {proc : ι → Proc ι M ε α} {t : T}
    (hconf : ∀ i, Conforms next (fun r _ => Q i r.1) ((proc i).foretold (σ i)) t (planOf script i)) :
    Tells next Q script σ (fun _ => []) σ 0 (start proc) (start fun i => (proc i).foretold (σ i))
      (planOf script) (fun _ => t) fun _ _ => [] where
  eq_append _ := rfl
  proc_eq _ := rfl
  chan_eq _ _ := rfl
  knocks_eq _ _ := rfl
  agrees := agrees_start hconf (fun _ _ => rfl) fun _ _ => by simp [planOf]
  guests_eq _ := rfl
  size_eq := Nat.zero_add _
  calls_eq i j := by simp [planOf, start]

/-- What the process of `i` is to do in the network whose arrivals are foretold. -/
theorem Tells.conforms (h : Tells next Q script σ accepted future k s r plan clock wire) (i : ι) :
    Conforms next (fun a _ => Q i a.1) ((s.proc i).foretold (future i)) (clock i) (plan i) := by
  have hi := h.agrees.conforms i
  rwa [h.proc_eq] at hi

theorem Tells.send (h : Tells next Q script σ accepted future k s r plan clock wire) {j : ι} {m : M}
    {p : Proc ι M ε α} (hp : s.proc i = .send j m p) :
    ∃ r' plan' clock' wire', Tells next Q script σ accepted future (k + 1)
      ⟨Function.update s.proc i p, setLink s.chan i j (s.chan i j ++ [m]), s.backlog⟩ r' plan' clock' wire' := by
  have hi := h.conforms i
  rw [hp] at hi
  obtain ⟨τ, rest, hout, -, hk⟩ := hi
  refine ⟨_, _, _, _, h.eq_append, ?_, ?_, ?_, h.agrees.send hout hk, ?_, ?_, ?_⟩
  · intro a
    have := foretold_update (i := i) h.proc_eq (p := p) (l := future i) rfl a
    rwa [Function.update_eq_self] at this
  · intro a b
    simp only [setLink]
    split_ifs with hab
    · rw [List.reduceOption_append, h.chan_eq]
      rfl
    · exact h.chan_eq a b
  · intro a b
    simp only [setLink]
    split_ifs with hab
    · rw [hab.1, hab.2, knocks_append, h.knocks_eq, knocks_cons_some, knocks_nil, add_zero]
    · exact h.knocks_eq a b
  · intro a
    rw [update_same Plan.guests i ((plan i).setOut j rest) rfl]
    exact h.guests_eq a
  · have := sum_update_succ Plan.size plan i _ (Plan.size_setOut hout)
    have := h.size_eq
    unfold remaining at *
    omega
  · intro a b
    rw [← h.calls_eq a b, update_setOut_out]
    split_ifs with hab
    · rw [hab.1, hab.2, hout]
      simp [calls]
    · rfl

theorem Tells.recv (h : Tells next Q script σ accepted future k s r plan clock wire) {j : ι}
    {p : M → Proc ι M ε α} {m : M} {ms : List M} (hp : s.proc i = .recv j p)
    (hc : s.chan j i = m :: ms) :
    ∃ r' plan' clock' wire', Tells next Q script σ accepted future (k + 1)
      ⟨Function.update s.proc i (p m), setLink s.chan j i ms, s.backlog⟩ r' plan' clock' wire' := by
  have hi := h.conforms i
  rw [hp, Proc.foretold] at hi
  obtain ⟨τ, m', rest, t, hinp, -, -, hk⟩ := hi
  have hchan := h.chan_eq j i
  cases hr : r.chan j i with
  | nil => simp [hr, hc] at hchan
  | cons x xs =>
    obtain ⟨rfl, l, rfl, hl⟩ := h.agrees.head hinp hr
    cases m' with
    | none => exact hk.elim
    | some m₁ =>
      rw [hr, hc, List.reduceOption_cons_of_some, List.cons.injEq] at hchan
      obtain ⟨rfl, hxs⟩ := hchan
      refine ⟨_, _, _, _, h.eq_append, ?_, ?_, ?_, h.agrees.recv (k := fun x =>
        match x with
        | some m => (p m).foretold (future i)
        | none => .fail none) (m := some m₁) hl hk, ?_, ?_, ?_⟩
      · intro a
        have := foretold_update (i := i) h.proc_eq (p := p m₁) (l := future i) rfl a
        rwa [Function.update_eq_self] at this
      · intro a b
        simp only [setLink]
        split_ifs with hab
        · exact hxs
        · exact h.chan_eq a b
      · intro a b
        simp only [setLink]
        split_ifs with hab
        · have := h.knocks_eq j i
          rw [hr, knocks_cons_some] at this
          rw [hab.1, hab.2, this]
        · exact h.knocks_eq a b
      · intro a
        rw [update_same Plan.guests i ((plan i).setInp j _) rfl]
        exact h.guests_eq a
      · have := sum_update_succ Plan.size plan i _ (Plan.size_setInp hinp)
        have := h.size_eq
        unfold remaining at *
        omega
      · intro a b
        rw [← h.calls_eq a b, update_same Plan.out i ((plan i).setInp j _) rfl]

/-- A process that is to connect has a connection left in the script. -/
theorem Tells.calls_pos (h : Tells next Q script σ accepted future k s r plan clock wire) {j : ι}
    {p : Proc ι M ε α} (hp : s.proc i = .connect j p) :
    (accepted j ++ s.backlog j).count i < calls (script i j) := by
  have hi := h.conforms i
  rw [hp] at hi
  obtain ⟨τ, rest, hout, -, -⟩ := hi
  rw [← h.calls_eq i j, hout]
  simp [calls]

theorem Tells.connect (h : Tells next Q script σ accepted future k s r plan clock wire) {j : ι}
    {p : Proc ι M ε α} (hp : s.proc i = .connect j p) :
    ∃ r' plan' clock' wire', Tells next Q script σ accepted future (k + 1)
      ⟨Function.update s.proc i p, s.chan, Function.update s.backlog j (s.backlog j ++ [i])⟩
        r' plan' clock' wire' := by
  have hi := h.conforms i
  rw [hp] at hi
  obtain ⟨τ, rest, hout, -, hk⟩ := hi
  refine ⟨_, _, _, _, h.eq_append, ?_, ?_, ?_, h.agrees.send hout hk, ?_, ?_, ?_⟩
  · intro a
    have := foretold_update (i := i) h.proc_eq (p := p) (l := future i) rfl a
    rwa [Function.update_eq_self] at this
  · intro a b
    simp only [setLink]
    split_ifs with hab
    · rw [hab.1, hab.2, List.reduceOption_append, h.chan_eq]
      exact List.append_nil _
    · exact h.chan_eq a b
  · intro a b
    simp only [setLink]
    split_ifs with hab
    · rw [hab.1, hab.2, knocks_append, h.knocks_eq, Function.update_self, List.count_append]
      simp
    · by_cases hb : b = j
      · subst hb
        have ha : i ≠ a := fun he => hab ⟨he.symm, rfl⟩
        rw [h.knocks_eq, Function.update_self, List.count_append, List.count_singleton]
        simp [ha]
      · rw [Function.update_of_ne hb]
        exact h.knocks_eq a b
  · intro a
    rw [update_same Plan.guests i ((plan i).setOut j rest) rfl]
    exact h.guests_eq a
  · have := sum_update_succ Plan.size plan i _ (Plan.size_setOut hout)
    have := h.size_eq
    unfold remaining at *
    omega
  · intro a b
    rw [← h.calls_eq a b, update_setOut_out]
    dsimp only
    by_cases hb : b = j
    · subst hb
      rw [Function.update_self]
      by_cases ha : a = i
      · subst ha
        rw [if_pos ⟨rfl, rfl⟩, hout]
        simp [calls]
        omega
      · have ha' : i ≠ a := fun he => ha he.symm
        rw [if_neg fun hc => ha hc.1]
        simp [ha']
    · rw [if_neg fun hc => hb hc.2, Function.update_of_ne hb]

/-- A process accepts the guest that was foretold. -/
theorem Tells.accept (h : Tells next Q script σ accepted future k s r plan clock wire) {c : ι}
    {cs : List ι} {p : ι → Proc ι M ε α} (hp : s.proc i = .accept p) (hb : s.backlog i = c :: cs)
    (hbegin : accepted i ++ s.backlog i <+: σ i) :
    ∃ future' r' plan' clock' wire', Tells next Q script σ
      (Function.update accepted i (accepted i ++ [c])) future' (k + 1)
      ⟨Function.update s.proc i (p c), s.chan, Function.update s.backlog i cs⟩ r' plan' clock' wire' := by
  have hfuture : ∃ rest, future i = c :: rest := by
    rw [h.eq_append i, List.prefix_append_right_inj, hb] at hbegin
    obtain ⟨rest, hrest⟩ := hbegin
    exact ⟨cs ++ rest, hrest.symm⟩
  obtain ⟨later, hlater⟩ := hfuture
  have hi := h.conforms i
  rw [hp, hlater] at hi
  obtain ⟨τ, m', rest, t, hinp, -, -, hk⟩ := hi
  have hknock := h.knocks_eq c i
  rw [hb, List.count_cons_self] at hknock
  cases hr : r.chan c i with
  | nil => simp [hr] at hknock
  | cons x xs =>
    obtain ⟨rfl, l, rfl, hl⟩ := h.agrees.head hinp hr
    cases m' with
    | some m => exact hk.elim
    | none =>
      refine ⟨Function.update future i later, _, _, _, _, ?_, ?_, ?_, ?_, h.agrees.recv (k := fun x =>
        match x with
        | some _ => .fail none
        | none => (p c).foretold later) (m := none) hl hk, ?_, ?_, ?_⟩
      · intro j
        by_cases hj : j = i
        · subst hj
          simp [h.eq_append j, hlater]
        · simp [hj, h.eq_append j]
      · exact foretold_update h.proc_eq rfl
      · intro a b
        simp only [setLink]
        split_ifs with hab
        · rw [hab.1, hab.2, ← h.chan_eq, hr, List.reduceOption_cons_of_none]
        · exact h.chan_eq a b
      · intro a b
        simp only [setLink]
        split_ifs with hab
        · rw [hr, knocks_cons_none] at hknock
          rw [hab.1, hab.2, Function.update_self]
          omega
        · by_cases hbi : b = i
          · subst hbi
            have ha : c ≠ a := fun he => hab ⟨he.symm, rfl⟩
            rw [h.knocks_eq, hb, Function.update_self, List.count_cons_of_ne ha]
          · rw [Function.update_of_ne hbi]
            exact h.knocks_eq a b
      · intro a
        rw [update_same Plan.guests i ((plan i).setInp c _) rfl]
        exact h.guests_eq a
      · have := sum_update_succ Plan.size plan i _ (Plan.size_setInp hinp)
        have := h.size_eq
        unfold remaining at *
        omega
      · intro a b
        rw [← h.calls_eq a b, update_same Plan.out i ((plan i).setInp c _) rfl]
        by_cases hbi : b = i
        · subst hbi
          simp [hb]
        · simp [hbi]

/-- Where the network cannot step, neither can it with the arrivals foretold. -/
theorem Tells.stuck (h : Tells next Q script σ accepted future k s r plan clock wire) (hs : Stuck s) :
    Stuck r := by
  intro i
  have hi := h.conforms i
  have hno := hs i
  unfold Network.step at hno ⊢
  rw [h.proc_eq]
  cases hp : s.proc i with
  | done a => rfl
  | fail e => rfl
  | send j m p => simp [hp] at hno
  | connect j p => simp [hp] at hno
  | recv j p =>
    rw [hp] at hi hno
    rw [Proc.foretold] at hi
    obtain ⟨τ, m', rest, t, hinp, -, -, hk⟩ := hi
    cases hr : r.chan j i with
    | nil => simp [Proc.foretold, hr]
    | cons x xs =>
      obtain ⟨rfl, -⟩ := h.agrees.head hinp hr
      cases m' with
      | none => exact hk.elim
      | some m =>
        have hchan := h.chan_eq j i
        rw [hr, List.reduceOption_cons_of_some] at hchan
        simp [← hchan] at hno
  | accept p =>
    rw [hp] at hi hno
    cases hf : future i with
    | nil =>
      rw [hf] at hi
      exact hi.elim
    | cons c later =>
      rw [hf] at hi
      obtain ⟨τ, m', rest, t, hinp, -, -, hk⟩ := hi
      cases hr : r.chan c i with
      | nil => simp [Proc.foretold, hr]
      | cons x xs =>
        obtain ⟨rfl, -⟩ := h.agrees.head hinp hr
        cases m' with
        | some m => exact hk.elim
        | none =>
          have hknock := h.knocks_eq c i
          rw [hr, knocks_cons_none] at hknock
          cases hb : s.backlog i with
          | nil => simp [hb] at hknock
          | cons c' cs => simp [hb] at hno

theorem Tells.not_fail (h : Tells next Q script σ accepted future k s r plan clock wire) (e : ε) :
    s.proc i ≠ .fail e := by
  intro hp
  have hi := h.conforms i
  rw [hp] at hi
  exact hi

theorem Tells.of_done (h : Tells next Q script σ accepted future k s r plan clock wire) {a : α}
    (hp : s.proc i = .done a) : Q i a := by
  have hi := h.conforms i
  rw [hp] at hi
  exact hi.2

theorem Tells.all_done [WellFoundedLT T] (hnext : ∀ τ, τ < next τ)
    (h : Tells next Q script σ accepted future k s r plan clock wire) (hs : Stuck s) (i : ι) :
    ∃ a, s.proc i = .done a := by
  obtain ⟨a, ha⟩ := h.agrees.all_done hnext h.guests_eq (h.stuck hs) i
  rw [h.proc_eq] at ha
  cases hp : s.proc i with
  | done b => exact ⟨b, rfl⟩
  | fail e => exact (h.not_fail e hp).elim
  | send j m p => simp [hp, Proc.foretold] at ha
  | connect j p => simp [hp, Proc.foretold] at ha
  | recv j p => simp [hp, Proc.foretold] at ha
  | accept p => cases hf : future i <;> simp [hp, hf, Proc.foretold] at ha

end

/-! ### Rules for blocks of a program -/

section
omit [Fintype ι]

theorem Conforms.mono {Q P : α → Plan ι M T → Prop} {p : Proc ι M ε α} {t : T} {w : Plan ι M T}
    (h : Conforms next Q p t w) (hQ : ∀ a w', Q a w' → P a w') : Conforms next P p t w := by
  induction p generalizing t w with
  | done a => exact ⟨h.1, hQ a w h.2⟩
  | fail e => exact h
  | send j m k ih =>
    obtain ⟨τ, rest, hout, hτ, hk⟩ := h
    exact ⟨τ, rest, hout, hτ, ih hk⟩
  | recv j k ih =>
    obtain ⟨τ, m, rest, t', hinp, ht, hτ, hk⟩ := h
    exact ⟨τ, m, rest, t', hinp, ht, hτ, ih m hk⟩
  | connect j k ih => exact ⟨h.1, ih h.2⟩
  | accept k ih => exact ⟨h.1, fun c hc => ih c (h.2 c hc)⟩

variable {P : α × List ι → Plan ι (Option M) T → Prop} {t t' τ : T} {w : Plan ι (Option M) T}
  {j : ι} {rest : List (T × Option M)} {future : List ι}

theorem told_put {m : M} {k : Unit → Proc ι M ε α} (hout : w.out j = (τ, some m) :: rest) (ht : t ≤ τ)
    (hk : Conforms next P ((k ()).foretold future) t (w.setOut j rest)) :
    Conforms next P ((Proc.put j m >>= k).foretold future) t w :=
  ⟨τ, rest, hout, ht, hk⟩

theorem told_get {m : M} {k : M → Proc ι M ε α} (hinp : w.inp j = (τ, some m) :: rest) (ht : t ≤ t')
    (hτ : next τ ≤ t') (hk : Conforms next P ((k m).foretold future) t' (w.setInp j rest)) :
    Conforms next P ((Proc.get j >>= k).foretold future) t w := by
  rw [Proc.get_bind, Proc.foretold]
  exact ⟨τ, some m, rest, t', hinp, ht, hτ, hk⟩

theorem told_dial {k : Unit → Proc ι M ε α} (hout : w.out j = (τ, none) :: rest) (ht : t ≤ τ)
    (hk : Conforms next P ((k ()).foretold future) t (w.setOut j rest)) :
    Conforms next P ((Proc.dial j >>= k).foretold future) t w :=
  ⟨τ, rest, hout, ht, hk⟩

theorem told_answer {k : ι → Proc ι M ε α} (hinp : w.inp j = (τ, none) :: rest) (ht : t ≤ t')
    (hτ : next τ ≤ t') (hk : Conforms next P ((k j).foretold future) t' (w.setInp j rest)) :
    Conforms next P ((Proc.answer >>= k).foretold (j :: future)) t w := by
  rw [Proc.answer_bind, Proc.foretold]
  exact ⟨τ, none, rest, t', hinp, ht, hτ, hk⟩

/-- A loop over peers in which the body at a peer uses the links to that peer only; the `i`-th one
has its turn at `time i`. -/
theorem told_foldlM {S : Type} {cs : List ι} {f : S → ι → Proc ι M ε S} {r : S → ι → S} {s : S}
    {k : S → Proc ι M ε α} (time : ℕ → T) (out inp out' inp' : ι → List (T × Option M))
    (hf : ∀ s i c, cs[i]? = some c → ∀ (w : Plan ι (Option M) T) (k : S → Proc ι M ε α),
      w.out c = out c → w.inp c = inp c →
        Conforms next P ((k (r s c)).foretold future) (time (i + 1))
        ((w.setOut c (out' c)).setInp c (inp' c)) →
      Conforms next P ((f s c >>= k).foretold future) (time i) w)
    (hnd : cs.Nodup) (hout : ∀ c ∈ cs, w.out c = out c) (hinp : ∀ c ∈ cs, w.inp c = inp c)
    (hk : Conforms next P ((k (cs.foldl r s)).foretold future) (time cs.length) (w.setLinks cs out' inp')) :
    Conforms next P ((cs.foldlM f s >>= k).foretold future) (time 0) w := by
  induction cs generalizing s w time with
  | nil => simpa [Plan.setLinks] using hk
  | cons c cs ih =>
    obtain ⟨hc, hnd⟩ := List.nodup_cons.mp hnd
    rw [List.foldlM_cons, bind_assoc]
    apply hf s 0 c rfl w _ (hout c List.mem_cons_self) (hinp c List.mem_cons_self)
    have hne : ∀ c' ∈ cs, c' ≠ c := fun c' hc' h => hc (h ▸ hc')
    apply ih (fun i => time (i + 1)) (fun s i c' hc' => hf s (i + 1) c' hc') hnd
    · intro c' hc'
      rw [← hout c' (List.mem_cons_of_mem c hc')]
      simp [Plan.setOut, Plan.setInp, hne c' hc']
    · intro c' hc'
      rw [← hinp c' (List.mem_cons_of_mem c hc')]
      simp [Plan.setOut, Plan.setInp, hne c' hc']
    · have hplan : ((w.setOut c (out' c)).setInp c (inp' c)).setLinks cs out' inp' =
          w.setLinks (c :: cs) out' inp' := by
        rw [Plan.setLinks, Plan.setLinks, ← Plan.setOuts_cons w out' hc, ← Plan.setInps_cons _ inp' hc]
        rfl
      rw [hplan]
      exact hk

end

/-! ### All orders -/

/-- Every interleaving comes to an end, with every process returned as `Q` says; no process fails
on the way. Messages that nobody reads may be left. -/
def Finishes (proc : ι → Proc ι M ε α) (Q : ι → α → Prop) : Prop :=
  ∃ bound, ∀ es s, Run Step (start proc) es s →
    es.length ≤ bound ∧ (∀ i e, s.proc i ≠ .fail e) ∧ (∀ i a, s.proc i = .done a → Q i a) ∧
      (Stuck s → ∀ i, ∃ a, s.proc i = .done a)

section
variable {Q : ι → α → Prop} {guests : ι → Finset ι} {script : (ι → List ι) → ι → ι → List (T × Option M)}
  {proc : ι → Proc ι M ε α} {t : T} {es : List ι} {s : Net ι M ε α}

/-- A run is told by every order that begins with the arrivals it has seen. -/
theorem told_run
    (hconf : ∀ σ, Arrivals guests σ → ∀ i, Conforms next (fun r _ => Q i r.1)
      ((proc i).foretold (σ i)) t (planOf (script σ) i))
    (hcalls : ∀ σ, Arrivals guests σ → ∀ i j, calls (script σ i j) ≤ if i ∈ guests j then 1 else 0)
    (hrun : Run Step (start proc) es s) :
    ∃ accepted : ι → List ι, (∀ j, (accepted j ++ s.backlog j).Nodup) ∧
      (∀ j, ∀ c ∈ accepted j ++ s.backlog j, c ∈ guests j) ∧
      ∀ σ, Arrivals guests σ → (∀ j, accepted j ++ s.backlog j <+: σ j) →
        ∃ future r plan clock wire,
          Tells next Q (script σ) σ accepted future es.length s r plan clock wire := by
  induction hrun with
  | nil =>
    refine ⟨fun _ => [], fun _ => List.nodup_nil, fun _ _ hc => by simp [start] at hc, ?_⟩
    intro σ hσ _
    exact ⟨_, _, _, _, _, tells_start (hconf σ hσ)⟩
  | @snoc es i₁ s₁ s₂ _ hs ih =>
    obtain ⟨accepted, hnd, hmem, hall⟩ := ih
    simp only [List.length_append, List.length_singleton]
    rcases step_cases hs with ⟨j, m, k, hp, rfl⟩ | ⟨j, k, m, ms, hp, hc, rfl⟩ | ⟨j, k, hp, rfl⟩ |
      ⟨k, c, cs, hp, hb, rfl⟩
    · refine ⟨accepted, hnd, hmem, fun σ hσ hbegin => ?_⟩
      obtain ⟨future, r, plan, clock, wire, h⟩ := hall σ hσ hbegin
      exact ⟨future, h.send hp⟩
    · refine ⟨accepted, hnd, hmem, fun σ hσ hbegin => ?_⟩
      obtain ⟨future, r, plan, clock, wire, h⟩ := hall σ hσ hbegin
      exact ⟨future, h.recv hp hc⟩
    · -- some order tells the run so far: its script has a connection left, so this one is the first
      obtain ⟨σ₀, hσ₀, hbegin₀⟩ := Arrivals.exists_extends hnd hmem
      obtain ⟨_, _, _, _, _, h₀⟩ := hall σ₀ hσ₀ hbegin₀
      have hpos := h₀.calls_pos hp
      have hle := hcalls σ₀ hσ₀ i₁ j
      have hguest : i₁ ∈ guests j := by
        by_contra hno
        rw [if_neg hno] at hle
        omega
      rw [if_pos hguest] at hle
      have hnew : i₁ ∉ accepted j ++ s₁.backlog j := List.count_eq_zero.mp (by omega)
      have harrived : ∀ a, accepted a ++ Function.update s₁.backlog j (s₁.backlog j ++ [i₁]) a =
          accepted a ++ s₁.backlog a ++ if a = j then [i₁] else [] := by
        intro a
        by_cases ha : a = j
        · subst ha
          simp
        · simp [ha]
      refine ⟨accepted, fun a => ?_, fun a c hc => ?_, fun σ hσ hbegin => ?_⟩
      · rw [harrived a]
        split_ifs with ha
        · rw [ha]
          exact (hnd j).append (List.nodup_singleton i₁) (by simpa using hnew)
        · simpa using hnd a
      · rw [harrived a, List.mem_append] at hc
        rcases hc with hc | hc
        · exact hmem a c hc
        · split_ifs at hc with ha
          · rw [List.mem_singleton.mp hc, ha]
            exact hguest
          · simp at hc
      · obtain ⟨future, r, plan, clock, wire, h⟩ := hall σ hσ fun a => by
          have := hbegin a
          rw [harrived a] at this
          exact (List.prefix_append _ _).trans this
        exact ⟨future, h.connect hp⟩
    · have harrived : ∀ a, Function.update accepted i₁ (accepted i₁ ++ [c]) a ++
          Function.update s₁.backlog i₁ cs a = accepted a ++ s₁.backlog a := by
        intro a
        by_cases ha : a = i₁
        · subst ha
          simp [hb]
        · simp [ha]
      refine ⟨Function.update accepted i₁ (accepted i₁ ++ [c]), fun a => ?_, fun a => ?_,
        fun σ hσ hbegin => ?_⟩
      · rw [harrived a]
        exact hnd a
      · rw [harrived a]
        exact hmem a
      · have hbegin' : ∀ a, accepted a ++ s₁.backlog a <+: σ a := fun a => harrived a ▸ hbegin a
        obtain ⟨future, r, plan, clock, wire, h⟩ := hall σ hσ hbegin'
        exact h.accept hp hb (hbegin' i₁)

/-- Processes that keep to a script for every order of the arrivals finish, whatever the order
is. -/
theorem finishes_of_foretold [WellFoundedLT T] (hnext : ∀ τ, τ < next τ) (guests : ι → Finset ι)
    (script : (ι → List ι) → ι → ι → List (T × Option M)) (t : T)
    (hconf : ∀ σ, Arrivals guests σ → ∀ i, Conforms next (fun r _ => Q i r.1)
      ((proc i).foretold (σ i)) t (planOf (script σ) i))
    (hcalls : ∀ σ, Arrivals guests σ → ∀ i j, calls (script σ i j) ≤ if i ∈ guests j then 1 else 0) :
    Finishes proc Q := by
  obtain ⟨bound, hbound⟩ := Arrivals.bounded guests fun σ => remaining (planOf (script σ))
  refine ⟨bound, fun es s hrun => ?_⟩
  obtain ⟨accepted, hnd, hmem, hall⟩ := told_run hconf hcalls hrun
  obtain ⟨σ, hσ, hbegin⟩ := Arrivals.exists_extends hnd hmem
  obtain ⟨future, r, plan, clock, wire, h⟩ := hall σ hσ hbegin
  refine ⟨?_, fun i e => h.not_fail e, fun i a => h.of_done, fun hs => h.all_done hnext hs⟩
  have := h.size_eq
  have := hbound σ hσ
  omega

end

end TorchIpc.Network
