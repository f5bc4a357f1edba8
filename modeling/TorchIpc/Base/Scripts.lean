import TorchIpc.Base.Network
import Mathlib.Algebra.BigOperators.Group.Finset.Basic
import Mathlib.Data.Fintype.Basic
import Mathlib.Order.WellFounded
import Mathlib.Tactic

/-! Processes that keep to a script. Each process is given in advance what it
sends to and receives from every peer; the scripts of two peers name the same
messages. If every process conforms to its own script, sequentially and on its
own, then in every interleaving none of them fails and each ends as its script
says. A message carries a stamp, and a process that has received one sends only
later stamps from then on: this excludes a cycle of waiting processes, so the
network also ends, in at most as many steps as the scripts have actions. -/

namespace TorchIpc.Network

open Runs

variable {ι M ε α T : Type} [DecidableEq ι]

/-! ### Plans -/

/-- What a process is still to do: the messages to and from each peer, the peers
to connect to, and the peers to accept. -/
@[ext]
structure Plan (ι M T : Type) where
  out : ι → List (T × M)
  inp : ι → List (T × M)
  dials : Finset ι
  guests : Finset ι

namespace Plan

/-- The plan with the messages to `j` replaced. -/
def setOut (w : Plan ι M T) (j : ι) (ms : List (T × M)) : Plan ι M T :=
  { w with out := Function.update w.out j ms }

/-- The plan with the messages from `j` replaced. -/
def setInp (w : Plan ι M T) (j : ι) (ms : List (T × M)) : Plan ι M T :=
  { w with inp := Function.update w.inp j ms }

def dialled (w : Plan ι M T) (j : ι) : Plan ι M T := { w with dials := w.dials.erase j }

def answered (w : Plan ι M T) (c : ι) : Plan ι M T := { w with guests := w.guests.erase c }

/-- The plan with the messages to the peers in `cs` replaced. -/
def setOuts (w : Plan ι M T) (cs : List ι) (ms : ι → List (T × M)) : Plan ι M T :=
  { w with out := fun j => if j ∈ cs then ms j else w.out j }

/-- The plan with the messages from the peers in `cs` replaced. -/
def setInps (w : Plan ι M T) (cs : List ι) (ms : ι → List (T × M)) : Plan ι M T :=
  { w with inp := fun j => if j ∈ cs then ms j else w.inp j }

/-- The plan with the messages to and from the peers in `cs` replaced. -/
def setLinks (w : Plan ι M T) (cs : List ι) (out inp : ι → List (T × M)) : Plan ι M T :=
  (w.setOuts cs out).setInps cs inp

/-- Nothing left to send, and nobody to connect to. -/
def Spent (w : Plan ι M T) : Prop := (∀ j, w.out j = []) ∧ w.dials = ∅

def size [Fintype ι] (w : Plan ι M T) : ℕ :=
  ∑ j, (w.out j).length + ∑ j, (w.inp j).length + w.dials.card + w.guests.card

end Plan

variable [Preorder T] {next : T → T}

/-- Process `p`, which has to stamp at least `t`, acts as the plan says and ends
with `Q`. -/
def Conforms (next : T → T) (Q : α → Plan ι M T → Prop) :
    Proc ι M ε α → T → Plan ι M T → Prop
  | .done a, _, w => w.Spent ∧ Q a w
  | .fail _, _, _ => False
  | .send j m k, t, w => ∃ τ rest, w.out j = (τ, m) :: rest ∧ t ≤ τ ∧
      Conforms next Q k t (w.setOut j rest)
  | .recv j k, t, w => ∃ τ m rest t', w.inp j = (τ, m) :: rest ∧ t ≤ t' ∧ next τ ≤ t' ∧
      Conforms next Q (k m) t' (w.setInp j rest)
  | .connect j k, t, w => j ∈ w.dials ∧ Conforms next Q k t (w.dialled j)
  | .accept k, t, w => w.guests.Nonempty ∧
      ∀ c ∈ w.guests, Conforms next Q (k c) t (w.answered c)

/-- A process that may stamp late may stamp early. -/
theorem Conforms.anti {Q : α → Plan ι M T → Prop} {p : Proc ι M ε α} {t t' : T}
    {w : Plan ι M T} (h : Conforms next Q p t' w) (ht : t ≤ t') : Conforms next Q p t w := by
  induction p generalizing t t' w with
  | done a => exact h
  | fail e => exact h
  | send j m k ih =>
    obtain ⟨τ, rest, hout, hτ, hk⟩ := h
    exact ⟨τ, rest, hout, ht.trans hτ, ih hk ht⟩
  | recv j k ih =>
    obtain ⟨τ, m, rest, t₁, hinp, h₁, hτ, hk⟩ := h
    exact ⟨τ, m, rest, t₁, hinp, ht.trans h₁, hτ, hk⟩
  | connect j k ih => exact ⟨h.1, ih h.2 ht⟩
  | accept k ih => exact ⟨h.1, fun c hc => ih c (h.2 c hc) ht⟩

/-- What is still to be sent is stamped no earlier than the clock. -/
theorem Conforms.le_stamp {Q : α → Plan ι M T → Prop} {p : Proc ι M ε α} {t τ : T}
    {w : Plan ι M T} {j : ι} {m : M} {rest : List (T × M)} (h : Conforms next Q p t w)
    (hout : w.out j = (τ, m) :: rest) : t ≤ τ := by
  induction p generalizing t w with
  | done a =>
    have := h.1.1 j
    simp [this] at hout
  | fail e => exact h.elim
  | send j' m' k ih =>
    obtain ⟨τ', rest', hout', hτ', hk⟩ := h
    by_cases hj : j = j'
    · subst hj
      rw [hout'] at hout
      cases hout
      exact hτ'
    · exact ih hk (by simpa [Plan.setOut, hj] using hout)
  | recv j' k ih =>
    obtain ⟨τ', m', rest', t₁, -, h₁, -, hk⟩ := h
    exact h₁.trans (ih m' hk hout)
  | connect j' k ih => exact ih h.2 hout
  | accept k ih =>
    obtain ⟨⟨c, hc⟩, hk⟩ := h
    exact ih c (hk c hc) hout

/-! ### Rules for blocks of a program -/

section
omit [Preorder T]

@[simp] theorem Plan.setOut_setOut (w : Plan ι M T) (j : ι) (a b : List (T × M)) :
    (w.setOut j a).setOut j b = w.setOut j b := by
  simp [Plan.setOut]

@[simp] theorem Plan.setInp_setInp (w : Plan ι M T) (j : ι) (a b : List (T × M)) :
    (w.setInp j a).setInp j b = w.setInp j b := by
  simp [Plan.setInp]

theorem Plan.setOut_self {w : Plan ι M T} {j : ι} {a : List (T × M)} (h : w.out j = a) :
    w.setOut j a = w := by
  rw [Plan.setOut, ← h, Function.update_eq_self]

theorem Plan.setInp_self {w : Plan ι M T} {j : ι} {a : List (T × M)} (h : w.inp j = a) :
    w.setInp j a = w := by
  rw [Plan.setInp, ← h, Function.update_eq_self]

@[simp] theorem Plan.setOut_out (w : Plan ι M T) (j : ι) (a : List (T × M)) :
    (w.setOut j a).out j = a := by
  simp [Plan.setOut]

@[simp] theorem Plan.setInp_inp (w : Plan ι M T) (j : ι) (a : List (T × M)) :
    (w.setInp j a).inp j = a := by
  simp [Plan.setInp]

theorem Plan.setOut_out_of_ne (w : Plan ι M T) {j k : ι} (h : k ≠ j) (a : List (T × M)) :
    (w.setOut j a).out k = w.out k := by
  simp [Plan.setOut, h]

theorem Plan.setInp_inp_of_ne (w : Plan ι M T) {j k : ι} (h : k ≠ j) (a : List (T × M)) :
    (w.setInp j a).inp k = w.inp k := by
  simp [Plan.setInp, h]

@[simp] theorem Plan.setOuts_nil (w : Plan ι M T) (ms : ι → List (T × M)) :
    w.setOuts [] ms = w := by
  simp [Plan.setOuts]

@[simp] theorem Plan.setInps_nil (w : Plan ι M T) (ms : ι → List (T × M)) :
    w.setInps [] ms = w := by
  simp [Plan.setInps]

theorem Plan.setOuts_cons (w : Plan ι M T) {c : ι} {cs : List ι} (ms : ι → List (T × M))
    (hc : c ∉ cs) : (w.setOut c (ms c)).setOuts cs ms = w.setOuts (c :: cs) ms := by
  unfold Plan.setOuts Plan.setOut
  congr 1
  funext j
  by_cases hj : j = c
  · subst hj
    simp [hc]
  · simp [hj]

theorem Plan.setInps_cons (w : Plan ι M T) {c : ι} {cs : List ι} (ms : ι → List (T × M))
    (hc : c ∉ cs) : (w.setInp c (ms c)).setInps cs ms = w.setInps (c :: cs) ms := by
  unfold Plan.setInps Plan.setInp
  congr 1
  funext j
  by_cases hj : j = c
  · subst hj
    simp [hc]
  · simp [hj]

@[simp] theorem Plan.setLinks_setLinks (w : Plan ι M T) (cs : List ι)
    (out inp out' inp' : ι → List (T × M)) :
    (w.setLinks cs out inp).setLinks cs out' inp' = w.setLinks cs out' inp' := by
  unfold Plan.setLinks Plan.setOuts Plan.setInps
  congr 1
  · funext j
    by_cases hj : j ∈ cs <;> simp [hj]
  · funext j
    by_cases hj : j ∈ cs <;> simp [hj]

theorem Plan.setLinks_out (w : Plan ι M T) (cs : List ι) (out inp : ι → List (T × M)) (j : ι) :
    (w.setLinks cs out inp).out j = if j ∈ cs then out j else w.out j := rfl

theorem Plan.setLinks_inp (w : Plan ι M T) (cs : List ι) (out inp : ι → List (T × M)) (j : ι) :
    (w.setLinks cs out inp).inp j = if j ∈ cs then inp j else w.inp j := rfl

theorem Plan.setLinks_out_of_notMem (w : Plan ι M T) {cs : List ι} {j : ι} (hj : j ∉ cs)
    (out inp : ι → List (T × M)) : (w.setLinks cs out inp).out j = w.out j :=
  if_neg hj

theorem Plan.setLinks_inp_of_notMem (w : Plan ι M T) {cs : List ι} {j : ι} (hj : j ∉ cs)
    (out inp : ι → List (T × M)) : (w.setLinks cs out inp).inp j = w.inp j :=
  if_neg hj

end

def stamped (τ : T) (ms : List M) : List (T × M) := ms.map fun m => (τ, m)

variable {β γ : Type} {P : α → Plan ι M T → Prop} {t t' τ : T} {w : Plan ι M T} {j : ι}
  {rest : List (T × M)}

theorem conforms_put {m : M} {k : Unit → Proc ι M ε α} (hout : w.out j = (τ, m) :: rest)
    (ht : t ≤ τ) (hk : Conforms next P (k ()) t (w.setOut j rest)) :
    Conforms next P (Proc.put j m >>= k) t w :=
  ⟨τ, rest, hout, ht, hk⟩

theorem conforms_get {m : M} {k : M → Proc ι M ε α} (hinp : w.inp j = (τ, m) :: rest)
    (ht : t ≤ t') (hτ : next τ ≤ t') (hk : Conforms next P (k m) t' (w.setInp j rest)) :
    Conforms next P (Proc.get j >>= k) t w :=
  ⟨τ, m, rest, t', hinp, ht, hτ, hk⟩

theorem conforms_mapM_put {xs : List β} {f : β → Proc ι M ε γ} {g : β → M} {r : β → γ}
    {k : List γ → Proc ι M ε α} (hf : ∀ x, f x = Proc.put j (g x) >>= fun _ => pure (r x))
    (hout : w.out j = stamped τ (xs.map g) ++ rest) (ht : t ≤ τ)
    (hk : Conforms next P (k (xs.map r)) t (w.setOut j rest)) :
    Conforms next P (xs.mapM f >>= k) t w := by
  induction xs generalizing k w with
  | nil =>
    rw [Plan.setOut_self (by simpa [stamped] using hout)] at hk
    simpa using hk
  | cons x xs ih =>
    rw [List.mapM_cons, hf x]
    simp only [bind_assoc, pure_bind]
    refine conforms_put (by simpa [stamped] using hout) ht (ih (by simp [stamped]) ?_)
    simpa using hk

/-- One message received for each element of a list. -/
theorem conforms_mapM_get {δ : Type} {xs : List β} {ys : List δ} {f : β → Proc ι M ε γ}
    {b : β → M → Proc ι M ε γ} {g : δ → M} {r : β → δ → γ} {k : List γ → Proc ι M ε α}
    (hf : ∀ x, f x = Proc.get j >>= b x) (hb : ∀ x y, b x (g y) = pure (r x y))
    (hlen : xs.length = ys.length) (hinp : w.inp j = stamped τ (ys.map g) ++ rest) (ht : t ≤ t')
    (hτ : next τ ≤ t') (hk : Conforms next P (k (List.zipWith r xs ys)) t' (w.setInp j rest)) :
    Conforms next P (xs.mapM f >>= k) t w := by
  induction xs generalizing ys k w t with
  | nil =>
    obtain rfl := List.eq_nil_of_length_eq_zero hlen.symm
    rw [Plan.setInp_self (by simpa [stamped] using hinp)] at hk
    simpa using hk.anti ht
  | cons x xs ih =>
    obtain ⟨y, ys, rfl⟩ := List.exists_cons_of_length_eq_add_one hlen.symm
    rw [List.mapM_cons, hf x]
    simp only [bind_assoc]
    refine conforms_get (by simpa [stamped] using hinp) ht hτ ?_
    rw [hb, pure_bind]
    simp only [pure_bind]
    refine ih (by simpa using hlen) (by simp [stamped]) le_rfl ?_
    simpa using hk

theorem conforms_dial {k : Unit → Proc ι M ε α} (hj : j ∈ w.dials)
    (hk : Conforms next P (k ()) t (w.dialled j)) : Conforms next P (Proc.dial j >>= k) t w :=
  ⟨hj, hk⟩

theorem conforms_answer {k : ι → Proc ι M ε α} (hg : w.guests.Nonempty)
    (hk : ∀ c ∈ w.guests, Conforms next P (k c) t (w.answered c)) :
    Conforms next P (Proc.answer >>= k) t w :=
  ⟨hg, hk⟩

/-- A loop over peers in which the body at a peer uses the links to that peer only. -/
theorem conforms_foldlM {σ : Type} {cs : List ι} {f : σ → ι → Proc ι M ε σ} {r : σ → ι → σ} {s : σ}
    {k : σ → Proc ι M ε α} (out inp out' inp' : ι → List (T × M))
    (hf : ∀ s, ∀ c ∈ cs, ∀ (w : Plan ι M T) (k : σ → Proc ι M ε α), w.out c = out c →
      w.inp c = inp c → Conforms next P (k (r s c)) t ((w.setOut c (out' c)).setInp c (inp' c)) →
      Conforms next P (f s c >>= k) t w)
    (hnd : cs.Nodup) (hout : ∀ c ∈ cs, w.out c = out c) (hinp : ∀ c ∈ cs, w.inp c = inp c)
    (hk : Conforms next P (k (cs.foldl r s)) t (w.setLinks cs out' inp')) :
    Conforms next P (cs.foldlM f s >>= k) t w := by
  induction cs generalizing s w k with
  | nil => simpa [Plan.setLinks] using hk
  | cons c cs ih =>
    obtain ⟨hc, hnd⟩ := List.nodup_cons.mp hnd
    rw [List.foldlM_cons, bind_assoc]
    refine hf s c List.mem_cons_self w _ (hout c List.mem_cons_self) (hinp c List.mem_cons_self) ?_
    have hne : ∀ c' ∈ cs, c' ≠ c := fun c' hc' h => hc (h ▸ hc')
    refine ih (fun s c' hc' => hf s c' (List.mem_cons_of_mem c hc')) hnd (fun c' hc' => ?_)
      (fun c' hc' => ?_) ?_
    · rw [← hout c' (List.mem_cons_of_mem c hc')]
      simp [Plan.setOut, Plan.setInp, hne c' hc']
    · rw [← hinp c' (List.mem_cons_of_mem c hc')]
      simp [Plan.setOut, Plan.setInp, hne c' hc']
    · have hplan : ((w.setOut c (out' c)).setInp c (inp' c)).setLinks cs out' inp' =
          w.setLinks (c :: cs) out' inp' := by
        rw [Plan.setLinks, Plan.setLinks, ← Plan.setOuts_cons w out' hc, ← Plan.setInps_cons _ inp' hc]
        rfl
      rw [hplan]
      exact hk

/-! ### Networks that keep to their plans -/

/-- The processes of `s` conform to their plans, and what one is to receive is
what is on the way to it followed by what its peer is still to send. -/
structure Agrees (next : T → T) (Q : ι → α → Plan ι M T → Prop) (s : Net ι M ε α)
    (plan : ι → Plan ι M T) (clock : ι → T) (wire : ι → ι → List (T × M)) : Prop where
  conforms : ∀ i, Conforms next (Q i) (s.proc i) (clock i) (plan i)
  inp_eq : ∀ i j, (plan i).inp j = wire j i ++ (plan j).out i
  wire_eq : ∀ i j, (wire i j).map Prod.snd = s.chan i j
  mem_guests : ∀ i j, j ∈ (plan i).guests ↔ j ∈ s.backlog i ∨ i ∈ (plan j).dials
  nodup : ∀ i, (s.backlog i).Nodup
  not_dials : ∀ i j, j ∈ s.backlog i → i ∉ (plan j).dials

variable {Q : ι → α → Plan ι M T → Prop} {s s' s₀ : Net ι M ε α} {plan : ι → Plan ι M T}
  {clock : ι → T} {wire : ι → ι → List (T × M)} {i : ι}

theorem agrees_start {proc : ι → Proc ι M ε α}
    (hconf : ∀ i, Conforms next (Q i) (proc i) (clock i) (plan i))
    (hinp : ∀ i j, (plan i).inp j = (plan j).out i)
    (hguests : ∀ i j, j ∈ (plan i).guests ↔ i ∈ (plan j).dials) :
    Agrees next Q (start proc) plan clock fun _ _ => [] where
  conforms := hconf
  inp_eq i j := hinp i j
  wire_eq _ _ := rfl
  mem_guests i j := by simp [start, hguests i j]
  nodup _ := List.nodup_nil
  not_dials _ _ h := by simp [start] at h

/-! ### One step -/

/-- Replacing the process and the plan of `i` keeps the others conforming. -/
theorem conforms_update (h : ∀ j, Conforms next (Q j) (s.proc j) (clock j) (plan j))
    {p : Proc ι M ε α} {t : T} {w : Plan ι M T} (hi : Conforms next (Q i) p t w) (j : ι) :
    Conforms next (Q j) (Function.update s.proc i p j) (Function.update clock i t j)
      (Function.update plan i w j) := by
  by_cases hj : j = i
  · subst hj
    simpa using hi
  · simpa [hj] using h j

section
omit [Preorder T]

theorem update_field {β : Type*} (f : Plan ι M T → β) (w : Plan ι M T) (a : ι) :
    f (Function.update plan i w a) = if a = i then f w else f (plan a) := by
  rw [Function.update_apply, apply_ite f]

/-- A component that the new plan of `i` does not change. -/
theorem update_same {β : Type*} (f : Plan ι M T → β) (i : ι) (w : Plan ι M T) (h : f w = f (plan i))
    (a : ι) :
    f (Function.update plan i w a) = f (plan a) := by
  rw [update_field f w a, h]
  split_ifs with ha
  · rw [ha]
  · rfl

theorem update_setOut_out (j : ι) (ms : List (T × M)) (a b : ι) :
    (Function.update plan i ((plan i).setOut j ms) a).out b =
      if a = i ∧ b = j then ms else (plan a).out b := by
  by_cases ha : a = i
  · subst ha
    simp [Plan.setOut, Function.update_apply]
  · simp [ha]

theorem update_setInp_inp (j : ι) (ms : List (T × M)) (a b : ι) :
    (Function.update plan i ((plan i).setInp j ms) a).inp b =
      if a = i ∧ b = j then ms else (plan a).inp b := by
  by_cases ha : a = i
  · subst ha
    simp [Plan.setInp, Function.update_apply]
  · simp [ha]

end

/-- A step that leaves the backlogs and who is to connect alone: agreement is
about the links only. -/
theorem Agrees.of_links (h : Agrees next Q s plan clock wire) {p : Proc ι M ε α} {t : T}
    {w : Plan ι M T} {chan : ι → ι → List M} {wire' : ι → ι → List (T × M)}
    (hconf : Conforms next (Q i) p t w) (hd : w.dials = (plan i).dials)
    (hg : w.guests = (plan i).guests)
    (hinp : ∀ a b, (Function.update plan i w a).inp b =
      wire' b a ++ (Function.update plan i w b).out a)
    (hwire : ∀ a b, (wire' a b).map Prod.snd = chan a b) :
    Agrees next Q ⟨Function.update s.proc i p, chan, s.backlog⟩ (Function.update plan i w)
      (Function.update clock i t) wire' where
  conforms := conforms_update h.conforms hconf
  inp_eq := hinp
  wire_eq := hwire
  mem_guests a b := by
    rw [update_same Plan.guests i w hg, update_same Plan.dials i w hd]
    exact h.mem_guests a b
  nodup := h.nodup
  not_dials a b hab := by
    rw [update_same Plan.dials i w hd]
    exact h.not_dials a b hab

/-- A step that leaves the links alone: agreement is about the backlogs only. -/
theorem Agrees.of_backlog (h : Agrees next Q s plan clock wire) {p : Proc ι M ε α} {t : T}
    {w : Plan ι M T} {backlog : ι → List ι} (hconf : Conforms next (Q i) p t w)
    (ho : w.out = (plan i).out) (hi : w.inp = (plan i).inp)
    (hmem : ∀ a b, b ∈ (Function.update plan i w a).guests ↔
      b ∈ backlog a ∨ a ∈ (Function.update plan i w b).dials)
    (hnodup : ∀ a, (backlog a).Nodup)
    (hnot : ∀ a b, b ∈ backlog a → a ∉ (Function.update plan i w b).dials) :
    Agrees next Q ⟨Function.update s.proc i p, s.chan, backlog⟩ (Function.update plan i w)
      (Function.update clock i t) wire where
  conforms := conforms_update h.conforms hconf
  inp_eq a b := by
    rw [update_same Plan.inp i w hi, update_same Plan.out i w ho]
    exact h.inp_eq a b
  wire_eq := h.wire_eq
  mem_guests := hmem
  nodup := hnodup
  not_dials := hnot

theorem Agrees.send (h : Agrees next Q s plan clock wire) {j : ι} {m : M} {k : Proc ι M ε α}
    {τ : T} {rest : List (T × M)} (hout : (plan i).out j = (τ, m) :: rest)
    (hk : Conforms next (Q i) k (clock i) ((plan i).setOut j rest)) :
    Agrees next Q ⟨Function.update s.proc i k, setLink s.chan i j (s.chan i j ++ [m]), s.backlog⟩
      (Function.update plan i ((plan i).setOut j rest)) (Function.update clock i (clock i))
      (setLink wire i j (wire i j ++ [(τ, m)])) := by
  refine h.of_links hk rfl rfl ?_ ?_
  · intro a b
    rw [update_same Plan.inp i ((plan i).setOut j rest) rfl, update_setOut_out, setLink, h.inp_eq]
    split_ifs with hab
    · rw [hab.1, hab.2, hout, List.append_assoc, List.singleton_append]
    · rfl
  · intro a b
    simp only [setLink]
    split_ifs with hab
    · rw [List.map_append, h.wire_eq, List.map_singleton]
    · exact h.wire_eq a b

/-- The message at the head of a link is the one the plan of the receiver names. -/
theorem Agrees.head (h : Agrees next Q s plan clock wire) {j : ι} {τ : T} {m m' : M}
    {rest : List (T × M)} {ms : List M} (hinp : (plan i).inp j = (τ, m') :: rest)
    (hc : s.chan j i = m :: ms) :
    m' = m ∧ ∃ l, rest = l ++ (plan j).out i ∧ l.map Prod.snd = ms := by
  have hmap := h.wire_eq j i
  have heq := h.inp_eq i j
  rw [hc] at hmap
  obtain ⟨x, l, hx, rfl, hl⟩ := List.map_eq_cons_iff.mp hmap
  rw [hinp, hx, List.cons_append, List.cons.injEq] at heq
  obtain ⟨rfl, hrest⟩ := heq
  exact ⟨rfl, l, hrest, hl⟩

theorem Agrees.recv (h : Agrees next Q s plan clock wire) {j : ι} {m : M} {ms : List M}
    {k : M → Proc ι M ε α} {t : T} {l : List (T × M)}
    (hl : l.map Prod.snd = ms)
    (hk : Conforms next (Q i) (k m) t ((plan i).setInp j (l ++ (plan j).out i))) :
    Agrees next Q ⟨Function.update s.proc i (k m), setLink s.chan j i ms, s.backlog⟩
      (Function.update plan i ((plan i).setInp j (l ++ (plan j).out i)))
      (Function.update clock i t) (setLink wire j i l) := by
  refine h.of_links hk rfl rfl ?_ ?_
  · intro a b
    rw [update_setInp_inp, update_same Plan.out i ((plan i).setInp j _) rfl, setLink]
    by_cases hab : a = i ∧ b = j
    · rw [if_pos hab, if_pos hab.symm, hab.1, hab.2]
    · rw [if_neg hab, if_neg fun hc => hab hc.symm]
      exact h.inp_eq a b
  · intro a b
    simp only [setLink]
    split_ifs with hab
    · exact hl
    · exact h.wire_eq a b

theorem Agrees.connect (h : Agrees next Q s plan clock wire) {j : ι} {k : Proc ι M ε α}
    (hj : j ∈ (plan i).dials) (hk : Conforms next (Q i) k (clock i) ((plan i).dialled j)) :
    Agrees next Q
      ⟨Function.update s.proc i k, s.chan, Function.update s.backlog j (s.backlog j ++ [i])⟩
      (Function.update plan i ((plan i).dialled j)) (Function.update clock i (clock i)) wire := by
  have hnew : i ∉ s.backlog j := fun hc => h.not_dials j i hc hj
  refine h.of_backlog hk rfl rfl ?_ ?_ ?_
  · intro a b
    rw [update_same Plan.guests i ((plan i).dialled j) rfl, h.mem_guests a b, update_field Plan.dials]
    by_cases hb : b = i <;> by_cases ha : a = j <;> simp_all [Plan.dialled]
  · intro a
    by_cases ha : a = j
    · subst ha
      rw [Function.update_self]
      exact (h.nodup a).append (List.nodup_singleton i) (by simpa using hnew)
    · rw [Function.update_of_ne ha]
      exact h.nodup a
  · intro a b
    rw [update_field Plan.dials]
    have := h.not_dials a b
    by_cases hb : b = i <;> by_cases ha : a = j <;> simp_all [Plan.dialled]

theorem Agrees.accept (h : Agrees next Q s plan clock wire) {c : ι} {cs : List ι}
    {k : ι → Proc ι M ε α} (hb : s.backlog i = c :: cs)
    (hk : Conforms next (Q i) (k c) (clock i) ((plan i).answered c)) :
    Agrees next Q ⟨Function.update s.proc i (k c), s.chan, Function.update s.backlog i cs⟩
      (Function.update plan i ((plan i).answered c)) (Function.update clock i (clock i)) wire := by
  have hnd := h.nodup i
  rw [hb, List.nodup_cons] at hnd
  refine h.of_backlog hk rfl rfl ?_ ?_ ?_
  · intro a b
    rw [update_same Plan.dials i ((plan i).answered c) rfl, update_field Plan.guests]
    have hab := h.mem_guests a b
    have hno := h.not_dials a b
    by_cases ha : a = i
    · subst ha
      by_cases hbc : b = c <;> simp_all [Plan.answered]
    · simpa [ha] using hab
  · intro a
    by_cases ha : a = i
    · subst ha
      simpa using hnd.2
    · rw [Function.update_of_ne ha]
      exact h.nodup a
  · intro a b hab
    rw [update_same Plan.dials i ((plan i).answered c) rfl]
    refine h.not_dials a b ?_
    by_cases ha : a = i
    · subst ha
      simp_all
    · simpa [ha] using hab

section
variable [Fintype ι]

/-- The number of actions left to all processes. -/
def remaining (plan : ι → Plan ι M T) : ℕ := ∑ i, (plan i).size

omit [Preorder T] in
theorem sum_update_succ {β : Type*} (f : β → ℕ) (g : ι → β) (i : ι) (b : β)
    (h : f b + 1 = f (g i)) : ∑ j, f (Function.update g i b j) + 1 = ∑ j, f (g j) := by
  rw [← Finset.add_sum_erase Finset.univ _ (Finset.mem_univ i),
    ← Finset.add_sum_erase Finset.univ (fun j => f (g j)) (Finset.mem_univ i)]
  have hrest : ∑ j ∈ Finset.univ.erase i, f (Function.update g i b j) =
      ∑ j ∈ Finset.univ.erase i, f (g j) := by
    refine Finset.sum_congr rfl fun j hj => ?_
    rw [Function.update_of_ne (Finset.ne_of_mem_erase hj)]
  rw [hrest, Function.update_self]
  omega

omit [Preorder T] in
theorem Plan.size_setOut {w : Plan ι M T} {j : ι} {m : T × M} {rest : List (T × M)}
    (h : w.out j = m :: rest) : (w.setOut j rest).size + 1 = w.size := by
  have := sum_update_succ List.length w.out j rest (by rw [h, List.length_cons])
  simp only [Plan.size, Plan.setOut]
  omega

omit [Preorder T] in
theorem Plan.size_setInp {w : Plan ι M T} {j : ι} {m : T × M} {rest : List (T × M)}
    (h : w.inp j = m :: rest) : (w.setInp j rest).size + 1 = w.size := by
  have := sum_update_succ List.length w.inp j rest (by rw [h, List.length_cons])
  simp only [Plan.size, Plan.setInp]
  omega

/-- Every step keeps the agreement and uses up one action. -/
theorem Agrees.step (h : Agrees next Q s plan clock wire) (hs : Step s i s') :
    ∃ plan' clock' wire', Agrees next Q s' plan' clock' wire' ∧
      remaining plan' + 1 = remaining plan ∧ ∀ a, (plan' a).guests ⊆ (plan a).guests := by
  have hi := h.conforms i
  rcases step_cases hs with ⟨j, m, k, hp, rfl⟩ | ⟨j, k, m, ms, hp, hc, rfl⟩ | ⟨j, k, hp, rfl⟩ |
    ⟨k, c, cs, hp, hb, rfl⟩
  · rw [hp] at hi
    obtain ⟨τ, rest, hout, -, hk⟩ := hi
    refine ⟨_, _, _, h.send hout hk, sum_update_succ Plan.size plan i _ (Plan.size_setOut hout),
      fun a => ?_⟩
    rw [update_same Plan.guests i ((plan i).setOut j rest) rfl]
  · rw [hp] at hi
    obtain ⟨τ, m', rest, t, hinp, -, -, hk⟩ := hi
    obtain ⟨rfl, l, rfl, hl⟩ := h.head hinp hc
    refine ⟨_, _, _, h.recv hl hk, sum_update_succ Plan.size plan i _ (Plan.size_setInp hinp),
      fun a => ?_⟩
    rw [update_same Plan.guests i ((plan i).setInp j _) rfl]
  · rw [hp] at hi
    refine ⟨_, _, _, h.connect hi.1 hi.2, sum_update_succ Plan.size plan i _ ?_, fun a => ?_⟩
    · have := Finset.card_erase_add_one hi.1
      simp only [Plan.size, Plan.dialled]
      omega
    · rw [update_same Plan.guests i ((plan i).dialled j) rfl]
  · rw [hp] at hi
    have hc : c ∈ (plan i).guests := (h.mem_guests i c).mpr (.inl (by simp [hb]))
    refine ⟨_, _, _, h.accept hb (hi.2 c hc), sum_update_succ Plan.size plan i _ ?_, fun a => ?_⟩
    · have := Finset.card_erase_add_one hc
      simp only [Plan.size, Plan.answered]
      omega
    · rw [update_field Plan.guests]
      split_ifs with ha
      · rw [ha]
        exact Finset.erase_subset c _
      · exact Finset.Subset.refl _

/-! ### Whole runs -/

/-- A run keeps the agreement, and is no longer than the plans. -/
theorem Agrees.run (h : Agrees next Q s₀ plan clock wire) {es : List ι} (hrun : Run Step s₀ es s) :
    ∃ plan' clock' wire', Agrees next Q s plan' clock' wire' ∧
      es.length + remaining plan' = remaining plan ∧ ∀ a, (plan' a).guests ⊆ (plan a).guests := by
  induction hrun with
  | nil => exact ⟨plan, clock, wire, h, Nat.zero_add _, fun a => Finset.Subset.refl _⟩
  | snoc _ hs ih =>
    obtain ⟨plan₁, clock₁, wire₁, h₁, hlen, hg⟩ := ih
    obtain ⟨plan₂, clock₂, wire₂, h₂, hlen', hg'⟩ := h₁.step hs
    refine ⟨plan₂, clock₂, wire₂, h₂, ?_, fun a => (hg' a).trans (hg a)⟩
    rw [List.length_append, List.length_singleton]
    omega

end

theorem Agrees.not_fail (h : Agrees next Q s plan clock wire) (e : ε) : s.proc i ≠ .fail e := by
  intro hp
  have hi := h.conforms i
  rw [hp] at hi
  exact hi

theorem Agrees.of_done (h : Agrees next Q s plan clock wire) {a : α} (hp : s.proc i = .done a) :
    (plan i).Spent ∧ Q i a (plan i) := by
  have hi := h.conforms i
  rwa [hp] at hi

/-! ### Progress -/

/-- In a network without accepts that is stuck, a process has returned or waits
for a message that its peer has not sent. -/
theorem Agrees.stuck_cases (h : Agrees next Q s plan clock wire) (hg : ∀ a, (plan a).guests = ∅)
    (hstuck : Stuck s) (i : ι) : (∃ a, s.proc i = .done a) ∨
      ∃ j τ m rest t, (plan j).out i = (τ, m) :: rest ∧ next τ ≤ t ∧
        ∀ b τ' m' rest', (plan i).out b = (τ', m') :: rest' → t ≤ τ' := by
  have hi := h.conforms i
  have hno := hstuck i
  unfold Network.step at hno
  cases hp : s.proc i with
  | done a => exact .inl ⟨a, rfl⟩
  | fail e => exact (h.not_fail e hp).elim
  | send j m k => simp [hp] at hno
  | connect j k => simp [hp] at hno
  | accept k =>
    rw [hp] at hi
    obtain ⟨⟨c, hc⟩, -⟩ := hi
    simp [hg] at hc
  | recv j k =>
    rw [hp] at hi
    obtain ⟨τ, m, rest, t, hinp, -, hτ, hk⟩ := hi
    have hchan : s.chan j i = [] := by
      cases hc : s.chan j i with
      | nil => rfl
      | cons m' ms => simp [hp, hc] at hno
    have hwire : wire j i = [] := List.map_eq_nil_iff.mp ((h.wire_eq j i).trans hchan)
    have hout := h.inp_eq i j
    rw [hinp, hwire, List.nil_append] at hout
    exact .inr ⟨j, τ, m, rest, t, hout.symm, hτ, fun b τ' m' rest' hb => hk.le_stamp hb⟩

/-- The process that a waiting one waits for waits itself, for an earlier stamp:
there is no stuck network with a process that has not returned. -/
theorem Agrees.all_done [WellFoundedLT T] (hnext : ∀ τ, τ < next τ)
    (h : Agrees next Q s plan clock wire) (hg : ∀ a, (plan a).guests = ∅) (hstuck : Stuck s)
    (i : ι) : ∃ a, s.proc i = .done a := by
  have hdescend : ∀ τ, ∀ i j m rest, (plan j).out i = (τ, m) :: rest → False := by
    intro τ
    induction τ using WellFoundedLT.induction with
    | ind τ ih =>
      intro i j m rest hout
      rcases h.stuck_cases hg hstuck j with ⟨a, ha⟩ | ⟨j', τ', m', rest', t, hout', ht, hle⟩
      · have := (h.of_done ha).1.1 i
        simp [this] at hout
      · exact ih τ' ((hnext τ').trans_le (ht.trans (hle _ _ _ _ hout))) _ _ _ _ hout'
  rcases h.stuck_cases hg hstuck i with ha | ⟨j, τ, m, rest, t, hout, -⟩
  · exact ha
  · exact (hdescend τ i j m rest hout).elim

/-! ### Networks with a script -/

/-- Every interleaving comes to an end, with every process returned as `Q` says and
nothing left on a link; no process fails on the way. -/
def Completes (proc : ι → Proc ι M ε α) (Q : ι → α → Prop) : Prop :=
  ∃ bound, ∀ es s, Run Step (start proc) es s →
    es.length ≤ bound ∧ (∀ i e, s.proc i ≠ .fail e) ∧ (∀ i a, s.proc i = .done a → Q i a) ∧
      (Stuck s → (∀ i, ∃ a, s.proc i = .done a) ∧ ∀ i j, s.chan i j = [])

/-- The plan of process `i` in a script for all links. -/
def planOf (script : ι → ι → List (T × M)) (i : ι) : Plan ι M T :=
  ⟨script i, fun j => script j i, ∅, ∅⟩

/-- Processes that conform to a common script, each on its own, complete it. -/
theorem completes_of_conforms [Fintype ι] [WellFoundedLT T] (hnext : ∀ τ, τ < next τ)
    {proc : ι → Proc ι M ε α} {R : ι → α → Prop} (script : ι → ι → List (T × M)) (t : T)
    (hconf : ∀ i, Conforms next (fun a w => (∀ j, w.inp j = []) ∧ R i a) (proc i) t
      (planOf script i)) : Completes proc R := by
  refine ⟨remaining (planOf script), fun es s hrun => ?_⟩
  have h0 : Agrees next (fun i a w => (∀ j, w.inp j = []) ∧ R i a) (start proc) (planOf script)
      (fun _ => t) fun _ _ => [] :=
    agrees_start hconf (fun _ _ => rfl) fun _ _ => by simp [planOf]
  obtain ⟨plan, clock, wire, h, hlen, hg⟩ := h0.run hrun
  have hg' : ∀ a, (plan a).guests = ∅ := fun a => Finset.subset_empty.mp (hg a)
  refine ⟨by omega, fun i e => h.not_fail e, fun i a ha => (h.of_done ha).2.2, fun hstuck => ?_⟩
  have hdone := h.all_done hnext hg' hstuck
  refine ⟨hdone, fun i j => ?_⟩
  obtain ⟨a, ha⟩ := hdone j
  have hinp := (h.of_done ha).2.1 i
  rw [h.inp_eq] at hinp
  rw [← h.wire_eq, (List.append_eq_nil_iff.mp hinp).1, List.map_nil]

end TorchIpc.Network
