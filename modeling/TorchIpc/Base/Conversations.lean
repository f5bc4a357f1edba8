import TorchIpc.Base.Scripts
import TorchIpc.Base.Rooted

/-! Processes that hold a conversation over each of their links. The two ends of a link take turns
in an order fixed in advance, the same for both. If the links form a tree, the network comes to its
end however little the links can hold, even if none takes a message before the other end waits for
it: a circle of waiting processes would have to turn around on one link, and one of the two ends of
that link could go on. -/

namespace TorchIpc.Network

open Runs

variable {ι M ε α β γ : Type}

/-! ### Conversations -/

inductive Turn (M : Type) where
  | say (m : M)
  | hear (m : M)
  deriving DecidableEq

def Turn.message : Turn M → M
  | say m => m
  | hear m => m

def Turn.flip : Turn M → Turn M
  | say m => hear m
  | hear m => say m

@[simp] theorem Turn.flip_say (m : M) : (say m).flip = hear m := rfl

@[simp] theorem Turn.flip_hear (m : M) : (hear m).flip = say m := rfl

@[simp] theorem Turn.flip_flip (x : Turn M) : x.flip.flip = x := by cases x <;> rfl

@[simp] theorem Turn.map_flip_flip (xs : List (Turn M)) : (xs.map flip).map flip = xs := by
  simp [List.map_map, Function.comp_def]

/-- The rest of a conversation at one end, `as`, and at the other, `bs`, with the messages on the
way: one end is ahead of the other by what it has said. -/
def Linked (as bs : List (Turn M)) (ab ba : List M) : Prop :=
  (bs = ab.map .hear ++ as.map .flip ∧ ba = []) ∨ (as = ba.map .hear ++ bs.map .flip ∧ ab = [])

section
variable {as bs : List (Turn M)} {ab ba : List M} {m m' : M}

theorem linked_flip (as : List (Turn M)) : Linked as (as.map .flip) [] [] := .inl ⟨rfl, rfl⟩

theorem Linked.symm (h : Linked as bs ab ba) : Linked bs as ba ab := h.elim .inr .inl

theorem Linked.say (h : Linked (.say m :: as) bs ab ba) : Linked as bs (ab ++ [m]) ba := by
  rcases h with ⟨rfl, rfl⟩ | ⟨has, rfl⟩
  · exact .inl ⟨by simp, rfl⟩
  · cases ba with
    | cons m' ba => simp at has
    | nil =>
      have hbs := congrArg (List.map Turn.flip) has
      simp only [List.map_cons, Turn.flip_say, List.map_nil, List.nil_append, Turn.map_flip_flip] at hbs
      exact .inl ⟨by simp [← hbs], rfl⟩

theorem Linked.hear (h : Linked (.hear m' :: as) bs ab (m :: ba)) : m' = m ∧
    Linked as bs ab ba := by
  rcases h with ⟨-, hba⟩ | ⟨has, rfl⟩
  · cases hba
  · simp only [List.map_cons, List.cons_append, List.cons.injEq, Turn.hear.injEq] at has
    exact ⟨has.1, .inr ⟨has.2, rfl⟩⟩

theorem Linked.of_nil (h : Linked ([] : List (Turn M)) [] ab ba) : ab = [] ∧ ba = [] := by
  rcases h with ⟨hnil, rfl⟩ | ⟨hnil, rfl⟩
  · simpa using hnil
  · simpa using hnil

/-- An end that speaks next, or that listens while nothing is on the way, is not alone. -/
theorem Linked.ne_nil_of_say (h : Linked (.say m :: as) bs ab ba) : bs ≠ [] := by
  rintro rfl
  rcases h with ⟨hnil, -⟩ | ⟨has, -⟩
  · simp at hnil
  · cases ba <;> simp at has

theorem Linked.ne_nil_of_hear (h : Linked (.hear m :: as) bs ab []) : bs ≠ [] := by
  rintro rfl
  rcases h with ⟨hnil, -⟩ | ⟨has, -⟩
  · simp at hnil
  · simp at has

/-- Both ends do not speak at a time, and both do not listen while nothing is on the way. -/
theorem Linked.not_both_say (h : Linked (.say m :: as) (.say m' :: bs) ab ba) : False := by
  rcases h with ⟨hbs, -⟩ | ⟨has, -⟩
  · cases ab <;> simp at hbs
  · cases ba <;> simp at has

theorem Linked.not_both_hear (h : Linked (.hear m :: as) (.hear m' :: bs) [] []) : False := by
  rcases h with ⟨hbs, -⟩ | ⟨has, -⟩
  · simp at hbs
  · simp at has

theorem Linked.heard (h : Linked (.hear m :: as) (.say m' :: bs) ab []) : m = m' := by
  rcases h with ⟨hbs, -⟩ | ⟨has, -⟩
  · cases ab with
    | nil =>
      simp at hbs
      exact hbs.1.symm
    | cons m'' ab => simp at hbs
  · simp at has
    exact has.1

end

/-! ### Processes that take their turns -/

variable [DecidableEq ι]

/-- The process takes the turns `S j` on its link to `j`, all of them, and ends with `Q`. -/
def Talks (Q : α → Prop) : Proc ι M ε α → (ι → List (Turn M)) → Prop
  | .done a, S => (∀ j, S j = []) ∧ Q a
  | .fail _, _ => False
  | .send j m k, S => ∃ rest, S j = .say m :: rest ∧ Talks Q k (Function.update S j rest)
  | .recv j k, S => ∃ m rest, S j = .hear m :: rest ∧ Talks Q (k m) (Function.update S j rest)
  | .connect _ _, _ => False
  | .accept _, _ => False

instance Talks.decidable [Fintype ι] [DecidableEq M] {Q : α → Prop} [DecidablePred Q] :
    ∀ (p : Proc ι M ε α) (S : ι → List (Turn M)), Decidable (Talks Q p S)
  | .done a, S => inferInstanceAs (Decidable ((∀ j, S j = []) ∧ Q a))
  | .fail _, _ => .isFalse id
  | .connect _ _, _ => .isFalse id
  | .accept _, _ => .isFalse id
  | .send j m k, S =>
    match hS : S j with
    | .say m' :: rest =>
      have := Talks.decidable (Q := Q) k (Function.update S j rest)
      decidable_of_iff (m' = m ∧ Talks Q k (Function.update S j rest)) (by simp [Talks, hS])
    | [] | .hear _ :: _ => .isFalse (by simp [Talks, hS])
  | .recv j k, S =>
    match hS : S j with
    | .hear m :: rest =>
      have := Talks.decidable (Q := Q) (k m) (Function.update S j rest)
      decidable_of_iff (Talks Q (k m) (Function.update S j rest)) (by simp [Talks, hS])
    | [] | .say _ :: _ => .isFalse (by simp [Talks, hS])

def towards (j : ι) (xs : List (Turn M)) : ι → List (Turn M) := fun k => if k = j then xs else []

section
variable {Q Q' : α → Prop} {P : β → Prop} {p : Proc ι M ε α} {f : α → Proc ι M ε β}
  {S S' : ι → List (Turn M)} {j : ι} {m : M}

theorem Talks.mono (h : Talks Q p S) (hQ : ∀ a, Q a → Q' a) : Talks Q' p S := by
  induction p generalizing S with
  | done a => exact ⟨h.1, hQ a h.2⟩
  | fail e => exact h
  | send j m k ih =>
    obtain ⟨rest, hS, hk⟩ := h
    exact ⟨rest, hS, ih hk⟩
  | recv j k ih =>
    obtain ⟨m, rest, hS, hk⟩ := h
    exact ⟨m, rest, hS, ih m hk⟩
  | connect j k => exact h
  | accept k => exact h

theorem append_update (S S' : ι → List (Turn M)) (j : ι) (rest : List (Turn M)) :
    (fun i => Function.update S j rest i ++ S' i) =
      Function.update (fun i => S i ++ S' i) j (rest ++ S' j) := by
  funext i
  by_cases hi : i = j
  · subst hi
    simp
  · simp [hi]

/-- One part of a program after the other: so are their turns. -/
theorem Talks.bind (h : Talks Q p S) (hf : ∀ a, Q a → Talks P (f a) S') :
    Talks P (p >>= f) fun j => S j ++ S' j := by
  change Talks P (p.bind f) _
  induction p generalizing S with
  | done a =>
    have hnil : (fun j => S j ++ S' j) = S' := by simp [h.1]
    rw [hnil]
    exact hf a h.2
  | fail e => exact h.elim
  | send j m k ih =>
    obtain ⟨rest, hS, hk⟩ := h
    refine ⟨rest ++ S' j, by simp [hS], ?_⟩
    rw [← append_update]
    exact ih hk
  | recv j k ih =>
    obtain ⟨m, rest, hS, hk⟩ := h
    refine ⟨m, rest ++ S' j, by simp [hS], ?_⟩
    rw [← append_update]
    exact ih m hk
  | connect j k => exact h.elim
  | accept k => exact h.elim

theorem talks_pure {a : α} (h : Q a) : Talks Q (pure a : Proc ι M ε α) fun _ => [] :=
  ⟨fun _ => rfl, h⟩

theorem Talks.returns (h : Talks Q p S) (hf : ∀ a, Q a → ∃ b, f a = pure b ∧ P b) :
    Talks P (p >>= f) S := by
  have hbind : Talks P (p >>= f) fun j => S j ++ (fun _ => []) j := by
    apply h.bind
    intro a ha
    obtain ⟨b, hb, hPb⟩ := hf a ha
    rw [hb]
    exact talks_pure hPb
  simpa using hbind

theorem update_towards (j : ι) (xs ys : List (Turn M)) :
    Function.update (towards j xs) j ys = towards j ys := by
  funext i
  by_cases hi : i = j <;> simp [towards, hi]

theorem towards_nil (j : ι) : towards j ([] : List (Turn M)) = fun _ => [] := by
  funext i
  simp [towards]

theorem towards_append (j : ι) (xs ys : List (Turn M)) :
    (fun i => towards j xs i ++ towards j ys i) = towards j (xs ++ ys) := by
  funext i
  by_cases hi : i = j <;> simp [towards, hi]

theorem towards_cons (j : ι) (x : Turn M) (xs : List (Turn M)) :
    (fun i => towards j [x] i ++ towards j xs i) = towards j (x :: xs) := towards_append j [x] xs

theorem talks_put {Q : Unit → Prop} (h : Q ()) :
    Talks Q (Proc.put j m : Proc ι M ε Unit) (towards j [.say m]) :=
  ⟨[], by simp [towards], by simp [update_towards, towards_nil], h⟩

theorem talks_get {Q : M → Prop} (h : Q m) :
    Talks Q (Proc.get j : Proc ι M ε M) (towards j [.hear m]) :=
  ⟨m, [], by simp [towards], by simp [update_towards, towards_nil], h⟩

/-- The same turns with one peer for each element of a list. -/
theorem talks_mapM {xs : List β} {f : β → Proc ι M ε γ} {r : β → γ} (turns : β → List (Turn M))
    (hf : ∀ x ∈ xs, Talks (· = r x) (f x) (towards j (turns x))) :
    Talks (· = xs.map r) (xs.mapM f) (towards j (xs.flatMap turns)) := by
  induction xs with
  | nil =>
    rw [List.flatMap_nil, towards_nil]
    exact talks_pure rfl
  | cons x xs ih =>
    rw [List.forall_mem_cons] at hf
    rw [List.mapM_cons, List.flatMap_cons, ← towards_append]
    apply hf.1.bind
    rintro y rfl
    apply (ih hf.2).returns
    rintro ys rfl
    exact ⟨_, rfl, rfl⟩

theorem talks_mapM_say {xs : List β} {f : β → Proc ι M ε γ} {g : β → M} {r : β → γ}
    (hf : ∀ x, f x = Proc.put j (g x) >>= fun _ => pure (r x)) :
    Talks (· = xs.map r) (xs.mapM f) (towards j ((xs.map g).map .say)) := by
  have h := talks_mapM (f := f) (r := r) (j := j) (fun x => [.say (g x)]) fun x (_ : x ∈ xs) => by
    rw [hf]
    exact (talks_put trivial).returns (Q := fun _ => True) fun _ _ => ⟨_, rfl, rfl⟩
  rw [← List.map_eq_flatMap] at h
  rwa [List.map_map]

/-- One message received for each element of a list. -/
theorem talks_mapM_hear {δ : Type} {xs : List β} {ys : List δ} {f : β → Proc ι M ε γ} {g : δ → M}
    {r : β → δ → γ} (hlen : xs.length = ys.length)
    (hf : ∀ x y, Talks (· = r x y) (f x) (towards j [.hear (g y)])) :
    Talks (· = List.zipWith r xs ys) (xs.mapM f) (towards j ((ys.map g).map .hear)) := by
  have h := talks_mapM (f := fun x => f x.1) (r := fun x => r x.1 x.2) (j := j)
    (fun x => [.hear (g x.2)]) fun x (_ : x ∈ xs.zip ys) => hf x.1 x.2
  have hfst : (xs.zip ys).mapM (fun x => f x.1) = xs.mapM f := by
    conv_rhs => rw [← List.map_fst_zip (le_of_eq hlen), List.mapM_map]
    rfl
  have hsnd : (xs.zip ys).map (fun x => Turn.hear (g x.2)) = (ys.map g).map .hear := by
    conv_rhs => rw [← List.map_snd_zip (le_of_eq hlen.symm), List.map_map, List.map_map]
    rfl
  have hzip : (xs.zip ys).map (fun x => r x.1 x.2) = List.zipWith r xs ys := by
    rw [List.zip, List.map_zipWith]
  rwa [hfst, ← List.map_eq_flatMap, hsnd, hzip] at h

/-- A loop over peers that has its turns with each in its round. -/
theorem talks_foldlM {σ A : Type} {cs : List ι} {f : σ → ι → Proc ι M ε σ} {I : σ → A → Prop}
    {r : A → ι → A} {s : σ} {a : A} (turns : ι → List (Turn M))
    (hf : ∀ s a, ∀ c ∈ cs, I s a → Talks (fun s' => I s' (r a c)) (f s c) (towards c (turns c)))
    (h : I s a) :
    Talks (fun s' => I s' (cs.foldl r a)) (cs.foldlM f s) fun j => cs.flatMap fun c =>
      towards c (turns c) j := by
  induction cs generalizing s a with
  | nil => exact talks_pure h
  | cons c cs ih =>
    rw [List.foldlM_cons]
    apply (hf s a c List.mem_cons_self h).bind
    intro s' hs'
    exact ih (fun s a c' hc' => hf s a c' (List.mem_cons_of_mem c hc')) hs'

omit [DecidableEq ι] in
theorem foldlM_run {m : Type → Type} [Monad m] [LawfulMonad m] {σ τ : Type} (f : τ → ι → StateT σ m τ)
    (cs : List ι) (t : τ) (s : σ) :
    (cs.foldlM f t).run s = cs.foldlM (fun p c => (f p.1 c).run p.2) (t, s) := by
  induction cs generalizing t s with
  | nil => rfl
  | cons c cs ih => simp only [List.foldlM_cons, StateT.run_bind, ih]

theorem flatMap_towards {cs : List ι} (hnd : cs.Nodup) (turns : ι → List (Turn M)) (j : ι) :
    (cs.flatMap fun c => towards c (turns c) j) = if j ∈ cs then turns j else [] := by
  induction cs with
  | nil => rfl
  | cons c cs ih =>
    obtain ⟨hc, hnd⟩ := List.nodup_cons.mp hnd
    rw [List.flatMap_cons, ih hnd]
    by_cases hj : j = c
    · subst hj
      simp [towards, hc]
    · simp [towards, hj]

end

/-! ### Networks of conversations -/

/-- The process `i` cannot go on: nothing has come from `j`, or `j` does not wait for what `i` has
to say. -/
def WaitsFor (s : Net ι M ε α) (i j : ι) : Prop :=
  (∃ k, s.proc i = .recv j k ∧ s.chan j i = []) ∨
    ∃ m k, s.proc i = .send j m k ∧ ∀ k', s.proc j = .recv i k' → s.chan i j ≠ []

/-- Every process holds its part of the conversations, which run along the links of the tree. -/
structure Conversing (R : Rooted ι) (Q : ι → α → Prop) (s : Net ι M ε α) (S : ι → ι → List (Turn M)) :
    Prop where
  talks : ∀ i, Talks (Q i) (s.proc i) (S i)
  linked : ∀ i j, Linked (S i j) (S j i) (s.chan i j) (s.chan j i)
  along : ∀ i j, S i j ≠ [] → R.parent i = some j ∨ R.parent j = some i

variable {R : Rooted ι} {Q : ι → α → Prop} {s s' s₀ : Net ι M ε α} {S S₀ : ι → ι → List (Turn M)}
  {i j : ι}

theorem Conversing.ne (h : Conversing R Q s S) (hS : S i j ≠ []) : i ≠ j := by
  rintro rfl
  rcases h.along i i hS with hp | hp
  · exact R.not_parent hp hp
  · exact R.not_parent hp hp

theorem Conversing.turn (h : Conversing R Q s S) {x : Turn M} {rest : List (Turn M)} (hS : S i j = x :: rest)
    {p : Proc ι M ε α} {chan : ι → ι → List M} (hp : Talks (Q i) p (Function.update (S i) j rest))
    (hlink : Linked rest (S j i) (chan i j) (chan j i))
    (hchan : ∀ a b, ¬ (a = i ∧ b = j) → ¬ (a = j ∧ b = i) → chan a b = s.chan a b) :
    Conversing R Q ⟨Function.update s.proc i p, chan, s.backlog⟩ (setLink S i j rest) := by
  have hij : i ≠ j := h.ne (by simp [hS])
  constructor
  · intro a
    by_cases ha : a = i
    · subst ha
      have hrow : setLink S a j rest a = Function.update (S a) j rest := by
        funext b
        by_cases hb : b = j <;> simp [setLink, hb]
      simpa [hrow] using hp
    · have hrow : setLink S i j rest a = S a := by
        funext b
        simp [setLink, ha]
      simpa [ha, hrow] using h.talks a
  · intro a b
    by_cases hab : a = i ∧ b = j
    · obtain ⟨rfl, rfl⟩ := hab
      simpa [setLink, hij.symm] using hlink
    · by_cases hba : a = j ∧ b = i
      · obtain ⟨rfl, rfl⟩ := hba
        simpa [setLink, hij.symm] using hlink.symm
      · have hba' : ¬ (b = i ∧ a = j) := fun hc => hba hc.symm
        have hab' : ¬ (b = j ∧ a = i) := fun hc => hab hc.symm
        simpa [setLink, hab, hba', hchan a b hab hba, hchan b a hba' hab'] using h.linked a b
  · intro a b hne
    apply h.along a b
    rintro hnil
    by_cases hab : a = i ∧ b = j
    · obtain ⟨rfl, rfl⟩ := hab
      simp [hS] at hnil
    · simp [setLink, hab, hnil] at hne

theorem Conversing.send (h : Conversing R Q s S) {m : M} {k : Proc ι M ε α} (hp : s.proc i = .send j m k) :
    ∃ rest, S i j = .say m :: rest ∧
      Conversing R Q ⟨Function.update s.proc i k, setLink s.chan i j (s.chan i j ++ [m]), s.backlog⟩
        (setLink S i j rest) := by
  have hi := h.talks i
  rw [hp] at hi
  obtain ⟨rest, hS, hk⟩ := hi
  have hij : i ≠ j := h.ne (by simp [hS])
  have hlink := h.linked i j
  rw [hS] at hlink
  refine ⟨rest, hS, h.turn hS hk ?_ ?_⟩
  · simpa [setLink, hij.symm] using hlink.say
  · intro a b hab _
    simp [setLink, hab]

theorem Conversing.recv (h : Conversing R Q s S) {m : M} {ms : List M} {k : M → Proc ι M ε α}
    (hp : s.proc i = .recv j k) (hc : s.chan j i = m :: ms) :
    ∃ rest, S i j = .hear m :: rest ∧
      Conversing R Q ⟨Function.update s.proc i (k m), setLink s.chan j i ms, s.backlog⟩ (setLink S i j rest) := by
  have hi := h.talks i
  rw [hp] at hi
  obtain ⟨m', rest, hS, hk⟩ := hi
  have hij : i ≠ j := h.ne (by simp [hS])
  have hlink := h.linked i j
  rw [hS, hc] at hlink
  obtain ⟨rfl, hlink'⟩ := hlink.hear
  refine ⟨rest, hS, h.turn hS hk ?_ ?_⟩
  · simpa [setLink, hij] using hlink'
  · intro a b _ hba
    simp [setLink, hba]

theorem Conversing.step (h : Conversing R Q s S) (hs : Step s i s') :
    ∃ j x rest, S i j = x :: rest ∧ Conversing R Q s' (setLink S i j rest) := by
  have hi := h.talks i
  rcases step_cases hs with ⟨j, m, k, hp, rfl⟩ | ⟨j, k, m, ms, hp, hc, rfl⟩ | ⟨j, k, hp, rfl⟩ |
    ⟨k, c, cs, hp, hb, rfl⟩
  · obtain ⟨rest, hS, h'⟩ := h.send hp
    exact ⟨j, _, rest, hS, h'⟩
  · obtain ⟨rest, hS, h'⟩ := h.recv hp hc
    exact ⟨j, _, rest, hS, h'⟩
  · rw [hp] at hi
    exact hi.elim
  · rw [hp] at hi
    exact hi.elim

theorem Conversing.not_fail (h : Conversing R Q s S) (e : ε) : s.proc i ≠ .fail e := by
  intro hp
  have hi := h.talks i
  rw [hp] at hi
  exact hi

theorem Conversing.of_done (h : Conversing R Q s S) {a : α} (hp : s.proc i = .done a) :
    (∀ j, S i j = []) ∧ Q i a := by
  have hi := h.talks i
  rwa [hp] at hi

/-- A process that waits has a turn to take on the link it waits on, and so has the other end. -/
theorem Conversing.waits (h : Conversing R Q s S) (hw : WaitsFor s i j) : S i j ≠ [] ∧
    S j i ≠ [] := by
  have hi := h.talks i
  have hlink := h.linked i j
  rcases hw with ⟨k, hp, hc⟩ | ⟨m, k, hp, -⟩
  · rw [hp] at hi
    obtain ⟨m, rest, hS, -⟩ := hi
    rw [hS, hc] at hlink
    exact ⟨by simp [hS], hlink.ne_nil_of_hear⟩
  · rw [hp] at hi
    obtain ⟨rest, hS, -⟩ := hi
    rw [hS] at hlink
    exact ⟨by simp [hS], hlink.ne_nil_of_say⟩

/-- The two ends of a link do not wait for each other. -/
theorem Conversing.not_mutual (h : Conversing R Q s S) (hij : WaitsFor s i j) (hji : WaitsFor s j i) : False := by
  have hi := h.talks i
  have hj := h.talks j
  have hlink := h.linked i j
  rcases hij with ⟨k, hp, hc⟩ | ⟨m, k, hp, hno⟩
  · rcases hji with ⟨k', hp', hc'⟩ | ⟨m', k', hp', hno'⟩
    · rw [hp] at hi
      rw [hp'] at hj
      obtain ⟨m, rest, hS, -⟩ := hi
      obtain ⟨m', rest', hS', -⟩ := hj
      rw [hS, hS', hc, hc'] at hlink
      exact hlink.not_both_hear
    · exact hno' k hp hc
  · rcases hji with ⟨k', hp', hc'⟩ | ⟨m', k', hp', -⟩
    · exact hno k' hp' hc'
    · rw [hp] at hi
      rw [hp'] at hj
      obtain ⟨rest, hS, -⟩ := hi
      obtain ⟨rest', hS', -⟩ := hj
      rw [hS, hS'] at hlink
      exact hlink.not_both_say

/-- If every process has returned or waits, all have returned. -/
theorem Conversing.all_done [Fintype ι] (h : Conversing R Q s S)
    (hstop : ∀ i, (∃ a, s.proc i = .done a) ∨ ∃ j, WaitsFor s i j) (i : ι) :
    ∃ a, s.proc i = .done a := by
  by_contra hi
  obtain ⟨j, hj⟩ := (hstop i).resolve_left hi
  have hadj : ∀ i j, WaitsFor s i j → R.parent i = some j ∨ R.parent j = some i :=
    fun i j hw => h.along i j (h.waits hw).1
  have hnext : ∀ i j, WaitsFor s i j → ∃ k, WaitsFor s j k := by
    intro i j hw
    apply (hstop j).resolve_left
    rintro ⟨a, ha⟩
    exact (h.waits hw).2 ((h.of_done ha).1 i)
  obtain ⟨a, b, hab, hba⟩ := R.exists_mutual hadj hnext hj
  exact h.not_mutual hab hba

/-! ### Links that need not hold anything -/

/-- A step over links that may put off taking a message. -/
def StepOver (ready : Net ι M ε α → ι → ι → Prop) (s : Net ι M ε α) (i : ι) (s' : Net ι M ε α) :
    Prop :=
  Step s i s' ∧ ∀ j m k, s.proc i = .send j m k → ready s i j

/-- The links take a message at the latest when the other end waits for it. -/
def Obliging (ready : Net ι M ε α → ι → ι → Prop) : Prop :=
  ∀ s i j k, s.proc j = .recv i k → s.chan i j = [] → ready s i j

/-- Links that hold up to `cap` messages. -/
def roomFor (cap : ℕ) (s : Net ι M ε α) (i j : ι) : Prop := (s.chan i j).length < cap

/-- Links that hold nothing: a message is handed over to a process that waits for it. -/
def handOver (s : Net ι M ε α) (i j : ι) : Prop := ∃ k, s.proc j = .recv i k ∧ s.chan i j = []

omit [DecidableEq ι] in
theorem obliging_roomFor {cap : ℕ} (hcap : 0 < cap) :
    Obliging (roomFor cap : Net ι M ε α → ι → ι → Prop) := by
  intro s i j k _ hc
  simpa [roomFor, hc] using hcap

omit [DecidableEq ι] in
theorem obliging_handOver : Obliging (handOver : Net ι M ε α → ι → ι → Prop) :=
  fun _ _ _ k hp hc => ⟨k, hp, hc⟩

def CompletesOver (ready : Net ι M ε α → ι → ι → Prop) (proc : ι → Proc ι M ε α) (Q : ι → α → Prop) : Prop :=
  ∃ bound, ∀ es s, Run (StepOver ready) (start proc) es s →
    es.length ≤ bound ∧ (∀ i e, s.proc i ≠ .fail e) ∧ (∀ i a, s.proc i = .done a → Q i a) ∧
      ((∀ i s', ¬ StepOver ready s i s') → (∀ i, ∃ a, s.proc i = .done a) ∧ ∀ i j, s.chan i j = [])

theorem CompletesOver.mono {ready : Net ι M ε α → ι → ι → Prop} {proc : ι → Proc ι M ε α} {Q Q' : ι → α → Prop}
    (h : CompletesOver ready proc Q) (hQ : ∀ i a, Q i a → Q' i a) :
    CompletesOver ready proc Q' := by
  obtain ⟨bound, h⟩ := h
  refine ⟨bound, fun es s hrun => ?_⟩
  obtain ⟨hlen, hfail, hdone, hstuck⟩ := h es s hrun
  exact ⟨hlen, hfail, fun i a ha => hQ i a (hdone i a ha), hstuck⟩

/-- A process that can take no step has returned or waits. -/
theorem Conversing.stopped (h : Conversing R Q s S) {ready : Net ι M ε α → ι → ι → Prop} (hready : Obliging ready)
    (hstop : ∀ s', ¬ StepOver ready s i s') : (∃ a, s.proc i = .done a) ∨ ∃ j, WaitsFor s i j := by
  have hi := h.talks i
  cases hp : s.proc i with
  | done a => exact .inl ⟨a, rfl⟩
  | fail e => exact (h.not_fail e hp).elim
  | connect j k =>
    rw [hp] at hi
    exact hi.elim
  | accept k =>
    rw [hp] at hi
    exact hi.elim
  | recv j k =>
    refine .inr ⟨j, .inl ⟨k, hp, ?_⟩⟩
    by_contra hc
    obtain ⟨m, ms, hc⟩ := List.exists_cons_of_ne_nil hc
    refine hstop _ ⟨by simp only [Step, Network.step, hp, hc]; rfl, ?_⟩
    intro j' m' k' hs
    rw [hp] at hs
    cases hs
  | send j m k =>
    refine .inr ⟨j, .inr ⟨m, k, hp, ?_⟩⟩
    intro k' hp' hc
    refine hstop _ ⟨by simp only [Step, Network.step, hp]; rfl, ?_⟩
    intro j' m' k'' hs
    rw [hp] at hs
    cases hs
    exact hready s i j k' hp' hc

section
variable [Fintype ι]

def turnsLeft (S : ι → ι → List (Turn M)) : ℕ := ∑ i, ∑ j, (S i j).length

theorem turnsLeft_setLink {x : Turn M} {rest : List (Turn M)} (h : S i j = x :: rest) :
    turnsLeft (setLink S i j rest) + 1 = turnsLeft S := by
  have hrow : setLink S i j rest = Function.update S i (Function.update (S i) j rest) := by
    funext a b
    by_cases ha : a = i
    · subst ha
      by_cases hb : b = j <;> simp [setLink, hb]
    · simp [setLink, ha]
  rw [turnsLeft, hrow]
  apply sum_update_succ fun row : ι → List (Turn M) => ∑ j, (row j).length
  exact sum_update_succ List.length (S i) j rest (by rw [h, List.length_cons])

theorem Conversing.run (h : Conversing R Q s₀ S₀) {es : List ι} (hrun : Run Step s₀ es s) :
    ∃ S, Conversing R Q s S ∧ es.length + turnsLeft S = turnsLeft S₀ := by
  induction hrun with
  | nil => exact ⟨S₀, h, Nat.zero_add _⟩
  | snoc _ hs ih =>
    obtain ⟨S, hS, hlen⟩ := ih
    obtain ⟨j, x, rest, hx, hS'⟩ := hS.step hs
    refine ⟨_, hS', ?_⟩
    have := turnsLeft_setLink hx
    rw [List.length_append, List.length_singleton]
    omega

/-- Processes that hold their parts of conversations along a tree complete them over any links. -/
theorem completesOver_of_talks (R : Rooted ι) {proc : ι → Proc ι M ε α} (S : ι → ι → List (Turn M))
    (htalks : ∀ i, Talks (Q i) (proc i) (S i)) (hflip : ∀ i j, S j i = (S i j).map .flip)
    (halong : ∀ i j, S i j ≠ [] → R.parent i = some j ∨ R.parent j = some i)
    {ready : Net ι M ε α → ι → ι → Prop} (hready : Obliging ready) :
    CompletesOver ready proc Q := by
  refine ⟨turnsLeft S, fun es s hrun => ?_⟩
  have h0 : Conversing R Q (start proc) S := by
    refine ⟨htalks, fun i j => ?_, halong⟩
    rw [hflip i j]
    exact linked_flip (S i j)
  obtain ⟨S', h, hlen⟩ := h0.run (hrun.mono fun _ _ _ hs => hs.1)
  refine ⟨by omega, fun i e => h.not_fail e, fun i a ha => (h.of_done ha).2, fun hstop => ?_⟩
  have hdone := h.all_done fun i => h.stopped hready (hstop i)
  refine ⟨hdone, fun i j => ?_⟩
  obtain ⟨a, ha⟩ := hdone i
  obtain ⟨b, hb⟩ := hdone j
  have hlink := h.linked i j
  rw [(h.of_done ha).1 j, (h.of_done hb).1 i] at hlink
  exact hlink.of_nil.1

end

end TorchIpc.Network
