import TorchIpc.Base.Conversations

/-! Messages over byte streams. A process that sends puts the bytes of its message on the stream to
its peer, some at a time, as the stream has room for them. A process that receives takes bytes off
the stream, never more than it wants, until it has those of a message. Processes that hold
conversations along a tree come to their end over such streams too, however the bytes are split and
however few the streams can hold. -/

namespace TorchIpc.Wire

open Runs Network

/-! ### Messages in bytes -/

/-- The bytes of a message, how many more a receiver wants that has got some of them, and the
messages that it may take its bytes for. -/
structure Codec (M B : Type) where
  encode : M → List B
  want : List B → ℕ
  Reads : List B → M → Prop

variable {ι M B ε α β : Type} {c : Codec M B} {m m' : M}

/-- A receiver of this message wants bytes up to its end, and can take them for the message. -/
structure Codec.Carries (c : Codec M B) (m : M) : Prop where
  nonempty : c.encode m ≠ []
  want_pos : ∀ got more, got ++ more = c.encode m → more ≠ [] → 0 < c.want got
  want_le : ∀ got more, got ++ more = c.encode m → c.want got ≤ more.length
  reads : c.Reads (c.encode m) m

theorem Codec.Carries.want_encode (h : c.Carries m) : c.want (c.encode m) = 0 :=
  Nat.le_zero.mp (h.want_le (c.encode m) [] (List.append_nil _))

/-- Where bytes can be taken for more than one message, the process fails on all but one. -/
def Discerns (c : Codec M B) : Proc ι M ε α → Prop
  | .done _ => True
  | .fail _ => True
  | .send _ _ k => Discerns c k
  | .recv _ k =>
    (∀ m m', c.Carries m → c.Reads (c.encode m) m' → (∀ e, k m ≠ .fail e) → (∀ e, k m' ≠ .fail e) → m' = m) ∧
      ∀ m, Discerns c (k m)
  | .connect _ k => Discerns c k
  | .accept k => ∀ i, Discerns c (k i)

theorem Discerns.bind {p : Proc ι M ε α} {f : α → Proc ι M ε β} (h : Discerns c p)
    (hf : ∀ a, Discerns c (f a)) : Discerns c (p >>= f) := by
  change Discerns c (p.bind f)
  induction p with
  | done a => exact hf a
  | fail e => exact trivial
  | send j m k ih => exact ih h
  | recv j k ih =>
    refine ⟨fun m m' hc hr hm hm' => h.1 m m' hc hr ?_ ?_, fun m => ih m (h.2 m)⟩
    · intro e he
      exact hm e (congrArg (Proc.bind · f) he)
    · intro e he
      exact hm' e (congrArg (Proc.bind · f) he)
  | connect j k ih => exact ih h
  | accept k ih => exact fun i => ih i (h i)

theorem discerns_pure (a : α) : Discerns c (pure a : Proc ι M ε α) := trivial

theorem discerns_mapM {γ : Type} {xs : List β} {f : β → Proc ι M ε γ} (hf : ∀ x ∈ xs, Discerns c (f x)) :
    Discerns c (xs.mapM f) := by
  induction xs with
  | nil => exact discerns_pure []
  | cons x xs ih =>
    rw [List.forall_mem_cons] at hf
    rw [List.mapM_cons]
    exact hf.1.bind fun y => (ih hf.2).bind fun ys => discerns_pure _

theorem discerns_foldlM {σ : Type} {xs : List β} {f : σ → β → Proc ι M ε σ} (hf : ∀ s x, Discerns c (f s x)) (s : σ) :
    Discerns c (xs.foldlM f s) := by
  induction xs generalizing s with
  | nil => exact discerns_pure s
  | cons x xs ih =>
    rw [List.foldlM_cons]
    exact (hf s x).bind ih

/-! ### Networks over byte streams -/

/-- The processes, what each has moved of the bytes of the message that it sends or receives,
the bytes on the way from one to another, and the connections that have not been accepted. -/
structure State (ι M B ε α : Type) where
  proc : ι → Proc ι M ε α
  moved : ι → List B
  stream : ι → ι → List B
  backlog : ι → List ι

def start (proc : ι → Proc ι M ε α) : State ι M B ε α :=
  ⟨proc, fun _ => [], fun _ _ => [], fun _ => []⟩

variable [DecidableEq ι]

/-- The process `i` has moved bytes of its message, which leaves `bs` on the stream from `a` to
`b`. -/
def State.move (w : State ι M B ε α) (i : ι) (moved : List B) (a b : ι) (bs : List B) :
    State ι M B ε α :=
  { w with moved := Function.update w.moved i moved, stream := setLink w.stream a b bs }

def State.goOn (w : State ι M B ε α) (i : ι) (p : Proc ι M ε α) (a b : ι) (bs : List B) :
    State ι M B ε α :=
  { w.move i [] a b bs with proc := Function.update w.proc i p }

/-- The process `i` moves some bytes, at least one. The stream from `i` to `j` holds up to `cap
i j`. -/
inductive Step (c : Codec M B) (cap : ι → ι → ℕ) : State ι M B ε α → ι → State ι M B ε α →
    Prop where
  | push {w i j m k x more} : w.proc i = .send j m k → w.moved i ++ (x ++ more) = c.encode m →
      x ≠ [] →
      more ≠ [] → (w.stream i j ++ x).length ≤ cap i j →
      Step c cap w i (w.move i (w.moved i ++ x) i j (w.stream i j ++ x))
  | sent {w i j m k x} : w.proc i = .send j m k → w.moved i ++ x = c.encode m → x ≠ [] →
      (w.stream i j ++ x).length ≤ cap i j →
      Step c cap w i (w.goOn i k i j (w.stream i j ++ x))
  | pull {w i j k x ys} : w.proc i = .recv j k → w.stream j i = x ++ ys → x ≠ [] →
      x.length ≤ c.want (w.moved i) → 0 < c.want (w.moved i ++ x) →
      Step c cap w i (w.move i (w.moved i ++ x) j i ys)
  | taken {w i j k x ys m} : w.proc i = .recv j k → w.stream j i = x ++ ys → x ≠ [] →
      x.length ≤ c.want (w.moved i) → c.want (w.moved i ++ x) = 0 → c.Reads (w.moved i ++ x) m →
      (∀ e, k m ≠ .fail e) → Step c cap w i (w.goOn i (k m) j i ys)
  /-- The bytes are no message that the process can go on with. -/
  | garbled {w i j k x ys e} : w.proc i = .recv j k → w.stream j i = x ++ ys → x ≠ [] →
      x.length ≤ c.want (w.moved i) → c.want (w.moved i ++ x) = 0 →
      (∀ m, c.Reads (w.moved i ++ x) m → ∃ e, k m = .fail e) →
      Step c cap w i (w.goOn i (.fail e) j i ys)
  | connect {w i j k} : w.proc i = .connect j k →
      Step c cap w i { w with
        proc := Function.update w.proc i k
        backlog := Function.update w.backlog j (w.backlog j ++ [i]) }
  | accept {w i k a as} : w.proc i = .accept k → w.backlog i = a :: as →
      Step c cap w i { w with
        proc := Function.update w.proc i (k a)
        backlog := Function.update w.backlog i as }

/-- In every run the processes come to their end, without an error and with what `Q` says, and leave
nothing on the streams. -/
def CompletesIn (c : Codec M B) (cap : ι → ι → ℕ) (proc : ι → Proc ι M ε α) (Q : ι → α → Prop) :
    Prop :=
  ∃ bound, ∀ es w, Run (Step c cap) (start proc) es w →
    es.length ≤ bound ∧ (∀ i e, w.proc i ≠ .fail e) ∧ (∀ i a, w.proc i = .done a → Q i a) ∧
      ((∀ i w', ¬ Step c cap w i w') → (∀ i, ∃ a, w.proc i = .done a) ∧ ∀ i j, w.stream i j = [])

/-! ### What the bytes on the way stand for -/

/-- The bytes of its present message that `b` has taken off the stream from `a`. -/
def State.pulled (w : State ι M B ε α) (a b : ι) : List B :=
  match w.proc b with
  | .recv j _ => if j = a then w.moved b else []
  | _ => []

/-- The bytes of its present message that `a` has put on the stream to `b`. -/
def State.pushed (w : State ι M B ε α) (a b : ι) : List B :=
  match w.proc a with
  | .send j _ _ => if j = b then w.moved a else []
  | _ => []

/-- The peer of the message that the process sends or receives next. -/
def peer : Proc ι M ε α → Option ι
  | .send j _ _ => some j
  | .recv j _ => some j
  | _ => none

/-- A part of the message in the next turn on the link to `j` has been moved, not all of it. -/
def Within (c : Codec M B) (S : ι → List (Turn M)) (j : ι) (moved : List B) : Prop :=
  ∃ x rest more, S j = x :: rest ∧ more ≠ [] ∧ moved ++ more = c.encode x.message

/-- The bytes on the way are those of the messages that have been sent whole and not received
whole, and of what has been sent of the messages to come. -/
structure Carrying (c : Codec M B) (R : Rooted ι) (Q : ι → α → Prop) (w : State ι M B ε α)
    (chan : ι → ι → List M) (S : ι → ι → List (Turn M)) : Prop where
  conversing : Conversing R Q ⟨w.proc, chan, w.backlog⟩ S
  discerns : ∀ i, Discerns c (w.proc i)
  carries : ∀ i j, ∀ x ∈ S i j, c.Carries x.message
  within : ∀ i j, peer (w.proc i) = some j → Within c (S i) j (w.moved i)
  idle : ∀ i, peer (w.proc i) = none → w.moved i = []
  flow : ∀ a b, w.pulled a b ++ w.stream a b = (chan a b).flatMap c.encode ++ w.pushed a b

section
variable {R : Rooted ι} {Q : ι → α → Prop} {w : State ι M B ε α} {chan : ι → ι → List M}
  {S : ι → ι → List (Turn M)} {i j : ι} {k : Proc ι M ε α} {f : M → Proc ι M ε α} {x ys more : List B}

/-- A process that begins with a message has moved nothing of it. -/
theorem within_start {P : α → Prop} {p : Proc ι M ε α} {T : ι → List (Turn M)} (h : Talks P p T)
    (hc : ∀ j, ∀ x ∈ T j, c.Carries x.message) (hp : peer p = some j) : Within c T j [] := by
  cases p with
  | send j' m k =>
    obtain rfl := Option.some.inj hp
    obtain ⟨rest, hT, -⟩ := h
    exact ⟨_, rest, _, hT, (hc _ _ (by rw [hT]; exact List.mem_cons_self)).nonempty, rfl⟩
  | recv j' k =>
    obtain rfl := Option.some.inj hp
    obtain ⟨m, rest, hT, -⟩ := h
    exact ⟨_, rest, _, hT, (hc _ _ (by rw [hT]; exact List.mem_cons_self)).nonempty, rfl⟩
  | done a => cases hp
  | fail e => cases hp
  | connect j' k => cases hp
  | accept k => cases hp

theorem carrying_start {proc : ι → Proc ι M ε α} (h : Conversing R Q (Network.start proc) S)
    (hd : ∀ i, Discerns c (proc i)) (hc : ∀ i j, ∀ x ∈ S i j, c.Carries x.message) :
    Carrying c R Q (start proc) (fun _ _ => []) S where
  conversing := h
  discerns := hd
  carries := hc
  within i _ hp := within_start (h.talks i) (hc i) hp
  idle _ _ := rfl
  flow a b := by
    simp only [State.pulled, State.pushed, start, List.flatMap_nil, List.append_nil, List.nil_append]
    cases proc a <;> cases proc b <;> simp

/-! ### Moving a part of a message -/

theorem Carrying.ne (h : Carrying c R Q w chan S) (hp : peer (w.proc i) = some j) : i ≠ j := by
  obtain ⟨y, rest, more, hS, -⟩ := h.within i j hp
  exact h.conversing.ne (by simp [hS])

theorem Carrying.move (h : Carrying c R Q w chan S) {a b : ι} {bs moved : List B} (hp : peer (w.proc i) = some j)
    (hw : Within c (S i) j moved)
    (hflow : ∀ a' b', (w.move i moved a b bs).pulled a' b' ++ (w.move i moved a b bs).stream a' b' =
      (chan a' b').flatMap c.encode ++ (w.move i moved a b bs).pushed a' b') :
    Carrying c R Q (w.move i moved a b bs) chan S where
  conversing := h.conversing
  discerns := h.discerns
  carries := h.carries
  within i' j' hp' := by
    by_cases hi : i' = i
    · subst hi
      obtain rfl : j = j' := Option.some.inj (hp.symm.trans hp')
      simpa [State.move] using hw
    · simpa [State.move, hi] using h.within i' j' hp'
  idle i' hp' := by
    have hi : i' ≠ i := by
      rintro rfl
      change peer (w.proc i') = none at hp'
      rw [hp] at hp'
      cases hp'
    simpa [State.move, hi] using h.idle i' hp'
  flow := hflow

theorem Carrying.push (h : Carrying c R Q w chan S) (hp : w.proc i = .send j m k)
    (hx : w.moved i ++ (x ++ more) = c.encode m) (hmore : more ≠ []) :
    Carrying c R Q (w.move i (w.moved i ++ x) i j (w.stream i j ++ x)) chan S := by
  have hpeer : peer (w.proc i) = some j := by rw [hp]; rfl
  refine h.move hpeer ?_ fun a b => ?_
  · obtain ⟨y, rest, -, hS, -⟩ := h.within i j hpeer
    obtain ⟨rest', hS', -⟩ := h.conversing.send hp
    exact ⟨_, rest', more, hS', hmore, by rw [List.append_assoc, hx]; rfl⟩
  · have hflow := h.flow a b
    have hpull : (w.move i (w.moved i ++ x) i j (w.stream i j ++ x)).pulled a b = w.pulled a b := by
      by_cases hb : b = i
      · subst hb
        simp [State.pulled, State.move, hp]
      · simp [State.pulled, State.move, hb]
    rw [hpull]
    by_cases hab : a = i ∧ b = j
    · obtain ⟨rfl, rfl⟩ := hab
      simp only [State.pushed, State.move, hp, setLink, and_self, if_true, Function.update_self] at hflow ⊢
      rw [← List.append_assoc, hflow, List.append_assoc]
    · have hpush : (w.move i (w.moved i ++ x) i j (w.stream i j ++ x)).pushed a b =
          w.pushed a b := by
        by_cases ha : a = i
        · subst ha
          have hb : j ≠ b := fun hb => hab ⟨rfl, hb.symm⟩
          simp [State.pushed, State.move, hp, hb]
        · simp [State.pushed, State.move, ha]
      rw [hpush, ← hflow]
      simp [State.move, setLink, hab]

theorem Carrying.pull (h : Carrying c R Q w chan S) (hp : w.proc i = .recv j f) (hx : w.stream j i = x ++ ys)
    (hw : Within c (S i) j (w.moved i ++ x)) :
    Carrying c R Q (w.move i (w.moved i ++ x) j i ys) chan S := by
  have hpeer : peer (w.proc i) = some j := by rw [hp]; rfl
  refine h.move hpeer hw fun a b => ?_
  have hflow := h.flow a b
  have hpush : (w.move i (w.moved i ++ x) j i ys).pushed a b = w.pushed a b := by
    by_cases ha : a = i
    · subst ha
      simp [State.pushed, State.move, hp]
    · simp [State.pushed, State.move, ha]
  rw [hpush, ← hflow]
  by_cases hab : a = j ∧ b = i
  · obtain ⟨rfl, rfl⟩ := hab
    simp [State.pulled, State.move, hp, setLink, hx]
  · have hpull : (w.move i (w.moved i ++ x) j i ys).pulled a b = w.pulled a b := by
      by_cases hb : b = i
      · subst hb
        have ha : j ≠ a := fun ha => hab ⟨ha.symm, rfl⟩
        simp [State.pulled, State.move, hp, ha]
      · simp [State.pulled, State.move, hb]
    rw [hpull]
    simp [State.move, setLink, hab]

/-! ### Coming to the end of a message -/

theorem mem_setLink {T : ι → ι → List (Turn M)} {y : Turn M} {rest : List (Turn M)}
    (hT : T i j = y :: rest) {a b : ι} {z : Turn M} (hz : z ∈ setLink T i j rest a b) :
    z ∈ T a b := by
  unfold setLink at hz
  split_ifs at hz with hab
  · obtain ⟨rfl, rfl⟩ := hab
    rw [hT]
    exact List.mem_cons_of_mem _ hz
  · exact hz

/-- The process `i` has come to the end of the message in its next turn and goes on with `k`. -/
theorem Carrying.goOn (h : Carrying c R Q w chan S) {a b : ι} {bs : List B} {chan' : ι → ι → List M}
    {y : Turn M} {rest : List (Turn M)} (hS : S i j = y :: rest)
    (hc : Conversing R Q ⟨Function.update w.proc i k, chan', w.backlog⟩ (setLink S i j rest))
    (hd : Discerns c k) (hflow : ∀ a' b', (w.goOn i k a b bs).pulled a' b' ++ (w.goOn i k a b bs).stream a' b' =
      (chan' a' b').flatMap c.encode ++ (w.goOn i k a b bs).pushed a' b') :
    Carrying c R Q (w.goOn i k a b bs) chan' (setLink S i j rest) := by
  have hcarries : ∀ a b, ∀ z ∈ setLink S i j rest a b, c.Carries z.message :=
    fun a b z hz => h.carries a b z (mem_setLink hS hz)
  constructor
  · exact hc
  · intro i'
    by_cases hi : i' = i
    · subst hi
      simpa [State.goOn] using hd
    · simpa [State.goOn, hi] using h.discerns i'
  · exact hcarries
  · intro i' j' hp'
    by_cases hi : i' = i
    · subst hi
      have hw := within_start (hc.talks i') (hcarries i') hp'
      simpa [State.goOn, State.move] using hw
    · have hrow : setLink S i j rest i' = S i' := by
        funext b
        simp [setLink, hi]
      rw [hrow]
      simp only [State.goOn, State.move, Function.update_of_ne hi] at hp' ⊢
      exact h.within i' j' hp'
  · intro i' hp'
    by_cases hi : i' = i
    · subst hi
      simp [State.goOn, State.move]
    · simp only [State.goOn, State.move, Function.update_of_ne hi] at hp' ⊢
      exact h.idle i' hp'
  · exact hflow

/-- A process that begins with a message has neither put nor taken bytes. -/
theorem pushed_nil {w : State ι M B ε α} (h : w.moved i = []) : w.pushed i j = [] := by
  unfold State.pushed
  cases w.proc i <;> simp [h]

theorem pulled_nil {w : State ι M B ε α} (h : w.moved i = []) : w.pulled j i = [] := by
  unfold State.pulled
  cases w.proc i <;> simp [h]

/-- The last bytes of a message are on the stream: the message has been sent. -/
theorem Carrying.sent (h : Carrying c R Q w chan S) (hp : w.proc i = .send j m k)
    (hx : w.moved i ++ x = c.encode m) :
    ∃ rest, S i j = .say m :: rest ∧ Carrying c R Q (w.goOn i k i j (w.stream i j ++ x))
      (setLink chan i j (chan i j ++ [m])) (setLink S i j rest) := by
  obtain ⟨rest, hS, hc⟩ := h.conversing.send hp
  have hd := h.discerns i
  rw [hp] at hd
  refine ⟨rest, hS, h.goOn hS hc hd fun a b => ?_⟩
  have hflow := h.flow a b
  have hmoved : (w.goOn i k i j (w.stream i j ++ x)).moved i = [] := by
    simp [State.goOn, State.move]
  have hpull : (w.goOn i k i j (w.stream i j ++ x)).pulled a b = w.pulled a b := by
    by_cases hb : b = i
    · subst hb
      rw [pulled_nil hmoved]
      simp [State.pulled, hp]
    · simp [State.pulled, State.goOn, State.move, hb]
  rw [hpull]
  by_cases hab : a = i ∧ b = j
  · obtain ⟨rfl, rfl⟩ := hab
    rw [pushed_nil hmoved]
    simp only [State.pushed, hp, if_true] at hflow
    simp only [State.goOn, State.move, setLink, and_self, if_true, List.flatMap_append, List.flatMap_cons,
      List.flatMap_nil, List.append_nil]
    rw [← List.append_assoc, hflow, List.append_assoc, hx]
  · have hpush : (w.goOn i k i j (w.stream i j ++ x)).pushed a b = w.pushed a b := by
      by_cases ha : a = i
      · subst ha
        have hb : j ≠ b := fun hb => hab ⟨rfl, hb.symm⟩
        rw [pushed_nil hmoved]
        simp [State.pushed, hp, hb]
      · simp [State.pushed, State.goOn, State.move, ha]
    rw [hpush]
    simpa [State.goOn, State.move, setLink, hab] using hflow

/-- The last bytes of a message have been taken: the message has been received. -/
theorem Carrying.taken (h : Carrying c R Q w chan S) (hp : w.proc i = .recv j f) {ms : List M}
    (hchan : chan j i = m :: ms) (hys : ys = ms.flatMap c.encode ++ w.pushed j i) :
    ∃ rest, S i j = .hear m :: rest ∧ Carrying c R Q (w.goOn i (f m) j i ys)
      (setLink chan j i ms) (setLink S i j rest) := by
  obtain ⟨rest, hS, hc⟩ := h.conversing.recv hp hchan
  have hd := h.discerns i
  rw [hp] at hd
  refine ⟨rest, hS, h.goOn hS hc (hd.2 m) fun a b => ?_⟩
  have hflow := h.flow a b
  have hij := h.ne (j := j) (by rw [hp]; rfl)
  have hmoved : (w.goOn i (f m) j i ys).moved i = [] := by simp [State.goOn, State.move]
  have hpush : (w.goOn i (f m) j i ys).pushed a b = w.pushed a b := by
    by_cases ha : a = i
    · subst ha
      rw [pushed_nil hmoved]
      simp [State.pushed, hp]
    · simp [State.pushed, State.goOn, State.move, ha]
  rw [hpush]
  by_cases hab : a = j ∧ b = i
  · obtain ⟨rfl, rfl⟩ := hab
    rw [pulled_nil hmoved]
    simp [State.goOn, State.move, setLink, hys]
  · have hpull : (w.goOn i (f m) j i ys).pulled a b = w.pulled a b := by
      by_cases hb : b = i
      · subst hb
        have ha : j ≠ a := fun ha => hab ⟨ha.symm, rfl⟩
        rw [pulled_nil hmoved]
        simp [State.pulled, hp, ha]
      · simp [State.pulled, State.goOn, State.move, hb]
    rw [hpull]
    simpa [State.goOn, State.move, setLink, hab] using hflow

/-! ### What a receiver finds on the stream -/

/-- The rest of the message that `i` is receiving is on the stream with what has been sent after
it; or it has not been sent whole, and there is nothing else on the stream. -/
theorem Carrying.incoming (h : Carrying c R Q w chan S) (hp : w.proc i = .recv j f) :
    ∃ m rest more, S i j = .hear m :: rest ∧ more ≠ [] ∧ w.moved i ++ more = c.encode m ∧
      ((∃ ms, chan j i = m :: ms ∧ w.stream j i = more ++ (ms.flatMap c.encode ++ w.pushed j i)) ∨
        chan j i = [] ∧ ∃ more', more' ≠ [] ∧ more = w.stream j i ++ more') := by
  have hi := h.conversing.talks i
  simp only [hp] at hi
  obtain ⟨m, rest, hS, -⟩ := hi
  obtain ⟨y, rest', more, hS', hmore, hmoved⟩ := h.within i j (by rw [hp]; rfl)
  rw [hS, List.cons.injEq] at hS'
  obtain ⟨rfl, rfl⟩ := hS'
  refine ⟨m, rest, more, hS, hmore, hmoved, ?_⟩
  have hlink := h.conversing.linked i j
  rw [hS] at hlink
  have hflow := h.flow j i
  simp only [State.pulled, hp, if_true] at hflow
  cases hchan : chan j i with
  | cons m' ms =>
    change Linked _ _ _ (chan j i) at hlink
    rw [hchan] at hlink hflow
    obtain ⟨rfl, -⟩ := hlink.hear
    refine .inl ⟨ms, rfl, ?_⟩
    have hm : c.encode m = w.moved i ++ more := hmoved.symm
    rw [List.flatMap_cons, hm, List.append_assoc, List.append_assoc] at hflow
    exact List.append_cancel_left hflow
  | nil =>
    change Linked _ _ _ (chan j i) at hlink
    rw [hchan] at hlink hflow
    refine .inr ⟨rfl, ?_⟩
    rw [List.flatMap_nil, List.nil_append] at hflow
    have hnone : w.pushed j i = [] → ∃ more', more' ≠ [] ∧ more = w.stream j i ++ more' := by
      intro hnil
      rw [hnil, List.append_eq_nil_iff] at hflow
      exact ⟨more, hmore, by rw [hflow.2, List.nil_append]⟩
    cases hpj : w.proc j with
    | send a m' k' =>
      by_cases ha : a = i
      · subst ha
        obtain ⟨z, rest₂, more₂, hS₂, hmore₂, hmoved₂⟩ := h.within j a (by rw [hpj]; rfl)
        obtain ⟨rest₃, hS₃, -⟩ := h.conversing.send hpj
        rw [hS₂, List.cons.injEq] at hS₃
        obtain ⟨rfl, -⟩ := hS₃
        rw [hS₂] at hlink
        obtain rfl := hlink.heard
        simp only [State.pushed, hpj, if_true] at hflow
        refine ⟨more₂, hmore₂, ?_⟩
        have hall : w.moved a ++ more = w.moved a ++ (w.stream j a ++ more₂) := by
          rw [← List.append_assoc, hflow, hmoved, hmoved₂]
          rfl
        exact List.append_cancel_left hall
      · exact hnone (by simp [State.pushed, hpj, ha])
    | done a => exact hnone (by simp [State.pushed, hpj])
    | fail e => exact hnone (by simp [State.pushed, hpj])
    | recv a k' => exact hnone (by simp [State.pushed, hpj])
    | connect a k' => exact hnone (by simp [State.pushed, hpj])
    | accept k' => exact hnone (by simp [State.pushed, hpj])

theorem Carrying.receives (h : Carrying c R Q w chan S) (hp : w.proc i = .recv j f) (hx : w.stream j i = x ++ ys)
    (hle : x.length ≤ c.want (w.moved i)) :
    ∃ m rest more, S i j = .hear m :: rest ∧ w.moved i ++ x ++ more = c.encode m ∧
      (more = [] → ∃ ms, chan j i = m :: ms ∧ ys = ms.flatMap c.encode ++ w.pushed j i) := by
  obtain ⟨m, rest, more, hS, hmore, hmoved, hin⟩ := h.incoming hp
  have hcarries : c.Carries m := h.carries i j (.hear m) (by rw [hS]; exact List.mem_cons_self)
  have hlen := hle.trans (hcarries.want_le _ _ hmoved)
  rcases hin with ⟨ms, hchan, hstream⟩ | ⟨-, more', hmore', rfl⟩
  · rw [hx] at hstream
    obtain ⟨more', rfl⟩ : x <+: more :=
      List.prefix_of_prefix_length_le ⟨ys, rfl⟩ ⟨_, hstream.symm⟩ hlen
    rw [List.append_assoc, List.append_cancel_left_eq] at hstream
    refine ⟨m, rest, more', hS, by rw [List.append_assoc, hmoved], ?_⟩
    rintro rfl
    exact ⟨ms, hchan, hstream⟩
  · refine ⟨m, rest, ys ++ more', hS, ?_, fun hnil => absurd (List.append_eq_nil_iff.mp hnil).2 hmore'⟩
    rw [← hmoved, hx]
    simp

/-- A receiver that wants no more has the bytes of the message in its next turn. -/
theorem Carrying.complete (h : Carrying c R Q w chan S) (hp : w.proc i = .recv j f) (hx : w.stream j i = x ++ ys)
    (hle : x.length ≤ c.want (w.moved i)) (hwant : c.want (w.moved i ++ x) = 0) :
    ∃ m ms, c.Carries m ∧ w.moved i ++ x = c.encode m ∧ (∀ e, f m ≠ .fail e) ∧ chan j i = m :: ms ∧
      ys = ms.flatMap c.encode ++ w.pushed j i := by
  obtain ⟨m, rest, more, hS, hmoved, hin⟩ := h.receives hp hx hle
  have hcarries : c.Carries m := h.carries i j (.hear m) (by rw [hS]; exact List.mem_cons_self)
  have hmore : more = [] := by
    by_contra hne
    exact (hcarries.want_pos _ more hmoved hne).ne' hwant
  obtain ⟨ms, hchan, hys⟩ := hin hmore
  refine ⟨m, ms, hcarries, by rw [← hmoved, hmore, List.append_nil], fun e he => ?_, hchan, hys⟩
  have hi := h.conversing.talks i
  simp only [hp] at hi
  obtain ⟨m', rest', hS', htalks⟩ := hi
  rw [hS, List.cons.injEq, Turn.hear.injEq] at hS'
  rw [← hS'.1, he] at htalks
  exact htalks

/-! ### Runs -/

section
variable [Fintype ι]

theorem sum_update_add {A : Type*} (g : A → ℕ) (v : ι → A) (i : ι) (a : A) :
    ∑ l, g (Function.update v i a l) + g (v i) = ∑ l, g (v l) + g a := by
  rw [← Finset.add_sum_erase Finset.univ _ (Finset.mem_univ i),
    ← Finset.add_sum_erase Finset.univ (fun l => g (v l)) (Finset.mem_univ i)]
  have hrest : ∑ l ∈ Finset.univ.erase i, g (Function.update v i a l) = ∑ l ∈ Finset.univ.erase i,
      g (v l) :=
    Finset.sum_congr rfl fun l hl => by rw [Function.update_of_ne (Finset.ne_of_mem_erase hl)]
  rw [hrest, Function.update_self]
  omega

def size (c : Codec M B) (xs : List (Turn M)) : ℕ :=
  (xs.map fun x => (c.encode x.message).length).sum

/-- The bytes that are sent and received in all turns left. -/
def sizeLeft (c : Codec M B) (S : ι → ι → List (Turn M)) : ℕ := ∑ a, ∑ b, size c (S a b)

/-- The bytes moved of the messages that are being sent or received. -/
def State.movedAll (w : State ι M B ε α) : ℕ := ∑ a, (w.moved a).length

theorem sizeLeft_setLink {y : Turn M} {rest : List (Turn M)} (hS : S i j = y :: rest) :
    sizeLeft c (setLink S i j rest) + (c.encode y.message).length = sizeLeft c S := by
  have hrow : setLink S i j rest = Function.update S i (Function.update (S i) j rest) := by
    funext a b
    by_cases ha : a = i
    · subst ha
      by_cases hb : b = j <;> simp [setLink, hb]
    · simp [setLink, ha]
  have houter := sum_update_add (fun row : ι → List (Turn M) => ∑ b, size c (row b)) S i (Function.update (S i) j rest)
  have hinner := sum_update_add (size c) (S i) j rest
  have hsize : size c (S i j) = (c.encode y.message).length + size c rest := by
    rw [hS, size, List.map_cons, List.sum_cons, size]
  rw [sizeLeft, hrow, sizeLeft]
  omega

theorem movedAll_move (w : State ι M B ε α) (i : ι) (moved : List B) (a b : ι) (bs : List B) :
    (w.move i moved a b bs).movedAll + (w.moved i).length = w.movedAll + moved.length :=
  sum_update_add List.length w.moved i moved

theorem movedAll_goOn (w : State ι M B ε α) (i : ι) (p : Proc ι M ε α) (a b : ι) (bs : List B) :
    (w.goOn i p a b bs).movedAll + (w.moved i).length = w.movedAll := by
  have h := movedAll_move w i [] a b bs
  rwa [List.length_nil, Nat.add_zero] at h

/-- Every step moves a byte: either one of the present message, or the last one of it. -/
theorem Carrying.step (h : Carrying c R Q w chan S) {cap : ι → ι → ℕ} {w' : State ι M B ε α}
    (hs : Step c cap w i w') :
    ∃ chan' S', Carrying c R Q w' chan' S' ∧
      sizeLeft c S' + w.movedAll + 1 ≤ sizeLeft c S + w'.movedAll := by
  cases hs with
  | @push j m k x more hp hx hne hmore _ =>
    refine ⟨chan, S, h.push hp hx hmore, ?_⟩
    have hmoved := movedAll_move w i (w.moved i ++ x) i j (w.stream i j ++ x)
    have hpos := List.length_pos_iff.mpr hne
    rw [List.length_append] at hmoved
    omega
  | @sent j m k x hp hx hne _ =>
    obtain ⟨rest, hS, h'⟩ := h.sent hp hx
    refine ⟨_, _, h', ?_⟩
    have hmoved := movedAll_goOn w i k i j (w.stream i j ++ x)
    have hsize := sizeLeft_setLink (c := c) hS
    have hlen := congrArg List.length hx
    have hpos := List.length_pos_iff.mpr hne
    rw [List.length_append] at hlen
    simp only [Turn.message] at hsize
    omega
  | @pull j f x ys hp hx hne hle hwant =>
    obtain ⟨m, rest, more, hS, hmoved, -⟩ := h.receives hp hx hle
    have hcarries : c.Carries m := h.carries i j (.hear m) (by rw [hS]; exact List.mem_cons_self)
    have hmore : more ≠ [] := by
      rintro rfl
      rw [List.append_nil] at hmoved
      rw [hmoved, hcarries.want_encode] at hwant
      exact absurd hwant (lt_irrefl 0)
    refine ⟨chan, S, h.pull hp hx ⟨_, rest, more, hS, hmore, hmoved⟩, ?_⟩
    have hall := movedAll_move w i (w.moved i ++ x) j i ys
    have hpos := List.length_pos_iff.mpr hne
    rw [List.length_append] at hall
    omega
  | @taken j f x ys m' hp hx hne hle hwant hreads hfail =>
    obtain ⟨m, ms, hcarries, hmoved, hgood, hchan, hys⟩ := h.complete hp hx hle hwant
    have hd := h.discerns i
    rw [hp] at hd
    obtain rfl := hd.1 m m' hcarries (hmoved ▸ hreads) hgood hfail
    obtain ⟨rest, hS, h'⟩ := h.taken hp hchan hys
    refine ⟨_, _, h', ?_⟩
    have hall := movedAll_goOn w i (f m') j i ys
    have hsize := sizeLeft_setLink (c := c) hS
    have hlen := congrArg List.length hmoved
    have hpos := List.length_pos_iff.mpr hne
    rw [List.length_append] at hlen
    simp only [Turn.message] at hsize
    omega
  | @garbled j f x ys e hp hx hne hle hwant hfail =>
    obtain ⟨m, ms, hcarries, hmoved, hgood, -, -⟩ := h.complete hp hx hle hwant
    obtain ⟨e', he'⟩ := hfail m (hmoved ▸ hcarries.reads)
    exact absurd he' (hgood e')
  | @connect j k hp =>
    have hi := h.conversing.talks i
    simp only [hp] at hi
    exact hi.elim
  | @accept k a as hp _ =>
    have hi := h.conversing.talks i
    simp only [hp] at hi
    exact hi.elim

theorem Carrying.run {proc : ι → Proc ι M ε α} (h : Carrying c R Q (start proc) (fun _ _ => []) S)
    {cap : ι → ι → ℕ} {es : List ι} (hrun : Run (Step c cap) (start proc) es w) :
    ∃ chan' S', Carrying c R Q w chan' S' ∧
      sizeLeft c S' + es.length ≤ sizeLeft c S + w.movedAll := by
  induction hrun with
  | nil => exact ⟨_, S, h, by simp⟩
  | snoc _ hs ih =>
    obtain ⟨chan₁, S₁, h₁, hlen₁⟩ := ih
    obtain ⟨chan₂, S₂, h₂, hlen₂⟩ := h₁.step hs
    refine ⟨chan₂, S₂, h₂, ?_⟩
    rw [List.length_append, List.length_singleton]
    omega

/-- What has been moved is a part of the messages in the turns left. -/
theorem Carrying.movedAll_le (h : Carrying c R Q w chan S) : w.movedAll ≤ sizeLeft c S := by
  apply Finset.sum_le_sum
  intro i _
  cases hp : peer (w.proc i) with
  | none => simp [h.idle i hp]
  | some j =>
    obtain ⟨x, rest, more, hS, -, hmoved⟩ := h.within i j hp
    calc (w.moved i).length ≤ (c.encode x.message).length := by rw [← hmoved, List.length_append]; omega
      _ ≤ size c (S i j) := by rw [hS, size, List.map_cons, List.sum_cons]; omega
      _ ≤ ∑ b, size c (S i b) :=
        Finset.single_le_sum (f := fun b => size c (S i b)) (fun _ _ => Nat.zero_le _) (Finset.mem_univ j)

end

/-! ### Standing still -/

section
variable {cap : ι → ι → ℕ}

theorem Carrying.can_take (h : Carrying c R Q w chan S) (hp : w.proc i = .recv j f) (hne : w.stream j i ≠ []) :
    ∃ w', Step c cap w i w' := by
  obtain ⟨y, ys, hys⟩ := List.exists_cons_of_ne_nil hne
  obtain ⟨m, rest, more, hS, hmore, hmoved, -⟩ := h.incoming hp
  have hcarries : c.Carries m := h.carries i j (.hear m) (by rw [hS]; exact List.mem_cons_self)
  have hle : [y].length ≤ c.want (w.moved i) := hcarries.want_pos _ _ hmoved hmore
  rcases Nat.eq_zero_or_pos (c.want (w.moved i ++ [y])) with hzero | hpos
  · obtain ⟨m', ms, hcarries', henc, hgood, -, -⟩ := h.complete (x := [y]) hp hys hle hzero
    exact ⟨_, .taken (x := [y]) hp hys (by simp) hle hzero (henc ▸ hcarries'.reads) hgood⟩
  · exact ⟨_, .pull (x := [y]) hp hys (by simp) hle hpos⟩

/-- A sender puts a byte on a stream that is empty. -/
theorem Carrying.can_put (h : Carrying c R Q w chan S) (hcap : 0 < cap i j) (hp : w.proc i = .send j m k)
    (hempty : w.stream i j = []) : ∃ w', Step c cap w i w' := by
  obtain ⟨x, rest, more, hS, hmore, hmoved⟩ := h.within i j (by rw [hp]; rfl)
  obtain ⟨rest', hS', -⟩ := h.conversing.send hp
  rw [hS, List.cons.injEq] at hS'
  rw [hS'.1] at hmoved
  have hroom : ∀ y : B, (w.stream i j ++ [y]).length ≤ cap i j := fun y => by
    rw [hempty]
    exact hcap
  cases more with
  | nil => exact absurd rfl hmore
  | cons y more =>
    cases more with
    | nil => exact ⟨_, .sent hp hmoved (by simp) (hroom y)⟩
    | cons z more =>
      have hsplit : w.moved i ++ ([y] ++ (z :: more)) = c.encode m := hmoved
      exact ⟨_, .push hp hsplit (by simp) (by simp) (hroom y)⟩

/-- Where no process can go on, each has returned or waits for another. -/
theorem Carrying.stopped (h : Carrying c R Q w chan S) (hcap : ∀ i j, 0 < cap i j)
    (hstop : ∀ i w', ¬ Step c cap w i w') (i : ι) :
    (∃ a, w.proc i = .done a) ∨ ∃ j, WaitsFor ⟨w.proc, chan, w.backlog⟩ i j := by
  have hempty : ∀ i j f, w.proc i = .recv j f → w.stream j i = [] := by
    intro i j f hp
    by_contra hne
    obtain ⟨w', hs⟩ := h.can_take hp hne
    exact hstop i w' hs
  cases hp : w.proc i with
  | done a => exact .inl ⟨a, rfl⟩
  | fail e => exact absurd hp (h.conversing.not_fail e)
  | connect j k =>
    have hi := h.conversing.talks i
    simp only [hp] at hi
    exact hi.elim
  | accept k =>
    have hi := h.conversing.talks i
    simp only [hp] at hi
    exact hi.elim
  | recv j f =>
    refine .inr ⟨j, .inl ⟨f, hp, ?_⟩⟩
    obtain ⟨m, rest, more, -, hmore, -, ⟨ms, -, hstream⟩ | ⟨hchan, -⟩⟩ := h.incoming hp
    · rw [hempty i j f hp] at hstream
      exact absurd (List.append_eq_nil_iff.mp hstream.symm).1 hmore
    · exact hchan
  | send j m k =>
    refine .inr ⟨j, .inr ⟨m, k, hp, fun f hpj hchan => ?_⟩⟩
    obtain ⟨w', hs⟩ := h.can_put (hcap i j) hp (hempty j i f hpj)
    exact hstop i w' hs

/-- Processes that hold their parts of conversations along a tree complete them over byte
streams of any capacities, if the codec carries the messages and the processes can tell them
apart. -/
theorem completesIn_of_talks [Fintype ι] (R : Rooted ι) {proc : ι → Proc ι M ε α} (S : ι → ι → List (Turn M))
    (htalks : ∀ i, Talks (Q i) (proc i) (S i)) (hflip : ∀ i j, S j i = (S i j).map .flip)
    (halong : ∀ i j, S i j ≠ [] → R.parent i = some j ∨ R.parent j = some i)
    (hd : ∀ i, Discerns c (proc i)) (hc : ∀ i j, ∀ x ∈ S i j, c.Carries x.message) (hcap : ∀ i j, 0 < cap i j) :
    CompletesIn c cap proc Q := by
  have h0 : Conversing R Q (Network.start proc) S := by
    refine ⟨htalks, fun i j => ?_, halong⟩
    rw [hflip i j]
    exact linked_flip (S i j)
  refine ⟨sizeLeft c S, fun es w hrun => ?_⟩
  obtain ⟨chan, S', h, hlen⟩ := (carrying_start h0 hd hc).run hrun
  refine ⟨?_, fun i e => h.conversing.not_fail e, fun i a ha => (h.conversing.of_done ha).2, fun hstop => ?_⟩
  · have := h.movedAll_le
    omega
  · have hdone := h.conversing.all_done (h.stopped hcap hstop)
    refine ⟨hdone, fun i j => ?_⟩
    obtain ⟨a, ha⟩ := hdone i
    obtain ⟨b, hb⟩ := hdone j
    have hlink := h.conversing.linked i j
    rw [(h.conversing.of_done ha).1 j, (h.conversing.of_done hb).1 i] at hlink
    have hflow := h.flow i j
    rw [show chan i j = [] from hlink.of_nil.1, pushed_nil (h.idle i (by rw [show w.proc i = _ from ha]; rfl))] at hflow
    exact (List.append_eq_nil_iff.mp hflow).2

end

end

end TorchIpc.Wire
