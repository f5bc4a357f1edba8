import TorchIpc.Queue.Workqueue

/-! `workqueue_drain`: the owner of a workqueue waits until the answer queue holds as
many items as both queues did when it called. A question that a worker has taken and
not answered is in neither of them. Proved here: where no worker holds a question at
the moment of the call, the answers to all questions are there when it returns. -/

namespace TorchIpc

open Runs Monitor

/-- The fields of `workqueue_t` that its calls read once it is open. -/
structure Workqueue (T : Type) where
  sizeIncrement : ℕ
  questions : Queue
  answers : Queue
  ownerThread : T

inductive Direction where
  | questions
  | answers

inductive DrainOutcome (T : Type) where
  | notOwner
  | returns (wq : Workqueue T)
  | waits (mark : UInt32) (wq : Workqueue T)

section
variable {T : Type}

def workqueueCreate (size sizeIncrement : ℕ) (self : T) : Workqueue T where
  sizeIncrement := sizeIncrement
  questions := workqueueInitQueue size
  answers := workqueueInitQueue size
  ownerThread := self

namespace Workqueue

def queue (wq : Workqueue T) : Direction → Queue
  | .questions => wq.questions
  | .answers => wq.answers

def setQueue (wq : Workqueue T) (q : Queue) : Direction → Workqueue T
  | .questions => { wq with questions := q }
  | .answers => { wq with answers := q }

variable [DecidableEq T]

def readFrom (wq : Workqueue T) (self : T) : Direction :=
  if wq.ownerThread = self then .answers else .questions

/-- The queue that `workqueue_write` and `workqueue_writeup` write. -/
def writeTo (wq : Workqueue T) (self : T) : Direction :=
  if wq.ownerThread = self then .questions else .answers

end Workqueue

/-- The loop of `workqueue_drain`, with the mutex of the answers taken; a wait gives
it back. -/
def drainLoop (mark : UInt32) (wq : Workqueue T) : DrainOutcome T :=
  if wq.answers.numItems < mark then .waits mark { wq with answers := pthreadMutexUnlock wq.answers }
  else .returns { wq with answers := pthreadMutexUnlock wq.answers }

def workqueueDrain [DecidableEq T] (self : T) (wq : Workqueue T) : DrainOutcome T :=
  if wq.ownerThread ≠ self then .notOwner else
  let wq := { wq with questions := pthreadMutexLock wq.questions, answers := pthreadMutexLock wq.answers }
  let mark := wq.answers.numItems + wq.questions.numItems
  drainLoop mark { wq with questions := pthreadMutexUnlock wq.questions }

def drainAgain (mark : UInt32) (wq : Workqueue T) : DrainOutcome T :=
  drainLoop mark { wq with answers := pthreadMutexLock wq.answers }

end

/-! ### Questions and their answers -/

/-- A workqueue in use. Questions are numbered in the order in which the owner wrote
them, which is the order in which they are read; `held` has those that a worker has
read and not answered, and `answered` the items of the answer queue, each with the
number of its question. While the owner is in `workqueue_drain`, `draining` is how many
questions there were at the call, and the mark. -/
structure Session (T P : Type) where
  wq : Workqueue T
  asked : List (Value P)
  taken : ℕ
  held : List (T × ℕ)
  answered : List (ℕ × Value P)
  draining : Option (ℕ × UInt32)

/-- What happens: a call of `workqueue_drain`, or a pass after a wait, also tells how
many questions there were at the call, and whether it returns. -/
inductive SessionEvent (P : Type) where
  | ask (vs : List (Value P))
  | read
  | answer
  | drain (n : ℕ) (returns : Bool)
  | again (n : ℕ) (returns : Bool)

/-- `workqueue_drain` returns, called after `n` questions. -/
def SessionEvent.Drained {P : Type} (n : ℕ) : SessionEvent P → Prop
  | .drain m returns => returns = true ∧ m = n
  | .again m returns => returns = true ∧ m = n
  | _ => False

section
variable {T P : Type}

namespace Session

def start (size sizeIncrement : ℕ) (self : T) : Session T P where
  wq := workqueueCreate size sizeIncrement self
  asked := []
  taken := 0
  held := []
  answered := []
  draining := none

/-- The answer queue holds an answer for each of the first `n` questions. -/
def Answers (lua : Lua P) (s : Session T P) (n : ℕ) : Prop :=
  Stored lua s.wq.answers (s.answered.map Prod.snd) ∧ ∀ k < n, k ∈ s.answered.map Prod.fst

/-- When `workqueue_drain` is called no worker holds a question; the counters have 32
bits. -/
def Covered (s : Session T P) : SessionEvent P → Prop
  | .ask vs => s.asked.length + vs.length < 2 ^ 32
  | .drain _ _ => s.held = []
  | _ => True

section
variable [DecidableEq T]

/-- After a pass of `workqueue_read` by the worker `t`. -/
def afterRead (s : Session T P) (t : T) : Outcome Queue (Reply P) → Session T P
  | .returns (.took _ _) q _ =>
    { s with
      wq := s.wq.setQueue q (s.wq.readFrom t)
      taken := s.taken + 1
      held := s.held ++ [(t, s.taken)] }
  | .returns _ q _ => { s with wq := s.wq.setQueue q (s.wq.readFrom t) }
  | .waits q => { s with wq := s.wq.setQueue q (s.wq.readFrom t) }

/-- The passes of the owner and of the workers. The owner reads nothing, and is in one
call at a time; a worker writes one answer for each question it has read, in any order
and any number of them at once. -/
inductive Step (lua : Lua P) : Session T P → SessionEvent P → Session T P → Prop where
  | ask {s vs q w} : s.draining = none →
      workqueuePass lua s.wq.sizeIncrement (.write vs)
        (s.wq.queue (s.wq.writeTo s.wq.ownerThread)) (.returns (.wrote vs) q w) →
      Step lua s (.ask vs)
        { s with wq := s.wq.setQueue q (s.wq.writeTo s.wq.ownerThread), asked := s.asked ++ vs }
  | read {s t doNotBlock stack o} : t ≠ s.wq.ownerThread →
      workqueuePass lua s.wq.sizeIncrement (.read doNotBlock stack)
        (s.wq.queue (s.wq.readFrom t)) o →
      Step lua s .read (s.afterRead t o)
  | answer {s t q w rest} {new : List (ℕ × Value P)} : t ≠ s.wq.ownerThread →
      s.held.Perm (new.map (fun a => (t, a.1)) ++ rest) →
      workqueuePass lua s.wq.sizeIncrement (.write (new.map Prod.snd))
        (s.wq.queue (s.wq.writeTo t)) (.returns (.wrote (new.map Prod.snd)) q w) →
      Step lua s .answer
        { s with wq := s.wq.setQueue q (s.wq.writeTo t), held := rest, answered := s.answered ++ new }
  | drainReturns {s wq} : s.draining = none → s.wq.questions.locks = 0 → s.wq.answers.locks = 0 →
      workqueueDrain s.wq.ownerThread s.wq = .returns wq →
      Step lua s (.drain s.asked.length true) { s with wq := wq }
  | drainWaits {s mark wq} : s.draining = none → s.wq.questions.locks = 0 → s.wq.answers.locks = 0 →
      workqueueDrain s.wq.ownerThread s.wq = .waits mark wq →
      Step lua s (.drain s.asked.length false)
        { s with wq := wq, draining := some (s.asked.length, mark) }
  | againReturns {s n mark wq} : s.draining = some (n, mark) → s.wq.answers.locks = 0 →
      drainAgain mark s.wq = .returns wq →
      Step lua s (.again n true) { s with wq := wq, draining := none }
  | againWaits {s n mark mark' wq} : s.draining = some (n, mark) → s.wq.answers.locks = 0 →
      drainAgain mark s.wq = .waits mark' wq →
      Step lua s (.again n false) { s with wq := wq, draining := some (n, mark') }

def CoveredStep (lua : Lua P) (s : Session T P) (e : SessionEvent P) (s' : Session T P) : Prop :=
  Covered s e ∧ Step lua s e s'

end

/-! ### What every run keeps -/

structure Inv (lua : Lua P) (s : Session T P) : Prop where
  taken_le : s.taken ≤ s.asked.length
  asked_lt : s.asked.length < 2 ^ 32
  questions : Stored lua s.wq.questions (s.asked.drop s.taken)
  answers : Stored lua s.wq.answers (s.answered.map Prod.snd)
  numbers : (s.answered.map Prod.fst ++ s.held.map Prod.snd).Perm (List.range s.taken)
  mark : ∀ n mark, s.draining = some (n, mark) → n = s.asked.length ∧ mark.toNat = n

variable {lua : Lua P} {s s' : Session T P}

theorem start_inv (lua : Lua P) (size sizeIncrement : ℕ) (self : T) :
    (start size sizeIncrement self).Inv lua where
  taken_le := le_rfl
  asked_lt := by simp [start]
  questions := workqueueInitQueue_stored lua size
  answers := workqueueInitQueue_stored lua size
  numbers := .nil
  mark := nofun

/-- A question that was read is answered or held. -/
theorem Inv.length_eq (h : s.Inv lua) : s.answered.length + s.held.length = s.taken := by
  simpa using h.numbers.length_eq

theorem Inv.ask (hl : lua.Rebuilds) (h : s.Inv lua) {vs : List (Value P)} {q : Queue} {w : Wake}
    (hfits : s.asked.length + vs.length < 2 ^ 32) (hidle : s.draining = none)
    (hp : workqueuePass lua s.wq.sizeIncrement (.write vs) s.wq.questions
      (.returns (.wrote vs) q w)) :
    Inv lua { s with wq := { s.wq with questions := q }, asked := s.asked ++ vs } := by
  have hcount : CountFits (.write vs) s.wq.questions := by
    have hle := h.questions.count
    rw [List.length_drop] at hle
    simp only [CountFits]
    omega
  rcases workqueuePass_stored hl h.questions hcount hp with ⟨vs', q', ho, hs⟩ | ⟨_, _, _, ho, _⟩ |
    ⟨ho, _⟩ | ⟨ho, _⟩
  · cases ho
    have hdrop : (s.asked ++ vs).drop s.taken = s.asked.drop s.taken ++ vs :=
      List.drop_append_of_le_length h.taken_le
    exact
      { taken_le := by rw [List.length_append]; exact h.taken_le.trans (Nat.le_add_right _ _)
        asked_lt := by rw [List.length_append]; exact hfits
        questions := by rw [hdrop]; exact hs
        answers := h.answers
        numbers := h.numbers
        mark := fun n mark hm => by rw [hidle] at hm; cases hm }
  · cases ho
  · cases ho
  · cases ho

theorem Inv.answer (hl : lua.Rebuilds) (h : s.Inv lua) {t : T} {new : List (ℕ × Value P)}
    {rest : List (T × ℕ)} {q : Queue} {w : Wake}
    (hheld : s.held.Perm (new.map (fun a => (t, a.1)) ++ rest))
    (hp : workqueuePass lua s.wq.sizeIncrement (.write (new.map Prod.snd)) s.wq.answers
      (.returns (.wrote (new.map Prod.snd)) q w)) :
    Inv lua { s with wq := { s.wq with answers := q }, held := rest, answered := s.answered ++ new } := by
  have hcount : CountFits (.write (new.map Prod.snd)) s.wq.answers := by
    have hans := h.answers.count
    have hnew := hheld.length_eq
    have htaken := h.length_eq
    have hle := h.taken_le
    have hlt := h.asked_lt
    simp only [List.length_append, List.length_map] at hans hnew
    simp only [CountFits, List.length_map]
    omega
  rcases workqueuePass_stored hl h.answers hcount hp with ⟨vs', q', ho, hs⟩ | ⟨_, _, _, ho, _⟩ |
    ⟨ho, _⟩ | ⟨ho, _⟩
  · cases ho
    have hnumbers := (hheld.map Prod.snd).append_left (s.answered.map Prod.fst)
    rw [List.map_append, List.map_map, ← List.append_assoc] at hnumbers
    exact
      { taken_le := h.taken_le
        asked_lt := h.asked_lt
        questions := h.questions
        answers := by rw [List.map_append]; exact hs
        numbers := by rw [List.map_append]; exact hnumbers.symm.trans h.numbers
        mark := h.mark }
  · cases ho
  · cases ho
  · cases ho

/-- Nobody holds a question: the mark is the number of questions. -/
theorem Inv.mark_eq (h : s.Inv lua) (hheld : s.held = []) :
    (s.wq.answers.numItems + s.wq.questions.numItems).toNat = s.asked.length := by
  have hq := h.questions.count
  have ha := h.answers.count
  have htaken := h.length_eq
  have hle := h.taken_le
  have hlt := h.asked_lt
  rw [hheld, List.length_nil, Nat.add_zero] at htaken
  rw [List.length_drop] at hq
  rw [List.length_map] at ha
  rw [UInt32.toNat_add, ha, hq, htaken, Nat.add_sub_cancel' hle, Nat.mod_eq_of_lt hlt]

/-- As many answers as questions are an answer for each. -/
theorem Inv.answers_of_le (h : s.Inv lua) (hle : s.asked.length ≤ s.answered.length) :
    s.Answers lua s.asked.length := by
  have htaken := h.length_eq
  have htaken_le := h.taken_le
  have hheld : s.held = [] := List.length_eq_zero_iff.mp (by omega)
  have hnumbers := h.numbers
  rw [hheld, List.map_nil, List.append_nil] at hnumbers
  refine ⟨h.answers, fun k hk => ?_⟩
  rw [hnumbers.mem_iff, List.mem_range]
  rw [hheld, List.length_nil] at htaken
  omega

/-- The loop ends when the mark is reached, and changes nothing. -/
theorem drainAgain_eq {mark : UInt32} {wq : Workqueue T} :
    drainAgain mark wq = if wq.answers.numItems < mark then .waits mark wq else .returns wq := rfl

theorem drainAgain_returns {mark : UInt32} {wq wq' : Workqueue T}
    (h : drainAgain mark wq = .returns wq') : wq' = wq ∧
    mark.toNat ≤ wq.answers.numItems.toNat := by
  rw [drainAgain_eq] at h
  split_ifs at h with hlt
  cases h
  rw [UInt32.lt_iff_toNat_lt, not_lt] at hlt
  exact ⟨rfl, hlt⟩

theorem drainAgain_of_le {mark : UInt32} {wq : Workqueue T}
    (h : mark.toNat ≤ wq.answers.numItems.toNat) : drainAgain mark wq = .returns wq := by
  rw [drainAgain_eq, if_neg]
  rw [UInt32.lt_iff_toNat_lt]
  exact not_lt.mpr h

theorem drainAgain_waits {mark mark' : UInt32} {wq wq' : Workqueue T}
    (h : drainAgain mark wq = .waits mark' wq') : wq' = wq ∧ mark' = mark := by
  rw [drainAgain_eq] at h
  split_ifs at h with hlt
  cases h
  exact ⟨rfl, rfl⟩

variable [DecidableEq T]

theorem workqueueDrain_owner (wq : Workqueue T) :
    workqueueDrain wq.ownerThread wq =
      drainAgain (wq.answers.numItems + wq.questions.numItems) wq := by
  rw [workqueueDrain, if_neg (not_not.mpr rfl)]
  rfl

theorem Inv.read (hl : lua.Rebuilds) (h : s.Inv lua) {t : T} (ht : t ≠ s.wq.ownerThread)
    {doNotBlock : Bool} {stack : List (Value P)} {o : Outcome Queue (Reply P)}
    (hp : workqueuePass lua s.wq.sizeIncrement (.read doNotBlock stack) s.wq.questions o) :
    Inv lua (s.afterRead t o) := by
  have hside : s.wq.readFrom t = .questions := if_neg ht.symm
  rcases workqueuePass_stored (k := .read doNotBlock stack) hl h.questions trivial hp with ⟨vs, q, rfl, _⟩ |
    ⟨v, rest, q, rfl, hpend, hs⟩ | ⟨rfl, _⟩ | ⟨rfl, _⟩
  · exact absurd hp fun ⟨_, r, _, hr⟩ => nomatch hr
  · have hlt : s.taken < s.asked.length := by
      rw [← not_le]
      intro hle
      rw [List.drop_eq_nil_of_le hle] at hpend
      cases hpend
    have hrest : s.asked.drop (s.taken + 1) = rest := by
      rw [← List.drop_drop, hpend]
      rfl
    simp only [afterRead, hside]
    exact
      { taken_le := hlt
        asked_lt := h.asked_lt
        questions := by rw [hrest]; exact hs
        answers := h.answers
        numbers := by
          rw [List.map_append, ← List.append_assoc, List.range_succ]
          exact h.numbers.append_right _
        mark := h.mark }
  · simp only [afterRead, hside]
    exact h
  · simp only [afterRead, hside]
    exact h

theorem Inv.step (hl : lua.Rebuilds) (h : s.Inv lua) {e : SessionEvent P}
    (hstep : CoveredStep lua s e s') : s'.Inv lua := by
  obtain ⟨hcov, hstep⟩ := hstep
  cases hstep with
  | ask hidle hp =>
    have hside : s.wq.writeTo s.wq.ownerThread = .questions := if_pos rfl
    rw [hside] at hp ⊢
    exact h.ask hl hcov hidle hp
  | @read t doNotBlock stack o ht hp =>
    have hside : s.wq.readFrom t = .questions := if_neg ht.symm
    rw [hside] at hp
    exact h.read hl ht hp
  | @answer t q w rest new ht hheld hp =>
    have hside : s.wq.writeTo t = .answers := if_neg ht.symm
    rw [hside] at hp ⊢
    exact h.answer hl hheld hp
  | drainReturns hidle _ _ hd =>
    rw [workqueueDrain_owner] at hd
    rw [(drainAgain_returns hd).1]
    exact h
  | drainWaits hidle _ _ hd =>
    rw [workqueueDrain_owner] at hd
    obtain ⟨hwq, hmark⟩ := drainAgain_waits hd
    rw [hwq, hmark]
    refine { h with mark := fun n mark hm => ?_ }
    cases hm
    exact ⟨rfl, h.mark_eq hcov⟩
  | againReturns hd _ hagain =>
    rw [(drainAgain_returns hagain).1]
    exact { h with mark := nofun }
  | againWaits hd _ hagain =>
    obtain ⟨hwq, hmark⟩ := drainAgain_waits hagain
    rw [hwq, hmark, ← hd]
    exact h

theorem Inv.drained (h : s.Inv lua) {e : SessionEvent P} {n : ℕ} (hdrained : e.Drained n)
    (hstep : CoveredStep lua s e s') : s'.Answers lua n := by
  obtain ⟨hcov, hstep⟩ := hstep
  have hcount := h.answers.count
  rw [List.length_map] at hcount
  cases hstep with
  | drainReturns hidle _ _ hd =>
    obtain rfl := hdrained.2
    rw [workqueueDrain_owner] at hd
    obtain ⟨hwq, hle⟩ := drainAgain_returns hd
    rw [hwq]
    rw [h.mark_eq hcov, hcount] at hle
    exact h.answers_of_le hle
  | againReturns hd _ hagain =>
    obtain rfl := hdrained.2
    obtain ⟨hwq, hle⟩ := drainAgain_returns hagain
    obtain ⟨rfl, hmark⟩ := h.mark _ _ hd
    rw [hwq]
    rw [hmark, hcount] at hle
    exact h.answers_of_le hle
  | ask _ _ => exact hdrained.elim
  | read _ _ => exact hdrained.elim
  | answer _ _ _ => exact hdrained.elim
  | drainWaits _ _ _ _ => cases hdrained.1
  | againWaits _ _ _ => cases hdrained.1

/-- With an answer for each question, a call returns at once. -/
theorem Inv.drain_returns (h : s.Inv lua) (hidle : s.draining = none) (hheld : s.held = [])
    (hall : s.asked.length ≤ s.answered.length) :
    CoveredStep lua s (.drain s.asked.length true) s := by
  have hcount := h.answers.count
  rw [List.length_map] at hcount
  have hdrain : drainAgain (s.wq.answers.numItems + s.wq.questions.numItems) s.wq =
      .returns s.wq := by
    apply drainAgain_of_le
    rw [h.mark_eq hheld, hcount]
    exact hall
  exact ⟨hheld, .drainReturns hidle h.questions.locks h.answers.locks
    ((workqueueDrain_owner s.wq).trans hdrain)⟩

theorem run_inv (hl : lua.Rebuilds) {size sizeIncrement : ℕ} {self : T} {es : List (SessionEvent P)}
    (hrun : Run (CoveredStep lua) (.start size sizeIncrement self) es s) : s.Inv lua :=
  hrun.invariant (I := fun _ s => s.Inv lua) (start_inv lua size sizeIncrement self)
    fun _ _ _ _ h hs => h.step hl hs

end Session

/-- In every run in which no worker holds a question when `workqueue_drain` is called,
the answer queue holds an answer for each question when it returns. -/
theorem drain_waits_for_all [DecidableEq T] {lua : Lua P} (hl : lua.Rebuilds) {size sizeIncrement : ℕ} {self : T}
    {es : List (SessionEvent P)} {s s' : Session T P} {e : SessionEvent P} {n : ℕ}
    (hrun : Run (Session.CoveredStep lua) (.start size sizeIncrement self) es s)
    (hstep : Session.CoveredStep lua s e s') (hdrained : e.Drained n) : s'.Answers lua n :=
  (Session.run_inv hl hrun).drained hdrained hstep

end

/-! ### One question -/

/-- The owner has written a nil, and a worker has read it. -/
structure Session.OneHeld (s : Session Bool UInt8) : Prop where
  run : Run (Session.CoveredStep sampleLua) (.start 16 16 false) [.ask [.nil], .read] s
  owner : s.wq.ownerThread = false
  sizeIncrement : s.wq.sizeIncrement = 16
  answers : s.wq.answers = workqueueInitQueue 16
  length_asked : s.asked.length = 1
  taken : s.taken = 1
  held : s.held = [(true, 0)]
  answered : s.answered = []
  draining : s.draining = none

theorem workqueuePass_nil {q : Queue} (hlocks : q.locks = 0) (hv : q.rb.Valid) :
    ∃ q', workqueuePass sampleLua 16 (.write [.nil]) q (.returns (.wrote [.nil]) q' .one) := by
  obtain ⟨q', -, -, hy⟩ := queueWrite_nil sampleLua (show 1 ≤ 16 by decide) (by decide) q hv
  refine ⟨q', hlocks, fun v hv => ?_, q', hy, rfl⟩
  rw [List.mem_singleton.mp hv]
  simp [Value.Wf, Value.parts, Value.WfNode]

theorem workqueueInitQueue_valid : (workqueueInitQueue 16).rb.Valid :=
  Ringbuffer.create_valid (by decide)

theorem Session.exists_oneHeld : ∃ s : Session Bool UInt8, s.OneHeld := by
  obtain ⟨q, hwrite⟩ := workqueuePass_nil (q := workqueueInitQueue 16) rfl workqueueInitQueue_valid
  have hask : CoveredStep sampleLua (.start 16 16 false) (.ask [.nil]) _ :=
    ⟨show 0 + 1 < 2 ^ 32 by decide, .ask rfl hwrite⟩
  have hinv := (start_inv sampleLua 16 16 false).step sampleLua_rebuilds hask
  obtain ⟨q', hs, hread⟩ : ∃ q', Stored sampleLua q' [] ∧
      workqueuePass sampleLua 16 (.read true []) q (.returns (.took none .nil) q' .none) := by
    rcases workqueueQueueRead_stored sampleLua_rebuilds hinv.questions true [] with
      ⟨v, rest, q', hpend, hs, hy⟩ | ⟨hpend, _⟩
    · cases hpend
      exact ⟨q', hs, hinv.questions.locks, _, hy, .took⟩
    · cases hpend
  exact ⟨_, (Run.nil.snoc hask).snoc ⟨trivial, .read (t := true) nofun hread⟩, rfl, rfl, rfl, rfl, rfl,
    rfl, rfl, rfl⟩

theorem Session.exists_oneAnswered : ∃ es, ∃ s : Session Bool UInt8,
    Run (CoveredStep sampleLua) (.start 16 16 false) es s ∧ s.held = [] ∧ s.asked.length = 1 ∧
      s.answered.length = 1 ∧ s.draining = none := by
  obtain ⟨s, h⟩ := exists_oneHeld
  have hside : s.wq.queue (s.wq.writeTo true) = workqueueInitQueue 16 := by
    rw [Workqueue.writeTo, h.owner, if_neg nofun]
    exact h.answers
  obtain ⟨q, hwrite⟩ := workqueuePass_nil (q := workqueueInitQueue 16) rfl workqueueInitQueue_valid
  have hheld : s.held.Perm
      (([(0, .nil)] : List (ℕ × Value UInt8)).map (fun a => (true, a.1)) ++ []) := by
    rw [h.held]
    rfl
  have hanswer : CoveredStep sampleLua s .answer _ :=
    ⟨trivial, .answer (by rw [h.owner]; nofun) hheld (by rw [hside, h.sizeIncrement]; exact hwrite)⟩
  exact ⟨_, _, h.run.snoc hanswer, rfl, h.length_asked, by simp [h.answered], h.draining⟩

/-- The worker answers, and the owner drains. -/
theorem drain_waits_for_all_one : ∃ es e, ∃ s s' : Session Bool UInt8,
    Run (Session.CoveredStep sampleLua) (.start 16 16 false) es s ∧
      Session.CoveredStep sampleLua s e s' ∧ e.Drained 1 ∧ s'.Answers sampleLua 1 := by
  obtain ⟨es, s, hrun, hheld, hasked, hanswered, hidle⟩ := Session.exists_oneAnswered
  have hstep := (Session.run_inv sampleLua_rebuilds hrun).drain_returns hidle hheld
    (by rw [hasked, hanswered])
  exact ⟨es, _, s, _, hrun, hstep, ⟨rfl, hasked⟩,
    drain_waits_for_all sampleLua_rebuilds hrun hstep ⟨rfl, hasked⟩⟩

/-- The owner drains while the worker has the question: both queues are empty, and
`workqueue_drain` returns at once. -/
theorem drain_misses_held_question : ∃ es e, ∃ s s' : Session Bool UInt8,
    Run (Session.Step sampleLua) (.start 16 16 false) es s ∧ Session.Step sampleLua s e s' ∧
      e.Drained 1 ∧ ¬ s'.Answers sampleLua 1 := by
  obtain ⟨s, h⟩ := Session.exists_oneHeld
  have hinv := Session.run_inv sampleLua_rebuilds h.run
  have hquestions : s.wq.questions.numItems = 0 := by
    rw [hinv.questions.numItems_eq_zero]
    exact List.drop_eq_nil_of_le (by rw [h.length_asked, h.taken])
  have hdrain : drainAgain (s.wq.answers.numItems + s.wq.questions.numItems) s.wq =
      .returns s.wq := by
    apply Session.drainAgain_of_le
    rw [hquestions, UInt32.add_zero]
  refine ⟨_, .drain s.asked.length true, s, _, h.run.mono fun _ _ _ hs => hs.2,
    .drainReturns h.draining hinv.questions.locks hinv.answers.locks
      ((Session.workqueueDrain_owner _).trans hdrain), ⟨rfl, h.length_asked⟩, ?_⟩
  rintro ⟨_, hall⟩
  have hzero := hall 0 Nat.one_pos
  rw [h.answered] at hzero
  cases hzero

end TorchIpc
