import TorchIpc.Base.Assoc
import TorchIpc.Queue.Workqueue
import TorchIpc.Serialize.Received

/-! A pool of background tasks (`BackgroundTaskPool.lua`). The owner writes tasks into the
question queue of a workqueue, the workers of a map run them and write their endings into
the answer queue, and the owner files these under the ids of the tasks. What is in a queue
is told as tasks and answers; the tables they are in the queue are beside them. -/

namespace TorchIpc.BackgroundTaskPool

open Runs Monitor

section
variable {P : Type}

/-! ### Lists in tables -/

/-- `{...}` of these values. A slot that is nil has no entry. -/
def pack (n : ℕ) (vs : List (Value P)) : Value P :=
  .table ((vs.zipIdx 1).filterMap fun e => if e.1.isNil then none else some
    (.ofInteger n (UInt64.ofNat e.2), e.1)) .none

/-- The length of such a table: no slot is nil before it without being followed by another
one, as far as Lua promises. -/
def Border (vs : List (Value P)) (n : ℕ) : Prop :=
  (n = 0 ∨ ∃ v, vs[n - 1]? = some v ∧ v.isNil = false) ∧ ∀ v, vs[n]? = some v → v.isNil = true

/-- `unpack` gives the values up to the length. -/
def Unpacks (vs ws : List (Value P)) : Prop := ∃ n, Border vs n ∧ ws = vs.take n

theorem unpacks_iff {vs ws : List (Value P)} (h : ∀ v ∈ vs, v.isNil = false) : Unpacks vs ws ↔
    ws = vs := by
  constructor
  · rintro ⟨n, ⟨-, hend⟩, rfl⟩
    refine List.take_of_length_le ?_
    by_contra hlt
    have hget := List.getElem?_eq_getElem (not_le.mp hlt)
    have hnil := hend _ hget
    rw [h _ (List.getElem_mem _)] at hnil
    cases hnil
  · rintro rfl
    refine ⟨ws.length, ⟨?_, fun v hv => ?_⟩, (List.take_length).symm⟩
    · rcases Nat.eq_zero_or_pos ws.length with hzero | hpos
      · exact Or.inl hzero
      · have hlt : ws.length - 1 < ws.length := by omega
        exact Or.inr ⟨_, List.getElem?_eq_getElem hlt, h _ (List.getElem_mem _)⟩
    · rw [List.getElem?_eq_none le_rfl] at hv
      cases hv

/-! ### Tasks and answers -/

def ID : List UInt8 := [105, 100]
def FUNC : List UInt8 := [102, 117, 110, 99]
def ARGS : List UInt8 := [97, 114, 103, 115]
def SUCCESS : List UInt8 := [115, 117, 99, 99, 101, 115, 115]
def FAILURE : List UInt8 := [102, 97, 105, 108, 117, 114, 101]

structure Task (P : Type) where
  id : ℕ
  func : Value P
  args : List (Value P)

/-- What the `pcall` of a worker makes of a task. -/
inductive Ending (P : Type) where
  | returned (vs : List (Value P))
  | raised (e : Value P)

/-- `error(ret)` puts a position in front of a string, and of a number where that counts as one. -/
inductive Raises : Value P → Value P → Prop where
  | string {position str} : Raises (.string str) (.string (position ++ str))
  | number {n str} : Raises (.number n) (.string str)
  | integer {n str} : Raises (.integer n) (.string str)
  | other {e} : (∀ str, e ≠ .string str) → Raises e e

theorem exists_raises (e : Value P) : ∃ e', Raises e e' := by
  by_cases hstring : ∃ str, e = .string str
  · obtain ⟨str, rfl⟩ := hstring
    exact ⟨_, @Raises.string P [] str⟩
  · exact ⟨e, .other fun str he => hstring ⟨str, he⟩⟩

inductive Ending.Shown : Ending P → Ending P → Prop where
  | returned {vs} : Ending.Shown (.returned vs) (.returned vs)
  | raised {e e'} : Raises e e' → Ending.Shown (.raised e) (.raised e')

structure Answer (P : Type) where
  id : ℕ
  ending : Ending P

/-- `{ id = numTasks, func = func, args = args }`. -/
def Task.table (n : ℕ) (t : Task P) : Value P :=
  .table [(.string ID, .ofInteger n (UInt64.ofNat t.id)), (.string FUNC, t.func), (.string ARGS, pack n t.args)] .none

/-- `{ id = task.id, success = ret }` or `{ id = task.id, failure = ret }`. -/
def Answer.table (n : ℕ) (a : Answer P) : Value P :=
  match a.ending with
  | .returned vs => .table [(.string ID, .ofInteger n (UInt64.ofNat a.id)), (.string SUCCESS, pack n vs)] .none
  | .raised e =>
    .table ((.string ID, .ofInteger n (UInt64.ofNat a.id)) :: if e.isNil then [] else [(.string FAILURE, e)]) .none

def Task.received (t : Task P) : Task P := ⟨t.id, t.func.received, t.args.map Value.received⟩

def Ending.received : Ending P → Ending P
  | .returned vs => .returned (vs.map Value.received)
  | .raised e => .raised e.received

def Answer.received (a : Answer P) : Answer P := ⟨a.id, a.ending.received⟩

def field (name : List UInt8) : Value P → Value P
  | .table es _ => Assoc.lookup Value.sameKey .nil (.string name) es
  | _ => .nil

/-- A worker finds in a task what the owner has put there. -/
theorem Task.fields (n : ℕ) (t : Task P) : field ID (t.table n) = .ofInteger n (UInt64.ofNat t.id) ∧
    field FUNC (t.table n) = t.func ∧ field ARGS (t.table n) = pack n t.args := ⟨rfl, rfl, rfl⟩

theorem Answer.fields (n id : ℕ) : ∀ e : Ending P, field ID (Answer.table n ⟨id, e⟩) =
    .ofInteger n (UInt64.ofNat id) ∧
    field FAILURE (Answer.table n ⟨id, e⟩) = (match e with | .returned _ => .nil | .raised e => e) ∧
    field SUCCESS (Answer.table n ⟨id, e⟩) = (match e with | .returned vs => pack n vs | .raised _ => .nil)
  | .returned vs => ⟨rfl, rfl, rfl⟩
  | .raised e => by
    cases hnil : e.isNil with
    | true =>
      have he : e = .nil := by cases e <;> first | rfl | cases hnil
      subst he
      exact ⟨rfl, rfl, rfl⟩
    | false =>
      simp only [Answer.table, hnil, Bool.false_eq_true, if_false]
      exact ⟨rfl, rfl, rfl⟩

/-! ### The pool -/

/-- A worker reads, or runs a task; it has left after reading nil, or an error has ended it. -/
inductive Worker (P : Type) where
  | waiting
  | running (t : Task P)
  | exited
  | crashed

inductive PoolCall (P : Type) where
  | isDone (id : Option ℕ) (shouldBlock : Bool)
  | addTask (func : Value P) (args : List (Value P))
  | getResult (id : Option ℕ)

/-- The id that the call of `isDone` in it waits for. -/
def PoolCall.id : PoolCall P → Option ℕ
  | .isDone id _ => id
  | .addTask _ _ => none
  | .getResult id => id

def PoolCall.shouldBlock : PoolCall P → Bool
  | .isDone _ shouldBlock => shouldBlock
  | .addTask _ _ => false
  | .getResult _ => true

/-- The owner is in no call, or in the loop of `isDone`, or in `m:join()`. -/
inductive Owner (P : Type) where
  | idle
  | reading (c : PoolCall P)
  | joining (id : Option ℕ)

/-- The variables of a pool, and its workers. `m` is nil once the pool is closed. A queue is
held when an error was raised with its mutex taken: by the owner, or by a worker that is
gone since. -/
structure Pool (P : Type) where
  numTasks : ℕ
  numResults : ℕ
  successes : ℕ → Option (List (Value P))
  failures : ℕ → Option (Value P)
  questions : List (Option (Task P))
  answers : List (Answer P)
  workers : List (Worker P)
  owner : Owner P
  closed : Bool
  questionsHeld : Bool
  answersHeld : Bool

def start (poolSize : ℕ) : Pool P where
  numTasks := 0
  numResults := 0
  successes _ := none
  failures _ := none
  questions := []
  answers := []
  workers := List.replicate poolSize .waiting
  owner := .idle
  closed := false
  questionsHeld := false
  answersHeld := false

def truthy : Value P → Bool
  | .nil => false
  | .boolean b => b
  | _ => true

def isFunction : Value P → Bool
  | .function _ _ => true
  | .cfunction => true
  | _ => false

namespace Pool

def hasResult (s : Pool P) : Option ℕ → Bool
  | some id => (s.successes id).isSome || (s.failures id).isSome
  | none => false

/-- The condition of the loop of `isDone`. -/
def ReadsOn (s : Pool P) (id : Option ℕ) : Prop :=
  s.numResults < s.numTasks ∧ s.hasResult id = false

/-- The loop ends: by its condition, or because a read that does not block finds nothing. -/
def Leaves (s : Pool P) (c : PoolCall P) : Prop :=
  ¬ s.ReadsOn c.id ∨ c.shouldBlock = false ∧ s.answersHeld = false ∧ s.answers = []

def file (s : Pool P) (a : Answer P) : Pool P :=
  match a.ending with
  | .returned vs =>
    { s with successes := Function.update s.successes a.id (some vs), numResults := s.numResults + 1 }
  | .raised e =>
    if truthy e then { s with failures := Function.update s.failures a.id (some e), numResults := s.numResults + 1 }
    else { s with successes := Function.update s.successes a.id none, numResults := s.numResults + 1 }

inductive Takes (s : Pool P) (id : ℕ) : Ending P → Pool P → Prop where
  | success {vs ws} : s.successes id = some vs → Unpacks vs ws →
      Takes s id (.returned ws) { s with successes := Function.update s.successes id none }
  | failure {e e'} : s.successes id = none → s.failures id = some e → Raises e e' →
      Takes s id (.raised e') { s with failures := Function.update s.failures id none }
  | nothing : s.successes id = none → s.failures id = none → Takes s id (.returned []) s

end Pool

/-- What happens: calls and what they return; answers coming off the queue; and for a task
that a worker has run, the function and the arguments of the call and how it ended. -/
inductive PoolEvent (P : Type) where
  | called (c : PoolCall P)
  | filed (a : Answer P)
  | done (result : Bool)
  | added (t : Task P)
  | refused (t : Task P)
  | closing
  | got (id : ℕ) (result : Ending P)
  | took
  | left
  | ran (t : Task P) (ending : Ending P)
  | crashed (t : Task P) (ending : Ending P)

/-- The write of a value fails. The mutex of the queue stays taken (`held`) unless `rb_save`
has returned a code. -/
def Refuses (lua : Lua P) (v : Value P) (held : Bool) : Prop :=
  ¬ Serialisable lua false v ∧
    (held = false → ∃ e place, (script lua false false v).fin = .code e place)

/-- The steps of the owner and of the workers. A call of `addTask` without a function
changes nothing. -/
inductive PoolStep (lua : Lua P) (closeOnLastTask : Bool) : Pool P → PoolEvent P → Pool P →
    Prop where
  | call {s c} : s.owner = .idle → (∀ f args, c = .addTask f args → isFunction f = true) →
      PoolStep lua closeOnLastTask s (.called c) { s with owner := .reading c }
  | file {s c a rest} : s.owner = .reading c → s.ReadsOn c.id → s.answersHeld = false →
      s.answers = a :: rest →
      PoolStep lua closeOnLastTask s (.filed a) (Pool.file { s with answers := rest } a.received)
  | isDone {s id shouldBlock} : s.owner = .reading (.isDone id shouldBlock) →
      s.Leaves (.isDone id shouldBlock) →
      PoolStep lua closeOnLastTask s (.done (s.numResults = s.numTasks || s.hasResult id)) { s with owner := .idle }
  | add {s f args} : s.owner = .reading (.addTask f args) → s.Leaves (.addTask f args) →
      (script lua false false (Task.table lua.versionNum ⟨s.numTasks + 1, f, args⟩)).fin = .ok →
      PoolStep lua closeOnLastTask s (.added ⟨s.numTasks + 1, f, args⟩)
        { s with
          owner := .idle
          numTasks := s.numTasks + 1
          questions := s.questions ++ [some ⟨s.numTasks + 1, f, args⟩] }
  | refuse {s f args held} : s.owner = .reading (.addTask f args) → s.Leaves (.addTask f args) →
      Refuses lua (Task.table lua.versionNum ⟨s.numTasks + 1, f, args⟩) held →
      PoolStep lua closeOnLastTask s (.refused ⟨s.numTasks + 1, f, args⟩)
        { s with owner := .idle, numTasks := s.numTasks + 1, questionsHeld := s.questionsHeld || held }
  | close {s id} : s.owner = .reading (.getResult id) → s.Leaves (.getResult id) →
      closeOnLastTask = true →
      s.numResults = s.numTasks → s.closed = false →
      PoolStep lua closeOnLastTask s .closing
        { s with owner := .joining id, questions := s.questions ++ List.replicate s.workers.length none }
  | getResult {s s' id result} : s.owner = .reading (.getResult id) → s.Leaves (.getResult id) →
      ¬ (closeOnLastTask = true ∧ s.numResults = s.numTasks ∧ s.closed = false) →
      s.Takes (id.getD s.numResults) result s' →
      PoolStep lua closeOnLastTask s (.got (id.getD s.numResults) result) { s' with owner := .idle }
  -- a worker that has crashed has lost its task, so none has crashed when the owner joins
  | joined {s s' id result} : s.owner = .joining id → (∀ w ∈ s.workers, w = .exited) →
      s.Takes (id.getD s.numResults) result s' →
      PoolStep lua closeOnLastTask s (.got (id.getD s.numResults) result) { s' with owner := .idle, closed := true }
  | take {s before after t rest} : s.workers = before ++ .waiting :: after →
      s.questionsHeld = false →
      s.questions = some t :: rest →
      PoolStep lua closeOnLastTask s .took
        { s with workers := before ++ .running t.received :: after, questions := rest }
  | leave {s before after rest} : s.workers = before ++ .waiting :: after →
      s.questionsHeld = false →
      s.questions = none :: rest →
      PoolStep lua closeOnLastTask s .left { s with workers := before ++ .exited :: after, questions := rest }
  | answer {s before after t args ending} : s.workers = before ++ .running t :: after →
      Unpacks t.args args →
      s.answersHeld = false → (script lua false false (Answer.table lua.versionNum ⟨t.id, ending⟩)).fin = .ok →
      PoolStep lua closeOnLastTask s (.ran ⟨t.id, t.func, args⟩ ending)
        { s with workers := before ++ .waiting :: after, answers := s.answers ++ [⟨t.id, ending⟩] }
  | crash {s before after t args ending held} : s.workers = before ++ .running t :: after →
      Unpacks t.args args →
      s.answersHeld = false → Refuses lua (Answer.table lua.versionNum ⟨t.id, ending⟩) held →
      PoolStep lua closeOnLastTask s (.crashed ⟨t.id, t.func, args⟩ ending)
        { s with workers := before ++ .crashed :: after, answersHeld := held }

end

end TorchIpc.BackgroundTaskPool
