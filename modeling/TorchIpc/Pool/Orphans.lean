import TorchIpc.Pool.BackgroundTaskPool

/-! The counters of a pool against its queues and workers. Every task that was added and
whose result was not read is in one place, and a task in the question queue has a worker
that will read it; unless a task comes when the pool is closed, or without a worker, or a
task or an answer cannot be serialised. -/

namespace TorchIpc.BackgroundTaskPool

open Runs

section
variable {P : Type}

/-! ### Where a task is -/

def Pool.asked (s : Pool P) : List (Task P) := s.questions.filterMap id

def Worker.task? : Worker P → Option (Task P)
  | .running t => some t
  | _ => none

def Pool.running (s : Pool P) : List (Task P) := s.workers.filterMap Worker.task?

/-- The worker has not left and has not crashed. -/
def Worker.isLive : Worker P → Bool
  | .waiting => true
  | .running _ => true
  | .exited => false
  | .crashed => false

def Worker.isExited : Worker P → Bool
  | .exited => true
  | _ => false

/-- The pool is closed, or about to be. -/
def Pool.Shut (s : Pool P) : Prop := s.closed = true ∨ ∃ id, s.owner = .joining id

/-- A task is added to an open pool with a worker, and it and its answer can be serialised. -/
def Covered (lua : Lua P) (s : Pool P) : PoolEvent P → Prop
  | .added t => s.closed = false ∧ s.workers ≠ [] ∧ Serialisable lua false (t.table lua.versionNum)
  | .refused t => s.closed = false ∧ s.workers ≠ [] ∧
      Serialisable lua false (t.table lua.versionNum)
  | .ran t ending => Serialisable lua false (Answer.table lua.versionNum ⟨t.id, ending⟩)
  | .crashed t ending => Serialisable lua false (Answer.table lua.versionNum ⟨t.id, ending⟩)
  | _ => True

def CoveredStep (lua : Lua P) (closeOnLastTask : Bool) (s : Pool P) (e : PoolEvent P) (s' : Pool P) : Prop :=
  Covered lua s e ∧ PoolStep lua closeOnLastTask s e s'

/-! ### The accounts -/

structure Accounts (s : Pool P) : Prop where
  count : s.numTasks = s.numResults + s.asked.length + s.running.length + s.answers.length
  unmanned : s.workers = [] → s.numTasks = 0
  /-- Until the pool is shut nobody is told to leave. -/
  opened : ¬ s.Shut → (∀ q ∈ s.questions, q ≠ none) ∧ ∀ w ∈ s.workers, w.isLive = true
  /-- A shut pool has nothing to do, and a nil for each worker that is still there. -/
  shut : s.Shut → s.numTasks = s.numResults ∧
      s.questions.length + s.workers.countP Worker.isExited = s.workers.length
  sound : ∀ w ∈ s.workers, w ≠ .crashed
  free : s.questionsHeld = false ∧ s.answersHeld = false

theorem file_frame (s : Pool P) (a : Answer P) : ∃ successes failures, s.file a =
    { s with successes := successes, failures := failures, numResults := s.numResults + 1 } := by
  obtain ⟨id, ending⟩ := a
  cases ending with
  | returned vs => exact ⟨_, _, rfl⟩
  | raised e =>
    rw [Pool.file]
    simp only
    split_ifs
    · exact ⟨_, _, rfl⟩
    · exact ⟨_, _, rfl⟩

theorem takes_frame {s s' : Pool P} {id : ℕ} {result : Ending P} (h : s.Takes id result s') :
    ∃ successes failures, s' = { s with successes := successes, failures := failures } := by
  cases h <;> exact ⟨_, _, rfl⟩

theorem start_running (poolSize : ℕ) : (start poolSize : Pool P).running = [] := by
  rw [Pool.running, List.filterMap_eq_nil_iff]
  intro w hw
  rw [List.eq_of_mem_replicate hw]
  rfl

theorem start_accounts (poolSize : ℕ) : Accounts (start poolSize : Pool P) where
  count := by
    rw [start_running]
    rfl
  unmanned _ := rfl
  opened _ := ⟨nofun, fun w hw => by rw [List.eq_of_mem_replicate hw]; rfl⟩
  shut h := by rcases h with h | ⟨id, h⟩ <;> cases h
  sound w hw := by
    rw [List.eq_of_mem_replicate hw]
    exact nofun
  free := ⟨rfl, rfl⟩

/-- One worker is replaced by another of which it is also true. -/
theorem all_exchange {α : Type} {l before after : List α} {a b : α} (hl : l = before ++ b :: after)
    {p : α → Prop} (h : ∀ x ∈ l, p x) (ha : p a) : ∀ x ∈ before ++ a :: after, p x := by
  subst hl
  intro x hx
  rcases List.mem_append.mp hx with hx | hx
  · exact h x (List.mem_append_left _ hx)
  · rcases List.mem_cons.mp hx with rfl | hx
    · exact ha
    · exact h x (List.mem_append_right _ (List.mem_cons_of_mem _ hx))

theorem running_split {s : Pool P} {before after : List (Worker P)} {w : Worker P}
    (h : s.workers = before ++ w :: after) :
    s.running = before.filterMap Worker.task? ++ w.task?.toList ++ after.filterMap Worker.task? := by
  rw [Pool.running, h, List.filterMap_append, List.append_assoc]
  cases hw : w.task? with
  | none => rw [List.filterMap_cons_none hw, Option.toList_none, List.nil_append]
  | some t => rw [List.filterMap_cons_some hw, Option.toList_some, List.singleton_append]

theorem running_exchange {s : Pool P} {before after : List (Worker P)} {w : Worker P}
    (h : s.workers = before ++ w :: after) (w' : Worker P) :
    ((before ++ w' :: after).filterMap Worker.task?).length + w.task?.toList.length =
      s.running.length + w'.task?.toList.length := by
  have hnew := @running_split _ { s with workers := before ++ w' :: after } before after w' rfl
  rw [Pool.running] at hnew
  rw [hnew, running_split h]
  simp only [List.length_append]
  omega

theorem asked_eq_nil {s : Pool P} (h : s.asked = []) : ∀ q ∈ s.questions, q = none :=
  fun q hq => List.filterMap_eq_nil_iff.mp h q hq

/-- A shut pool has nothing in its queues but the nils. -/
theorem Accounts.shut_idle {s : Pool P} (h : Accounts s) (hshut : s.Shut) :
    s.asked = [] ∧ s.running = [] ∧ s.answers = [] := by
  have hcount := h.count
  have heq := (h.shut hshut).1
  refine ⟨List.length_eq_zero_iff.mp ?_, List.length_eq_zero_iff.mp ?_, List.length_eq_zero_iff.mp ?_⟩ <;> omega

variable {lua : Lua P} {closeOnLastTask : Bool}

/-- Only the owner's place has changed, and it is not in `m:join()`. -/
theorem Accounts.owner {s : Pool P} (h : Accounts s) {owner : Owner P} (hopen : ∀ id, s.owner ≠ .joining id)
    (hnew : ∀ id, owner ≠ .joining id) : Accounts { s with owner := owner } where
  count := h.count
  unmanned := h.unmanned
  opened hshut := h.opened fun hold => hshut (hold.imp id fun ⟨id, hid⟩ => absurd hid (hopen id))
  shut hshut := h.shut (hshut.imp id fun ⟨id, hid⟩ => absurd hid (hnew id))
  sound := h.sound
  free := h.free

theorem Accounts.results {s : Pool P} (h : Accounts s) (successes : ℕ → Option (List (Value P)))
    (failures : ℕ → Option (Value P)) :
    Accounts { s with successes := successes, failures := failures } :=
  ⟨h.count, h.unmanned, h.opened, h.shut, h.sound, h.free⟩

/-- A task is counted whose result will never be read. -/
def loses : PoolEvent P → Bool
  | .refused _ => true
  | .crashed _ _ => true
  | _ => false

/-- The tasks that are in one place or another. -/
def Pool.placed (s : Pool P) : ℕ :=
  s.numResults + s.asked.length + s.running.length + s.answers.length

/-- A step moves a task from one place to the next; a task is new, or it is lost. -/
theorem placed_step {s s' : Pool P} {e : PoolEvent P} (hstep : PoolStep lua closeOnLastTask s e s') :
    s'.numTasks + s.placed = s.numTasks + s'.placed + [e].countP loses := by
  simp only [List.countP_singleton, Pool.placed]
  cases hstep with
  | call _ _ => rfl
  | @file c a rest _ _ _ hanswers =>
    obtain ⟨successes, failures, hfile⟩ := file_frame { s with answers := rest } a.received
    rw [hfile, hanswers, List.length_cons]
    change s.numTasks + _ = s.numTasks + (s.numResults + 1 + s.asked.length + s.running.length + rest.length) + 0
    omega
  | isDone _ _ => rfl
  | @add f args _ _ _ =>
    have hasked : (s.questions ++ [some (Task.mk (s.numTasks + 1) f args)]).filterMap id =
        s.asked ++ [⟨s.numTasks + 1, f, args⟩] := by
      rw [List.filterMap_append]
      rfl
    change s.numTasks + 1 + _ = s.numTasks +
      (s.numResults + ((s.questions ++ [some (Task.mk (s.numTasks + 1) f args)]).filterMap id).length +
        s.running.length + s.answers.length) + 0
    rw [hasked, List.length_append, List.length_singleton]
    omega
  | refuse _ _ _ =>
    change s.numTasks + 1 + _ = s.numTasks + s.placed + 1
    rw [Pool.placed]
    omega
  | close _ _ _ _ _ =>
    have hasked : (s.questions ++ List.replicate s.workers.length none).filterMap id = s.asked := by
      rw [List.filterMap_append, List.filterMap_replicate_of_none rfl, List.append_nil]
      rfl
    change s.numTasks + _ = s.numTasks +
      (s.numResults + ((s.questions ++ List.replicate s.workers.length none).filterMap id).length +
        s.running.length + s.answers.length) + 0
    rw [hasked]
    rfl
  | getResult _ _ _ htakes =>
    obtain ⟨successes, failures, rfl⟩ := takes_frame htakes
    rfl
  | joined _ _ htakes =>
    obtain ⟨successes, failures, rfl⟩ := takes_frame htakes
    rfl
  | @take before after t rest hworkers _ hquestions =>
    have hrunning := running_exchange hworkers (.running t.received)
    have hasked : s.asked = t :: rest.filterMap id := by
      rw [Pool.asked, hquestions]
      rfl
    rw [hasked, List.length_cons]
    change _ + 0 = _ + 1 at hrunning
    change s.numTasks + _ = s.numTasks + (s.numResults + (rest.filterMap id).length +
      ((before ++ .running t.received :: after).filterMap Worker.task?).length + s.answers.length) + 0
    omega
  | @leave before after rest hworkers _ hquestions =>
    have hrunning := running_exchange hworkers .exited
    have hasked : s.asked = rest.filterMap id := by
      rw [Pool.asked, hquestions]
      rfl
    rw [hasked]
    change _ + 0 = _ + 0 at hrunning
    change s.numTasks + _ = s.numTasks + (s.numResults + (rest.filterMap id).length +
      ((before ++ .exited :: after).filterMap Worker.task?).length + s.answers.length) + 0
    omega
  | @answer before after t args ending hworkers _ _ _ =>
    have hrunning := running_exchange hworkers .waiting
    change _ + 1 = _ + 0 at hrunning
    change s.numTasks + _ = s.numTasks + (s.numResults + s.asked.length +
      ((before ++ .waiting :: after).filterMap Worker.task?).length + (s.answers ++ [Answer.mk t.id ending]).length) + 0
    rw [List.length_append, List.length_singleton]
    omega
  | @crash before after t args ending held hworkers _ _ _ =>
    have hrunning := running_exchange hworkers .crashed
    change _ + 1 = _ + 0 at hrunning
    change s.numTasks + _ = s.numTasks + (s.numResults + s.asked.length +
      ((before ++ .crashed :: after).filterMap Worker.task?).length + s.answers.length) + 1
    omega

/-- A step that meets the condition loses no task. -/
theorem CoveredStep.keeps {s s' : Pool P} {e : PoolEvent P} (hstep : CoveredStep lua closeOnLastTask s e s') :
    loses e = false := by
  obtain ⟨hcovered, hstep⟩ := hstep
  cases hstep with
  | refuse _ _ hrefuses => exact absurd hcovered.2.2 hrefuses.1
  | crash _ _ _ hrefuses => exact absurd hcovered hrefuses.1
  | _ => rfl

theorem Accounts.count_step {s s' : Pool P} {e : PoolEvent P} (h : Accounts s)
    (hstep : CoveredStep lua closeOnLastTask s e s') : s'.numTasks = s'.placed := by
  have hcount : s.numTasks = s.placed := h.count
  have hplaced := placed_step hstep.2
  rw [List.countP_singleton, hstep.keeps, if_neg Bool.false_ne_true] at hplaced
  omega

theorem not_shut {s : Pool P} (hclosed : s.closed = false) (howner : ∀ id, s.owner ≠ .joining id) :
    ¬ s.Shut := by
  rintro (hc | ⟨id, hid⟩)
  · rw [hclosed] at hc
    cases hc
  · exact howner id hid

theorem not_joining {s : Pool P} {c : PoolCall P} (h : s.owner = .reading c) (id : Option ℕ) :
    s.owner ≠ .joining id := by
  rw [h]
  exact nofun

theorem Accounts.step {s s' : Pool P} {e : PoolEvent P} (h : Accounts s)
    (hstep : CoveredStep lua closeOnLastTask s e s') : Accounts s' := by
  have hcount := h.count_step hstep
  obtain ⟨hcovered, hstep⟩ := hstep
  cases hstep with
  | call hidle _ => exact h.owner (fun id => by rw [hidle]; exact nofun) (fun _ => nofun)
  | @file c a rest _ _ _ hanswers =>
    obtain ⟨successes, failures, hfile⟩ := file_frame { s with answers := rest } a.received
    rw [hfile] at hcount ⊢
    have hopen : ¬ s.Shut := by
      intro hshut
      have hnone := (h.shut_idle hshut).2.2
      rw [hanswers] at hnone
      cases hnone
    exact ⟨hcount, h.unmanned, fun _ => h.opened hopen, fun hshut => absurd hshut hopen, h.sound, h.free⟩
  | isDone howner _ => exact h.owner (not_joining howner) (fun _ => nofun)
  | @add f args howner _ _ =>
    obtain ⟨hclosed, hmanned, -⟩ := hcovered
    obtain ⟨hsome, hlive⟩ := h.opened (not_shut hclosed (not_joining howner))
    have hopen : ¬ Pool.Shut { s with
        owner := .idle, numTasks := s.numTasks + 1,
        questions := s.questions ++ [some ⟨s.numTasks + 1, f, args⟩] } :=
          not_shut hclosed fun _ => nofun
    refine ⟨hcount, fun hnone => absurd hnone hmanned, fun _ => ⟨fun q hq => ?_, hlive⟩,
      fun hshut => absurd hshut hopen, h.sound, h.free⟩
    rcases List.mem_append.mp hq with hold | hnew
    · exact hsome q hold
    · rw [List.mem_singleton.mp hnew]
      exact nofun
  | refuse _ _ hrefuses => exact absurd hcovered.2.2 hrefuses.1
  | @close waited howner _ _ hequal hclosed =>
    obtain ⟨hsome, hlive⟩ := h.opened (not_shut hclosed (not_joining howner))
    have hold := h.count
    have hempty : s.questions = [] := by
      have hnone := asked_eq_nil (List.length_eq_zero_iff.mp (show s.asked.length = 0 by omega))
      rw [List.eq_nil_iff_forall_not_mem]
      exact fun q hq => hsome q hq (hnone q hq)
    have hexited : s.workers.countP Worker.isExited = 0 := by
      rw [List.countP_eq_zero]
      intro w hw hexit
      have hw' := hlive w hw
      cases w with
      | exited => cases hw'
      | _ => cases hexit
    refine ⟨hcount, h.unmanned, fun hshut => absurd (Or.inr ⟨waited, rfl⟩) hshut,
      fun _ => ⟨hequal.symm, ?_⟩, h.sound, h.free⟩
    change (s.questions ++ List.replicate s.workers.length none).length + s.workers.countP
      Worker.isExited = s.workers.length
    rw [hempty, hexited, List.nil_append, List.length_replicate, Nat.add_zero]
  | getResult howner _ _ htakes =>
    obtain ⟨successes, failures, rfl⟩ := takes_frame htakes
    exact (h.results successes failures).owner (not_joining howner) (fun _ => nofun)
  | @joined _ id _ howner hexited htakes =>
    obtain ⟨successes, failures, rfl⟩ := takes_frame htakes
    exact ⟨hcount, h.unmanned, fun hopen => absurd (Or.inl rfl) hopen,
      fun _ => h.shut (Or.inr ⟨id, howner⟩), h.sound, h.free⟩
  | @take before after t rest hworkers _ hquestions =>
    have hopen : ¬ s.Shut := by
      intro hshut
      have hnone := (h.shut_idle hshut).1
      rw [Pool.asked, hquestions] at hnone
      cases hnone
    obtain ⟨hsome, hlive⟩ := h.opened hopen
    refine ⟨hcount, fun hnone => absurd hnone (by simp), fun _ => ⟨fun q hq => ?_, all_exchange hworkers hlive rfl⟩,
      fun hshut => absurd hshut hopen, all_exchange hworkers h.sound nofun, h.free⟩
    exact hsome q (by rw [hquestions]; exact List.mem_cons_of_mem _ hq)
  | @leave before after rest hworkers _ hquestions =>
    have hshut : s.Shut := by
      by_contra hopen
      exact (h.opened hopen).1 none (by rw [hquestions]; exact List.mem_cons_self) rfl
    refine ⟨hcount, fun hnone => absurd hnone (by simp), fun hopen => absurd hshut hopen,
      fun _ => ⟨(h.shut hshut).1, ?_⟩, all_exchange hworkers h.sound nofun, h.free⟩
    have hleft := (h.shut hshut).2
    rw [hquestions, hworkers, List.countP_append, List.countP_cons, List.length_append] at hleft
    change rest.length + (before ++ .exited :: after).countP Worker.isExited =
      (before ++ .exited :: after).length
    rw [List.countP_append, List.countP_cons, List.length_append]
    simp only [Worker.isExited, List.length_cons, Bool.false_eq_true, if_false, if_true] at hleft ⊢
    omega
  | @answer before after t args ending hworkers _ _ _ =>
    have hopen : ¬ s.Shut := by
      intro hshut
      have hnone := (h.shut_idle hshut).2.1
      rw [running_split hworkers] at hnone
      simp [Worker.task?] at hnone
    obtain ⟨hsome, hlive⟩ := h.opened hopen
    exact ⟨hcount, fun hnone => absurd hnone (by simp), fun _ => ⟨hsome, all_exchange hworkers hlive rfl⟩,
      fun hshut => absurd hshut hopen, all_exchange hworkers h.sound nofun, h.free⟩
  | crash _ _ _ hrefuses => exact absurd hcovered hrefuses.1

/-- In every run whose steps meet the condition, the tasks without a result are in the
question queue, run by a worker that has neither left nor crashed, or answered; and while
the question queue has one, a worker is still there. -/
theorem pool_accounts {poolSize : ℕ} {es : List (PoolEvent P)} {s : Pool P}
    (hrun : Run (CoveredStep lua closeOnLastTask) (start poolSize) es s) :
    s.numTasks = s.numResults + s.asked.length + s.running.length + s.answers.length ∧
      (s.asked ≠ [] → ∃ w ∈ s.workers, w.isLive = true) := by
  have h : Accounts s :=
    hrun.invariant (I := fun _ s => Accounts s) (start_accounts poolSize) fun _ _ _ _ h hstep =>
      h.step hstep
  refine ⟨h.count, fun hasked => ?_⟩
  have hopen : ¬ s.Shut := fun hshut => hasked (h.shut_idle hshut).1
  obtain ⟨w, hw⟩ : ∃ w, w ∈ s.workers := by
    refine List.exists_mem_of_ne_nil _ fun hnone => hasked (List.length_eq_zero_iff.mp ?_)
    have hzero := h.unmanned hnone
    have hcount := h.count
    omega
  exact ⟨w, hw, (h.opened hopen).2 w hw⟩

end

def sampleTask : Task UInt8 := ⟨1, .function 1 [none], []⟩

theorem sampleTask_serialisable :
    Serialisable sampleLua false (sampleTask.table sampleLua.versionNum) :=
  serialisable_of_keyless rfl rfl

theorem add_sampleTask (closeOnLastTask : Bool) {s : Pool UInt8} (hidle : s.owner = .idle) (hnew : s.numTasks = 0)
    (hresults : s.numResults = 0) :
    PoolStep sampleLua closeOnLastTask s (.called (.addTask sampleTask.func []))
        { s with owner := .reading (.addTask sampleTask.func []) } ∧
      PoolStep sampleLua closeOnLastTask { s with owner := .reading (.addTask sampleTask.func []) }
        (.added sampleTask)
        { s with owner := .idle, numTasks := s.numTasks + 1, questions := s.questions ++ [some sampleTask] } := by
  have htask : sampleTask = ⟨s.numTasks + 1, sampleTask.func, []⟩ := by rw [hnew]; rfl
  refine ⟨.call hidle fun f args hc => ?_, ?_⟩
  · cases hc
    rfl
  · have hleaves : Pool.Leaves { s with owner := .reading (.addTask sampleTask.func []) }
      (.addTask sampleTask.func []) :=
      Or.inl fun hreads => by
        have hlt := hreads.1
        rw [hnew, hresults] at hlt
        exact lt_irrefl _ hlt
    have hadd : PoolStep sampleLua closeOnLastTask { s with owner := .reading (.addTask sampleTask.func []) }
        (.added ⟨s.numTasks + 1, sampleTask.func, []⟩) _ :=
          .add rfl hleaves (htask ▸ sampleTask_serialisable.1)
    rwa [← htask] at hadd

/-- A task in an open pool. -/
theorem pool_accounts_one : ∃ es s, Run (CoveredStep sampleLua true) (start 1) es s ∧
    s.asked = [sampleTask] ∧
    s.numTasks = s.numResults + s.asked.length + s.running.length + s.answers.length ∧
      ∃ w ∈ s.workers, w.isLive = true := by
  obtain ⟨hcall, hadd⟩ := add_sampleTask true (s := start 1) rfl rfl rfl
  have hcalled : CoveredStep sampleLua true (start 1) (.called (.addTask sampleTask.func [])) _ :=
    ⟨trivial, hcall⟩
  have hadded : CoveredStep sampleLua true
      { start 1 with owner := .reading (.addTask sampleTask.func []) } (.added sampleTask) _ :=
    ⟨⟨rfl, List.cons_ne_nil _ _, sampleTask_serialisable⟩, hadd⟩
  have hrun := (Run.nil.snoc hcalled).snoc hadded
  obtain ⟨hcount, hlive⟩ := pool_accounts hrun
  exact ⟨_, _, hrun, rfl, hcount, hlive (List.cons_ne_nil _ _)⟩

/-- The owner asks a new pool for a result, which closes it, and then adds a task. -/
theorem task_orphaned : ∃ es s, Run (PoolStep sampleLua true) (start 1) es s ∧
    s.asked = [sampleTask] ∧
    ∀ w ∈ s.workers, w.isLive = false := by
  have hcall : PoolStep sampleLua true (start 1) (.called (.getResult none))
      { start 1 with owner := .reading (.getResult none) } :=
    .call rfl fun _ _ => nofun
  have hclose : PoolStep sampleLua true { start 1 with owner := .reading (.getResult none) } .closing
      { start 1 with owner := .joining none, questions := [none] } :=
    .close rfl (Or.inl fun hreads => lt_irrefl _ hreads.1) rfl rfl rfl
  have hleave : PoolStep sampleLua true { start 1 with owner := .joining none, questions := [none] } .left
      { start 1 with owner := .joining none, workers := [.exited] } :=
    @PoolStep.leave _ _ _ _ [] [] _ rfl rfl rfl
  have hjoined : PoolStep sampleLua true
    { start 1 with owner := .joining none, workers := [.exited] } (.got 0 (.returned []))
      { start 1 with owner := .idle, workers := [.exited], closed := true } :=
    @PoolStep.joined _ _ _ _ _ none _ rfl (fun w hw => List.mem_singleton.mp hw) (.nothing rfl rfl)
  obtain ⟨hagain, hadd⟩ := add_sampleTask true
    (s := { start 1 with owner := .idle, workers := [.exited], closed := true }) rfl rfl rfl
  have hrun := ((((Run.nil.snoc hcall).snoc hclose).snoc hleave).snoc hjoined).snoc hagain
  refine ⟨_, _, hrun.snoc hadd, rfl, fun w hw => ?_⟩
  rw [List.mem_singleton.mp hw]
  rfl

end TorchIpc.BackgroundTaskPool
