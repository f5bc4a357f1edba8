import TorchIpc.Pool.Orphans

/-! What a refused task leaves behind. `addTask` counts a task before it writes it, so that
the pool waits from then on for a result that nobody will write. -/

namespace TorchIpc.BackgroundTaskPool

open Runs

section
variable {P : Type}

def Pool.hasTask (s : Pool P) : Bool := s.numResults < s.numTasks

/-- The counter, the question queue and its mutex are as before. -/
def Restored (s s' : Pool P) : Prop :=
  s'.numTasks = s.numTasks ∧ s'.questions = s.questions ∧ s'.questionsHeld = s.questionsHeld

/-- Every task that was counted is somewhere, or lost. -/
def Counted (es : List (PoolEvent P)) (s : Pool P) : Prop :=
  s.numTasks = s.numResults + s.asked.length + s.running.length + s.answers.length + es.countP loses

variable {lua : Lua P} {closeOnLastTask : Bool}

theorem start_counted (poolSize : ℕ) : Counted [] (start poolSize : Pool P) :=
  (start_accounts poolSize).count

theorem Counted.step {es : List (PoolEvent P)} {s s' : Pool P} {e : PoolEvent P} (h : Counted es s)
    (hstep : PoolStep lua closeOnLastTask s e s') : Counted (es ++ [e]) s' := by
  have hplaced := placed_step hstep
  rw [Pool.placed, Pool.placed] at hplaced
  rw [Counted] at h ⊢
  rw [List.countP_append]
  omega

theorem run_counted {poolSize : ℕ} {es : List (PoolEvent P)} {s : Pool P}
    (hrun : Run (PoolStep lua closeOnLastTask) (start poolSize) es s) : Counted es s :=
  hrun.invariant (start_counted poolSize) fun _ _ _ _ h hstep => h.step hstep

/-- Whenever `addTask` raises for a task that cannot be serialised, the counter has moved.
From then on `hasTask` says yes and `isDone` no, and `getResult` without an id waits. -/
theorem refused_not_restored {poolSize : ℕ} {es : List (PoolEvent P)} {s s' : Pool P} {t : Task P}
    (hrun : Run (PoolStep lua closeOnLastTask) (start poolSize) es s)
    (hrefused : PoolStep lua closeOnLastTask s (.refused t) s') :
    ¬ Restored s s' ∧ ∀ es' s'', Run (PoolStep lua closeOnLastTask) s' es' s'' →
      s''.hasTask = true ∧ (∀ shouldBlock result last, s''.owner = .reading (.isDone none shouldBlock) →
        PoolStep lua closeOnLastTask s'' (.done result) last → result = false) ∧
      ∀ id result last, s''.owner = .reading (.getResult none) →
        ¬ PoolStep lua closeOnLastTask s'' (.got id result) last ∧
          ¬ PoolStep lua closeOnLastTask s'' .closing last := by
  refine ⟨fun hrestored => ?_, fun es' s'' hafter => ?_⟩
  · cases hrefused with
    | refuse _ _ _ =>
      have hsame : s.numTasks + 1 = s.numTasks := hrestored.1
      omega
  · have hcounted := run_counted ((hrun.snoc hrefused).append hafter)
    have hlt : s''.numResults < s''.numTasks := by
      rw [Counted, List.countP_append, List.countP_append] at hcounted
      have hone : List.countP loses [PoolEvent.refused t] = 1 := rfl
      omega
    -- the loop of `isDone` goes on for want of an answer
    have hwaits : ¬ s''.Leaves (.getResult none) := by
      rintro (hreads | ⟨hblock, -⟩)
      · exact hreads ⟨hlt, rfl⟩
      · cases hblock
    refine ⟨decide_eq_true hlt, fun shouldBlock result last howner hstep => ?_, fun id result last howner =>
      ⟨fun hstep => ?_, fun hstep => ?_⟩⟩
    · cases hstep with
      | isDone howner' _ =>
        obtain ⟨rfl, -⟩ := PoolCall.isDone.inj (Owner.reading.inj (howner.symm.trans howner'))
        simp only [Pool.hasResult, Bool.or_false, decide_eq_false_iff_not]
        omega
    · cases hstep with
      | getResult howner' hleaves _ _ =>
        obtain rfl := PoolCall.getResult.inj (Owner.reading.inj (howner.symm.trans howner'))
        exact hwaits hleaves
      | joined howner' _ _ => cases howner.symm.trans howner'
    · cases hstep with
      | close howner' hleaves _ _ _ =>
        obtain rfl := PoolCall.getResult.inj (Owner.reading.inj (howner.symm.trans howner'))
        exact hwaits hleaves

end

def printTask : Task UInt8 := ⟨1, .function 1 [none], [.cfunction]⟩

theorem printTask_refused : Refuses sampleLua (printTask.table sampleLua.versionNum) true := by
  refine ⟨fun hs => ?_, nofun⟩
  have hfin : (script sampleLua false false (printTask.table sampleLua.versionNum)).fin =
    .raise .persistCFunction := rfl
  cases hfin.symm.trans hs.1

theorem refuse_printTask : ∃ s s',
    Run (PoolStep sampleLua true) (start 1) [.called (.addTask printTask.func printTask.args)] s ∧
    PoolStep sampleLua true s (.refused printTask) s' ∧ s.numTasks = 0 ∧ s'.numTasks = 1 ∧
      s'.questionsHeld = true := by
  have hcall : PoolStep sampleLua true (start 1) (.called (.addTask printTask.func printTask.args))
      { start 1 with owner := .reading (.addTask printTask.func printTask.args) } :=
    .call rfl fun f args hc => by
      cases hc
      rfl
  have hrefuse := @PoolStep.refuse _ sampleLua true
    { start 1 with owner := .reading (.addTask printTask.func printTask.args) } _ _ _ rfl
    (Or.inl fun hreads => lt_irrefl _ hreads.1) printTask_refused
  exact ⟨_, _, Run.nil.snoc hcall, hrefuse, rfl, rfl, rfl⟩

/-- `print` cannot be sent to the worker, and the pool has a task in flight. -/
theorem refused_not_restored_print : ∃ s s', PoolStep sampleLua true s (.refused printTask) s' ∧
    ¬ Restored s s' ∧
    s'.hasTask = true := by
  obtain ⟨s, s', hrun, hrefused, -⟩ := refuse_printTask
  obtain ⟨hnot, hafter⟩ := refused_not_restored hrun hrefused
  exact ⟨s, s', hrefused, hnot, (hafter [] s' .nil).1⟩

/-- A new pool has counted the task that it refused, and the question queue stays locked. -/
theorem refused_task_counted : ∃ s s',
    Run (PoolStep sampleLua true) (start 1) [.called (.addTask printTask.func printTask.args)] s ∧
    PoolStep sampleLua true s (.refused printTask) s' ∧ ¬ Restored s s' ∧
      s'.questionsHeld = true := by
  obtain ⟨s, s', hrun, hrefused, hbefore, hafter, hheld⟩ := refuse_printTask
  refine ⟨s, s', hrun, hrefused, fun hrestored => ?_, hheld⟩
  have hsame := hrestored.1
  rw [hbefore, hafter] at hsame
  cases hsame

end TorchIpc.BackgroundTaskPool
