import TorchIpc.Spawn.Opening
import Mathlib.Logic.Function.Basic
import Mathlib.Tactic.SplitIfs

/-! The wiring of the child. The parent's descriptor table grows by the two pipes, and
the child executes the recorded actions on its copy of the table. A `dup2` may hit an end
that a later action still needs, or one that is in place already and that the next `close`
takes away; the child is wired exactly when none of this happens. -/

namespace TorchIpc.Spawn

open Calls

/-! ### Descriptor tables -/

inductive PipeEnd where
  | read
  | write
  deriving Repr, DecidableEq

/-- What a descriptor is open on: a file that was open before, or an end of the `n`-th
pipe. -/
inductive File (ι : Type) where
  | other (file : ι)
  | pipe (n : ℕ) (side : PipeEnd)

abbrev Table (ι : Type) := ℕ → Option (File ι)

section
variable {ι : Type}

/-- An action in the child. A `dup2` of a descriptor that is not open fails; a `close` of
one is ignored. -/
def FileAction.execute (t : Table ι) : FileAction → Option (Table ι)
  | dup2 fildes newfildes => (t fildes).map fun f => Function.update t newfildes (some f)
  | close fildes => some (Function.update t fildes none)

def execute (actions : List FileAction) (t : Table ι) : Option (Table ι) :=
  actions.foldlM FileAction.execute t

/-- The child reads from the first pipe and writes to the second, and that is all it has
of them. -/
def Wired (t : Table ι) : Prop :=
  t 0 = some (.pipe 0 .read) ∧ t 1 = some (.pipe 1 .write) ∧
    ∀ d n side, t d = some (.pipe n side) → d = 0 ∨ d = 1

/-- The parent, with the number of its pipes. -/
structure Parent (ι : Type) where
  table : Table ι
  pipes : ℕ

def Parent.after (p : Parent ι) : Event → Parent ι
  | ⟨.pipe, some (r, w)⟩ =>
    { table := Function.update (Function.update p.table r (some (.pipe p.pipes .read))) w
        (some (.pipe p.pipes .write))
      pipes := p.pipes + 1 }
  | ⟨.close fd _, answer⟩ =>
    if Closing.releases answer then { p with table := Function.update p.table fd none } else p
  | _ => p

/-- The parent's table after some calls, from the files that were open before. -/
def parentTable (T : ℕ → Option ι) (h : List Event) : Table ι :=
  (h.foldl Parent.after { table := fun d => (T d).map .other, pipes := 0 }).table

/-- `pipe` returns any two distinct unused descriptors. -/
def Unused (T : ℕ → Option ι) (h : List Event) : (c : Sys) → c.Answer → Prop
  | .pipe, some (r, w) => r ≠ w ∧ parentTable T h r = none ∧ parentTable T h w = none
  | _, _ => True

def pipesOf (h : List Event) : List (ℕ × ℕ) :=
  h.filterMap fun
    | ⟨.pipe, some p⟩ => some p
    | _ => none

/-! ### The recorded actions -/

variable {T : ℕ → Option ι} {r₀ w₀ r₁ w₁ : ℕ}

theorem parentTable_setup (T : ℕ → Option ι) (r₀ w₀ r₁ w₁ : ℕ) :
    parentTable T (setup r₀ w₀ r₁ w₁) = Function.update (Function.update (Function.update
      (Function.update (fun d => (T d).map .other) r₀ (some (.pipe 0 .read))) w₀
      (some (.pipe 0 .write))) r₁ (some (.pipe 1 .read))) w₁ (some (.pipe 1 .write)) := rfl

/-- An end of a pipe is open at one of the four descriptors. -/
theorem eq_of_pipe {d n : ℕ} {side : PipeEnd} (h : parentTable T (setup r₀ w₀ r₁ w₁) d = some (.pipe n side)) :
    d = r₀ ∨ d = w₀ ∨ d = r₁ ∨ d = w₁ := by
  by_contra hd
  simp only [not_or] at hd
  obtain ⟨h₀, h₁, h₂, h₃⟩ := hd
  rw [parentTable_setup, Function.update_of_ne h₃, Function.update_of_ne h₂, Function.update_of_ne h₁,
    Function.update_of_ne h₀] at h
  cases hT : T d <;> simp [hT] at h

theorem update_none_eq_some {t : Table ι} {a d : ℕ} {f : File ι} :
    Function.update t a none d = some f ↔ d ≠ a ∧ t d = some f := by
  by_cases h : d = a
  · subst h
    simp
  · simp [h]

theorem ne_of_pipes (hpipes : PipesMay (Unused T) r₀ w₀ r₁ w₁) :
    (r₀ ≠ w₀ ∧ r₀ ≠ r₁ ∧ r₀ ≠ w₁) ∧ (w₀ ≠ r₁ ∧ w₀ ≠ w₁) ∧ r₁ ≠ w₁ := by
  obtain ⟨⟨hne₀, -, -⟩, hne₁, hr₁, hw₁⟩ := hpipes
  have htable : parentTable T ([⟨.fileActionsInit, true⟩] ++ pipeEvents 0 r₀ w₀) =
      Function.update (Function.update (fun d => (T d).map .other) r₀ (some (.pipe 0 .read))) w₀
        (some (.pipe 0 .write)) := rfl
  have hfree : ∀ d, parentTable T ([⟨.fileActionsInit, true⟩] ++ pipeEvents 0 r₀ w₀) d = none →
      r₀ ≠ d ∧ w₀ ≠ d := by
    intro d hd
    rw [htable] at hd
    refine ⟨?_, ?_⟩
    · rintro rfl
      simp [hne₀] at hd
    · rintro rfl
      simp at hd
  exact ⟨⟨hne₀, (hfree r₁ hr₁).1, (hfree w₁ hw₁).1⟩, ⟨(hfree r₁ hr₁).2, (hfree w₁ hw₁).2⟩, hne₁⟩

/-- The child's table once the first pipe is in place. -/
def firstWired (t : Table ι) (r₀ w₀ : ℕ) : Table ι :=
  Function.update (Function.update (Function.update t 0 (t r₀)) r₀ none) w₀ none

theorem execute_actions {t : Table ι} {f : File ι} (hopen : t r₀ = some f) :
    execute (pipeActions 0 r₀ w₀ ++ pipeActions 1 r₁ w₁) t =
      (firstWired t r₀ w₀ w₁).map fun f =>
        Function.update (Function.update (Function.update (firstWired t r₀ w₀) 1 (some f)) w₁ none)
          r₁ none := by
  have hfirst : execute (pipeActions 0 r₀ w₀) t = some (firstWired t r₀ w₀) := by
    simp [execute, pipeActions, childEnd, parentEnd, FileAction.execute, firstWired, hopen]
  rw [execute, List.foldlM_append]
  rw [execute] at hfirst
  rw [hfirst]
  cases hw : firstWired t r₀ w₀ w₁ with
  | none => simp [pipeActions, childEnd, FileAction.execute, hw]
  | some f => simp [pipeActions, childEnd, parentEnd, FileAction.execute, hw]

theorem wired_setup_iff (hpipes : PipesMay (Unused T) r₀ w₀ r₁ w₁) :
    (∃ t, execute (pipeActions 0 r₀ w₀ ++ pipeActions 1 r₁ w₁)
      (parentTable T (setup r₀ w₀ r₁ w₁)) = some t ∧ Wired t) ↔
      (r₀ ≠ 0 ∧ w₀ ≠ 0 ∧ r₁ ≠ 0 ∧ w₁ ≠ 0) ∧ r₁ ≠ 1 ∧ w₁ ≠ 1 := by
  obtain ⟨⟨h₁, h₂, h₃⟩, ⟨h₄, h₅⟩, h₆⟩ := ne_of_pipes hpipes
  have hr₀ : parentTable T (setup r₀ w₀ r₁ w₁) r₀ = some (.pipe 0 .read) := by
    simp [parentTable_setup, h₁, h₂, h₃]
  rw [execute_actions hr₀]
  constructor
  · rintro ⟨t, ht, hzero, hone, -⟩
    obtain ⟨f, -, rfl⟩ := Option.map_eq_some_iff.mp ht
    simp only [firstWired, Function.update_apply] at hzero hone
    refine ⟨⟨?_, ?_, ?_, ?_⟩, ?_, ?_⟩
    · rintro rfl
      simp at hzero
    · rintro rfl
      simp at hzero
    · rintro rfl
      simp at hzero
    · rintro rfl
      simp at hzero
    · rintro rfl
      simp at hone
    · rintro rfl
      simp at hone
  · rintro ⟨⟨hr0, hw0, hr1, hw1⟩, hr1', hw1'⟩
    have hsource : firstWired (parentTable T (setup r₀ w₀ r₁ w₁)) r₀ w₀ w₁ =
        some (.pipe 1 .write) := by
      simp [firstWired, parentTable_setup, hw1, h₃.symm, h₅.symm]
    refine ⟨_, Option.map_eq_some_iff.mpr ⟨_, hsource, rfl⟩, ?_, ?_, ?_⟩
    · simp [firstWired, hr₀, hr0.symm, hw0.symm, hr1.symm, hw1.symm]
    · simp [hr1'.symm, hw1'.symm]
    · intro d n side hd
      by_contra hd'
      obtain ⟨hd0, hd1⟩ := not_or.mp hd'
      obtain ⟨hdr₁, hd⟩ := update_none_eq_some.mp hd
      obtain ⟨hdw₁, hd⟩ := update_none_eq_some.mp hd
      rw [Function.update_of_ne hd1] at hd
      obtain ⟨hdw₀, hd⟩ := update_none_eq_some.mp hd
      obtain ⟨hdr₀, hd⟩ := update_none_eq_some.mp hd
      rw [Function.update_of_ne hd0] at hd
      -- what is left at a descriptor that is neither 0 nor 1 comes from the parent
      rcases eq_of_pipe hd with rfl | rfl | rfl | rfl
      · exact hdr₀ rfl
      · exact hdw₀ rfl
      · exact hdr₁ rfl
      · exact hdw₁ rfl

end

/-! ### The wiring -/

/-- No descriptor of a pipe is 0, and none of the second is 1. -/
def FitPipes (pipes : List (ℕ × ℕ)) : Prop :=
  (∀ p ∈ pipes, p.1 ≠ 0 ∧ p.2 ≠ 0) ∧ ∀ p ∈ pipes.drop 1, p.1 ≠ 1 ∧ p.2 ≠ 1

/-- Wherever `posix_spawnp` is called, its actions wire the child exactly when the
descriptors of the pipes are fit. -/
theorem wired_iff {ι : Type} (T : ℕ → Option ι) {options : Option Options} {es h : List Event}
    {file : String} {actions : List FileAction} {argv : List (Option String)}
    {envp : Option (List (Option String))}
    {next : Option ℕ → Prog Sys Sys.Answer (Except SpawnError Unit × SpawnT)}
    (hmakes : Makes (historyKernel (Unused T)) ((spawnOpen options).run.run {}) [] es
      (.call (.spawnp file actions argv envp) next) h) :
    (∃ t, execute actions (parentTable T h) = some t ∧ Wired t) ↔ FitPipes (pipesOf h) := by
  obtain ⟨r₀, w₀, r₁, w₁, hpipes, rfl, rfl⟩ := hmakes.ok_call (spawnOpen_opens _ options)
  rw [wired_setup_iff hpipes]
  have hpipesOf : pipesOf (setup r₀ w₀ r₁ w₁) = [(r₀, w₀), (r₁, w₁)] := rfl
  simp [hpipesOf, FitPipes, and_assoc]

theorem unused_free {ι : Type} (T : ℕ → Option ι) (h : List Event) (c : Sys) (a : c.Answer)
    (hc : c ≠ .pipe) : Unused T h c a := by
  cases c with
  | pipe => exact absurd rfl hc
  | _ => exact trivial

def stdFiles (d : ℕ) : Option Unit := if d ≤ 2 then some () else none

theorem stdFiles_pipes : PipesMay (Unused stdFiles) 3 4 5 6 :=
  ⟨⟨by decide, rfl, rfl⟩, by decide, rfl, rfl⟩

theorem wired_iff_std :
    (∃ t, execute (pipeActions 0 3 4 ++ pipeActions 1 5 6) (parentTable stdFiles (setup 3 4 5 6)) =
      some t ∧ Wired t) ↔ FitPipes (pipesOf (setup 3 4 5 6)) := by
  obtain ⟨next, hmakes⟩ := openChild_reaches (unused_free stdFiles) stdFiles_pipes "cat" [some "cat"] none
  exact wired_iff stdFiles
    (show Makes _ ((spawnOpen (some ⟨.string "cat", .nil, none⟩)).run.run {}) _ _ _ _ from hmakes)

def noStdin (d : ℕ) : Option Unit := if d = 1 ∨ d = 2 then some () else none

theorem noStdin_pipes : PipesMay (Unused noStdin) 0 3 4 5 :=
  ⟨⟨by decide, rfl, rfl⟩, by decide, rfl, rfl⟩

/-- Then the first pipe gets it, and its `close` leaves the child without a stdin. -/
theorem exists_unwired : ¬ ∀ (ι : Type) (T : ℕ → Option ι) (options : Option Options)
    (es h : List Event) (file : String) (actions : List FileAction) (argv : List (Option String))
    (envp : Option (List (Option String)))
    (next : Option ℕ → Prog Sys Sys.Answer (Except SpawnError Unit × SpawnT)),
    Makes (historyKernel (Unused T)) ((spawnOpen options).run.run {}) [] es
      (.call (.spawnp file actions argv envp) next) h →
    ∃ t, execute actions (parentTable T h) = some t ∧ Wired t := by
  intro hall
  obtain ⟨next, hmakes⟩ := openChild_reaches (unused_free noStdin) noStdin_pipes "cat" [some "cat"] none
  obtain ⟨t, ht, hzero, -⟩ := hall Unit noStdin (some ⟨.string "cat", .nil, none⟩) _ _ _ _ _ _ next hmakes
  have hactions : (execute (pipeActions 0 0 3 ++ pipeActions 1 4 5)
      (parentTable noStdin (setup 0 3 4 5))).map (fun t => (t 0).isSome) = some false := by
    rfl
  rw [ht] at hactions
  simp [hzero] at hactions

end TorchIpc.Spawn
