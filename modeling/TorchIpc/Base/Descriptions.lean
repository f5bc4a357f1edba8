import Mathlib.Logic.Function.Basic
import Mathlib.Data.Finset.Basic

/-! Open files and the advisory locks on them. A descriptor of a process stands for an open file
description, which processes share that come from one another by `fork`. A lock belongs to the
description: it goes when somebody unlocks it, or with the last descriptor that stands for it. -/

namespace TorchIpc.Descriptions

/-- The descriptors of the processes, the file of each description, the number of descriptions so
far, and the description that has the lock on each file. -/
structure World (P F : Type) where
  fds : P → ℕ → Option ℕ
  file : ℕ → F
  next : ℕ
  holder : F → Option ℕ

namespace World

variable {P F : Type} (w : World P F)

def Referenced (d : ℕ) : Prop := ∃ p fd, w.fds p fd = some d

/-- The description `d` has the lock on its file. -/
def Locks (d : ℕ) : Prop := w.holder (w.file d) = some d

/-- Every descriptor stands for a description there is, and every lock belongs to one that some
descriptor stands for. -/
structure Sound : Prop where
  known : ∀ p fd d, w.fds p fd = some d → d < w.next
  held : ∀ f d, w.holder f = some d → w.file d = f ∧ w.Referenced d

/-- No two descriptors stand for one description. -/
def Unshared : Prop := ∀ p p' fd fd' d, w.fds p fd = some d → w.fds p' fd' = some d → p = p' ∧
    fd = fd'

def start (f : F) : World P F := ⟨fun _ _ => none, fun _ => f, 0, fun _ => none⟩

variable [DecidableEq P] [DecidableEq F]

def opened (p : P) (fd : ℕ) (f : F) : World P F where
  fds := Function.update w.fds p (Function.update (w.fds p) fd (some w.next))
  file := Function.update w.file w.next f
  next := w.next + 1
  holder := w.holder

def locked (d : ℕ) : World P F := { w with holder := Function.update w.holder (w.file d) (some d) }

def unlocked (d : ℕ) : World P F :=
  if w.holder (w.file d) = some d then { w with holder := Function.update w.holder (w.file d) none } else w

/-- The new process `p'` has the descriptors of `p`. -/
def forked (p p' : P) : World P F := { w with fds := Function.update w.fds p' (w.fds p) }

/-- From `w` to `w'` descriptors have been closed, and the locks have gone of the descriptions that
none stands for any more. -/
structure Drops (w' : World P F) : Prop where
  fds : ∀ p fd, w'.fds p fd = w.fds p fd ∨ w'.fds p fd = none
  file : w'.file = w.file
  next : w'.next = w.next
  holder : ∀ f d, w'.holder f = some d ↔ w.holder f = some d ∧ w'.Referenced d

/-- The descriptor `fd` of `p` is closed. -/
structure Closes (p : P) (fd : ℕ) (w' : World P F) : Prop extends w.Drops w' where
  fds_eq : w'.fds = Function.update w.fds p (Function.update (w.fds p) fd none)

/-- All descriptors of `p` are closed. -/
structure Exits (p : P) (w' : World P F) : Prop extends w.Drops w' where
  fds_eq : w'.fds = Function.update w.fds p fun _ => none

variable {w} {w' : World P F} {p p' : P} {fd fd' d d' : ℕ} {f : F}

omit [DecidableEq P] [DecidableEq F] in
theorem sound_start (f : F) : (start f : World P F).Sound := ⟨nofun, nofun⟩

/-! ### Descriptors -/

omit [DecidableEq F] in
theorem opened_fds : (w.opened p fd f).fds p' fd' = if p' = p ∧
    fd' = fd then some w.next else w.fds p' fd' := by
  unfold opened
  by_cases hp : p' = p
  · subst hp
    by_cases hfd : fd' = fd <;> simp [hfd]
  · simp [hp]

omit [DecidableEq F] in
theorem Closes.fds_apply (h : w.Closes p fd w') :
    w'.fds p' fd' = if p' = p ∧ fd' = fd then none else w.fds p' fd' := by
  rw [h.fds_eq]
  by_cases hp : p' = p
  · subst hp
    by_cases hfd : fd' = fd <;> simp [hfd]
  · simp [hp]

omit [DecidableEq P] in
@[simp] theorem locked_fds : (w.locked d).fds = w.fds := rfl

omit [DecidableEq P] in
@[simp] theorem unlocked_fds : (w.unlocked d).fds = w.fds := by
  unfold unlocked
  split_ifs <;> rfl

omit [DecidableEq P] [DecidableEq F] in
theorem Drops.fds_some (hw : w.Drops w') (hd : w'.fds p fd = some d) : w.fds p fd = some d := by
  rcases hw.fds p fd with hsame | hnone
  · rwa [← hsame]
  · rw [hnone] at hd
    cases hd

/-! ### Locks -/

omit [DecidableEq P] [DecidableEq F] in
/-- Two descriptions of one file do not both have its lock. -/
theorem Locks.exclusive (h : w.Locks d) (h' : w.Locks d') (hf : w.file d = w.file d') : d = d' := by
  unfold Locks at h h'
  rw [hf, h', Option.some.injEq] at h
  exact h.symm

omit [DecidableEq F] in
theorem Locks.opened (h : w.Locks d) (hd : d < w.next) : (w.opened p fd f).Locks d := by
  unfold Locks at *
  simpa [World.opened, Function.update_of_ne hd.ne] using h

omit [DecidableEq P] in
theorem locks_locked : (w.locked d).Locks d := by
  simp [Locks, locked]

omit [DecidableEq P] in
theorem Locks.locked (h : w.Locks d') (hfree : w.holder (w.file d) = none ∨ w.holder (w.file d) = some d) :
    (w.locked d).Locks d' := by
  unfold Locks at *
  by_cases hf : w.file d' = w.file d
  · rw [hf] at h
    rcases hfree with hnone | hsame
    · rw [hnone] at h
      cases h
    · rw [hsame, Option.some.injEq] at h
      simp [World.locked, h]
  · simpa [World.locked, hf] using h

omit [DecidableEq P] in
theorem Locks.unlocked (h : w.Locks d') (hne : d' ≠ d) : (w.unlocked d).Locks d' := by
  unfold World.unlocked
  split_ifs with hd
  · unfold Locks at *
    by_cases hf : w.file d' = w.file d
    · rw [hf, hd, Option.some.injEq] at h
      exact absurd h.symm hne
    · simpa [hf] using h
  · exact h

omit [DecidableEq P] [DecidableEq F] in
theorem Locks.drops (h : w.Locks d) (hw : w.Drops w') (href : w'.Referenced d) : w'.Locks d := by
  unfold Locks at *
  rw [hw.file, hw.holder]
  exact ⟨h, href⟩

/-! ### Soundness -/

omit [DecidableEq F] in
theorem Sound.opened (h : w.Sound) (hfd : w.fds p fd = none) : (w.opened p fd f).Sound := by
  constructor
  · intro p' fd' d' hd
    rw [opened_fds] at hd
    split_ifs at hd with hc
    · cases hd
      exact Nat.lt_succ_self _
    · exact (h.known p' fd' d' hd).trans (Nat.lt_succ_self _)
  · intro f' d' hd
    obtain ⟨hfile, p', fd', href⟩ := h.held f' d' hd
    refine ⟨?_, p', fd', ?_⟩
    · rw [← hfile]
      exact Function.update_of_ne (h.known p' fd' d' href).ne _ _
    · rw [opened_fds, if_neg]
      · exact href
      · rintro ⟨rfl, rfl⟩
        rw [hfd] at href
        cases href

omit [DecidableEq P] in
theorem Sound.locked (h : w.Sound) (href : w.Referenced d) : (w.locked d).Sound := by
  refine ⟨h.known, fun f' d' hd => ?_⟩
  by_cases hf : f' = w.file d
  · subst hf
    simp only [World.locked, Function.update_self, Option.some.injEq] at hd
    subst hd
    exact ⟨rfl, href⟩
  · simp only [World.locked, Function.update_of_ne hf] at hd
    exact h.held f' d' hd

omit [DecidableEq P] in
theorem Sound.unlocked (h : w.Sound) : (w.unlocked d).Sound := by
  unfold World.unlocked
  split_ifs
  · refine ⟨h.known, fun f' d' hd => ?_⟩
    by_cases hf : f' = w.file d
    · subst hf
      simp at hd
    · simp only [Function.update_of_ne hf] at hd
      exact h.held f' d' hd
  · exact h

omit [DecidableEq F] in
theorem Sound.forked (h : w.Sound) (hnew : ∀ fd, w.fds p' fd = none) : (w.forked p p').Sound := by
  constructor
  · intro q fd' d' hd
    by_cases hq : q = p'
    · subst hq
      exact h.known p fd' d' (by simpa [World.forked] using hd)
    · exact h.known q fd' d' (by simpa [World.forked, hq] using hd)
  · intro f' d' hd
    obtain ⟨hfile, q, fd', href⟩ := h.held f' d' hd
    refine ⟨hfile, q, fd', ?_⟩
    have hq : q ≠ p' := by
      rintro rfl
      rw [hnew] at href
      cases href
    simpa [World.forked, hq] using href

omit [DecidableEq P] [DecidableEq F] in
theorem Sound.drops (h : w.Sound) (hw : w.Drops w') : w'.Sound := by
  constructor
  · intro p' fd' d' hd
    rw [hw.next]
    exact h.known p' fd' d' (hw.fds_some hd)
  · intro f' d' hd
    obtain ⟨hold, href⟩ := (hw.holder f' d').mp hd
    exact ⟨hw.file ▸ (h.held f' d' hold).1, href⟩

/-! ### Sharing -/

omit [DecidableEq F] in
theorem Unshared.opened (h : w.Unshared) (hw : w.Sound) : (w.opened p fd f).Unshared := by
  -- the new description is not an old one
  have hnew : ∀ q fd' d, w.fds q fd' = some d → w.next ≠ d :=
    fun q fd' d hd => (hw.known q fd' d hd).ne'
  intro q q' fd₁ fd₂ d hd hd'
  rw [opened_fds] at hd hd'
  split_ifs at hd hd' with hc hc' hc'
  · exact ⟨hc.1.trans hc'.1.symm, hc.2.trans hc'.2.symm⟩
  · exact absurd (Option.some.inj hd) (hnew q' fd₂ d hd')
  · exact absurd (Option.some.inj hd') (hnew q fd₁ d hd)
  · exact h q q' fd₁ fd₂ d hd hd'

omit [DecidableEq P] [DecidableEq F] in
theorem Unshared.drops (h : w.Unshared) (hw : w.Drops w') : w'.Unshared :=
  fun q q' fd₁ fd₂ d hd hd' => h q q' fd₁ fd₂ d (hw.fds_some hd) (hw.fds_some hd')

end World

end TorchIpc.Descriptions
