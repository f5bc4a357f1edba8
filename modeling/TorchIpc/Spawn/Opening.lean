import TorchIpc.Spawn.Object

/-! What `spawn_open` has done when it comes to `posix_spawnp`, and when it returns. The
world is the history of its system calls; a call that fails ends in an error, so each
of the two points is reached with one history, up to the descriptors of the pipes. -/

namespace TorchIpc.Spawn

open Calls

abbrev Event := (c : Sys) × c.Answer

/-- The kernel as a condition on the answers after a history. -/
def historyKernel (may : List Event → (c : Sys) → c.Answer → Prop) :
    Kernel (List Event) Sys Sys.Answer where
  may := may
  after h c a := h ++ [⟨c, a⟩]

theorem makes_history {may : List Event → (c : Sys) → c.Answer → Prop} {α : Type}
    {p p' : Prog Sys Sys.Answer α} {h es h' : List Event}
    (hmakes : Makes (historyKernel may) p h es p' h') : h' = h ++ es := by
  induction hmakes with
  | nil => exact (List.append_nil _).symm
  | call _ _ ih => exact ih.trans (List.append_assoc ..)

/-! ### The history of an opening -/

/-- The end of the `i`-th pipe that the child gets. -/
def childEnd (i : Fin 2) (r w : ℕ) : ℕ := if i = 0 then r else w

def parentEnd (i : Fin 2) (r w : ℕ) : ℕ := if i = 0 then w else r

def pipeActions (i : Fin 2) (r w : ℕ) : List FileAction :=
  [.dup2 (childEnd i r w) i, .close (childEnd i r w), .close (parentEnd i r w)]

def pipeEvents (i : Fin 2) (r w : ℕ) : List Event :=
  ⟨.pipe, some (r, w)⟩ :: (pipeActions i r w).map fun action => ⟨.addAction action, true⟩

def SpawnT.withPipe (s : SpawnT) (i : Fin 2) (r w : ℕ) : SpawnT :=
  { (s.setFd i 0 r).setFd i 1 w with fileActions := s.fileActions ++ pipeActions i r w }

def setup (r₀ w₀ r₁ w₁ : ℕ) : List Event :=
  [⟨.fileActionsInit, true⟩] ++ pipeEvents 0 r₀ w₀ ++ pipeEvents 1 r₁ w₁ ++ [⟨.attrInit, true⟩]

def openHistory (file : String) (argv : List (Option String)) (envp : Option (List (Option String)))
    (pid r₀ w₀ r₁ w₁ : ℕ) : List Event :=
  setup r₀ w₀ r₁ w₁ ++
    [⟨.spawnp file (pipeActions 0 r₀ w₀ ++ pipeActions 1 r₁ w₁) argv envp, some pid⟩,
      ⟨.close r₀ true, Closing.closed⟩, ⟨.close w₁ true, Closing.closed⟩]

def openObject (pid r₀ w₀ r₁ w₁ : ℕ) : SpawnT :=
  let piped : SpawnT := (SpawnT.withPipe {} 0 r₀ w₀).withPipe 1 r₁ w₁
  (({ piped with pid := pid } : SpawnT).setFd 0 0 0).setFd 1 1 0

/-- The pipes got their descriptors as the kernel may give them. -/
def PipesMay (may : List Event → (c : Sys) → c.Answer → Prop) (r₀ w₀ r₁ w₁ : ℕ) : Prop :=
  may [⟨.fileActionsInit, true⟩] .pipe (some (r₀, w₀)) ∧
    may ([⟨.fileActionsInit, true⟩] ++ pipeEvents 0 r₀ w₀) .pipe (some (r₁, w₁))

/-- With these actions `posix_spawnp` is called. -/
def AtSpawnp (may : List Event → (c : Sys) → c.Answer → Prop) (h : List Event) : Sys → Prop
  | .spawnp _ actions _ _ => ∃ r₀ w₀ r₁ w₁, PipesMay may r₀ w₀ r₁ w₁ ∧ h = setup r₀ w₀ r₁ w₁ ∧
      actions = pipeActions 0 r₀ w₀ ++ pipeActions 1 r₁ w₁
  | _ => True

/-- With this object and history `spawn_open` returns. -/
def Opened (may : List Event → (c : Sys) → c.Answer → Prop) (s : SpawnT) (h : List Event) : Prop :=
  ∃ file argv envp pid r₀ w₀ r₁ w₁, PipesMay may r₀ w₀ r₁ w₁ ∧
    h = openHistory file argv envp pid r₀ w₀ r₁ w₁ ∧ s = openObject pid r₀ w₀ r₁ w₁

/-! ### The steps of `spawn_open` -/

/-- The call to `posix_spawnp` is as it should be, and so is the result if no error is
raised. -/
abbrev Opens {α : Type} (may : List Event → (c : Sys) → c.Answer → Prop) (x : SpawnM α)
    (P : α → SpawnT → List Event → Prop) (s : SpawnT) (h : List Event) : Prop :=
  Proc.wp (historyKernel may) (AtSpawnp may) True x (fun r s h => ∀ a, r = .ok a → P a s h) s h

section
variable {may : List Event → (c : Sys) → c.Answer → Prop} {s : SpawnT} {h : List Event}
  {α β : Type} {i j : Fin 2}

theorem opens_bind {x : SpawnM α} {f : α → SpawnM β} {P : β → SpawnT → List Event → Prop}
    (hx : Opens may x (fun a => Opens may (f a) P) s h) : Opens may (x >>= f) P s h := by
  rw [Opens, Proc.wp_bind]
  refine Proc.wp_mono hx ?_
  rintro (e | a) s h hr
  · exact fun a ha => by simp at ha
  · exact hr a rfl

theorem opens_sys {c : Sys} {P : c.Answer → SpawnT → List Event → Prop} (hok : AtSpawnp may h c)
    (hP : ∀ a : c.Answer, may h c a → P a s (h ++ [⟨c, a⟩])) : Opens may (sys c) P s h := by
  refine Proc.wp_ask.mpr ⟨hok, fun a ha a' ha' => ?_⟩
  obtain rfl := Except.ok.inj ha'
  exact hP a ha

theorem destroyLoop_opens (l : List (Fin 2 × Fin 2)) :
    Opens may (destroyLoop l) (fun _ _ _ => True) s h := by
  induction l generalizing s h with
  | nil => exact fun _ _ => trivial
  | cons ij l ih =>
    rw [destroyLoop, Opens, Proc.wp_get_bind]
    split_ifs
    · apply opens_bind
      apply opens_sys (by exact trivial)
      intro answer _
      exact ih
    · exact ih

theorem orDestroy_opens {P : Unit → SpawnT → List Event → Prop} {ok : Bool}
    (hP : ok = true → P () s h) : Opens may (orDestroy ok) P s h := by
  rw [orDestroy]
  split_ifs with hok
  · exact fun _ _ => hP hok
  · apply opens_bind
    refine Proc.wp_mono (destroyLoop_opens _) ?_
    exact fun r s h _ a _ a' ha' => by simp at ha'

theorem addAction_opens {P : Unit → SpawnT → List Event → Prop} {action : FileAction}
    (hP : P () { s with fileActions := s.fileActions ++ [action] }
      (h ++ [⟨.addAction action, true⟩])) : Opens may (addAction action) P s h := by
  apply opens_bind
  apply opens_sys (by exact trivial)
  intro ok _
  apply opens_bind
  apply orDestroy_opens
  rintro rfl _ _
  exact hP

theorem openPipe_opens {P : Unit → SpawnT → List Event → Prop}
    (hP : ∀ r w, may h .pipe (some (r, w)) → P () (s.withPipe i r w) (h ++ pipeEvents i r w)) :
    Opens may (openPipe i) P s h := by
  apply opens_bind
  apply opens_sys (by exact trivial)
  rintro (_ | ⟨r, w⟩) hmay
  · exact orDestroy_opens (by simp)
  · dsimp only
    rw [Opens, Proc.wp_modify_bind, Proc.wp_get_bind]
    apply opens_bind
    apply addAction_opens
    apply opens_bind
    apply addAction_opens
    apply addAction_opens
    have hP' := hP r w hmay
    rcases (show i = 0 ∨ i = 1 by omega) with rfl | rfl
    · simpa [SpawnT.withPipe, pipeActions, pipeEvents, childEnd, parentEnd] using hP'
    · simpa [SpawnT.withPipe, pipeActions, pipeEvents, childEnd, parentEnd] using hP'

theorem closeFd_opens {P : Unit → SpawnT → List Event → Prop}
    (hP : P () (s.setFd i j 0) (h ++ [⟨.close (s.fd i j) true, Closing.closed⟩])) :
    Opens may (closeFd i j (orDestroy false)) P s h := by
  rw [closeFd, Opens, Proc.wp_get_bind]
  apply opens_bind
  apply opens_sys (by exact trivial)
  intro answer _
  cases answer with
  | closed => exact fun _ _ => hP
  | failed released => exact orDestroy_opens (by simp)

end

/-- What `spawn_open` has done at `posix_spawnp` and at its return. -/
theorem openChild_opens (may : List Event → (c : Sys) → c.Answer → Prop) (file : String)
    (argv : List (Option String)) (envp : Option (List (Option String))) :
    Opens may (openChild file argv envp) (fun _ s h => Opened may s h) {} [] := by
  rw [openChild]
  apply opens_bind
  apply opens_sys (by exact trivial)
  intro ok _
  apply opens_bind
  apply orDestroy_opens
  rintro rfl
  apply opens_bind
  apply openPipe_opens
  intro r₀ w₀ hmay₀
  apply opens_bind
  apply openPipe_opens
  intro r₁ w₁ hmay₁
  apply opens_bind
  apply opens_sys (by exact trivial)
  intro ok _
  apply opens_bind
  apply orDestroy_opens
  rintro rfl
  rw [Opens, Proc.wp_get_bind]
  apply opens_bind
  apply opens_sys
  · exact ⟨r₀, w₀, r₁, w₁, ⟨hmay₀, hmay₁⟩, rfl, rfl⟩
  rintro (_ | pid) _
  · exact orDestroy_opens (by simp)
  dsimp only
  rw [Opens, Proc.wp_modify_bind]
  apply opens_bind
  apply closeFd_opens
  apply closeFd_opens
  exact ⟨file, argv, envp, pid, r₀, w₀, r₁, w₁, ⟨hmay₀, hmay₁⟩, rfl, rfl⟩

theorem spawnOpen_opens (may : List Event → (c : Sys) → c.Answer → Prop) (options : Option Options) :
    Opens may (spawnOpen options) (fun _ s h => Opened may s h) {} [] := by
  have hthrow : ∀ e, Opens may (throw e) (fun (_ : Unit) s h => Opened may s h) {} [] := by
    intro e a ha
    simp at ha
  fun_cases spawnOpen options with
  | case1 => exact hthrow _
  | case2 => exact openChild_opens may _ _ _
  | case3 => exact openChild_opens may _ _ _
  | case4 => exact hthrow _
  | case5 => exact hthrow _

theorem opened_of_returns {may : List Event → (c : Sys) → c.Answer → Prop}
    {options : Option Options} {s : SpawnT} {h es : List Event}
    (hmakes : Makes (historyKernel may) ((spawnOpen options).run.run {}) [] es
      (.done (.ok (), s)) h) : Opened may s h :=
  hmakes.returns (spawnOpen_opens may options) () rfl

/-! ### Openings happen -/

section
variable {may : List Event → (c : Sys) → c.Answer → Prop} {r₀ w₀ r₁ w₁ : ℕ}
  (hfree : ∀ h c (a : c.Answer), c ≠ .pipe → may h c a) (hpipes : PipesMay may r₀ w₀ r₁ w₁)
  (file : String) (argv : List (Option String)) (envp : Option (List (Option String)))

include hfree hpipes

/-- Where only pipes are restricted and the rest succeeds, the opening returns. -/
theorem openChild_makes (pid : ℕ) :
    Makes (historyKernel may) ((openChild file argv envp).run.run {}) []
    (openHistory file argv envp pid r₀ w₀ r₁ w₁) (.done (.ok (), openObject pid r₀ w₀ r₁ w₁))
    (openHistory file argv envp pid r₀ w₀ r₁ w₁) := by
  refine .call (hfree _ _ _ (by simp)) (.call hpipes.1 ?_)
  refine .call (hfree _ _ _ (by simp)) (.call (hfree _ _ _ (by simp)) ?_)
  refine .call (hfree _ _ _ (by simp)) (.call hpipes.2 ?_)
  refine .call (hfree _ _ _ (by simp)) (.call (hfree _ _ _ (by simp)) ?_)
  refine .call (hfree _ _ _ (by simp)) (.call (hfree _ _ _ (by simp)) ?_)
  refine .call (hfree _ _ _ (by simp)) (.call (hfree _ _ _ (by simp)) ?_)
  exact .call (hfree _ _ _ (by simp)) .nil

theorem openChild_reaches :
    ∃ next, Makes (historyKernel may) ((openChild file argv envp).run.run {}) []
    (setup r₀ w₀ r₁ w₁) (.call (.spawnp file (pipeActions 0 r₀ w₀ ++ pipeActions 1 r₁ w₁) argv envp) next)
    (setup r₀ w₀ r₁ w₁) := by
  obtain ⟨next, h, hmakes⟩ := (openChild_makes hfree hpipes file argv envp 0).at_call
  obtain rfl := makes_history hmakes
  exact ⟨next, hmakes⟩

end

end TorchIpc.Spawn
