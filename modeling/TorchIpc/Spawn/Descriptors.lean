import TorchIpc.Spawn.Opening
import Mathlib.Data.List.Nodup

/-! Which descriptors a spawn object closes, reads and writes. The world is the history
of the system calls made for it. In a history that the object keeps, the descriptors
obtained and not closed since are exactly the nonzero ones that it stores; every method
keeps this while it takes its descriptor from a field that is not 0. -/

namespace TorchIpc.Spawn

open Calls

/-! ### Histories -/

def Event.obtained : Event → List ℕ
  | ⟨.pipe, some (r, w)⟩ => [r, w]
  | _ => []

def Event.closed : Event → List ℕ
  | ⟨.close fd _, answer⟩ => if Closing.releases answer then [fd] else []
  | _ => []

def obtained (h : List Event) : List ℕ := h.flatMap Event.obtained

def closed (h : List Event) : List ℕ := h.flatMap Event.closed

/-- The descriptor that is closed, read or written. -/
def Sys.target : Sys → Option ℕ
  | close fd _ => some fd
  | read fd .. => some fd
  | write fd _ => some fd
  | _ => none

/-- Obtained, and not closed since. -/
def Held (h : List Event) (d : ℕ) : Prop := d ∈ obtained h ∧ d ∉ closed h

/-- Every `close`, `read` and `write` is on a descriptor that is held at that time. -/
def Own (h : List Event) : Prop :=
  ∀ before e after, h = before ++ e :: after → ∀ d, Sys.target e.1 = some d → Held before d

/-- A pipe gets two descriptors that are not held; anything may fail. -/
def Grants (h : List Event) (c : Sys) (a : c.Answer) : Prop :=
  (Event.obtained ⟨c, a⟩).Nodup ∧ ∀ d ∈ Event.obtained ⟨c, a⟩, ¬ Held h d

abbrev kernel : Kernel (List Event) Sys Sys.Answer := historyKernel Grants

/-- The call that may come after a history. -/
def InOrder (h : List Event) (c : Sys) : Prop := ∀ d, c.target = some d → Held h d

@[simp] theorem obtained_snoc (h : List Event) (e : Event) :
    obtained (h ++ [e]) = obtained h ++ e.obtained := by
  simp [obtained]

@[simp] theorem closed_snoc (h : List Event) (e : Event) :
    closed (h ++ [e]) = closed h ++ e.closed := by
  simp [closed]

theorem own_nil : Own [] := by
  intro before e after h
  simp at h

theorem Own.snoc {h : List Event} {e : Event} (hown : Own h) (hok : InOrder h e.1) :
    Own (h ++ [e]) :=
  forall_split_snoc hown hok

/-! ### What the object keeps -/

/-- The object stores what is held, each descriptor once, and 0 for what it has closed. -/
structure Keeps (h : List Event) (s : SpawnT) : Prop where
  closed_nodup : (closed h).Nodup
  held_iff : ∀ d, Held h d ↔ ∃ i j, s.fd i j = d ∧ d ≠ 0
  fd_inj : ∀ i j i' j', s.fd i j ≠ 0 → s.fd i j = s.fd i' j' → i' = i ∧ j' = j

namespace Keeps

variable {h : List Event} {s : SpawnT} {i j : Fin 2}

theorem held (hk : Keeps h s) (hne : s.fd i j ≠ 0) : Held h (s.fd i j) :=
  (hk.held_iff _).mpr ⟨i, j, rfl, hne⟩

theorem snoc (hk : Keeps h s) {e : Event} (hobtained : e.obtained = []) (hclosed : e.closed = []) :
    Keeps (h ++ [e]) s := by
  have hheld : ∀ d, Held (h ++ [e]) d ↔ Held h d := by simp [Held, hobtained, hclosed]
  exact ⟨by simpa [hclosed] using hk.closed_nodup, fun d => (hheld d).trans (hk.held_iff d), hk.fd_inj⟩

/-- A stored descriptor is closed and 0 stored for it. -/
theorem close (hk : Keeps h s) (hne : s.fd i j ≠ 0) {checked : Bool} {answer : Closing}
    (hreleases : answer.releases = true) :
    Keeps (h ++ [⟨.close (s.fd i j) checked, answer⟩]) (s.setFd i j 0) := by
  have hobtained : Event.obtained ⟨.close (s.fd i j) checked, answer⟩ = [] := rfl
  have hclosed : Event.closed ⟨.close (s.fd i j) checked, answer⟩ = [s.fd i j] := if_pos hreleases
  constructor
  · rw [closed_snoc, hclosed, List.nodup_append]
    refine ⟨hk.closed_nodup, List.nodup_singleton _, ?_⟩
    rintro d hd d' hd' rfl
    exact (hk.held hne).2 (List.mem_singleton.mp hd' ▸ hd)
  · intro d
    have hheld : Held (h ++ [⟨.close (s.fd i j) checked, answer⟩]) d ↔ Held h d ∧ d ≠ s.fd i j := by
      simp only [Held, obtained_snoc, closed_snoc, hobtained, hclosed, List.append_nil,
        List.mem_append, List.mem_singleton, not_or, and_assoc]
    rw [hheld, hk.held_iff]
    constructor
    · rintro ⟨⟨i', j', rfl, hd⟩, hd'⟩
      refine ⟨i', j', ?_, hd⟩
      rw [SpawnT.setFd_fd, if_neg]
      rintro ⟨rfl, rfl⟩
      exact hd' rfl
    · rintro ⟨i', j', heq, hd⟩
      rw [SpawnT.setFd_fd] at heq
      split_ifs at heq with hij
      · exact absurd heq.symm hd
      · subst heq
        exact ⟨⟨i', j', rfl, hd⟩, fun hsame => hij (hk.fd_inj i j i' j' hne hsame.symm)⟩
  · intro i₁ j₁ i₂ j₂ hne₁ heq
    simp only [SpawnT.setFd_fd] at hne₁ heq
    split_ifs at hne₁ heq with h₁ h₂
    · exact absurd rfl hne₁
    · exact absurd rfl hne₁
    · exact absurd heq hne₁
    · exact hk.fd_inj i₁ j₁ i₂ j₂ hne₁ heq

/-- With nothing stored, everything has been closed exactly once. -/
theorem closed_once (hk : Keeps h s) (hzero : ∀ i j, s.fd i j = 0) :
    ∀ d ∈ obtained h, (closed h).count d = 1 := by
  intro d hd
  have hmem : d ∈ closed h := by
    by_contra hopen
    obtain ⟨i, j, rfl, hne⟩ := (hk.held_iff d).mp ⟨hd, hopen⟩
    exact hne (hzero i j)
  exact List.count_eq_one_of_mem hk.closed_nodup hmem

end Keeps

/-! ### Every method -/

/-- A `close` with a check of its result fails only if it has not released the
descriptor, and one without only if it has. -/
def CloseFit : (c : Sys) → c.Answer → Prop
  | .close _ checked, answer => ∀ released, answer = Closing.failed released → released = !checked
  | _, _ => True

theorem releases_of_fit {fd : ℕ} {answer : Closing} (hfit : CloseFit (.close fd false) answer) :
    answer.releases = true := by
  cases answer with
  | closed => rfl
  | failed released => exact hfit released rfl

/-- All the calls are in order, for a kernel whose `close` is fit. -/
abbrev Safe {α : Type} (x : SpawnM α) (Q : Except SpawnError α → SpawnT → List Event → Prop)
    (s : SpawnT) (h : List Event) : Prop :=
  Proc.wp (kernel.restrict CloseFit) InOrder True x Q s h

section
variable {h : List Event} {s : SpawnT} {i j : Fin 2} {fd : ℕ}

theorem safe_sys {c : Sys} {Q : Except SpawnError c.Answer → SpawnT → List Event → Prop}
    (hok : InOrder h c) (hQ : ∀ a : c.Answer, CloseFit c a → Q (.ok a) s (h ++ [⟨c, a⟩])) :
    Safe (sys c) Q s h :=
  Proc.wp_ask.mpr ⟨hok, fun a ha => hQ a ha.2⟩

theorem inOrder_of_held {c : Sys} (hheld : Held h fd) (hc : c.target = some fd) : InOrder h c := by
  intro d hd
  obtain rfl := Option.some.inj (hc.symm.trans hd)
  exact hheld

/-- A call that has no target, obtains nothing and closes nothing. -/
theorem safe_neutral {c : Sys} {Q : Except SpawnError c.Answer → SpawnT → List Event → Prop}
    (hk : Keeps h s) (htarget : c.target = none) (hobtained : ∀ a, Event.obtained ⟨c, a⟩ = [])
    (hclosed : ∀ a, Event.closed ⟨c, a⟩ = [])
    (hQ : ∀ (a : c.Answer) h', Keeps h' s → Q (.ok a) s h') : Safe (sys c) Q s h := by
  apply safe_sys
  · intro d hd
    rw [htarget] at hd
    simp at hd
  · intro a _
    exact hQ a _ (hk.snoc (hobtained a) (hclosed a))

theorem safe_transfer {c : Sys} {Q : Except SpawnError c.Answer → SpawnT → List Event → Prop}
    (hk : Keeps h s) (hne : s.fd i j ≠ 0) (htarget : c.target = some (s.fd i j))
    (hobtained : ∀ a, Event.obtained ⟨c, a⟩ = []) (hclosed : ∀ a, Event.closed ⟨c, a⟩ = [])
    (hQ : ∀ (a : c.Answer) h', Keeps h' s → Q (.ok a) s h') : Safe (sys c) Q s h := by
  apply safe_sys (inOrder_of_held (hk.held hne) htarget)
  intro a _
  exact hQ a _ (hk.snoc (hobtained a) (hclosed a))

/-- The object is as it was and still keeps the history. -/
def Unchanged {α : Type} (s : SpawnT) (_ : Except SpawnError α) (s' : SpawnT) (h : List Event) :
    Prop :=
  s' = s ∧ Keeps h s

theorem closeFd_safe (hk : Keeps h s) (hne : s.fd i j ≠ 0) :
    Safe (closeFd i j (throw .errno))
      (fun _ s' h' => Keeps h' s' ∧ ∀ i' j', ¬ (i' = i ∧ j' = j) → s'.fd i' j' = s.fd i' j') s h := by
  rw [closeFd, Safe, Proc.wp_get_bind, Proc.wp_bind]
  apply safe_sys (inOrder_of_held (hk.held hne) rfl)
  intro answer hfit
  cases answer with
  | closed => exact ⟨hk.close hne rfl, fun i' j' hij => by rw [SpawnT.setFd_fd, if_neg hij]⟩
  | failed released =>
    obtain rfl := hfit released rfl
    exact ⟨hk.snoc rfl rfl, fun _ _ _ => rfl⟩

theorem destroyLoop_safe (l : List (Fin 2 × Fin 2)) (hk : Keeps h s) :
    Safe (destroyLoop l) (fun r s' h' => r = .ok () ∧ Keeps h' s' ∧
      ∀ i j, s'.fd i j ≠ 0 → s'.fd i j = s.fd i j ∧ (i, j) ∉ l) s h := by
  induction l generalizing s h with
  | nil => exact ⟨rfl, hk, fun i j _ => ⟨rfl, List.not_mem_nil⟩⟩
  | cons ij l ih =>
    obtain ⟨i, j⟩ := ij
    rw [destroyLoop, Safe, Proc.wp_get_bind]
    split_ifs with hne
    · rw [Proc.wp_bind]
      apply safe_sys (inOrder_of_held (hk.held hne) rfl)
      intro answer hfit
      rw [Proc.wp_set_bind]
      refine Proc.wp_mono (ih (hk.close hne (releases_of_fit hfit))) ?_
      rintro r s' h' ⟨hr, hk', hrest⟩
      refine ⟨hr, hk', fun i' j' hne' => ?_⟩
      obtain ⟨heq, hmem⟩ := hrest i' j' hne'
      rw [SpawnT.setFd_fd] at heq
      split_ifs at heq with hij
      · exact absurd heq hne'
      · exact ⟨heq, by simp [hij, hmem]⟩
    · refine Proc.wp_mono (ih hk) ?_
      rintro r s' h' ⟨hr, hk', hrest⟩
      refine ⟨hr, hk', fun i' j' hne' => ?_⟩
      obtain ⟨heq, hmem⟩ := hrest i' j' hne'
      refine ⟨heq, ?_⟩
      rw [List.mem_cons, not_or]
      refine ⟨?_, hmem⟩
      rintro ⟨rfl, rfl⟩
      exact hne' (heq.trans (not_not.mp hne))

theorem spawnDestroy_safe (hk : Keeps h s) :
    Safe spawnDestroy (fun r s' h' => r = .ok () ∧ Keeps h' s' ∧ ∀ i j, s'.fd i j = 0) s h := by
  refine Proc.wp_mono (destroyLoop_safe _ hk) ?_
  rintro r s' h' ⟨hr, hk', hrest⟩
  refine ⟨hr, hk', fun i j => ?_⟩
  by_contra hne
  obtain ⟨-, hmem⟩ := hrest i j hne
  have hall : ∀ i j : Fin 2, (i, j) ∈ [((0 : Fin 2), (0 : Fin 2)), (0, 1), (1, 0), (1, 1)] := by
    decide
  exact hmem (hall i j)

/-! The loops leave the object alone. -/

theorem drainLoop_safe (fuel : ℕ) (hk : Keeps h s) (hne : s.fd i j ≠ 0) :
    Safe (drainLoop (s.fd i j) fuel) (Unchanged s) s h := by
  induction fuel generalizing h with
  | zero => exact trivial
  | succ fuel ih =>
    rw [drainLoop, Safe, Proc.wp_bind]
    apply safe_transfer hk hne rfl (fun _ => rfl) (fun _ => rfl)
    intro answer h' hk'
    rcases answer with _ | _ | ⟨b, bs⟩
    · exact ⟨rfl, hk'⟩
    · exact ⟨rfl, hk'⟩
    · exact ih hk'

theorem waitLoop_safe (pid fuel : ℕ) (hk : Keeps h s) :
    Safe (waitLoop pid fuel) (Unchanged s) s h := by
  induction fuel generalizing h with
  | zero => exact trivial
  | succ fuel ih =>
    rw [waitLoop, Safe, Proc.wp_bind]
    apply safe_neutral hk rfl (fun _ => rfl) (fun _ => rfl)
    intro answer h' hk'
    rcases answer with _ | _ | _ | _ | _
    · exact ⟨rfl, hk'⟩
    · exact ⟨rfl, hk'⟩
    · exact ⟨rfl, hk'⟩
    · exact ih hk'
    · exact ih hk'

theorem writeLoop_safe (str : List UInt8) (fuel cb : ℕ) (hk : Keeps h s)
    (hne : cb < str.length → s.fd i j ≠ 0) :
    Safe (writeLoop (s.fd i j) str fuel cb) (Unchanged s) s h := by
  induction fuel generalizing h cb with
  | zero => exact trivial
  | succ fuel ih =>
    rw [writeLoop]
    split_ifs with hcb
    · rw [Safe, Proc.wp_bind]
      apply safe_transfer hk (hne hcb) rfl (fun _ => rfl) (fun _ => rfl)
      intro answer h' hk'
      rcases answer with _ | x
      · exact ⟨rfl, hk'⟩
      · exact ih (cb + x) hk' fun _ => hne hcb
    · exact ⟨rfl, hk⟩

theorem readSome_safe (n : ByteCount) (hk : Keeps h s) (hne : s.fd i j ≠ 0) :
    Safe (readSome (s.fd i j) n) (Unchanged s) s h := by
  rw [readSome, Safe, Proc.wp_bind]
  apply safe_transfer hk hne rfl (fun _ => rfl) (fun _ => rfl)
  intro answer h' hk'
  rcases answer with _ | bs
  · exact ⟨rfl, hk'⟩
  · exact ⟨rfl, hk'⟩

theorem readLine_safe (fuel : ℕ) (buff : List UInt8) (maxCb : ℕ) (hk : Keeps h s)
    (hne : s.fd i j ≠ 0) : Safe (readLine (s.fd i j) fuel buff maxCb) (Unchanged s) s h := by
  induction fuel generalizing h buff maxCb with
  | zero => exact trivial
  | succ fuel ih =>
    rw [readLine, Safe, Proc.wp_bind]
    apply safe_transfer hk hne rfl (fun _ => rfl) (fun _ => rfl)
    intro answer h' hk'
    rcases answer with _ | _ | ⟨b, bs⟩
    · exact ⟨rfl, hk'⟩
    · exact ⟨rfl, hk'⟩
    · dsimp only
      split_ifs with hb
      · exact ⟨rfl, hk'⟩
      · exact ih _ _ hk'

theorem readAll_safe (fuel : ℕ) (buff : List UInt8) (maxCb : ℕ) (hk : Keeps h s)
    (hne : s.fd i j ≠ 0) : Safe (readAll (s.fd i j) fuel buff maxCb) (Unchanged s) s h := by
  induction fuel generalizing h buff maxCb with
  | zero => exact trivial
  | succ fuel ih =>
    rw [readAll, Safe, Proc.wp_bind]
    apply safe_transfer hk hne rfl (fun _ => rfl) (fun _ => rfl)
    intro answer h' hk'
    rcases answer with _ | _ | ⟨b, bs⟩
    · exact ⟨rfl, hk'⟩
    · exact ⟨rfl, hk'⟩
    · exact ih _ _ hk'

/-! The methods. -/

theorem spawnStdin_safe (str : Option (List UInt8)) (fuel : ℕ) (hk : Keeps h s)
    (hne : str ≠ some [] → s.fd 0 1 ≠ 0) :
    Safe (spawnStdin str fuel) (fun _ s' h' => Keeps h' s') s h := by
  cases str with
  | none =>
    rw [spawnStdin, Safe, Proc.wp_bind]
    refine Proc.wp_mono (closeFd_safe hk (hne (by simp))) ?_
    rintro (_ | _) s' h' ⟨hk', -⟩
    · exact hk'
    · exact hk'
  | some str =>
    rw [spawnStdin, Safe, Proc.wp_get_bind, Proc.wp_bind]
    have hne' : 0 < str.length → s.fd 0 1 ≠ 0 := fun hlen => hne (by rintro ⟨⟩; simp at hlen)
    refine Proc.wp_mono (writeLoop_safe str fuel 0 hk hne') ?_
    rintro (_ | _) s' h' ⟨rfl, hk'⟩
    · exact hk'
    · exact hk'

theorem spawnStdout_safe (arg : StdoutArg) (fuel : ℕ) (hk : Keeps h s)
    (hne : arg ≠ .other → s.fd 1 0 ≠ 0) :
    Safe (spawnStdout arg fuel) (fun _ s' h' => Keeps h' s') s h := by
  have hweak : ∀ (r : Except SpawnError Result) s' h', Unchanged s r s' h' → Keeps h' s' := by
    rintro r s' h' ⟨rfl, hk'⟩
    exact hk'
  rw [spawnStdout, Safe, Proc.wp_get_bind]
  cases arg with
  | none => exact Proc.wp_mono (readLine_safe fuel [] 1024 hk (hne (by simp))) hweak
  | number n => exact Proc.wp_mono (readSome_safe n hk (hne (by simp))) hweak
  | string str =>
    dsimp only
    split_ifs
    · exact Proc.wp_mono (readLine_safe fuel [] 1024 hk (hne (by simp))) hweak
    · exact Proc.wp_mono (readAll_safe fuel [] 1024 hk (hne (by simp))) hweak
  | other => exact hk

theorem checkRet_safe (ok : Bool) (hk : Keeps h s) : Safe (checkRet ok) (Unchanged s) s h := by
  cases ok
  · exact ⟨rfl, hk⟩
  · exact ⟨rfl, hk⟩

theorem killChild_safe (which : Signal) (hk : Keeps h s) :
    Safe (killChild which) (Unchanged s) s h := by
  rw [killChild, Safe, Proc.wp_get_bind, Proc.wp_bind]
  apply safe_neutral hk rfl (fun _ => rfl) (fun _ => rfl)
  intro answer h' hk'
  exact checkRet_safe answer hk'

theorem sendSignal_safe (signame : Option String) (hk : Keeps h s) :
    Safe (sendSignal signame) (Unchanged s) s h := by
  cases signame with
  | none => exact ⟨rfl, hk⟩
  | some name =>
    rw [sendSignal]
    split_ifs
    · exact killChild_safe _ hk
    · exact killChild_safe _ hk
    · exact ⟨rfl, hk⟩

theorem closeStdin_safe (hk : Keeps h s) :
    Safe closeStdin (fun _ s' h' => Keeps h' s' ∧ (s.fd 1 0 ≠ 0 → s'.fd 1 0 ≠ 0)) s h := by
  rw [closeStdin, Safe, Proc.wp_get_bind]
  split_ifs with hne
  · refine Proc.wp_mono (closeFd_safe hk hne) ?_
    rintro r s' h' ⟨hk', hrest⟩
    exact ⟨hk', fun hopen => by rwa [hrest 1 0 (by decide)]⟩
  · exact ⟨hk, id⟩

theorem leaveStdout_safe (signame : Option String) (fuel : ℕ) (hk : Keeps h s)
    (hne : s.fd 1 0 ≠ 0) :
    Safe (leaveStdout signame fuel) (fun _ s' h' => Keeps h' s') s h := by
  rw [leaveStdout, Safe, Proc.wp_get_bind]
  split_ifs
  · rw [Proc.wp_bind]
    apply safe_sys (inOrder_of_held (hk.held hne) rfl)
    intro answer hfit
    exact hk.close hne (releases_of_fit hfit)
  · refine Proc.wp_mono (drainLoop_safe fuel hk hne) ?_
    rintro r s' h' ⟨rfl, hk'⟩
    exact hk'

/-- A wait that returns has stored 0 for everything. -/
theorem spawnWait_safe (signame : Option String) (fuel : ℕ) (hk : Keeps h s)
    (hne : s.fd 1 0 ≠ 0) : Safe (spawnWait signame fuel)
      (fun r s' h' => Keeps h' s' ∧ (r.isOk = true → ∀ i j, s'.fd i j = 0)) s h := by
  have herror : ∀ (e : SpawnError) s' h', Keeps h' s' →
      Keeps h' s' ∧ ((Except.error e : Except SpawnError Result).isOk = true → ∀ i j, s'.fd i j = 0) :=
    fun e s' h' hk' => ⟨hk', fun hr => by simp [Except.isOk, Except.toBool] at hr⟩
  rw [spawnWait, Safe, Proc.wp_bind]
  refine Proc.wp_mono (sendSignal_safe signame hk) ?_
  rintro (e | _) s₁ h₁ ⟨rfl, hk₁⟩
  · exact herror e _ _ hk₁
  dsimp only
  rw [Proc.wp_bind]
  refine Proc.wp_mono (closeStdin_safe hk₁) ?_
  rintro (e | _) s₂ h₂ ⟨hk₂, hne₂⟩
  · exact herror e _ _ hk₂
  dsimp only
  rw [Proc.wp_bind]
  refine Proc.wp_mono (leaveStdout_safe signame fuel hk₂ (hne₂ hne)) ?_
  rintro (e | _) s₃ h₃ hk₃
  · exact herror e _ _ hk₃
  dsimp only
  rw [Proc.wp_get_bind, Proc.wp_bind]
  refine Proc.wp_mono (waitLoop_safe s₃.pid fuel hk₃) ?_
  rintro (e | status) s₄ h₄ ⟨rfl, hk₄⟩
  · exact herror e _ _ hk₄
  dsimp only
  rw [Proc.wp_bind]
  refine Proc.wp_mono (spawnDestroy_safe hk₄) ?_
  rintro r s₅ h₅ ⟨rfl, hk₅, hzero⟩
  exact ⟨hk₅, fun _ => hzero⟩

/-! With stdout closed a wait may still fail before it comes to it. -/

/-- The answers with which `spawn_wait` ends at `kill` or at the `close` of stdin. -/
def Stops (s : SpawnT) : (c : Sys) → c.Answer → Prop
  | .kill .., answer => s.fd 0 1 = 0 → answer = false
  | .close _ true, answer => answer ≠ Closing.closed
  | _, _ => True

/-- As `Safe`, for a kernel that makes a wait fail in time. -/
abbrev StoppedSafe {α : Type} (x : SpawnM α) (Q : Except SpawnError α → SpawnT → List Event → Prop)
    (s : SpawnT) (h : List Event) : Prop :=
  Proc.wp (kernel.restrict fun c a => CloseFit c a ∧ Stops s c a) InOrder True x Q s h

theorem killChild_stopped (which : Signal) (hk : Keeps h s) :
    StoppedSafe (killChild which)
      (fun r s' h' => Unchanged s r s' h' ∧ (r = .ok () → s.fd 0 1 ≠ 0)) s h := by
  rw [killChild, StoppedSafe, Proc.wp_get_bind, Proc.wp_bind, sys, Proc.wp_ask]
  refine ⟨fun d hd => by simp [Sys.target] at hd, fun answer hmay => ?_⟩
  obtain ⟨-, -, hstops⟩ := hmay
  have hk' := hk.snoc (e := ⟨.kill s.pid which, answer⟩) rfl rfl
  cases answer
  · exact ⟨⟨rfl, hk'⟩, fun hr => by simp at hr⟩
  · exact ⟨⟨rfl, hk'⟩, fun _ hzero => Bool.noConfusion (hstops hzero)⟩

theorem sendSignal_stopped (signame : Option String) (hk : Keeps h s)
    (hname : s.fd 0 1 = 0 → signame ≠ none) :
    StoppedSafe (sendSignal signame)
      (fun r s' h' => Unchanged s r s' h' ∧ (r = .ok () → s.fd 0 1 ≠ 0)) s h := by
  cases signame with
  | none => exact ⟨⟨rfl, hk⟩, fun _ hzero => hname hzero rfl⟩
  | some name =>
    rw [sendSignal]
    split_ifs
    · exact killChild_stopped _ hk
    · exact killChild_stopped _ hk
    · exact ⟨⟨rfl, hk⟩, fun hr => by simp at hr⟩

theorem closeStdin_stopped (hk : Keeps h s) (hne : s.fd 0 1 ≠ 0) :
    StoppedSafe closeStdin (fun r s' h' => Keeps h' s' ∧ ∃ e, r = .error e) s h := by
  rw [closeStdin, StoppedSafe, Proc.wp_get_bind, if_pos hne, closeFd, Proc.wp_get_bind,
    Proc.wp_bind, sys, Proc.wp_ask]
  refine ⟨inOrder_of_held (hk.held hne) rfl, fun answer hmay => ?_⟩
  obtain ⟨-, hfit, hstops⟩ := hmay
  cases answer with
  | closed => exact absurd rfl hstops
  | failed released =>
    obtain rfl := hfit released rfl
    exact ⟨hk.snoc rfl rfl, .errno, rfl⟩

theorem spawnWait_stopped (signame : Option String) (fuel : ℕ) (hk : Keeps h s)
    (hname : s.fd 0 1 = 0 → signame ≠ none) :
    StoppedSafe (spawnWait signame fuel) (fun r s' h' => Keeps h' s' ∧ ∃ e, r = .error e) s h := by
  rw [spawnWait, StoppedSafe, Proc.wp_bind]
  refine Proc.wp_mono (sendSignal_stopped signame hk hname) ?_
  rintro (e | _) s₁ h₁ ⟨⟨rfl, hk₁⟩, hne⟩
  · exact ⟨hk₁, e, rfl⟩
  dsimp only
  rw [Proc.wp_bind]
  refine Proc.wp_mono (closeStdin_stopped hk₁ (hne rfl)) ?_
  rintro r s₂ h₂ ⟨hk₂, e, rfl⟩
  exact ⟨hk₂, e, rfl⟩

theorem spawnGc_safe (fuel : ℕ) (hk : Keeps h s) (hne : s.fd 1 0 ≠ 0) : Safe (spawnGc fuel)
    (fun r s' h' => Keeps h' s' ∧ (r.isOk = true → ∀ i j, s'.fd i j = 0)) s h := by
  rw [spawnGc, Safe, Proc.wp_bind]
  refine Proc.wp_mono (killChild_safe .SIGTERM hk) ?_
  rintro (e | _) s₁ h₁ ⟨rfl, hk₁⟩
  · exact ⟨hk₁, fun hr => by simp [Except.isOk, Except.toBool] at hr⟩
  dsimp only
  rw [Proc.wp_bind]
  refine Proc.wp_mono (spawnWait_safe none fuel hk₁ hne) ?_
  rintro (e | status) s₂ h₂ ⟨hk₂, hzero⟩
  · exact ⟨hk₂, fun hr => by simp [Except.isOk, Except.toBool] at hr⟩
  · exact ⟨hk₂, fun _ => hzero rfl⟩

theorem spawnGc_stopped (fuel : ℕ) (hk : Keeps h s) :
    StoppedSafe (spawnGc fuel) (fun r s' h' => Keeps h' s' ∧ ∃ e, r = .error e) s h := by
  rw [spawnGc, StoppedSafe, Proc.wp_bind]
  refine Proc.wp_mono (killChild_stopped .SIGTERM hk) ?_
  rintro (e | _) s₁ h₁ ⟨⟨rfl, hk₁⟩, hne⟩
  · exact ⟨hk₁, e, rfl⟩
  dsimp only
  rw [Proc.wp_bind]
  refine Proc.wp_mono (spawnWait_stopped none fuel hk₁ fun hzero => absurd hzero (hne rfl)) ?_
  rintro r s₂ h₂ ⟨hk₂, e, rfl⟩
  exact ⟨hk₂, e, rfl⟩

end

end TorchIpc.Spawn
