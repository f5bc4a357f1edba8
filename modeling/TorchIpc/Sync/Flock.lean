import TorchIpc.Base.Calls
import TorchIpc.Base.Descriptions
import Mathlib.Data.List.GetD
import Mathlib.Data.List.Nodup

/-! `flock.c`: locks on files. A handle is a descriptor with the lock on its file, or 0 once it
has been closed. Proved here, for any number of processes and threads that open, close, fork and
end in any order: two open handles of one file are copies of one another that `fork` has made,
unless the lock of one of them has been given up through another copy. Without `fork` one handle
at most is open on a file, and no descriptor is left behind. -/

namespace TorchIpc.Flock

open Calls Runs Descriptions

/-! ### The program -/

inductive Errno where
  | ENOENT
  | EACCES
  | EWOULDBLOCK
  | other (n : ℕ)
  deriving Repr, DecidableEq

inductive Operation where
  | LOCK_EX (nonblocking : Bool)
  | LOCK_UN
  deriving Repr, DecidableEq

/-- The calls of `flock.c`, and their answers; `none` is success. -/
inductive Sys (F : Type) where
  | open (file : F) (create : Bool)
  | flock (fd : ℕ) (operation : Operation)
  | close (fd : ℕ)

abbrev Sys.Answer {F : Type} : Sys F → Type
  | .open .. => Except Errno ℕ
  | .flock .. => Option Errno
  | .close _ => Option Errno

section
variable {F : Type}

def sys (c : Sys F) : Prog (Sys F) Sys.Answer c.Answer := Prog.ask c

/-- `flock_open`: a handle, `nil` or an error. -/
def flockOpen (fileName : F) (noBlock : Bool) : Prog (Sys F) Sys.Answer (Except Errno (Option ℕ)) :=
  do
  match ← sys (.open fileName !noBlock) with
  | .error e => return if e = .ENOENT ∨ e = .EACCES then .ok none else .error e
  | .ok fd =>
    match ← sys (.flock fd (.LOCK_EX noBlock)) with
    | none => return .ok (some fd)
    | some e =>
      let c ← sys (.close fd)
      -- `errno` is read after the `close`, which sets it if it fails
      let e := c.getD e
      return if noBlock = true ∧ e = .EWOULDBLOCK then .ok none else .error e

/-- `flock_close`, with the new value of the handle. -/
def flockClose (handle : ℕ) : Prog (Sys F) Sys.Answer (Except Errno Unit × ℕ) := do
  if handle ≠ 0 then
    let r ← sys (.flock handle .LOCK_UN)
    let c ← sys (.close handle)
    match r with
    | none => return (.ok (), 0)
    | some e => return (.error (c.getD e), 0)
  else
    return (.ok (), handle)

/-- What a thread asks for; it names a handle by its place among those it has been given. -/
inductive Request (F : Type) where
  | flock (fileName : F) (noBlock : Bool)
  | close (handle : ℕ)

inductive Reply where
  | flock (result : Except Errno (Option ℕ))
  | close (handle : ℕ) (result : Except Errno Unit) (value : ℕ)

def Request.serve (handles : List ℕ) : Request F → Prog (Sys F) Sys.Answer Reply
  | .flock fileName noBlock => do return .flock (← flockOpen fileName noBlock)
  | .close handle => do
    let r ← flockClose (handles.getD handle 0)
    return .close handle r.1 r.2

def Reply.store (handles : List ℕ) : Reply → List ℕ
  | .flock (.ok (some fd)) => handles ++ [fd]
  | .flock _ => handles
  | .close handle _ value => handles.set handle value

end

/-! ### Processes and threads -/

section
variable {P T F : Type} [DecidableEq P] [DecidableEq T] [DecidableEq F]

/-- The answers of the kernel to a process, and what becomes of the open files. A blocking `flock`
has no answer while another description has the lock. -/
inductive Answers (w : World P F) (p : P) : (c : Sys F) → c.Answer → World P F → Prop where
  | opened {f create} (fd : ℕ) : w.fds p fd = none →
      Answers w p (.open f create) (.ok fd) (w.opened p fd f)
  | notOpened {f create e} : Answers w p (.open f create) (.error e) w
  | locked {fd nb d} : w.fds p fd = some d →
      (w.holder (w.file d) = none ∨ w.holder (w.file d) = some d) →
      Answers w p (.flock fd (.LOCK_EX nb)) none (w.locked d)
  | notLocked {fd nb e} :
      (e = .EWOULDBLOCK → nb = true ∧ ∃ d d', w.fds p fd = some d ∧ w.holder (w.file d) = some d' ∧ d' ≠ d) →
      Answers w p (.flock fd (.LOCK_EX nb)) (some e) w
  | unlocked {fd d} : w.fds p fd = some d → Answers w p (.flock fd .LOCK_UN) none (w.unlocked d)
  | notUnlocked {fd e} : Answers w p (.flock fd .LOCK_UN) (some e) w
  | closed {fd a w'} : w.Closes p fd w' → Answers w p (.close fd) a w'

/-- The threads: the process of each, its handles, and the rest of the call it is in. -/
structure System (P T F : Type) where
  world : World P F
  home : T → Option P
  handles : T → List ℕ
  doing : T → Option (Prog (Sys F) Sys.Answer Reply)

inductive Event where
  /-- The lock of the description `d` is given up. -/
  | unlocked (d : ℕ)
  | forked
  | other

def Event.of (w : World P F) (p : P) : (c : Sys F) → c.Answer → Event
  | .flock fd .LOCK_UN, none => ((w.fds p fd).map .unlocked).getD .other
  | _, _ => .other

/-- The thread `t` goes on with `prog`, up to its next system call. -/
def System.goOn (s : System P T F) (t : T) (w : World P F) (prog : Prog (Sys F) Sys.Answer Reply) :
    System P T F where
  world := w
  home := s.home
  handles := Function.update s.handles t (match prog with
    | .done r => r.store (s.handles t)
    | _ => s.handles t)
  doing := Function.update s.doing t (match prog with
    | .done _ => none
    | _ => some prog)

/-- A thread makes a request, or gets the answer to a system call; a process forks, with the one
thread that forks, or ends. -/
inductive Step : System P T F → Event → System P T F → Prop where
  | request {s t p} (r : Request F) : s.home t = some p → s.doing t = none →
      Step s .other (s.goOn t s.world (r.serve (s.handles t)))
  | call {s t p c next a w} : s.home t = some p → s.doing t = some (.call c next) →
      Answers s.world p c a w → Step s (Event.of s.world p c a) (s.goOn t w (next a))
  | fork {s t p t' p'} : s.home t = some p → s.doing t = none → s.home t' = none →
      (∀ u, s.home u ≠ some p') → (∀ fd, s.world.fds p' fd = none) →
      Step s .forked
        { world := s.world.forked p p'
          home := Function.update s.home t' (some p')
          handles := Function.update s.handles t' (s.handles t)
          doing := s.doing }
  | exit {s p w} : s.world.Exits p w →
      Step s .other
        { world := w
          home := fun t => if s.home t = some p then none else s.home t
          handles := fun t => if s.home t = some p then [] else s.handles t
          doing := fun t => if s.home t = some p then none else s.doing t }

def start (f : F) (home : T → Option P) : System P T F :=
  ⟨World.start f, home, fun _ => [], fun _ => none⟩

end

/-! ### What a call does -/

section
variable {F : Type}

/-- A descriptor that a thread has in hand during a call: one that it has opened, with whether
it has the lock by now, or a handle that it has unlocked and closes next. -/
inductive Hand where
  | free
  | opened (fd : ℕ) (locked : Bool)
  | closing (fd : ℕ)

/-- The rest of a call of a thread with these handles. -/
inductive Doing (handles : List ℕ) : Prog (Sys F) Sys.Answer Reply → Hand → Prop where
  | returning {r} : r.store handles = handles → Doing handles (.done r) .free
  | returningHandle {r fd} : r.store handles = handles ++ [fd] →
      Doing handles (.done r) (.opened fd true)
  | opening {f create next} : (∀ e, Doing handles (next (.error e)) .free) →
      (∀ fd, Doing handles (next (.ok fd)) (.opened fd false)) →
      Doing handles (.call (.open f create) next) .free
  | locking {fd nb next} : Doing handles (next none) (.opened fd true) →
      (∀ e, Doing handles (next (some e)) (.opened fd false)) →
      Doing handles (.call (.flock fd (.LOCK_EX nb)) next) (.opened fd false)
  | givingUp {fd next} : (∀ a, Doing handles (next a) .free) →
      Doing handles (.call (.close fd) next) (.opened fd false)
  | unlocking {i fd : ℕ} {next} : handles[i]? = some fd → fd ≠ 0 →
      (∀ a, Doing handles (next a) (.closing fd)) →
      Doing handles (.call (.flock fd .LOCK_UN) next) .free
  | closing {i fd : ℕ} {next} : handles[i]? = some fd → fd ≠ 0 →
      (∀ a, ∃ r, next a = .done r ∧ r.store handles = handles.set i 0) →
      Doing handles (.call (.close fd) next) (.closing fd)

theorem doing_serve (handles : List ℕ) (r : Request F) : Doing handles (r.serve handles) .free := by
  cases r with
  | flock fileName noBlock =>
    apply Doing.opening
    · intro e
      apply Doing.returning
      split_ifs <;> rfl
    · intro fd
      apply Doing.locking
      · exact Doing.returningHandle rfl
      · intro e
        apply Doing.givingUp
        intro c
        apply Doing.returning
        split_ifs <;> rfl
  | close handle =>
    have hserve : (Request.close handle : Request F).serve handles =
        flockClose (handles.getD handle 0) >>= fun r => .done (.close handle r.1 r.2) := rfl
    rw [hserve, flockClose]
    by_cases hfd : handles.getD handle 0 = 0
    · rw [if_neg (not_not.mpr hfd)]
      apply Doing.returning
      change handles.set handle (handles.getD handle 0) = handles
      by_cases hlt : handle < handles.length
      · rw [List.getD_eq_getElem _ _ hlt, List.set_getElem_self]
      · exact List.set_eq_of_length_le (not_lt.mp hlt)
    · rw [if_pos hfd]
      have hget : handles[handle]? = some (handles.getD handle 0) := by
        by_cases hlt : handle < handles.length
        · rw [List.getD_eq_getElem _ _ hlt, List.getElem?_eq_getElem hlt]
        · exact absurd (List.getD_eq_default _ _ (not_lt.mp hlt)) hfd
      apply Doing.unlocking hget hfd
      intro r
      apply Doing.closing hget hfd
      intro c
      cases r with
      | none => exact ⟨_, rfl, rfl⟩
      | some e => exact ⟨_, rfl, rfl⟩

/-! ### What every run keeps -/

def Hand.opening : Hand → List ℕ
  | .opened fd _ => [fd]
  | _ => []

/-- The descriptors that a thread has opened and not closed. -/
def owned (handles : List ℕ) (hand : Hand) : List ℕ := handles.filter (· ≠ 0) ++ hand.opening

/-- The descriptor is an open handle that is not being closed, or is about to be returned as one. -/
def Handled (handles : List ℕ) (hand : Hand) (fd : ℕ) : Prop :=
  fd ∈ handles ∧ fd ≠ 0 ∧ hand ≠ .closing fd ∨ hand = .opened fd true

theorem mem_owned {handles : List ℕ} {hand : Hand} {fd : ℕ} :
    fd ∈ owned handles hand ↔ fd ∈ handles ∧ fd ≠ 0 ∨ fd ∈ hand.opening := by
  simp [owned]

theorem Handled.owned {handles : List ℕ} {hand : Hand} {fd : ℕ} (h : Handled handles hand fd) :
    fd ∈ owned handles hand := by
  rw [mem_owned]
  rcases h with ⟨hmem, hne, -⟩ | rfl
  · exact .inl ⟨hmem, hne⟩
  · exact .inr List.mem_cons_self

variable {P T : Type}

/-- After the events `es`: every thread has descriptors of its own, and each of its handles has the
lock on its file. After a `fork` a lock may have been given up through a copy of the handle, and a
process has descriptors that none of its threads knows. -/
structure Holding (es : List Event) (s : System P T F) (hand : T → Hand) : Prop where
  doing : ∀ t prog, s.doing t = some prog → Doing (s.handles t) prog (hand t)
  idle : ∀ t, s.doing t = none → hand t = .free
  gone : ∀ t, s.home t = none → s.handles t = [] ∧ s.doing t = none
  opened : ∀ t p, s.home t = some p → ∀ fd ∈ owned (s.handles t) (hand t), ∃ d,
      s.world.fds p fd = some d
  nodup : ∀ t, (owned (s.handles t) (hand t)).Nodup
  apart : ∀ t t' p, t ≠ t' → s.home t = some p → s.home t' = some p →
    ∀ fd ∈ owned (s.handles t) (hand t), fd ∉ owned (s.handles t') (hand t')
  sound : s.world.Sound
  unshared : .forked ∈ es ∨ s.world.Unshared
  known : .forked ∈ es ∨ ∀ p fd d, s.world.fds p fd = some d → fd ≠ 0 →
    ∃ t, s.home t = some p ∧ fd ∈ owned (s.handles t) (hand t)
  locked : ∀ t p fd d, s.home t = some p → Handled (s.handles t) (hand t) fd →
      s.world.fds p fd = some d →
    s.world.Locks d ∨ .forked ∈ es ∧ .unlocked d ∈ es

theorem holding_start (f : F) (home : T → Option P) :
    Holding [] (start f home : System P T F) fun _ => .free where
  doing _ _ h := by simp [start] at h
  idle _ _ := rfl
  gone _ _ := ⟨rfl, rfl⟩
  opened t p _ fd hfd := by simp [start, owned, Hand.opening] at hfd
  nodup _ := by simp [start, owned, Hand.opening]
  apart t t' p _ _ _ fd hfd := by simp [start, owned, Hand.opening] at hfd
  sound := World.sound_start f
  unshared := .inr fun _ _ _ _ _ h => nomatch h
  known := .inr fun _ _ _ h => nomatch h
  locked t p fd d _ hfd := by simp [start, Handled] at hfd

variable {es : List Event} {s : System P T F} {hand : T → Hand} {t : T} {p : P}

/-- What one thread may do to the open files: it leaves the descriptors of the others alone, and
gives up no lock but its own. -/
structure Minds (h : Holding es s hand) (t : T) (p : P) (e : Event) (w : World P F) (handles : List ℕ)
    (o : Hand) : Prop where
  opened : ∀ fd ∈ owned handles o, ∃ d, w.fds p fd = some d
  nodup : (owned handles o).Nodup
  fresh : ∀ fd ∈ owned handles o, fd ∈ owned (s.handles t) (hand t) ∨ s.world.fds p fd = none
  others : ∀ p' fd d, s.world.fds p' fd = some d → (p' = p → fd ∉ owned (s.handles t) (hand t)) →
    w.fds p' fd = some d
  sound : w.Sound
  unshared : s.world.Unshared → w.Unshared
  known : ∀ p' fd d, w.fds p' fd = some d → fd ≠ 0 →
    p' = p ∧ fd ∈ owned handles o ∨ s.world.fds p' fd = some d ∧
      ¬(p' = p ∧ fd ∈ owned (s.handles t) (hand t))
  locks : ∀ d, w.Referenced d → s.world.Locks d → w.Locks d ∨
    e = .unlocked d ∧ ∃ fd ∈ owned (s.handles t) (hand t), s.world.fds p fd = some d
  locked : ∀ fd d, Handled handles o fd → w.fds p fd = some d →
    w.Locks d ∨ .forked ∈ es ∧ .unlocked d ∈ es ++ [e]

variable [DecidableEq T]

theorem Minds.step {h : Holding es s hand} {e : Event} {w : World P F} {handles : List ℕ} {o : Hand}
    (hm : Minds h t p e w handles o) (hp : s.home t = some p) {rest : Option (Prog (Sys F) Sys.Answer Reply)}
    (hidle : rest = none → o = .free) (hdoing : ∀ prog, rest = some prog → Doing handles prog o) :
    Holding (es ++ [e]) ⟨w, s.home, Function.update s.handles t handles, Function.update s.doing t rest⟩
      (Function.update hand t o) := by
  have hsame : ∀ u p', u ≠ t → s.home u = some p' → ∀ fd ∈ owned (s.handles u) (hand u), ∀ d,
      s.world.fds p' fd = some d → w.fds p' fd = some d := by
    intro u p' hu hhome fd hfd d hd
    apply hm.others p' fd d hd
    rintro rfl
    exact h.apart u t p' hu hhome hp fd hfd
  constructor
  · intro u prog hu
    by_cases hut : u = t
    · subst hut
      simpa using hdoing prog (by simpa using hu)
    · simp only [Function.update_of_ne hut] at hu ⊢
      exact h.doing u prog hu
  · intro u hu
    by_cases hut : u = t
    · subst hut
      simpa using hidle (by simpa using hu)
    · simp only [Function.update_of_ne hut] at hu ⊢
      exact h.idle u hu
  · intro u hu
    have hut : u ≠ t := by
      rintro rfl
      rw [hp] at hu
      cases hu
    simpa [hut] using h.gone u hu
  · intro u p' hu fd hfd
    by_cases hut : u = t
    · subst hut
      obtain rfl : p = p' := Option.some.inj (hp.symm.trans hu)
      exact hm.opened fd (by simpa using hfd)
    · simp only [Function.update_of_ne hut] at hfd
      obtain ⟨d, hd⟩ := h.opened u p' hu fd hfd
      exact ⟨d, hsame u p' hut hu fd hfd d hd⟩
  · intro u
    by_cases hut : u = t
    · subst hut
      simpa using hm.nodup
    · simpa [hut] using h.nodup u
  · have hnew : ∀ u, u ≠ t → s.home u = some p → ∀ fd ∈ owned handles o,
        fd ∉ owned (s.handles u) (hand u) := by
      intro u hut hu fd hfd hmem
      rcases hm.fresh fd hfd with hold | hnone
      · exact h.apart u t p hut hu hp fd hmem hold
      · obtain ⟨d, hd⟩ := h.opened u p hu fd hmem
        rw [hnone] at hd
        cases hd
    intro u u' p' hne hu hu' fd hfd hfd'
    by_cases hut : u = t
    · subst hut
      obtain rfl : p = p' := Option.some.inj (hp.symm.trans hu)
      simp only [Function.update_self, Function.update_of_ne hne.symm] at hfd hfd'
      exact hnew u' hne.symm hu' fd hfd hfd'
    · by_cases hut' : u' = t
      · subst hut'
        obtain rfl : p = p' := Option.some.inj (hp.symm.trans hu')
        simp only [Function.update_self, Function.update_of_ne hut] at hfd hfd'
        exact hnew u hut hu fd hfd' hfd
      · simp only [Function.update_of_ne hut, Function.update_of_ne hut'] at hfd hfd'
        exact h.apart u u' p' hne hu hu' fd hfd hfd'
  · exact hm.sound
  · exact h.unshared.imp (List.mem_append_left _) hm.unshared
  · refine h.known.imp (List.mem_append_left _) fun hknown p' fd d hd hne => ?_
    rcases hm.known p' fd d hd hne with ⟨rfl, hmem⟩ | ⟨hold, hnot⟩
    · exact ⟨t, hp, by simpa using hmem⟩
    · obtain ⟨u, hu, hmem⟩ := hknown p' fd d hold hne
      have hut : u ≠ t := by
        rintro rfl
        exact hnot ⟨Option.some.inj (hu.symm.trans hp), hmem⟩
      exact ⟨u, hu, by simpa [hut] using hmem⟩
  · intro u p' fd d hu hfd hd
    by_cases hut : u = t
    · subst hut
      obtain rfl : p = p' := Option.some.inj (hp.symm.trans hu)
      exact (hm.locked fd d (by simpa using hfd) hd).imp_right fun ⟨hf, hun⟩ =>
        ⟨List.mem_append_left _ hf, hun⟩
    · simp only [Function.update_of_ne hut] at hfd
      obtain ⟨d', hd'⟩ := h.opened u p' hu fd hfd.owned
      have hw := hsame u p' hut hu fd hfd.owned d' hd'
      obtain rfl : d = d' := Option.some.inj (hd.symm.trans hw)
      rcases h.locked u p' fd d hu hfd hd' with hlock | ⟨hf, hun⟩
      · rcases hm.locks d ⟨p', fd, hd⟩ hlock with hlock | ⟨rfl, fd', hown, hsome⟩
        · exact .inl hlock
        · -- the descriptor of another thread stands for the same description: there was a `fork`
          rcases h.unshared with hf | hun
          · exact .inr ⟨List.mem_append_left _ hf, by simp⟩
          · obtain ⟨rfl, rfl⟩ := hun p' p fd fd' d hd' hsome
            exact absurd hown (h.apart u t p' hut hu hp fd hfd.owned)
      · exact .inr ⟨List.mem_append_left _ hf, List.mem_append_left _ hun⟩

theorem Minds.goOn {h : Holding es s hand} {e : Event} {w : World P F} {o : Hand}
    (hm : Minds h t p e w (s.handles t) o) (hp : s.home t = some p) {prog : Prog (Sys F) Sys.Answer Reply}
    (hd : Doing (s.handles t) prog o) : ∃ hand', Holding (es ++ [e]) (s.goOn t w prog) hand' := by
  have hcall : ∀ prog, Doing (s.handles t) prog o →
      Holding (es ++ [e]) ⟨w, s.home, Function.update s.handles t (s.handles t),
        Function.update s.doing t (some prog)⟩ (Function.update hand t o) := by
    intro prog hd
    refine hm.step hp (fun hnone => by cases hnone) ?_
    intro prog' he
    rwa [← Option.some.inj he]
  cases hd with
  | returning hstore =>
    refine ⟨Function.update hand t .free, ?_⟩
    rw [System.goOn, hstore]
    exact hm.step hp (fun _ => rfl) nofun
  | @returningHandle r fd hstore =>
    refine ⟨Function.update hand t .free, ?_⟩
    rw [System.goOn, hstore]
    refine Minds.step (h := h) (o := .free) ?_ hp (fun _ => rfl) nofun
    have hsub : (owned (s.handles t ++ [fd]) .free).Sublist (owned (s.handles t) (.opened fd true)) := by
      simp only [owned, List.filter_append, Hand.opening, List.append_nil]
      exact List.Sublist.append_left List.filter_sublist _
    have hback : ∀ fd' ∈ owned (s.handles t) (.opened fd true), fd' ≠ 0 →
        fd' ∈ owned (s.handles t ++ [fd]) .free := by
      intro fd' hmem hne
      rw [mem_owned, List.mem_append]
      exact .inl ⟨(mem_owned.mp hmem).imp_left And.left, hne⟩
    have hh : ∀ fd', Handled (s.handles t ++ [fd]) .free fd' →
        Handled (s.handles t) (.opened fd true) fd' := by
      rintro fd' (⟨hmem, hne, -⟩ | hno)
      · rcases List.mem_append.mp hmem with hold | hnew
        · exact .inl ⟨hold, hne, nofun⟩
        · rw [List.mem_singleton.mp hnew]
          exact .inr rfl
      · cases hno
    constructor
    · exact fun fd hfd => hm.opened fd (hsub.subset hfd)
    · exact hm.nodup.sublist hsub
    · exact fun fd hfd => hm.fresh fd (hsub.subset hfd)
    · exact hm.others
    · exact hm.sound
    · exact hm.unshared
    · intro p' fd' d hd hne
      exact (hm.known p' fd' d hd hne).imp_left fun ⟨hpp, hmem⟩ => ⟨hpp, hback fd' hmem hne⟩
    · exact hm.locks
    · exact fun fd' d hfd => hm.locked fd' d (hh fd' hfd)
  | opening h1 h2 => exact ⟨_, hcall _ (.opening h1 h2)⟩
  | locking h1 h2 => exact ⟨_, hcall _ (.locking h1 h2)⟩
  | givingUp h1 => exact ⟨_, hcall _ (.givingUp h1)⟩
  | unlocking h1 h2 h3 => exact ⟨_, hcall _ (.unlocking h1 h2 h3)⟩
  | closing h1 h2 h3 => exact ⟨_, hcall _ (.closing h1 h2 h3)⟩

omit [DecidableEq T] in
theorem Holding.minds (h : Holding es s hand) (hp : s.home t = some p) (e : Event) {o : Hand}
    (ho : owned (s.handles t) o = owned (s.handles t) (hand t))
    (hh : ∀ fd, Handled (s.handles t) o fd → Handled (s.handles t) (hand t) fd) :
    Minds h t p e s.world (s.handles t) o where
  opened _ hfd := h.opened t p hp _ (ho ▸ hfd)
  nodup := ho ▸ h.nodup t
  fresh _ hfd := .inl (ho ▸ hfd)
  others _ _ _ hd _ := hd
  sound := h.sound
  unshared hun := hun
  known p' fd d hd _ := by
    rw [ho]
    by_cases hmem : p' = p ∧ fd ∈ owned (s.handles t) (hand t)
    · exact .inl hmem
    · exact .inr ⟨hd, hmem⟩
  locks _ _ hl := .inl hl
  locked fd d hfd hd :=
    (h.locked t p fd d hp (hh fd hfd) hd).imp_right fun ⟨hf, hun⟩ =>
      ⟨hf, List.mem_append_left _ hun⟩

theorem owned_opened (handles : List ℕ) (fd : ℕ) (b : Bool) :
    owned handles (.opened fd b) = owned handles .free ++ [fd] := by
  simp [owned, Hand.opening]

theorem owned_closing (handles : List ℕ) (fd : ℕ) :
    owned handles (.closing fd) = owned handles .free := rfl

theorem owned_split (as bs : List ℕ) {fd : ℕ} (hfd : fd ≠ 0) :
    owned (as ++ fd :: bs) .free = owned as .free ++ fd :: owned bs .free := by
  simp [owned, Hand.opening, hfd]

theorem owned_set {handles : List ℕ} {i fd : ℕ} (hget : handles[i]? = some fd) (hfd : fd ≠ 0)
    (hnd : (owned handles .free).Nodup) :
    (owned (handles.set i 0) .free).Sublist (owned handles .free) ∧
    fd ∉ owned (handles.set i 0) .free ∧
      ∀ fd' ∈ owned handles .free, fd' = fd ∨ fd' ∈ owned (handles.set i 0) .free := by
  obtain ⟨hlt, rfl⟩ := List.getElem?_eq_some_iff.mp hget
  have hset : owned (handles.set i 0) .free = owned (handles.take i) .free ++ owned (handles.drop (i + 1)) .free := by
    rw [List.set_eq_take_append_cons_drop, if_pos hlt]
    simp [owned, Hand.opening]
  have hsplit : handles = handles.take i ++ handles[i] :: handles.drop (i + 1) := by
    rw [List.getElem_cons_drop, List.take_append_drop]
  have hall : owned handles .free = owned (handles.take i) .free ++ handles[i] :: owned (handles.drop (i + 1)) .free :=
    (congrArg (owned · .free) hsplit).trans (owned_split _ _ hfd)
  rw [hall] at hnd ⊢
  rw [hset]
  obtain ⟨-, hcons, hdisj⟩ := List.nodup_append.mp hnd
  refine ⟨List.Sublist.append_left (List.sublist_cons_self _ _) _, ?_, ?_⟩
  · rw [List.mem_append, not_or]
    exact ⟨fun hmem => hdisj _ hmem _ List.mem_cons_self rfl, (List.nodup_cons.mp hcons).1⟩
  · intro fd' hmem
    simp only [List.mem_append, List.mem_cons] at hmem ⊢
    tauto

variable [DecidableEq P] [DecidableEq F]

omit [DecidableEq T] [DecidableEq F] in
theorem Holding.closes (h : Holding es s hand) (hp : s.home t = some p) (e : Event) {fd : ℕ}
    {w : World P F} {handles : List ℕ} {o : Hand} (hw : s.world.Closes p fd w)
    (hfd : fd ∈ owned (s.handles t) (hand t)) (hnot : fd ∉ owned handles o)
    (hsub : (owned handles o).Sublist (owned (s.handles t) (hand t)))
    (hback : ∀ fd' ∈ owned (s.handles t) (hand t), fd' = fd ∨ fd' ∈ owned handles o)
    (hh : ∀ fd, Handled handles o fd → Handled (s.handles t) (hand t) fd) :
    Minds h t p e w handles o where
  opened fd' hmem := by
    obtain ⟨d, hd⟩ := h.opened t p hp fd' (hsub.subset hmem)
    refine ⟨d, ?_⟩
    rw [hw.fds_apply, if_neg]
    · exact hd
    · rintro ⟨-, rfl⟩
      exact hnot hmem
  nodup := (h.nodup t).sublist hsub
  fresh fd' hmem := .inl (hsub.subset hmem)
  others p' fd' d hd hne := by
    rw [hw.fds_apply, if_neg]
    · exact hd
    · rintro ⟨rfl, rfl⟩
      exact hne rfl hfd
  sound := h.sound.drops hw.toDrops
  unshared hun := hun.drops hw.toDrops
  known p' fd' d hd _ := by
    rw [hw.fds_apply] at hd
    split_ifs at hd with hc
    by_cases hmem : p' = p ∧ fd' ∈ owned (s.handles t) (hand t)
    · rcases hback fd' hmem.2 with rfl | hnew
      · exact absurd ⟨hmem.1, rfl⟩ hc
      · exact .inl ⟨hmem.1, hnew⟩
    · exact .inr ⟨hd, hmem⟩
  locks d href hl := .inl (hl.drops hw.toDrops href)
  locked fd' d hmem hd := by
    rcases h.locked t p fd' d hp (hh fd' hmem) (hw.fds_some hd) with hl | ⟨hf, hun⟩
    · exact .inl (hl.drops hw.toDrops ⟨p, fd', hd⟩)
    · exact .inr ⟨hf, List.mem_append_left _ hun⟩

omit [DecidableEq T] [DecidableEq F] in
theorem Holding.opens (h : Holding es s hand) (hp : s.home t = some p) (ho : hand t = .free)
    (e : Event) {fd : ℕ} (f : F) (hfree : s.world.fds p fd = none) :
    Minds h t p e (s.world.opened p fd f) (s.handles t) (.opened fd false) := by
  have hne : ∀ p' fd' d, s.world.fds p' fd' = some d →
      (s.world.opened p fd f).fds p' fd' = some d := by
    intro p' fd' d hd
    rw [World.opened_fds, if_neg]
    · exact hd
    · rintro ⟨rfl, rfl⟩
      rw [hfree] at hd
      cases hd
  have hold : ∀ fd' ∈ owned (s.handles t) .free, ∃ d, s.world.fds p fd' = some d := by
    have := h.opened t p hp
    rwa [ho] at this
  have hnd := h.nodup t
  rw [ho] at hnd
  constructor
  · intro fd' hmem
    rw [owned_opened, List.mem_append, List.mem_singleton] at hmem
    rcases hmem with hmem | rfl
    · obtain ⟨d, hd⟩ := hold fd' hmem
      exact ⟨d, hne p fd' d hd⟩
    · exact ⟨s.world.next, by rw [World.opened_fds, if_pos ⟨rfl, rfl⟩]⟩
  · rw [owned_opened]
    apply hnd.append (List.nodup_singleton fd)
    intro fd' hmem hsame
    rw [List.mem_singleton.mp hsame] at hmem
    obtain ⟨d, hd⟩ := hold fd hmem
    rw [hfree] at hd
    cases hd
  · intro fd' hmem
    rw [owned_opened, List.mem_append, List.mem_singleton] at hmem
    rw [ho]
    rcases hmem with hmem | rfl
    · exact .inl hmem
    · exact .inr hfree
  · exact fun p' fd' d hd _ => hne p' fd' d hd
  · exact h.sound.opened hfree
  · exact fun hun => hun.opened h.sound
  · intro p' fd' d hd _
    rw [World.opened_fds] at hd
    rw [owned_opened, List.mem_append, List.mem_singleton, ho]
    split_ifs at hd with hc
    · exact .inl ⟨hc.1, .inr hc.2⟩
    · by_cases hmem : p' = p ∧ fd' ∈ owned (s.handles t) .free
      · exact .inl ⟨hmem.1, .inl hmem.2⟩
      · exact .inr ⟨hd, hmem⟩
  · intro d _ hl
    obtain ⟨-, p', fd', href⟩ := h.sound.held _ d hl
    exact .inl (hl.opened (h.sound.known p' fd' d href))
  · intro fd' d hmem hd
    have hhandle : Handled (s.handles t) (hand t) fd' := by
      rcases hmem with ⟨hmem, hne', -⟩ | hno
      · exact .inl ⟨hmem, hne', by simp [ho]⟩
      · cases hno
    obtain ⟨d', hd'⟩ := h.opened t p hp fd' hhandle.owned
    obtain rfl : d' = d := Option.some.inj ((hne p fd' d' hd').symm.trans hd)
    rcases h.locked t p fd' d' hp hhandle hd' with hl | ⟨hf, hun⟩
    · exact .inl (hl.opened (h.sound.known p fd' d' hd'))
    · exact .inr ⟨hf, List.mem_append_left _ hun⟩

omit [DecidableEq P] [DecidableEq T] in
/-- A thread gets the lock on the file that it has opened. -/
theorem Holding.locks (h : Holding es s hand) (hp : s.home t = some p) {fd d : ℕ} (ho : hand t = .opened fd false)
    (e : Event) (hfd : s.world.fds p fd = some d)
    (hfree : s.world.holder (s.world.file d) = none ∨ s.world.holder (s.world.file d) = some d) :
    Minds h t p e (s.world.locked d) (s.handles t) (.opened fd true) := by
  have hsame : owned (s.handles t) (.opened fd true) = owned (s.handles t) (hand t) := by
    rw [ho, owned_opened, owned_opened]
  constructor
  · rw [hsame]
    exact h.opened t p hp
  · rw [hsame]
    exact h.nodup t
  · rw [hsame]
    exact fun fd' hmem => .inl hmem
  · exact fun p' fd' d' hd _ => hd
  · exact h.sound.locked ⟨p, fd, hfd⟩
  · exact fun hun => hun
  · intro p' fd' d' hd _
    rw [hsame]
    by_cases hmem : p' = p ∧ fd' ∈ owned (s.handles t) (hand t)
    · exact .inl hmem
    · exact .inr ⟨hd, hmem⟩
  · exact fun d' _ hl => .inl (hl.locked hfree)
  · intro fd' d' hmem hd
    rcases hmem with ⟨hmem, hne, -⟩ | hown
    · rcases h.locked t p fd' d' hp (.inl ⟨hmem, hne, by simp [ho]⟩) hd with hl | ⟨hf, hun⟩
      · exact .inl (hl.locked hfree)
      · exact .inr ⟨hf, List.mem_append_left _ hun⟩
    · simp only [Hand.opened.injEq, and_true] at hown
      subst hown
      obtain rfl : d = d' := Option.some.inj (hfd.symm.trans hd)
      exact .inl World.locks_locked

omit [DecidableEq P] [DecidableEq T] in
/-- A thread gives up the lock of a handle of its own. -/
theorem Holding.unlocks (h : Holding es s hand) (hp : s.home t = some p) (ho : hand t = .free)
    {fd d : ℕ} (hmem : fd ∈ s.handles t) (hne : fd ≠ 0) (hfd : s.world.fds p fd = some d) :
    Minds h t p (.unlocked d) (s.world.unlocked d) (s.handles t) (.closing fd) := by
  have hown : fd ∈ owned (s.handles t) (hand t) := mem_owned.mpr (.inl ⟨hmem, hne⟩)
  have hminds := h.minds hp (.unlocked d) (o := .free) (by rw [ho]) (by rw [ho]; exact fun _ hh => hh)
  constructor
  · rw [World.unlocked_fds]
    exact hminds.opened
  · exact hminds.nodup
  · exact hminds.fresh
  · rw [World.unlocked_fds]
    exact hminds.others
  · exact h.sound.unlocked
  · intro hun
    unfold World.Unshared
    rwa [World.unlocked_fds]
  · rw [World.unlocked_fds]
    exact hminds.known
  · intro d' _ hl
    by_cases hd : d' = d
    · exact .inr ⟨by rw [hd], fd, hown, by rw [hd, hfd]⟩
    · exact .inl (hl.unlocked hd)
  · intro fd' d' hh hd
    rw [World.unlocked_fds] at hd
    rcases hh with ⟨hmem', hne', hcl⟩ | hno
    · rcases h.locked t p fd' d' hp (.inl ⟨hmem', hne', by simp [ho]⟩) hd with hl | ⟨hf, hun⟩
      · by_cases hdd : d' = d
        · -- another handle of the same description: there was a `fork`
          subst hdd
          rcases h.unshared with hf | hun
          · exact .inr ⟨hf, by simp⟩
          · exact absurd (by rw [(hun p p fd fd' d' hfd hd).2]) hcl
        · exact .inl (hl.unlocked hdd)
      · exact .inr ⟨hf, List.mem_append_left _ hun⟩
    · cases hno

theorem Holding.call (h : Holding es s hand) (hp : s.home t = some p) {c : Sys F}
    {next : c.Answer → Prog (Sys F) Sys.Answer Reply} (hd : Doing (s.handles t) (.call c next) (hand t)) {a : c.Answer}
    {w : World P F} (ha : Answers s.world p c a w) :
    ∃ hand', Holding (es ++ [Event.of s.world p c a]) (s.goOn t w (next a)) hand' := by
  generalize ho : hand t = o at hd
  -- an answer that changes nothing
  have hsame : ∀ e, Minds h t p e s.world (s.handles t) o := fun e =>
    h.minds hp e (by rw [ho]) (by rw [ho]; exact fun _ hh => hh)
  cases hd with
  | opening herr hok =>
    cases ha with
    | opened fd hfree => exact (h.opens hp ho _ _ hfree).goOn hp (hok _)
    | notOpened => exact (hsame _).goOn hp (herr _)
  | locking hok herr =>
    cases ha with
    | locked hfd hfree => exact (h.locks hp ho _ hfd hfree).goOn hp hok
    | notLocked => exact (hsame _).goOn hp (herr _)
  | @givingUp fd _ hnext =>
    cases ha with
    | closed hw =>
      have hnd := h.nodup t
      rw [ho, owned_opened, List.nodup_append] at hnd
      refine Minds.goOn (h.closes hp _ hw ?_ ?_ ?_ ?_ ?_) hp (hnext _)
      · rw [ho, owned_opened]
        simp
      · exact fun hmem => hnd.2.2 fd hmem fd (by simp) rfl
      · rw [ho, owned_opened]
        exact List.sublist_append_left _ _
      · intro fd' hmem
        rw [ho, owned_opened, List.mem_append, List.mem_singleton] at hmem
        exact hmem.symm
      · rintro fd' (⟨hmem, hne, -⟩ | hno)
        · exact .inl ⟨hmem, hne, by simp [ho]⟩
        · cases hno
  | @unlocking i fd _ hget hne hnext =>
    have hmem : fd ∈ s.handles t := List.mem_of_getElem? hget
    cases ha with
    | @unlocked _ d hfd =>
      have hevent : Event.of s.world p (.flock fd .LOCK_UN) none = .unlocked d := by
        simp only [Event.of, hfd, Option.map_some, Option.getD_some]
      rw [hevent]
      exact (h.unlocks hp ho hmem hne hfd).goOn hp (hnext _)
    | notUnlocked =>
      refine (h.minds hp _ ?_ ?_).goOn hp (hnext _)
      · rw [ho, owned_closing]
      · rintro fd' (⟨hmem, hne, -⟩ | hno)
        · exact .inl ⟨hmem, hne, by simp [ho]⟩
        · cases hno
  | @closing i fd _ hget hne hnext =>
    cases ha with
    | closed hw =>
      have hnd := h.nodup t
      rw [ho, owned_closing] at hnd
      obtain ⟨hsub, hnot, hback⟩ := owned_set hget hne hnd
      obtain ⟨r, hr, hstore⟩ := hnext a
      have hm : Minds h t p (Event.of s.world p (.close fd) a) w ((s.handles t).set i 0) .free := by
        apply h.closes hp _ hw _ hnot
        · rwa [ho, owned_closing]
        · rwa [ho, owned_closing]
        · rintro fd' (⟨hmem, hne', -⟩ | hno)
          · have hfd' : fd' ≠ fd := by
              rintro rfl
              exact hnot (mem_owned.mpr (.inl ⟨hmem, hne'⟩))
            rcases List.mem_or_eq_of_mem_set hmem with hold | hzero
            · exact .inl ⟨hold, hne', by simpa [ho] using hfd'.symm⟩
            · exact absurd hzero hne'
          · cases hno
        · exact mem_owned.mpr (.inl ⟨List.mem_of_getElem? hget, hne⟩)
      refine ⟨Function.update hand t .free, ?_⟩
      rw [hr, System.goOn, hstore]
      exact hm.step hp (fun _ => rfl) nofun

omit [DecidableEq F] in
/-- A process forks: the new one has one thread, with copies of the handles of the thread that
forks. -/
theorem Holding.forks (h : Holding es s hand) {t' : T} {p' : P} (hp : s.home t = some p) (hidle : s.doing t = none)
    (ht' : s.home t' = none) (hp' : ∀ u, s.home u ≠ some p') (hnew : ∀ fd, s.world.fds p' fd = none) :
    Holding (es ++ [.forked]) ⟨s.world.forked p p', Function.update s.home t' (some p'),
      Function.update s.handles t' (s.handles t), s.doing⟩ hand := by
  have hmem : Event.forked ∈ es ++ [.forked] := by simp
  have hfree : hand t' = hand t := by rw [h.idle t hidle, h.idle t' (h.gone t' ht').2]
  have hpp : p ≠ p' := by
    rintro rfl
    exact hp' t hp
  have hcopy : ∀ fd, (s.world.forked p p').fds p' fd = s.world.fds p fd := fun fd => by
    simp [World.forked]
  have hkeep : ∀ q, q ≠ p' → ∀ fd, (s.world.forked p p').fds q fd = s.world.fds q fd :=
    fun q hq fd => by
    simp [World.forked, hq]
  constructor
  · intro u prog hu
    by_cases hut : u = t'
    · subst hut
      rw [(h.gone u ht').2] at hu
      cases hu
    · simp only [Function.update_of_ne hut]
      exact h.doing u prog hu
  · exact h.idle
  · intro u hu
    by_cases hut : u = t'
    · subst hut
      simp at hu
    · simp only [Function.update_of_ne hut] at hu ⊢
      exact h.gone u hu
  · intro u q hu fd hfd
    by_cases hut : u = t'
    · subst hut
      simp only [Function.update_self, Option.some.injEq] at hu hfd
      subst hu
      rw [hcopy]
      exact h.opened t p hp fd (hfree ▸ hfd)
    · simp only [Function.update_of_ne hut] at hu hfd
      rw [hkeep q fun hq => hp' u (hq ▸ hu)]
      exact h.opened u q hu fd hfd
  · intro u
    by_cases hut : u = t'
    · subst hut
      simpa [hfree] using h.nodup t
    · simpa [hut] using h.nodup u
  · intro u u' q hne hu hu'
    by_cases hut : u = t'
    · subst hut
      simp only [Function.update_self, Option.some.injEq, Function.update_of_ne hne.symm] at hu hu'
      exact absurd (hu ▸ hu') (hp' u')
    · by_cases hut' : u' = t'
      · subst hut'
        simp only [Function.update_self, Option.some.injEq, Function.update_of_ne hut] at hu hu'
        exact absurd (hu' ▸ hu) (hp' u)
      · simp only [Function.update_of_ne hut, Function.update_of_ne hut'] at hu hu' ⊢
        exact h.apart u u' q hne hu hu'
  · exact h.sound.forked hnew
  · exact .inl hmem
  · exact .inl hmem
  · intro u q fd d hu hfd hd
    have hold : ∃ v r, s.home v = some r ∧ Handled (s.handles v) (hand v) fd ∧
        s.world.fds r fd = some d := by
      by_cases hut : u = t'
      · subst hut
        simp only [Function.update_self, Option.some.injEq] at hu hfd
        subst hu
        exact ⟨t, p, hp, hfree ▸ hfd, by rwa [← hcopy]⟩
      · simp only [Function.update_of_ne hut] at hu hfd
        rw [hkeep q fun hq => hp' u (hq ▸ hu)] at hd
        exact ⟨u, q, hu, hfd, hd⟩
    obtain ⟨v, r, hv, hfd, hd⟩ := hold
    exact (h.locked v r fd d hv hfd hd).imp_right fun hgone =>
      ⟨hmem, List.mem_append_left _ hgone.2⟩

omit [DecidableEq T] [DecidableEq F] in
theorem Holding.exits (h : Holding es s hand) {w : World P F} (hw : s.world.Exits p w) :
    Holding (es ++ [.other])
      ⟨w, fun t => if s.home t = some p then none else s.home t,
        fun t => if s.home t = some p then [] else s.handles t,
        fun t => if s.home t = some p then none else s.doing t⟩
      fun t => if s.home t = some p then .free else hand t := by
  have hdead : ∀ fd, w.fds p fd = none := fun fd => by rw [hw.fds_eq, Function.update_self]
  have hkeep : ∀ q, q ≠ p → ∀ fd, w.fds q fd = s.world.fds q fd := fun q hq fd => by
    rw [hw.fds_eq, Function.update_of_ne hq]
  have hlive : ∀ t q, (if s.home t = some p then none else s.home t) = some q →
      s.home t ≠ some p ∧ s.home t = some q ∧ q ≠ p := by
    intro t q hq
    split_ifs at hq with hc
    exact ⟨hc, hq, by rintro rfl; exact hc hq⟩
  constructor
  · intro t prog ht
    dsimp only at ht ⊢
    split_ifs at ht ⊢
    exact h.doing t prog ht
  · intro t ht
    dsimp only at ht
    split_ifs at ht ⊢
    · rfl
    · exact h.idle t ht
  · intro t ht
    dsimp only at ht ⊢
    split_ifs at ht ⊢
    · exact ⟨rfl, rfl⟩
    · exact h.gone t ht
  · intro t q hq fd hfd
    obtain ⟨hc, hq, hne⟩ := hlive t q hq
    simp only [if_neg hc] at hfd
    rw [hkeep q hne]
    exact h.opened t q hq fd hfd
  · intro t
    dsimp only
    split_ifs
    · exact List.nodup_nil
    · exact h.nodup t
  · intro t t' q hne hq hq'
    obtain ⟨hc, hq, -⟩ := hlive t q hq
    obtain ⟨hc', hq', -⟩ := hlive t' q hq'
    simp only [if_neg hc, if_neg hc']
    exact h.apart t t' q hne hq hq'
  · exact h.sound.drops hw.toDrops
  · exact h.unshared.imp (List.mem_append_left _) fun hun => hun.drops hw.toDrops
  · refine h.known.imp (List.mem_append_left _) fun hknown q fd d hd hne => ?_
    have hq : q ≠ p := by
      rintro rfl
      rw [hdead] at hd
      cases hd
    rw [hkeep q hq] at hd
    obtain ⟨t, ht, hmem⟩ := hknown q fd d hd hne
    have hc : s.home t ≠ some p := by
      rw [ht, Ne, Option.some.injEq]
      exact hq
    refine ⟨t, (if_neg hc).trans ht, ?_⟩
    simpa only [if_neg hc] using hmem
  · intro t q fd d hq hfd hd
    obtain ⟨hc, hq, -⟩ := hlive t q hq
    simp only [if_neg hc] at hfd
    rcases h.locked t q fd d hq hfd (hw.fds_some hd) with hl | ⟨hf, hun⟩
    · exact .inl (hl.drops hw.toDrops ⟨q, fd, hd⟩)
    · exact .inr ⟨List.mem_append_left _ hf, List.mem_append_left _ hun⟩

theorem Holding.next (h : Holding es s hand) {e : Event} {s' : System P T F} (hs : Step s e s') :
    ∃ hand', Holding (es ++ [e]) s' hand' := by
  cases hs with
  | @request t p r hp hidle =>
    have ho := h.idle t hidle
    exact (h.minds hp .other (by rw [ho]) (by rw [ho]; exact fun _ hh => hh)).goOn hp (doing_serve _ r)
  | call hp hdoing ha => exact h.call hp (h.doing _ _ hdoing) ha
  | fork hp hidle ht' hp' hnew => exact ⟨hand, h.forks hp hidle ht' hp' hnew⟩
  | exit hw => exact ⟨_, h.exits hw⟩

theorem run_holding {f : F} {home : T → Option P} (hrun : Run Step (start f home) es s) :
    ∃ hand, Holding es s hand :=
  hrun.invariant (I := fun es s => ∃ hand, Holding es s hand) ⟨_, holding_start f home⟩
    fun _ _ _ _ ⟨_, h⟩ hs => h.next hs

/-! ### Exclusion -/

/-- The thread `t` of the process `p` has a handle with the descriptor `fd`, and is not closing
it. -/
structure System.HasOpen (s : System P T F) (t : T) (p : P) (fd : ℕ) : Prop where
  home : s.home t = some p
  handle : fd ∈ s.handles t
  opened : fd ≠ 0
  notClosing : ∀ next, s.doing t ≠ some (.call (.close fd) next)

omit [DecidableEq P] [DecidableEq T] [DecidableEq F] in
theorem Holding.handled (h : Holding es s hand) {fd : ℕ} (ho : s.HasOpen t p fd) :
    Handled (s.handles t) (hand t) fd := by
  refine .inl ⟨ho.handle, ho.opened, fun hclosing => ?_⟩
  cases hdoing : s.doing t with
  | none =>
    rw [h.idle t hdoing] at hclosing
    cases hclosing
  | some prog =>
    have hd := h.doing t prog hdoing
    rw [hclosing] at hd
    cases hd
    exact ho.notClosing _ hdoing

/-- Two open handles of one file: they stand for one description, which `fork` has copied, or
the lock of one of them has been given up through a copy of it. -/
theorem open_handles {f : F} {home : T → Option P} (hrun : Run Step (start f home) es s) {t' : T}
    {p' : P} {fd fd' : ℕ} (ho : s.HasOpen t p fd) (ho' : s.HasOpen t' p' fd') :
    ∃ d d', s.world.fds p fd = some d ∧ s.world.fds p' fd' = some d' ∧
      (s.world.file d = s.world.file d' →
        d = d' ∨ .forked ∈ es ∧ (.unlocked d ∈ es ∨ .unlocked d' ∈ es)) := by
  obtain ⟨hand, h⟩ := run_holding hrun
  obtain ⟨d, hd⟩ := h.opened t p ho.home fd (h.handled ho).owned
  obtain ⟨d', hd'⟩ := h.opened t' p' ho'.home fd' (h.handled ho').owned
  refine ⟨d, d', hd, hd', fun hfile => ?_⟩
  rcases h.locked t p fd d ho.home (h.handled ho) hd with hl | ⟨hf, hun⟩
  · rcases h.locked t' p' fd' d' ho'.home (h.handled ho') hd' with hl' | ⟨hf, hun⟩
    · exact .inl (hl.exclusive hl' hfile)
    · exact .inr ⟨hf, .inr hun⟩
  · exact .inr ⟨hf, .inl hun⟩

/-- Without `fork` one handle at most is open on a file, over all the processes. Once all
handles are closed, no descriptor but 0 is left, and no lock but of those. -/
theorem flock_exclusive {f : F} {home : T → Option P} (hrun : Run Step (start f home) es s)
    (hfork : .forked ∉ es) :
    (∀ t t' p p' fd fd' d d', s.HasOpen t p fd → s.HasOpen t' p' fd' → s.world.fds p fd = some d →
      s.world.fds p' fd' = some d' → s.world.file d = s.world.file d' → t = t' ∧ fd = fd') ∧
    ((∀ t, s.doing t = none ∧ ∀ fd ∈ s.handles t, fd = 0) →
      (∀ p fd d, s.world.fds p fd = some d → fd = 0) ∧
      ∀ f d, s.world.holder f = some d → ∃ p, s.world.fds p 0 = some d) := by
  obtain ⟨hand, h⟩ := run_holding hrun
  have hun := h.unshared.resolve_left hfork
  constructor
  · intro t t' p p' fd fd' d d' ho ho' hd hd' hfile
    have hl := (h.locked t p fd d ho.home (h.handled ho) hd).resolve_right fun hf => hfork hf.1
    have hl' := (h.locked t' p' fd' d' ho'.home (h.handled ho') hd').resolve_right fun hf =>
      hfork hf.1
    obtain rfl := hl.exclusive hl' hfile
    obtain ⟨rfl, rfl⟩ := hun p p' fd fd' d hd hd'
    refine ⟨?_, rfl⟩
    by_contra hne
    exact h.apart t t' p hne ho.home ho'.home fd (h.handled ho).owned (h.handled ho').owned
  · intro hclosed
    have hzero : ∀ p fd d, s.world.fds p fd = some d → fd = 0 := by
      intro p fd d hd
      by_contra hne
      obtain ⟨t, -, hmem⟩ := h.known.resolve_left hfork p fd d hd hne
      obtain ⟨hidle, hhandles⟩ := hclosed t
      rw [h.idle t hidle, mem_owned] at hmem
      rcases hmem with ⟨hmem, hne⟩ | hno
      · exact hne (hhandles fd hmem)
      · cases hno
    refine ⟨hzero, fun f d hl => ?_⟩
    obtain ⟨-, p, fd, hd⟩ := h.sound.held f d hl
    exact ⟨p, hzero p fd d hd ▸ hd⟩

end

/-! ### A file opened, and a fork -/

/-- One thread in one process, and room for another of each. -/
def alone (t : Bool) : Option Bool := if t then none else some false

/-- The thread opens a file, and gets the descriptor 3. -/
theorem exists_opened : ∃ s : System Bool Bool Unit,
    Run Step (start () alone) [.other, .other, .other] s ∧
    s.home = alone ∧ s.handles false = [3] ∧ s.doing = (fun _ => none) ∧
      s.world.fds true = (fun _ => none) := by
  have h₁ := Step.request (s := (start () alone : System Bool Bool Unit)) (t := false) (p := false)
    (.flock () false) rfl rfl
  have r₂ := (Run.nil.snoc h₁).snoc (Step.call (t := false) (p := false) rfl rfl (.opened 3 rfl))
  have r₃ := r₂.snoc (Step.call (t := false) (p := false) rfl rfl (.locked (d := 0) rfl (.inl rfl)))
  refine ⟨_, r₃, rfl, rfl, ?_, ?_⟩
  · funext t
    cases t <;> rfl
  · rfl

/-- The descriptor 3 of one of two processes is closed. If it has the lock, the other has it too. -/
theorem closes_three (p : Bool) {w : World Bool Unit} (hlock : ∀ d, w.holder () = some d → w.fds (!p) 3 = some d) :
    w.Closes p 3 { w with fds := Function.update w.fds p (Function.update (w.fds p) 3 none) } := by
  refine ⟨⟨fun q fd => ?_, rfl, rfl, fun _ d => ⟨fun hd => ⟨hd, !p, 3, ?_⟩, And.left⟩⟩, rfl⟩
  · by_cases hq : q = p
    · subst hq
      by_cases hfd : fd = 3
      · subst hfd
        exact Or.inr (by simp)
      · exact Or.inl (by simp [hfd])
    · exact Or.inl (by simp [hq])
  · exact (congrFun (Function.update_of_ne (Bool.not_ne_self p) _ _) 3).trans (hlock d hd)

/-- Two processes with a thread each. The first opens the file, and the second is refused; then the
first closes its handle. -/
theorem exists_refused : ∃ s s' : System Bool Bool Unit,
    Run Step (start () some) (List.replicate 7 .other) s ∧
    s.home = some ∧ s.handles = (fun t => if t then [] else [3]) ∧ s.doing = (fun _ => none) ∧
    Run Step (start () some) (List.replicate 8 .other ++ [.unlocked 0, .other]) s' ∧
    s'.handles = (fun t => if t then [] else [0]) ∧ s'.doing = fun _ => none := by
  have r₁ := Run.nil.snoc (Step.request (s := (start () some : System Bool Bool Unit)) (t := false) (p := false)
    (.flock () false) rfl rfl)
  have r₂ := r₁.snoc (Step.call (t := false) (p := false) rfl rfl (.opened 3 rfl))
  have r₃ := r₂.snoc (Step.call (t := false) (p := false) rfl rfl (.locked (d := 0) rfl (.inl rfl)))
  have r₄ := r₃.snoc (Step.request (t := true) (p := true) (.flock () true) rfl rfl)
  have r₅ := r₄.snoc (Step.call (t := true) (p := true) rfl rfl (.opened 3 rfl))
  have r₆ := r₅.snoc (Step.call (t := true) (p := true) rfl rfl
    (.notLocked (e := .EWOULDBLOCK) fun _ => ⟨rfl, 1, 0, rfl, rfl, by decide⟩))
  have r₇ := r₆.snoc (Step.call (t := true) (p := true) (a := none) rfl rfl
    (.closed (closes_three true fun d hd => hd)))
  have r₈ := r₇.snoc (Step.request (t := false) (p := false) (.close 0) rfl rfl)
  have r₉ := r₈.snoc (Step.call (t := false) (p := false) rfl rfl (.unlocked (d := 0) rfl))
  have r₁₀ := r₉.snoc (Step.call (t := false) (p := false) (a := none) rfl rfl
    (.closed (closes_three false fun d hd => by cases hd)))
  refine ⟨_, _, r₇, rfl, ?_, ?_, r₁₀, ?_, ?_⟩
  all_goals
    funext t
    cases t <;> rfl

/-- With the second process refused the handle of the first is the only one; and when that is closed
nothing is locked. -/
theorem flock_exclusive_opened : ∃ s s' : System Bool Bool Unit,
    Run Step (start () some) (List.replicate 7 .other) s ∧
    Run Step (start () some) (List.replicate 8 .other ++ [.unlocked 0, .other]) s' ∧
      s.HasOpen false false 3 ∧
    (∀ t' p' fd' d d', s.HasOpen t' p' fd' → s.world.fds false 3 = some d → s.world.fds p' fd' = some d' →
      s.world.file d = s.world.file d' → false = t' ∧ 3 = fd') ∧
    (∀ p fd d, s'.world.fds p fd = some d → fd = 0) ∧
      ∀ f d, s'.world.holder f = some d → ∃ p, s'.world.fds p 0 = some d := by
  obtain ⟨s, s', hrun, hhome, hhandles, hdoing, hrun', hhandles', hdoing'⟩ := exists_refused
  have ho : s.HasOpen false false 3 := by
    refine ⟨by rw [hhome], by rw [hhandles]; simp, by decide, fun next => ?_⟩
    rw [hdoing]
    exact nofun
  have hclosed : ∀ t, s'.doing t = none ∧ ∀ fd ∈ s'.handles t, fd = 0 := by
    intro t
    rw [hdoing', hhandles']
    exact ⟨rfl, by cases t <;> simp⟩
  exact ⟨s, s', hrun, hrun', ho, fun t' p' fd' d d' => (flock_exclusive hrun (by simp)).1 _ t' _ p' _ fd' d d' ho,
    (flock_exclusive hrun' (by simp)).2 hclosed⟩

theorem open_handles_forked : ∃ s : System Bool Bool Unit,
    Run Step (start () alone) [.other, .other, .other, .forked] s ∧
      s.HasOpen false false 3 ∧ s.HasOpen true true 3 ∧
      ∃ d d', s.world.fds false 3 = some d ∧ s.world.fds true 3 = some d' ∧
        (s.world.file d = s.world.file d' → d = d' ∨ .forked ∈ [Event.other, .other, .other, .forked] ∧
          (.unlocked d ∈ [Event.other, .other, .other, .forked] ∨
            .unlocked d' ∈ [Event.other, .other, .other, .forked])) := by
  obtain ⟨s, hrun, hhome, hhandles, hdoing, hnew⟩ := exists_opened
  have hhome' : s.home false = some false := by rw [hhome]; rfl
  have hstep : Step s .forked _ :=
    .fork hhome' (by rw [hdoing]) (show s.home true = none by rw [hhome]; rfl)
    (show ∀ u, s.home u ≠ some true by rw [hhome]; decide) (by rw [hnew]; exact fun _ => rfl)
  have hforked := hrun.snoc hstep
  refine ⟨_, hforked, ?_⟩
  suffices hopen : ∀ b, System.HasOpen _ b b 3 from
    ⟨hopen false, hopen true, open_handles hforked (hopen false) (hopen true)⟩
  intro b
  constructor
  · cases b <;> simp [hhome, alone]
  · cases b <;> simp [hhandles]
  · decide
  · simp [hdoing]

end TorchIpc.Flock
