import TorchIpc.Base.Crews
import TorchIpc.Queue.Channel
import TorchIpc.Serialize.Reading
import TorchIpc.Serialize.Received

/-! Channels that can always be used. Between the calls the buffer is valid, so that a value that
can be serialised is written, and a read ends or waits; here for every pass of a channel what it
does, and that there is one. With that a channel is a list of values with a flag. -/

namespace TorchIpc

open Runs Monitor Crews

section
variable {P : Type} {lua : Lua P}

/-- A value that `rb_save` writes and the reader gets. -/
def Sendable (lua : Lua P) (v : Value P) : Prop := v.Wf lua ∧ Serialisable lua false v

theorem Sendable.received {v : Value P} (h : Sendable lua v) : Sendable lua v.received :=
  ⟨h.1.received, h.2.received h.1⟩

theorem Sendable.savable {v : Value P} (h : Sendable lua v) : Savable lua false v := ⟨h.2.1, h.2.2⟩

/-! ### Valid buffers -/

theorem rbLoad_valid {rb rb' : Ringbuffer} (h : rb.Valid) {fuel : ℕ} {code : ℤ} {stack stack' : List (Value P)}
    (hload : rbLoad lua fuel rb stack = .ret code rb' stack') : rb'.Valid := by
  have hreads : ReadsAlike fun a b => a = b ∧ a.Valid := by
    rintro a b n ⟨rfl, ha⟩
    exact ⟨_, _, _, _, rfl, rfl, rfl, Ringbuffer.read_valid ha n⟩
  have halike := (load_alike hreads lua fuel).1 false rb rb stack ⟨rfl, h⟩
  change LoadOutcome.Alike _ (rbLoad lua fuel rb stack) (rbLoad lua fuel rb stack) at halike
  rw [hload] at halike
  cases halike with
  | ret hb => exact hb.2

theorem Stored.valid {q : Queue} {pending : List (Value P)} (h : Stored lua q pending) (hne : pending ≠ []) :
    q.rb.Valid := by
  refine h.sound.resolve_right fun hzero => ?_
  obtain ⟨v, rest, rfl⟩ := List.exists_cons_of_ne_nil hne
  have hcontent := h.content_eq
  rw [hzero, Ringbuffer.create_content, List.flatMap_cons] at hcontent
  exact encode_ne_nil (h.ok v List.mem_cons_self) (List.append_eq_nil_iff.mp hcontent.symm).1

/-! ### Channels -/

structure Channel.Ready (lua : Lua P) (ch : Channel) (pending : List (Value P)) : Prop where
  holds : ch.Holds lua pending
  valid : ch.rb.Valid

theorem channelCreate_ready (lua : Lua P) : channelCreate.Ready lua [] :=
  ⟨channelCreate_holds lua, Ringbuffer.create_valid (by decide)⟩

theorem channelRead_valid {ch ch' : Channel} {doNotBlock last : Bool} {stack stack' : List (Value P)} {fuel : ℕ}
    {status : Option Status} {code : ℤ} (hv : ch.rb.Valid)
    (h : channelRead lua doNotBlock stack ch fuel = .value status code stack' ch' last) :
    ch'.rb.Valid := by
  unfold channelRead at h
  simp only at h
  split_ifs at h
  cases hload : rbLoad lua fuel (pthreadMutexLock ch.toQueue).rb
      (Status.value lua.versionNum (Channel.status ch) :: stack) with
  | ret code rb stack =>
    have hrb : rb.Valid := rbLoad_valid hv hload
    simp only [Channel.status] at hload h
    rw [hload] at h
    cases h
    exact hrb
  | _ =>
    simp only [Channel.status] at hload h
    rw [hload] at h
    cases h

theorem queueWrite_nil_rb {inc fuel : ℕ} {q q' : Queue} (h : queueWrite lua false inc fuel [] q = .done q') :
    q'.rb = q.rb := by
  cases fuel with
  | zero =>
    simp only [queueWrite, writeLoop] at h
    cases h
  | succ fuel =>
    simp only [queueWrite, writeLoop] at h
    cases h
    rfl

theorem channelWrite_nil_valid {ch ch' : Channel} {fuel : ℕ} (hv : ch.rb.Valid)
    (h : channelWrite lua [] ch fuel = .status .OPEN ch') : ch'.rb.Valid := by
  unfold channelWrite at h
  split_ifs at h
  · cases h
  · cases h
  · cases hq : queueWrite lua false DEFAULT_CHANNEL_SIZE fuel [] ch.toQueue with
    | done q =>
      rw [hq] at h
      cases h
      rw [queueWrite_nil_rb hq]
      exact hv
    | _ =>
      rw [hq] at h
      cases h

namespace Channel

variable {ch : Channel} {pending : List (Value P)}

/-- A pass of a read takes the oldest item; without one it is told that the channel is drained,
or waits, or gives up. -/
theorem Ready.read (hl : lua.Rebuilds) (h : ch.Ready lua pending) {doNotBlock : Bool} {stack : List (Value P)}
    {o : Outcome Channel (Reply P)} (hp : channelPass lua (.read doNotBlock stack) ch o) :
    (∃ v rest ch' w, pending = v :: rest ∧ o = .returns (.took (some ch.status) v.received) ch' w ∧
      ch'.Ready lua rest ∧ ch'.closed = ch.closed) ∨
    (pending = [] ∧ ch.closed = true ∧ o = .returns (.nothing (some .DRAINED)) ch .none) ∨
    (pending = [] ∧ ch.closed = false ∧
      o = if doNotBlock then .returns (.nothing (some .OPEN)) ch .none else .waits ch) := by
  obtain ⟨-, r, hy, hreply⟩ := hp
  rcases channelRead_holds hl h.holds doNotBlock stack with
    ⟨v, rest, ch', wakesAll, hpend, hholds, hclosed, hy'⟩ | ⟨hpend, hclosed, hy'⟩ | ⟨hpend, hclosed, hy'⟩
  · left
    rw [hy.unique hy'] at hreply
    obtain ⟨fuel, hfuel⟩ := hy'.exists
    cases hreply with
    | took => exact ⟨v, rest, ch', _, hpend, rfl, ⟨hholds, channelRead_valid h.valid hfuel⟩, hclosed⟩
    | failed hno => exact absurd ⟨_, rfl, rfl⟩ hno
  · rw [hy.unique hy'] at hreply
    cases hreply
    exact Or.inr (Or.inl ⟨hpend, hclosed, rfl⟩)
  · rw [hy.unique hy'] at hreply
    refine Or.inr (Or.inr ⟨hpend, hclosed, ?_⟩)
    cases doNotBlock with
    | true =>
      cases hreply
      rfl
    | false =>
      cases hreply
      rfl

theorem Ready.exists_read (hl : lua.Rebuilds) (h : ch.Ready lua pending) (doNotBlock : Bool)
    (stack : List (Value P)) :
    ∃ o, channelPass lua (.read doNotBlock stack) ch o := by
  have hlocks := h.holds.stored.locks
  rcases channelRead_holds hl h.holds doNotBlock stack with
    ⟨v, rest, ch', wakesAll, -, -, -, hy⟩ | ⟨-, -, hy⟩ | ⟨-, -, hy⟩
  · exact ⟨_, hlocks, _, hy, .took⟩
  · exact ⟨_, hlocks, _, hy, .nothing⟩
  · cases doNotBlock with
    | true => exact ⟨_, hlocks, _, hy, .nothing⟩
    | false => exact ⟨_, hlocks, _, hy, .wait⟩

/-- A pass of a write appends the values, or is refused if the channel is closed. -/
theorem Ready.write (h : ch.Ready lua pending) {vs : List (Value P)} (hfit : pending.length + vs.length < 2 ^ 32)
    {o : Outcome Channel (Reply P)} (hp : channelPass lua (.write vs) ch o) :
    (∃ ch', ch.closed = false ∧ o = .returns (.wrote vs) ch' .one ∧ ch'.Ready lua (pending ++ vs) ∧
      ch'.closed = false) ∨
    ∃ status, ch.closed = true ∧ o = .returns (.refused status) ch .none := by
  obtain ⟨-, hwf, status, ch', hy, rfl⟩ := hp
  have hcount : ch.numItems.toNat + vs.length < 2 ^ 32 := by
    rw [h.holds.stored.count]
    exact hfit
  rcases channelWrite_holds h.holds hwf hcount hy with ⟨rfl, hopen, hopen', hholds⟩ | ⟨hne, hclosed, rfl⟩
  · left
    refine ⟨ch', hopen, if_pos rfl, ⟨hholds, ?_⟩, hopen'⟩
    cases vs with
    | nil =>
      obtain ⟨fuel, hfuel⟩ := hy.exists
      exact channelWrite_nil_valid h.valid hfuel
    | cons v vs => exact hholds.stored.valid (by simp)
  · right
    exact ⟨status, hclosed, if_neg hne⟩

theorem Ready.exists_write (h : ch.Ready lua pending) {vs : List (Value P)} (hvs : ∀ v ∈ vs, Sendable lua v) :
    ∃ o, channelPass lua (.write vs) ch o := by
  have hlocks := h.holds.stored.locks
  have hwf : ∀ v ∈ vs, v.Wf lua := fun v hv => (hvs v hv).1
  cases hdrained : ch.drained with
  | true =>
    refine ⟨_, hlocks, hwf, .DRAINED, ch, ⟨0, fun fuel _ => ?_⟩, rfl⟩
    rw [channelWrite, hdrained, if_pos rfl]
  | false =>
    cases hclosed : ch.closed with
    | true =>
      refine ⟨_, hlocks, hwf, .CLOSED, ch, ⟨0, fun fuel _ => ?_⟩, rfl⟩
      rw [channelWrite, hdrained, hclosed, if_neg Bool.false_ne_true, if_pos rfl]
    | false =>
      have hinc : 1 ≤ DEFAULT_CHANNEL_SIZE := by decide
      obtain ⟨q, -, n, hn⟩ := queueWrite_savable hinc (by decide) (fun v hv => (hvs v hv).savable) ch.toQueue h.valid
      refine ⟨_, hlocks, hwf, .OPEN, { ch with toQueue := q }, ⟨n, fun fuel hf => ?_⟩, rfl⟩
      have hdone : queueWrite lua false DEFAULT_CHANNEL_SIZE fuel vs ch.toQueue = .done q :=
        hn fuel hf
      rw [channelWrite, hdrained, hclosed, if_neg Bool.false_ne_true, if_neg Bool.false_ne_true, hdone]

theorem Ready.close (h : ch.Ready lua pending) {o : Outcome Channel (Reply P)} (hp : channelPass lua .close ch o) :
    ∃ ch' w, o = .returns .closed ch' w ∧ ch'.Ready lua pending ∧ ch'.closed = true := by
  obtain ⟨-, rfl⟩ := hp
  obtain ⟨hholds, hclosed, -, -⟩ := channelClose_holds h.holds
  refine ⟨_, _, rfl, ⟨hholds, ?_⟩, hclosed⟩
  unfold channelClose
  split_ifs
  · exact h.valid
  · exact h.valid

theorem Ready.exists_close (h : ch.Ready lua pending) : ∃ o, channelPass lua .close ch o :=
  ⟨_, h.holds.stored.locks, rfl⟩

theorem Ready.drained (h : ch.Ready lua []) (hclosed : ch.closed = true) : ch.drained = true :=
  h.holds.drained_iff.mpr ⟨hclosed, h.holds.stored.numItems_eq_zero.mpr rfl⟩

end Channel

/-! ### What a channel is for -/

/-- A list of values, and whether it is closed. -/
structure Line (P : Type) where
  items : List (Value P)
  closed : Bool

inductive LinePass : Call P → Line P → Outcome (Line P) (Reply P) → Prop where
  | wrote {vs l} : l.closed = false →
      LinePass (.write vs) l (.returns (.wrote vs) { l with items := l.items ++ vs } .one)
  | refused {vs l status} : l.closed = true →
      LinePass (.write vs) l (.returns (.refused status) l .none)
  | took {doNotBlock stack l v rest status w} : l.items = v :: rest →
      LinePass (.read doNotBlock stack) l (.returns (.took status v.received) { l with items := rest } w)
  | drained {doNotBlock stack l} : l.items = [] → l.closed = true →
      LinePass (.read doNotBlock stack) l (.returns (.nothing (some .DRAINED)) l .none)
  | empty {stack l} : l.items = [] → l.closed = false →
      LinePass (.read true stack) l (.returns (.nothing (some .OPEN)) l .none)
  | waits {stack l} : l.items = [] → l.closed = false → LinePass (.read false stack) l (.waits l)
  | close {l} : LinePass .close l (.returns .closed { l with closed := true } (if l.closed then .none else .all))

def Channel.Is (lua : Lua P) (ch : Channel) (l : Line P) : Prop :=
  ch.Ready lua l.items ∧ ch.closed = l.closed

theorem channelCreate_is (lua : Lua P) : channelCreate.Is lua ⟨[], false⟩ :=
  ⟨channelCreate_ready lua, rfl⟩

/-- Every pass of a channel is one of the list that it is, as long as the counter does not
overflow. -/
theorem channelPass_line (hl : lua.Rebuilds) {ch : Channel} {l : Line P} (h : ch.Is lua l) {k : Call P}
    (hfit : ∀ vs, k = .write vs → l.items.length + vs.length < 2 ^ 32) {o : Outcome Channel (Reply P)}
    (hp : channelPass lua k ch o) : ∃ o', LinePass k l o' ∧ SameOutcome (Channel.Is lua) o o' := by
  obtain ⟨hready, hclosed⟩ := h
  cases k with
  | write vs =>
    rcases hready.write (hfit vs rfl) hp with ⟨ch', hopen, rfl, hready', hopen'⟩ | ⟨status, hshut, rfl⟩
    · rw [hclosed] at hopen
      exact ⟨_, .wrote hopen, .returns ⟨hready', hopen'.trans hopen.symm⟩⟩
    · rw [hclosed] at hshut
      exact ⟨_, .refused hshut, .returns ⟨hready, hclosed⟩⟩
  | read doNotBlock stack =>
    rcases hready.read hl hp with ⟨v, rest, ch', w, hitems, rfl, hready', hsame⟩ | ⟨hitems, hshut, rfl⟩ |
      ⟨hitems, hopen, rfl⟩
    · exact ⟨_, .took hitems, .returns ⟨hready', hsame.trans hclosed⟩⟩
    · rw [hclosed] at hshut
      exact ⟨_, .drained hitems hshut, .returns ⟨hready, hclosed⟩⟩
    · have hopen' := hclosed.symm.trans hopen
      cases doNotBlock with
      | true => exact ⟨_, .empty hitems hopen', .returns ⟨hready, hclosed⟩⟩
      | false => exact ⟨_, .waits hitems hopen', .waits ⟨hready, hclosed⟩⟩
  | close =>
    have hwake : (channelClose ch).2 = if l.closed then .none else .all := by
      unfold channelClose
      rw [← hclosed]
      cases ch.closed <;> rfl
    obtain ⟨ch', w, rfl, hready', hshut⟩ := hready.close hp
    obtain ⟨-, heq⟩ := hp
    cases heq
    rw [hwake]
    exact ⟨_, .close, .returns ⟨hready', hshut⟩⟩

/-- The channel can make a pass of any call, if what is written can be serialised. -/
theorem Channel.Is.exists_pass (hl : lua.Rebuilds) {ch : Channel} {l : Line P} (h : ch.Is lua l)
    {k : Call P} (hvs : ∀ vs, k = .write vs → ∀ v ∈ vs, Sendable lua v) :
    ∃ o, channelPass lua k ch o := by
  cases k with
  | write vs => exact h.1.exists_write (hvs vs rfl)
  | read doNotBlock stack => exact h.1.exists_read hl doNotBlock stack
  | close => exact h.1.exists_close

theorem line_no_waiter {T : Type} [DecidableEq T] {es : List (Option (Reply P))} {s : Shared T (Line P) (Call P)}
    {l₀ : Line P} (hrun : Run (Monitor.Step LinePass) (Monitor.start l₀) es s) :
    s.obj.closed = true → ∀ t k, s.thread t ≠ .waiting k := by
  refine run_no_waiter (I := fun _ _ => True) (fun l : Line P => l.closed = true) hrun (fun _ _ _ => trivial) ?_ ?_
  · intro _ k l a l' w _ hp hshut
    cases hp with
    | wrote hopen => exact Or.inl hshut
    | refused _ => exact Or.inl hshut
    | took _ => exact Or.inl hshut
    | drained _ _ => exact Or.inl hshut
    | empty _ _ => exact Or.inl hshut
    | close =>
      cases hclosed : l.closed with
      | true => exact Or.inl rfl
      | false => exact Or.inr rfl
  · intro _ k l l' _ hp hshut
    cases hp with
    | waits _ hopen =>
      rw [hopen] at hshut
      cases hshut

theorem line_waiting {T : Type} [DecidableEq T] {es : List (Option (Reply P))} {s : Shared T (Line P) (Call P)}
    {l₀ : Line P} (hrun : Run (Monitor.Step LinePass) (Monitor.start l₀) es s) {t : T} {k : Call P}
    (h : s.thread t = .waiting k ∨ s.thread t = .notified k) : ∃ stack, k = .read false stack := by
  refine run_waiting (Q := fun k => ∃ stack, k = .read false stack) hrun (fun k l l' hp => ?_) h
  cases hp
  exact ⟨_, rfl⟩

end

end TorchIpc
