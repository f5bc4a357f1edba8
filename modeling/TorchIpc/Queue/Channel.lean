import TorchIpc.Queue.Workqueue

/-! Channels (`channel.c`): a queue that can be closed, and is drained once it is
closed and empty. Proved of every run of any number of threads, as long as the
counter does not overflow: `drained` means closed and empty, nothing is added after
the close, every item is taken once and in order, with the status the channel has,
and nobody is left waiting on a closed channel. -/

namespace TorchIpc

open Runs Monitor

abbrev DEFAULT_CHANNEL_SIZE : ℕ := 16 * 1024

/-- `channel_t`. Its `size_increment` is always the default size. -/
structure Channel extends Queue where
  closed : Bool
  drained : Bool

def channelCreate : Channel where
  rb := ringbufferCreate DEFAULT_CHANNEL_SIZE
  retained := []
  numItems := 0
  locks := 0
  closed := false
  drained := false

def channelClose (ch : Channel) : Channel × Wake :=
  if !ch.closed then
    ({ ch with closed := true, drained := ch.drained || ch.numItems == 0 }, .all)
  else (ch, .none)

/-- How a write on a channel ends; readers are signalled with `STATUS_OPEN`. -/
inductive ChannelWriteOutcome where
  | status (status : Status) (ch : Channel)
  | error (code : ℤ) (ch : Channel)
  | raised (e : LuaError) (ch : Channel)
  | undefined
  | diverges
  | timeout

section
variable {P : Type} (lua : Lua P)

/-- `channel_write`. The state is looked at under the mutex that the loop then
keeps. -/
def channelWrite (vs : List (Value P)) (ch : Channel) (fuel : ℕ) : ChannelWriteOutcome :=
  if ch.drained then .status .DRAINED ch
  else if ch.closed then .status .CLOSED ch
  else
    match queueWrite lua false DEFAULT_CHANNEL_SIZE fuel vs ch.toQueue with
    | .done q => .status .OPEN { ch with toQueue := q }
    | .error code q => .error code { ch with toQueue := q }
    | .raised e q => .raised e { ch with toQueue := q }
    | .undefined => .undefined
    | .diverges => .diverges
    | .timeout => .timeout

/-- The status a reader is told along with a value. -/
def Channel.status (ch : Channel) : Status := if ch.closed then .CLOSED else .OPEN

/-- The status as the Lua value that goes below the value read. -/
def Status.value (versionNum : ℕ) (status : Status) : Value P :=
  .ofInteger versionNum (UInt64.ofNat status.toNat)

/-- A pass of `channel_read`, from getting the mutex to giving it back. -/
def channelRead (doNotBlock : Bool) (stack : List (Value P)) (ch : Channel) (fuel : ℕ) :
    ReadOutcome P Channel :=
  let ch : Channel := { ch with toQueue := pthreadMutexLock ch.toQueue }
  let unlock (ch : Channel) : Channel := { ch with toQueue := pthreadMutexUnlock ch.toQueue }
  if ch.numItems ≠ 0 then
    let last := ch.closed && ch.numItems == 1
    let ch : Channel := { ch with drained := ch.drained || last }
    match rbLoad lua fuel ch.rb (ch.status.value lua.versionNum :: stack) with
    | .ret ret rb stack =>
      .value (some ch.status) ret stack
        (unlock { ch with rb := rb, numItems := ch.numItems - 1 }) last
    | .raise rb => .raised { ch with rb := rb }
    | .undefined => .undefined
    | .timeout => .timeout
  else if ch.drained then .nothing (some .DRAINED) (unlock ch)
  else if doNotBlock then
    .nothing (some (if ch.drained then .DRAINED else ch.status)) (unlock ch)
  else .wait (unlock ch)

/-- The passes of a channel whose writes succeed or are refused. -/
def channelPass : Call P → Channel → Outcome Channel (Reply P) → Prop
  | .write vs, ch, o =>
    ch.locks = 0 ∧ (∀ v ∈ vs, v.Wf lua) ∧ ∃ status ch',
      Yields (channelWrite lua vs ch) (.status status ch') ∧
        o = if status = .OPEN then .returns (.wrote vs) ch' .one
          else .returns (.refused status) ch' .none
  | .read doNotBlock stack, ch, o =>
    ch.locks = 0 ∧ ∃ r, Yields (channelRead lua doNotBlock stack ch) r ∧
      r.Replies (ch.status.value lua.versionNum :: stack) o
  | .close, ch, o => ch.locks = 0 ∧ o = .returns .closed (channelClose ch).1 (channelClose ch).2

variable {lua}

/-! ### One pass -/

/-- Between the calls: the items are stored, and drained means closed and empty. -/
structure Channel.Holds (lua : Lua P) (ch : Channel) (pending : List (Value P)) : Prop where
  stored : Stored lua ch.toQueue pending
  drained_iff : ch.drained = true ↔ ch.closed = true ∧ ch.numItems = 0

theorem channelCreate_holds (lua : Lua P) : channelCreate.Holds lua [] where
  stored := workqueueInitQueue_stored lua DEFAULT_CHANNEL_SIZE
  drained_iff := by simp [channelCreate]

theorem channelClose_holds {ch : Channel} {pending : List (Value P)} (h : ch.Holds lua pending) :
    (channelClose ch).1.Holds lua pending ∧ (channelClose ch).1.closed = true ∧
      (ch.drained = true → (channelClose ch).1.drained = true) ∧
      (ch.closed = false → (channelClose ch).2 = .all) := by
  cases hc : ch.closed with
  | true =>
    rw [channelClose, hc]
    exact ⟨h, hc, id, nofun⟩
  | false =>
    have hd : ch.drained = false := by
      have hiff := h.drained_iff
      simpa [hc] using hiff
    rw [channelClose, hc]
    exact ⟨⟨h.stored, by simp [hd]⟩, rfl, by simp [hd], fun _ => rfl⟩

/-- A write on an open channel appends its arguments; on a closed one it does
nothing. -/
theorem channelWrite_holds {vs pending : List (Value P)} {ch ch' : Channel} {status : Status}
    (h : ch.Holds lua pending) (hwf : ∀ v ∈ vs, v.Wf lua)
    (hfit : ch.numItems.toNat + vs.length < 2 ^ 32)
    (hy : Yields (channelWrite lua vs ch) (.status status ch')) :
    (status = .OPEN ∧ ch.closed = false ∧ ch'.closed = false ∧ ch'.Holds lua (pending ++ vs)) ∨
      (status ≠ .OPEN ∧ ch.closed = true ∧ ch' = ch) := by
  obtain ⟨fuel, hw⟩ := hy.exists
  rw [channelWrite] at hw
  split_ifs at hw with hd hc
  · cases hw
    exact Or.inr ⟨nofun, (h.drained_iff.mp hd).1, rfl⟩
  · cases hw
    exact Or.inr ⟨nofun, hc, rfl⟩
  · have hc' : ch.closed = false := by simpa using hc
    have hd' : ch.drained = false := by simpa using hd
    cases hq : queueWrite lua false DEFAULT_CHANNEL_SIZE fuel vs ch.toQueue <;>
      rw [hq] at hw <;> cases hw
    exact Or.inl ⟨rfl, hc', hc', h.stored.write hwf hfit hq, by simp [hc', hd']⟩

/-- Taking the first item: `drained` is set exactly with the last item of a closed
channel. -/
theorem Channel.Holds.take {v : Value P} {rest : List (Value P)} {ch : Channel}
    (h : ch.Holds lua (v :: rest)) {rb : Ringbuffer}
    (hrest : Stored lua { ch.toQueue with rb := rb, numItems := ch.numItems - 1 } rest) :
    ({ ch with
      rb := rb
      numItems := ch.numItems - 1
      drained := ch.drained || (ch.closed && ch.numItems == 1) } : Channel).Holds lua rest := by
  refine ⟨hrest, ?_⟩
  have hcount := h.stored.count
  have hne : ch.numItems ≠ 0 := fun h0 => by simpa using h.stored.numItems_eq_zero.mp h0
  have hd : ch.drained = false := by simpa [hne] using h.drained_iff
  have hlast : ch.numItems - 1 = 0 ↔ ch.numItems = 1 := by
    constructor
    · intro h0
      rw [← UInt32.sub_add_cancel ch.numItems 1, h0]
      rfl
    · intro h1
      rw [h1]
      rfl
  simp [hd, hlast]

/-- A read takes the oldest item; without one it reports a closed channel as
drained, and waits or gives up on an open one. -/
theorem channelRead_holds (hl : lua.Rebuilds) {ch : Channel} {pending : List (Value P)}
    (h : ch.Holds lua pending) (doNotBlock : Bool) (stack : List (Value P)) :
    (∃ v rest ch' wakesAll, pending = v :: rest ∧ ch'.Holds lua rest ∧ ch'.closed = ch.closed ∧
      Yields (channelRead lua doNotBlock stack ch) (.value (some ch.status) 1
        (v.received :: ch.status.value lua.versionNum :: stack) ch' wakesAll)) ∨
    (pending = [] ∧ ch.closed = true ∧
      Yields (channelRead lua doNotBlock stack ch) (.nothing (some .DRAINED) ch)) ∨
    (pending = [] ∧ ch.closed = false ∧ Yields (channelRead lua doNotBlock stack ch)
      (if doNotBlock then .nothing (some .OPEN) ch else .wait ch)) := by
  obtain ⟨q, closed, drained⟩ := ch
  have hiff := h.drained_iff
  simp only at hiff
  cases pending with
  | nil =>
    have h0 : q.numItems = 0 := h.stored.numItems_eq_zero.mpr rfl
    have hnum : ¬ (pthreadMutexLock q).numItems ≠ 0 := not_not.mpr h0
    right
    cases closed with
    | true =>
      obtain rfl : drained = true := hiff.mpr ⟨rfl, h0⟩
      refine Or.inl ⟨rfl, rfl, 0, fun fuel _ => ?_⟩
      simp only [channelRead, if_neg hnum, if_true, unlock_lock]
    | false =>
      obtain rfl : drained = false := by simpa using hiff
      refine Or.inr ⟨rfl, rfl, 0, fun fuel _ => ?_⟩
      simp only [channelRead, if_neg hnum, Bool.false_eq_true, if_false, unlock_lock,
        Channel.status]
  | cons v rest =>
    left
    have hnum : (pthreadMutexLock q).numItems ≠ 0 := fun h0 => by
      simpa using h.stored.numItems_eq_zero.mp h0
    obtain ⟨rb, ⟨n, hn⟩, hrest⟩ := h.stored.load hl
      ((Channel.status ⟨q, closed, drained⟩).value lua.versionNum :: stack)
    refine ⟨v, rest, _, closed && q.numItems == 1, rfl, h.take hrest, rfl, n, fun fuel hf => ?_⟩
    have hload : rbLoad lua fuel (pthreadMutexLock q).rb
        ((Channel.status ⟨q, closed, drained⟩).value lua.versionNum :: stack) = _ := hn fuel hf
    simp only [Channel.status] at hload
    simp only [channelRead, if_pos hnum, Channel.status, hload]
    rfl

/-- With an item in it the channel answers every read with that item. -/
theorem Channel.Holds.read_head (hl : lua.Rebuilds) {ch : Channel} {pending : List (Value P)}
    (h : ch.Holds lua pending) {v : Value P} {rest : List (Value P)} (hpend : pending = v :: rest)
    (doNotBlock : Bool) (stack : List (Value P)) :
    ∃ ch' wakesAll, Yields (channelRead lua doNotBlock stack ch) (.value (some ch.status) 1
      (v.received :: ch.status.value lua.versionNum :: stack) ch' wakesAll) := by
  rcases channelRead_holds hl h doNotBlock stack with
    ⟨v', rest', ch', wakesAll, hpend', _, _, hy⟩ | ⟨hnil, _⟩ | ⟨hnil, _⟩
  · obtain ⟨rfl, rfl⟩ : v = v' ∧ rest = rest' := by simpa using hpend.symm.trans hpend'
    exact ⟨ch', wakesAll, hy⟩
  · rw [hpend] at hnil
    exact absurd hnil nofun
  · rw [hpend] at hnil
    exact absurd hnil nofun

/-! ### What a pass can do -/

/-- The effects of a pass on a channel that holds `pending`. -/
inductive ChannelEffect (lua : Lua P) (ch : Channel) (pending : List (Value P)) :
    Outcome Channel (Reply P) → Prop where
  | wrote {vs ch'} : ch.closed = false → ch'.closed = false → ch'.Holds lua (pending ++ vs) →
      ChannelEffect lua ch pending (.returns (.wrote vs) ch' .one)
  | refused {status} : ch.closed = true →
      ChannelEffect lua ch pending (.returns (.refused status) ch .none)
  | took {v rest ch' w} : pending = v :: rest → ch'.Holds lua rest → ch'.closed = ch.closed →
      ChannelEffect lua ch pending (.returns (.took (some ch.status) v.received) ch' w)
  | nothing {status} : pending = [] →
      ChannelEffect lua ch pending (.returns (.nothing status) ch .none)
  | waits : ch.closed = false → pending = [] → ChannelEffect lua ch pending (.waits ch)
  | closed {ch' w} : ch'.Holds lua pending → ch'.closed = true →
      (ch.drained = true → ch'.drained = true) → (ch.closed = false → w = .all) →
      ChannelEffect lua ch pending (.returns .closed ch' w)

/-- No pass has another effect; in particular none fails. -/
theorem channelPass_effect (hl : lua.Rebuilds) {k : Call P} {ch : Channel}
    {o : Outcome Channel (Reply P)} {pending : List (Value P)} (h : ch.Holds lua pending)
    (hfit : CountFits k ch.toQueue) (hp : channelPass lua k ch o) :
    ChannelEffect lua ch pending o := by
  cases k with
  | write vs =>
    obtain ⟨_, hwf, status, ch', hy, rfl⟩ := hp
    rcases channelWrite_holds h hwf hfit hy with ⟨rfl, hc, hc', h'⟩ | ⟨hne, hc, rfl⟩
    · rw [if_pos rfl]
      exact .wrote hc hc' h'
    · rw [if_neg hne]
      exact .refused hc
  | read doNotBlock stack =>
    obtain ⟨_, r, hy, hreply⟩ := hp
    rcases channelRead_holds hl h doNotBlock stack with
      ⟨v, rest, ch', wakesAll, hpend, h', hc, hy'⟩ | ⟨hpend, hc, hy'⟩ | ⟨hpend, hc, hy'⟩
    · rw [hy.unique hy'] at hreply
      cases hreply with
      | took => exact .took hpend h' hc
      | failed hno => exact absurd ⟨_, rfl, rfl⟩ hno
    · rw [hy.unique hy'] at hreply
      cases hreply
      exact .nothing hpend
    · rw [hy.unique hy'] at hreply
      cases doNotBlock with
      | true =>
        cases hreply
        exact .nothing hpend
      | false =>
        cases hreply
        exact .waits hc hpend
  | close =>
    obtain ⟨_, rfl⟩ := hp
    obtain ⟨h', hc', hd, hw⟩ := channelClose_holds h
    exact .closed h' hc' hd hw

/-! ### Every run -/

/-- A pass that does not overflow the counter. -/
def countedPass (lua : Lua P) (k : Call P) (ch : Channel) (o : Outcome Channel (Reply P)) : Prop :=
  channelPass lua k ch o ∧ CountFits k ch.toQueue

/-- Nothing is added after a close, and what is read then comes with `STATUS_CLOSED`. -/
def AfterClose (a b : Reply P) : Prop :=
  a = .closed → b.adds = [] ∧ ∀ status v, b = .took status v → status = some .CLOSED

/-- The life of a channel, as its state and the replies given so far show it. -/
structure Lifecycle {T : Type} (lua : Lua P) (as : List (Reply P))
    (s : Shared T Channel (Call P)) : Prop where
  drained_iff : s.obj.drained = true ↔ s.obj.closed = true ∧ s.obj.numItems = 0
  closed_iff : s.obj.closed = true ↔ .closed ∈ as
  after_close : as.Pairwise AfterClose
  no_failure : .failed ∉ as
  /-- The values taken are the oldest ones written, the next read takes the oldest
  that is left, and the channel is not drained before the last. -/
  delivered : ∃ taken pending, as.flatMap Reply.adds = taken ++ pending ∧
    as.flatMap Reply.takes = taken.map Value.received ∧
    (s.obj.drained = true → pending = []) ∧
    ∀ v rest, pending = v :: rest → ∀ doNotBlock stack, ∃ ch' wakesAll,
      Yields (channelRead lua doNotBlock stack s.obj) (.value (some s.obj.status) 1
        (v.received :: s.obj.status.value lua.versionNum :: stack) ch' wakesAll)
  no_waiter : s.obj.closed = true → ∀ t k, s.thread t ≠ .waiting k

/-- The part of the invariant that is about the object and the replies. -/
structure History (lua : Lua P) (as : List (Reply P)) (ch : Channel) : Prop where
  holds : ∃ pending, ch.Holds lua pending
  closed_iff : ch.closed = true ↔ .closed ∈ as
  after_close : as.Pairwise AfterClose
  no_failure : .failed ∉ as

theorem History.snoc {as : List (Reply P)} {ch ch' : Channel} {pending : List (Value P)}
    {a : Reply P} {w : Wake} (h : History lua as ch)
    (he : ChannelEffect lua ch pending (.returns a ch' w)) : History lua (as ++ [a]) ch' := by
  have hpair : (ch.closed = true → a.adds = [] ∧
      ∀ status v, a = .took status v → status = some .CLOSED) →
        (as ++ [a]).Pairwise AfterClose := by
    intro hlate
    refine List.pairwise_append.mpr ⟨h.after_close, List.pairwise_singleton _ _, ?_⟩
    rintro b hb _ ha rfl
    rw [List.mem_singleton.mp ha]
    exact hlate (h.closed_iff.mpr hb)
  cases he with
  | wrote hc hc' h' =>
    refine ⟨⟨_, h'⟩, ?_, hpair (fun hcl => by rw [hc] at hcl; exact absurd hcl nofun), ?_⟩
    · have := h.closed_iff
      simp_all
    · simpa using h.no_failure
  | refused hc =>
    refine ⟨h.holds, ?_, hpair fun _ => ⟨rfl, nofun⟩, ?_⟩
    · simpa using h.closed_iff
    · simpa using h.no_failure
  | took hpend h' hc =>
    refine ⟨⟨_, h'⟩, ?_, hpair fun hcl => ⟨rfl, ?_⟩, ?_⟩
    · rw [hc]
      simpa using h.closed_iff
    · intro status v he
      cases he
      simp [Channel.status, hcl]
    · simpa using h.no_failure
  | nothing _ =>
    refine ⟨h.holds, ?_, hpair fun _ => ⟨rfl, nofun⟩, ?_⟩
    · simpa using h.closed_iff
    · simpa using h.no_failure
  | closed h' hc' _ _ =>
    refine ⟨⟨_, h'⟩, ?_, hpair fun _ => ⟨rfl, nofun⟩, ?_⟩
    · simp [hc']
    · simpa using h.no_failure

/-- A pass never opens a channel again, and never fills a drained one. -/
theorem ChannelEffect.mono {ch ch' : Channel} {pending : List (Value P)} {a : Reply P} {w : Wake}
    (h : ch.Holds lua pending) (he : ChannelEffect lua ch pending (.returns a ch' w)) :
    (ch.closed = true → ch'.closed = true) ∧ (ch.drained = true → ch'.drained = true) := by
  cases he with
  | wrote hc _ _ =>
    refine ⟨fun hcl => by rw [hc] at hcl; exact absurd hcl nofun, fun hd => ?_⟩
    have := (h.drained_iff.mp hd).1
    rw [hc] at this
    exact absurd this nofun
  | refused _ => exact ⟨id, id⟩
  | took hpend _ hc =>
    refine ⟨fun hcl => hc.trans hcl, fun hd => ?_⟩
    have h0 := h.stored.numItems_eq_zero.mp (h.drained_iff.mp hd).2
    rw [hpend] at h0
    exact absurd h0 nofun
  | nothing _ => exact ⟨id, id⟩
  | closed _ hc' hd _ => exact ⟨fun _ => hc', hd⟩

variable {T : Type} [DecidableEq T]

theorem history_run (hl : lua.Rebuilds) {es : List (Option (Reply P))}
    {s : Shared T Channel (Call P)}
    (hrun : Run (Step (countedPass lua)) (start channelCreate) es s) :
    History lua (replies es) s.obj := by
  refine run_invariant hrun ?_ ?_ ?_
  · exact ⟨⟨[], channelCreate_holds lua⟩, by simp [channelCreate], List.Pairwise.nil, by simp⟩
  · rintro as k ch a ch' w hI ⟨hp, hfit⟩
    obtain ⟨pending, hholds⟩ := hI.holds
    exact hI.snoc (channelPass_effect hl hholds hfit hp)
  · rintro as k ch ch' hI ⟨hp, hfit⟩
    obtain ⟨pending, hholds⟩ := hI.holds
    cases channelPass_effect hl hholds hfit hp
    exact hI

theorem closed_drained_mono (hl : lua.Rebuilds) {es es' : List (Option (Reply P))}
    {s s' : Shared T Channel (Call P)}
    (hrun : Run (Step (countedPass lua)) (start channelCreate) es s)
    (hrun' : Run (Step (countedPass lua)) s es' s') :
    (s.obj.closed = true → s'.obj.closed = true) ∧
      (s.obj.drained = true → s'.obj.drained = true) := by
  induction hrun' with
  | nil => exact ⟨id, id⟩
  | snoc hpre hstep ih =>
    obtain ⟨pending, hholds⟩ := (history_run hl (hrun.append hpre)).holds
    cases hstep with
    | returns _ hp _ =>
      have hmono := (channelPass_effect hl hholds hp.2 hp.1).mono hholds
      exact ⟨fun hc => hmono.1 (ih.1 hc), fun hd => hmono.2 (ih.2 hd)⟩
    | waits _ hp =>
      cases channelPass_effect hl hholds hp.2 hp.1
      exact ih
    | spurious _ => exact ih

theorem channel_fifo (hl : lua.Rebuilds) {es : List (Option (Reply P))}
    {s : Shared T Channel (Call P)}
    (hrun : Run (Step (countedPass lua)) (start channelCreate) es s) :
    ∃ taken pending, (replies es).flatMap Reply.adds = taken ++ pending ∧
      (replies es).flatMap Reply.takes = taken.map Value.received ∧ s.obj.Holds lua pending := by
  apply fifo_run hrun (channelCreate_holds lua)
  · rintro k ch a ch' w pending hholds ⟨hp, hfit⟩
    cases channelPass_effect hl hholds hfit hp with
    | @wrote vs _ _ _ h' => exact ⟨[], pending ++ vs, rfl, rfl, h'⟩
    | refused _ => exact ⟨[], pending, List.append_nil _, rfl, hholds⟩
    | @took v rest _ _ hpend h' _ => exact ⟨[v], rest, by rw [hpend]; simp [Reply.adds], rfl, h'⟩
    | nothing _ => exact ⟨[], pending, List.append_nil _, rfl, hholds⟩
    | closed h' _ _ _ => exact ⟨[], pending, List.append_nil _, rfl, h'⟩
  · rintro k ch ch' pending hholds ⟨hp, hfit⟩
    cases channelPass_effect hl hholds hfit hp
    exact hholds

theorem channel_no_waiter (hl : lua.Rebuilds) {es : List (Option (Reply P))}
    {s : Shared T Channel (Call P)}
    (hrun : Run (Step (countedPass lua)) (start channelCreate) es s) :
    s.obj.closed = true → ∀ t k, s.thread t ≠ .waiting k := by
  refine run_no_waiter (fun ch : Channel => ch.closed = true) hrun
    (fun es s hrun => history_run hl hrun) ?_ ?_
  · rintro as k ch a ch' w hI ⟨hp, hfit⟩ hc'
    obtain ⟨pending, hholds⟩ := hI.holds
    cases hc : ch.closed with
    | true => exact Or.inl rfl
    | false =>
      right
      cases channelPass_effect hl hholds hfit hp with
      | wrote _ hopen _ => rw [hopen] at hc'; exact absurd hc' nofun
      | refused hcl => rw [hc] at hcl; exact absurd hcl nofun
      | took _ _ hsame => rw [hsame, hc] at hc'; exact absurd hc' nofun
      | nothing _ => rw [hc] at hc'; exact absurd hc' nofun
      | closed _ _ _ hw => exact hw hc
  · rintro as k ch ch' hI ⟨hp, hfit⟩
    obtain ⟨pending, hholds⟩ := hI.holds
    cases channelPass_effect hl hholds hfit hp with
    | waits hc _ => simp [hc]

/-- In every run of any number of threads in which the counter does not overflow, the
channel lives as documented, and neither flag is ever taken back. -/
theorem channel_lifecycle (hl : lua.Rebuilds) {es : List (Option (Reply P))}
    {s : Shared T Channel (Call P)}
    (hrun : Run (Step (countedPass lua)) (start channelCreate) es s) :
    Lifecycle lua (replies es) s ∧
      ∀ es' s', Run (Step (countedPass lua)) s es' s' →
        (s.obj.closed = true → s'.obj.closed = true) ∧
          (s.obj.drained = true → s'.obj.drained = true) := by
  have hhist := history_run hl hrun
  obtain ⟨taken, pending, hadds, htakes, hholds⟩ := channel_fifo hl hrun
  refine ⟨⟨hholds.drained_iff, hhist.closed_iff, hhist.after_close, hhist.no_failure, ?_,
    channel_no_waiter hl hrun⟩, fun es' s' hrun' => closed_drained_mono hl hrun hrun'⟩
  refine ⟨taken, pending, hadds, htakes, fun hd => ?_, fun v rest hpend => hholds.read_head hl hpend⟩
  exact hholds.stored.numItems_eq_zero.mp (hholds.drained_iff.mp hd).2

end

/-! ### The counter -/

theorem wakes_idle (w : Wake) : Wakes w (Function.update (fun _ : Unit => Activity.idle) () .idle)
    (fun _ : Unit => (.idle : Activity (Call UInt8))) := by
  cases w with
  | none => exact funext fun _ => rfl
  | one => exact ⟨fun t => Or.inl rfl, nofun⟩
  | all => exact fun t => rfl

/-- One thread that has written `n` times one nil. -/
structure NilWrites (n : ℕ) (as : List (Reply UInt8))
    (s : Shared Unit Channel (Call UInt8)) : Prop where
  replies_eq : as = List.replicate n (.wrote [.nil])
  valid : s.obj.rb.Valid
  numItems_eq : s.obj.numItems = UInt32.ofNat n
  locks : s.obj.locks = 0
  closed : s.obj.closed = false
  drained : s.obj.drained = false
  idle : s.thread = fun _ => .idle

theorem nilWrites_start : NilWrites 0 [] (start channelCreate) :=
  ⟨rfl, Ringbuffer.create_valid (by decide), rfl, rfl, rfl, rfl, rfl⟩

theorem NilWrites.write {n : ℕ} {as : List (Reply UInt8)} {s : Shared Unit Channel (Call UInt8)}
    (h : NilWrites n as s) : ∃ s',
      channelPass sampleLua (.write [.nil]) s.obj (.returns (.wrote [.nil]) s'.obj .one) ∧
      Wakes .one (Function.update s.thread () .idle) s'.thread ∧
      NilWrites (n + 1) (as ++ [.wrote [.nil]]) s' := by
  obtain ⟨q', hq', hw, m, hm⟩ := queueWrite_nil sampleLua
    (show 1 ≤ DEFAULT_CHANNEL_SIZE by decide) (by decide) s.obj.toQueue h.valid
  refine ⟨⟨{ s.obj with toQueue := q' }, fun _ => .idle⟩, ⟨h.locks, ?_, .OPEN, _, ⟨m, ?_⟩, rfl⟩, ?_, ?_⟩
  · simp [Value.Wf, Value.parts, Value.WfNode]
  · intro fuel hf
    have hdone := hm fuel hf
    simp only at hdone
    simp [channelWrite, h.closed, h.drained, hdone]
  · rw [h.idle]
    exact wakes_idle .one
  · refine ⟨?_, hq', ?_, hw.locks_eq.trans h.locks, h.closed, h.drained, rfl⟩
    · rw [h.replies_eq, List.replicate_succ']
    · rw [hw.numItems_eq, h.numItems_eq, UInt32.ofNat_add]
      rfl

theorem nilWrites_run (n : ℕ) : ∃ es s,
    Run (Step (channelPass sampleLua)) (start channelCreate) es s ∧ NilWrites n (replies es) s := by
  induction n with
  | zero => exact ⟨[], _, .nil, nilWrites_start⟩
  | succ n ih =>
    obtain ⟨es, s, hrun, hs⟩ := ih
    obtain ⟨s', hp, hw, hs'⟩ := hs.write
    refine ⟨es ++ [some (.wrote [.nil])], s', hrun.snoc (.returns (Or.inl ?_) hp hw), ?_⟩
    · exact congrFun hs.idle ()
    · rwa [replies_some]

theorem NilWrites.close {n : ℕ} {as : List (Reply UInt8)} {s : Shared Unit Channel (Call UInt8)}
    (h : NilWrites n as s) : ∃ s', Step (channelPass sampleLua) s (some .closed) s' ∧
      s'.obj = (channelClose s.obj).1 := by
  have hp : channelPass sampleLua .close s.obj
      (.returns .closed (channelClose s.obj).1 (channelClose s.obj).2) := ⟨h.locks, rfl⟩
  refine ⟨⟨(channelClose s.obj).1, fun _ => .idle⟩,
    .returns (Or.inl (congrFun h.idle ())) hp ?_, rfl⟩
  rw [h.idle]
  exact wakes_idle _

/-- A channel that got one item. -/
theorem channel_lifecycle_nil : ∃ es s,
    Run (Step (countedPass sampleLua)) (start channelCreate) es s ∧
      replies es = [.wrote [.nil]] ∧ Lifecycle (T := Unit) sampleLua (replies es) s := by
  obtain ⟨s', hp, hw, hs'⟩ := nilWrites_start.write
  have hrun : Run (Step (countedPass sampleLua)) (start channelCreate) [some (.wrote [.nil])] s' :=
    Run.nil.snoc (.returns (Or.inl rfl) ⟨hp, show 0 + 1 < 2 ^ 32 by decide⟩ hw)
  exact ⟨_, s', hrun, rfl, (channel_lifecycle sampleLua_rebuilds hrun).1⟩

/-- After `2 ^ 32` writes the counter is zero: the close takes the channel for empty,
and none of the items is ever returned. -/
theorem channel_counter_wraps : ∃ es s,
    Run (Step (channelPass sampleLua)) (start channelCreate) es s ∧
      s.obj.drained = true ∧ (replies es).flatMap Reply.takes = [] ∧
      ¬ Lifecycle (T := Unit) sampleLua (replies es) s := by
  obtain ⟨es, s, hrun, hs⟩ := nilWrites_run (2 ^ 32)
  obtain ⟨s', hstep, hobj⟩ := hs.close
  have hzero : s.obj.numItems = 0 := hs.numItems_eq.trans (by decide)
  have hdrained : s'.obj.drained = true := by
    rw [hobj, channelClose, hs.closed]
    simp [hzero]
  have hreplies : replies (es ++ [some .closed]) =
      List.replicate (2 ^ 32) (.wrote [.nil]) ++ [.closed] := by
    rw [replies_some, hs.replies_eq]
  have htakes : (replies (es ++ [some .closed])).flatMap Reply.takes = [] := by
    rw [hreplies, List.flatMap_eq_nil_iff]
    intro a ha
    rcases List.mem_append.mp ha with ha | ha
    · rw [List.eq_of_mem_replicate ha]
      rfl
    · rw [List.mem_singleton.mp ha]
      rfl
  refine ⟨_, s', hrun.snoc hstep, hdrained, htakes, fun hlife => ?_⟩
  obtain ⟨taken, pending, hadds, htaken, hall, _⟩ := hlife.delivered
  rw [htakes] at htaken
  rw [List.map_eq_nil_iff.mp htaken.symm, hall hdrained, hreplies, List.append_nil,
    List.flatMap_eq_nil_iff] at hadds
  have hfirst : Reply.wrote [.nil] ∈ List.replicate (2 ^ 32) (Reply.wrote [.nil]) ++
      [(.closed : Reply UInt8)] :=
    List.mem_append_left _ (List.mem_replicate.mpr ⟨by decide, rfl⟩)
  exact absurd (hadds _ hfirst) nofun

end TorchIpc
