import TorchIpc.Queue.Wakeups

/-! Readers and writers of a queue, a workqueue direction or a channel, over whole runs.
Writes may have any number of arguments and may fail; readers wait and are notified.
Proved here: as long as every write notifies as many readers as the single writes of its
arguments would, no reader is blocked while there are more items than notified
readers. -/

namespace TorchIpc

open Runs Monitor

section
variable {P : Type}

inductive QueueCall (P : Type) where
  | write (upval : Bool) (vs : List (Value P))
  | read (doNotBlock : Bool) (stack : List (Value P))
  | close

def QueueCall.CanWait : QueueCall P → Prop
  | .read doNotBlock _ => doNotBlock = false
  | _ => False

/-- The outcome of a pass without its reply. -/
def forget {C A : Type} : Outcome C A → Outcome C Unit
  | .returns _ c w => .returns () c w
  | .waits c => .waits c

variable (lua : Lua P)

/-- The passes of a workqueue direction. -/
def directionPass (inc : ℕ) : QueueCall P → Queue → Outcome Queue Unit → Prop
  | .write upval vs, q, o =>
    q.locks = 0 ∧ (∀ v ∈ vs, v.DeepWf lua) ∧ ∃ q' w, Writes lua upval inc vs q q' w ∧
      o = .returns () q' w
  | .read doNotBlock stack, q, o =>
    q.locks = 0 ∧ ∃ r o', Yields (workqueueQueueRead lua doNotBlock stack q) r ∧
      r.Replies stack o' ∧
      o = forget o'
  | .close, _, _ => False

/-- A write on a channel that comes to an end: the channel it leaves, and whom it wakes. -/
def ChannelWriteOutcome.Ends : ChannelWriteOutcome → Channel → Wake → Prop
  | .status answer ch, ch', w => ch = ch' ∧ w = if answer = .OPEN then .one else .none
  | .error _ ch, ch', w => ch = ch' ∧ w = .none
  | .raised _ ch, ch', w => ch = ch' ∧ w = .none
  | _, _, _ => False

def ChannelWrites (vs : List (Value P)) (ch ch' : Channel) (w : Wake) : Prop :=
  ∃ o, Yields (channelWrite lua vs ch) o ∧ o.Ends ch' w

def channelCallPass : QueueCall P → Channel → Outcome Channel Unit → Prop
  | .write upval vs, ch, o =>
    ch.locks = 0 ∧ upval = false ∧ (∀ v ∈ vs, v.DeepWf lua) ∧
      ∃ ch' w, ChannelWrites lua vs ch ch' w ∧ o = .returns () ch' w
  | .read doNotBlock stack, ch, o =>
    ch.locks = 0 ∧ ∃ r o', Yields (channelRead lua doNotBlock stack ch) r ∧
      r.Replies (ch.status.value lua.versionNum :: stack) o' ∧ o = forget o'
  | .close, ch, o => ch.locks = 0 ∧ o = .returns () (channelClose ch).1 (channelClose ch).2

end

/-! ### The items, with or without upvalues -/

section
variable {P : Type} {lua : Lua P}

/-- The queue keeps the values `pending`, each saved with or without its upvalues. -/
structure Kept (lua : Lua P) (q : Queue) (pending : List (Bool × Value P)) : Prop where
  sound : q.rb.Sound
  content_eq : q.rb.content = pending.flatMap fun x => encode lua false x.1 x.2
  count : q.numItems = UInt32.ofNat pending.length
  wf : ∀ x ∈ pending, x.2.DeepWf lua
  ok : ∀ x ∈ pending, (script lua false x.1 x.2).fin = .ok

/-- What a write that succeeded, or the part of one that did, adds. -/
theorem Kept.append {q q' : Queue} {pending : List (Bool × Value P)} (h : Kept lua q pending)
    {upval : Bool} {vs : List (Value P)} (hwf : ∀ v ∈ vs, v.DeepWf lua) (hw : Wrote lua upval q vs q') :
    Kept lua q' (pending ++ vs.map fun v => (upval, v)) where
  sound := hw.sound
  content_eq := by
    rw [hw.content_eq, h.content_eq, List.flatMap_append, List.flatMap_map]
  count := by
    rw [hw.numItems_eq, h.count, List.length_append, List.length_map, UInt32.ofNat_add]
  wf x hx := by
    rcases List.mem_append.mp hx with hx | hx
    · exact h.wf x hx
    · obtain ⟨v, hv, rfl⟩ := List.mem_map.mp hx
      exact hwf v hv
  ok x hx := by
    rcases List.mem_append.mp hx with hx | hx
    · exact h.ok x hx
    · obtain ⟨v, hv, rfl⟩ := List.mem_map.mp hx
      exact hw.all_ok v hv

theorem Kept.exists_first {q : Queue} {pending : List (Bool × Value P)} (h : Kept lua q pending)
    (hne : q.numItems ≠ 0) : ∃ x rest, pending = x :: rest := by
  cases pending with
  | nil => exact absurd h.count hne
  | cons x rest => exact ⟨x, rest, rfl⟩

theorem Kept.load (hl : lua.Rebuilds) {q : Queue} {x : Bool × Value P} {rest : List (Bool × Value P)}
    (h : Kept lua q (x :: rest)) (stack : List (Value P)) :
    ∃ rb, Yields (fun fuel => rbLoad lua fuel q.rb stack) (.ret 1 rb (x.2.loaded lua :: stack)) ∧
      ∀ q' : Queue, q'.rb = rb → q'.numItems = q.numItems - 1 → Kept lua q' rest := by
  have hok := h.ok x List.mem_cons_self
  have hc : q.rb.content = encode lua false x.1 x.2 ++ rest.flatMap fun x =>
    encode lua false x.1 x.2 :=
    h.content_eq
  have hv : q.rb.Valid := by
    refine h.sound.resolve_right fun h0 => ?_
    rw [h0, Ringbuffer.create_content] at hc
    exact encode_ne_nil hok (List.append_eq_nil_iff.mp hc.symm).1
  obtain ⟨rb, hrb, hy⟩ := rbLoad_stored hl (h.wf x List.mem_cons_self) hok ⟨hv, hc⟩ stack
  refine ⟨rb, hy, fun q' hq' hn => ⟨?_, ?_, ?_, ?_, ?_⟩⟩
  · rw [hq']
    exact Or.inl hrb.valid
  · rw [hq']
    exact hrb.content_eq
  · rw [hn, h.count, List.length_cons, UInt32.ofNat_add]
    exact UInt32.add_sub_cancel _ _
  · exact fun y hy => h.wf y (List.mem_cons_of_mem _ hy)
  · exact fun y hy => h.ok y (List.mem_cons_of_mem _ hy)

theorem numItems_pred {n : UInt32} (h : n ≠ 0) : (n - 1).toNat + 1 = n.toNat := by
  have hpos : n.toNat ≠ 0 := fun h0 => h (UInt32.toNat_inj.mp h0)
  have hle : (1 : UInt32) ≤ n := by
    rw [UInt32.le_iff_toNat_le]
    change 1 ≤ n.toNat
    omega
  rw [UInt32.toNat_sub_of_le n 1 hle]
  change n.toNat - 1 + 1 = _
  omega

/-- After a write: the queue keeps its items, or the mutex is held for ever. -/
theorem Kept.writes {q q' : Queue} {pending : List (Bool × Value P)} (h : Kept lua q pending)
    {upval : Bool} {inc : ℕ} {vs : List (Value P)} {w : Wake} (hwf : ∀ v ∈ vs, v.DeepWf lua)
    (hw : Writes lua upval inc vs q q' w) (hfree : q'.locks = 0) :
    ∃ pending', Kept lua q' pending' := by
  obtain ⟨o, hy, he⟩ := hw
  obtain ⟨fuel, ho⟩ := hy.exists
  have hspec := writeLoop_spec lua upval inc fuel vs 2 (vs.length + 1) (pthreadMutexLock q) h.sound
    (by omega)
  rw [queueWrite] at ho
  generalize writeLoop lua upval inc fuel vs 2 (vs.length + 1) (pthreadMutexLock q) = o' at hspec ho
  cases hspec with
  | @done q₁ hw =>
    subst ho
    obtain ⟨rfl, rfl⟩ := he
    exact ⟨_, h.append hwf ⟨hw.sound, hw.content_eq, hw.numItems_eq, by
      rw [pthreadMutexUnlock, hw.locks_eq]; rfl, hw.all_ok⟩⟩
  | @error q₁ before bad after e place hvs _ _ hw =>
    subst ho
    obtain ⟨rfl, rfl⟩ := he
    refine ⟨_, h.append (fun v hv => hwf v ?_) ⟨hw.sound, hw.content_eq, hw.numItems_eq, by
      rw [pthreadMutexUnlock, hw.locks_eq]; rfl, hw.all_ok⟩⟩
    rw [hvs]
    exact List.mem_append_left _ hv
  | @raised q₁ q₂ before bad after e hvs _ _ hlocks =>
    subst ho
    obtain ⟨rfl, rfl⟩ := he
    rw [hlocks] at hfree
    exact absurd hfree (Nat.succ_ne_zero _)
  | @stackCheck q₂ loc hlocks =>
    subst ho
    obtain ⟨rfl, rfl⟩ := he
    rw [hlocks] at hfree
    exact absurd hfree (Nat.succ_ne_zero _)
  | undefined => subst ho; exact he.elim
  | diverges => subst ho; exact he.elim
  | timeout => subst ho; exact he.elim

/-! ### What a write adds -/

theorem writeLoop_fails {upval : Bool} {inc fuel : ℕ} {v : Value P} {index height : ℕ} {q q' : Queue}
    (h : (writeLoop lua upval inc fuel [v] index height q).Ends q' .none) :
    q'.numItems = q.numItems := by
  induction fuel generalizing height q with
  | zero => exact h.elim
  | succ fuel ih =>
    rw [writeLoop] at h
    split at h
    · split_ifs at h
      · split at h
        · have hnum := ih h
          exact hnum
        · exact h.elim
      · obtain ⟨rfl, -⟩ := h
        rfl
      · cases fuel with
        | zero => exact h.elim
        | succ fuel => cases h.2
    · obtain ⟨rfl, -⟩ := h
      rfl
    · exact h.elim
    · exact h.elim

/-- One argument that is not written is not counted. -/
theorem Writes.fails {upval : Bool} {inc : ℕ} {v : Value P} {q q' : Queue}
    (h : Writes lua upval inc [v] q q' .none) : q'.numItems = q.numItems := by
  obtain ⟨o, hy, he⟩ := h
  obtain ⟨fuel, rfl⟩ := hy.exists
  have hfails : ∀ q', (writeLoop lua upval inc fuel [v] 2 2 (pthreadMutexLock q)).Ends q' .none →
      q'.numItems = (pthreadMutexLock q).numItems := fun q' h => writeLoop_fails h
  unfold queueWrite at he
  generalize writeLoop lua upval inc fuel [v] 2 2 (pthreadMutexLock q) = o at he hfails
  cases o with
  | done q₁ => cases he.2
  | error code q₁ =>
    obtain ⟨rfl, -⟩ := he
    exact hfails q₁ ⟨rfl, rfl⟩
  | raised e q₁ =>
    obtain ⟨rfl, -⟩ := he
    exact hfails q₁ ⟨rfl, rfl⟩
  | _ => exact he.elim

/-- A write that notifies as many readers as the single ones is considerate. -/
theorem Writes.considerate {upval : Bool} {inc : ℕ} {vs : List (Value P)} {q q' : Queue} {w : Wake}
    (hrb : q.rb.Sound) (h : Writes lua upval inc vs q q' w) {r : Waiters}
    (hcov : NotifiesAll lua upval r vs) :
    r.waiting = 0 ∨ q'.numItems.toNat ≤ q.numItems.toNat ∨
      w = .one ∧ (q'.numItems.toNat ≤ q.numItems.toNat + 1 ∨ r.waiting = 1) := by
  rcases hcov with hnobody | hlength | ⟨hone, hne, hvs⟩ | ⟨v, rest, rfl, hfin⟩
  · exact Or.inl hnobody
  · obtain ⟨v, rfl⟩ := List.length_eq_one_iff.mp hlength
    rcases (h.single hrb).2.2 with rfl | rfl
    · right
      right
      refine ⟨rfl, Or.inl ?_⟩
      rw [(h.wrote hrb).numItems_eq, UInt32.toNat_add]
      exact Nat.mod_le _ _
    · exact Or.inr (Or.inl (by rw [h.fails]))
  · obtain ⟨r', heach⟩ := h.each r
    exact Or.inr (Or.inr ⟨(heach.serialisable hrb).2 hvs, Or.inr hone⟩)
  · obtain ⟨q₁, w₁, h₁⟩ := h.alone
    rcases h₁.cons_iff.mp h with ⟨rfl, -⟩ | ⟨rfl, rfl, -⟩
    · exact absurd ((h₁.single hrb).1 rfl).1 hfin
    · exact Or.inr (Or.inl (by rw [h₁.fails]))

/-! ### Channels -/

/-- The outcome of a write on the queue of an open channel. -/
def WriteOutcome.onChannel (ch : Channel) : WriteOutcome → ChannelWriteOutcome
  | .done q => .status .OPEN { ch with toQueue := q }
  | .error code q => .error code { ch with toQueue := q }
  | .raised e q => .raised e { ch with toQueue := q }
  | .undefined => .undefined
  | .diverges => .diverges
  | .timeout => .timeout

theorem WriteOutcome.onChannel_inj {ch : Channel} (o o' : WriteOutcome) (h : o.onChannel ch = o'.onChannel ch) :
    o = o' := by
  cases o <;> cases o' <;> cases h <;> rfl

theorem WriteOutcome.onChannel_ends {ch ch' : Channel} {o : WriteOutcome} {w : Wake} :
    (o.onChannel ch).Ends ch' w ↔ ∃ q', ch' = { ch with toQueue := q' } ∧ o.Ends q' w := by
  cases o with
  | done q =>
    constructor
    · rintro ⟨rfl, hw⟩
      exact ⟨q, rfl, rfl, hw⟩
    · rintro ⟨q', rfl, rfl, hw⟩
      exact ⟨rfl, hw⟩
  | error code q =>
    constructor
    · rintro ⟨rfl, hw⟩
      exact ⟨q, rfl, rfl, hw⟩
    · rintro ⟨q', rfl, rfl, hw⟩
      exact ⟨rfl, hw⟩
  | raised e q =>
    constructor
    · rintro ⟨rfl, hw⟩
      exact ⟨q, rfl, rfl, hw⟩
    · rintro ⟨q', rfl, rfl, hw⟩
      exact ⟨rfl, hw⟩
  | _ => exact ⟨fun h => h.elim, fun ⟨_, _, h⟩ => h.elim⟩

def Channel.Shut (ch : Channel) : Prop := ch.closed = true ∨ ch.drained = true

theorem channelWrites_shut {vs : List (Value P)} {ch ch' : Channel} {w : Wake} (h : ch.Shut) :
    ChannelWrites lua vs ch ch' w ↔ ch' = ch ∧ w = .none := by
  obtain ⟨status, hne, hwrite⟩ : ∃ status, status ≠ .OPEN ∧
      ∀ fuel, channelWrite lua vs ch fuel = .status status ch := by
    by_cases hd : ch.drained = true
    · refine ⟨.DRAINED, by rintro ⟨⟩, fun fuel => ?_⟩
      rw [channelWrite, if_pos hd]
    · refine ⟨.CLOSED, by rintro ⟨⟩, fun fuel => ?_⟩
      rw [channelWrite, if_neg hd, if_pos (h.resolve_right hd)]
  have hyields : Yields (channelWrite lua vs ch) (.status status ch) :=
    ⟨0, fun fuel _ => hwrite fuel⟩
  constructor
  · rintro ⟨o, hy, he⟩
    rw [hy.unique hyields] at he
    exact ⟨he.1.symm, he.2.trans (if_neg hne)⟩
  · rintro ⟨rfl, rfl⟩
    exact ⟨_, hyields, rfl, (if_neg hne).symm⟩

/-- On an open channel it is a write on the queue. -/
theorem channelWrites_open {vs : List (Value P)} {ch ch' : Channel} {w : Wake} (h : ¬ ch.Shut) :
    ChannelWrites lua vs ch ch' w ↔ ∃ q', ch' = { ch with toQueue := q' } ∧
      Writes lua false DEFAULT_CHANNEL_SIZE vs ch.toQueue q' w := by
  obtain ⟨hc, hd⟩ := not_or.mp h
  have hwrite : channelWrite lua vs ch = fun fuel =>
      (queueWrite lua false DEFAULT_CHANNEL_SIZE fuel vs ch.toQueue).onChannel ch := by
    funext fuel
    rw [channelWrite, if_neg hd, if_neg hc]
    cases queueWrite lua false DEFAULT_CHANNEL_SIZE fuel vs ch.toQueue <;> rfl
  simp only [ChannelWrites, hwrite, yields_map_iff WriteOutcome.onChannel_inj]
  constructor
  · rintro ⟨_, ⟨o, rfl, hy⟩, he⟩
    obtain ⟨q', hq', he'⟩ := WriteOutcome.onChannel_ends.mp he
    exact ⟨q', hq', o, hy, he'⟩
  · rintro ⟨q', hq', o, hy, he⟩
    exact ⟨_, ⟨o, rfl, hy⟩, WriteOutcome.onChannel_ends.mpr ⟨q', hq', he⟩⟩

/-- The single writes on an open channel are those on its queue. -/
theorem writesEach_open {vs : List (Value P)} {ch ch' : Channel} {r r' : Waiters} {w : Wake}
    (h : ¬ ch.Shut) :
    WritesEach (ChannelWrites lua) vs ch r ch' r' w ↔ ∃ q', ch' = { ch with toQueue := q' } ∧
      WritesEach (Writes lua false DEFAULT_CHANNEL_SIZE) vs ch.toQueue r q' r' w := by
  constructor
  · intro heach
    induction heach with
    | nil => exact ⟨_, rfl, .nil⟩
    | cons h₁ _ ih =>
      obtain ⟨q₁, rfl, hq₁⟩ := (channelWrites_open h).mp h₁
      obtain ⟨q', rfl, hq'⟩ := ih h
      exact ⟨q', rfl, .cons hq₁ hq'⟩
    | fails h₁ =>
      obtain ⟨q₁, rfl, hq₁⟩ := (channelWrites_open h).mp h₁
      exact ⟨q₁, rfl, .fails hq₁⟩
  · rintro ⟨q', rfl, heach⟩
    generalize hq : ch.toQueue = q at heach
    induction heach generalizing ch with
    | nil =>
      rw [← hq]
      exact .nil
    | @cons v vs q r q₁ q' r' w h₁ _ ih =>
      rw [← hq] at h₁
      have hch : ChannelWrites lua [v] ch { ch with toQueue := q₁ } .one :=
        (channelWrites_open h).mpr ⟨q₁, rfl, h₁⟩
      exact .cons hch (@ih { ch with toQueue := q₁ } h rfl)
    | fails h₁ =>
      rw [← hq] at h₁
      exact .fails ((channelWrites_open h).mpr ⟨_, rfl, h₁⟩)

/-! ### What every run keeps -/

/-- Whoever gets the mutex finds whole items. -/
def Queue.Intact (lua : Lua P) (q : Queue) : Prop := q.locks = 0 → ∃ pending, Kept lua q pending

/-- The readers that are blocked notice what a write adds. -/
def QueueCovered (lua : Lua P) (s : Crowd Queue) : CrowdEvent (QueueCall P) → Prop
  | .pass (.write upval vs) _ => NotifiesAll lua upval s.waiters vs
  | _ => True

def ChannelCovered (lua : Lua P) (s : Crowd Channel) : CrowdEvent (QueueCall P) → Prop
  | .pass (.write upval vs) _ => s.obj.Shut ∨ NotifiesAll lua upval s.waiters vs
  | _ => True

/-- What one pass of a read does on a queue of whole items. -/
theorem Kept.read (hl : lua.Rebuilds) {q : Queue} {pending : List (Bool × Value P)} (h : Kept lua q pending)
    (doNotBlock : Bool) (stack : List (Value P)) :
    (∃ q' v, Yields (workqueueQueueRead lua doNotBlock stack q) (.value none 1 (v :: stack) q' false) ∧
      q'.Intact lua ∧ q'.numItems.toNat + 1 = q.numItems.toNat) ∨
    (q.numItems = 0 ∧ Yields (workqueueQueueRead lua doNotBlock stack q)
      (if doNotBlock then .nothing none q else .wait q)) := by
  by_cases hzero : q.numItems = 0
  · right
    refine ⟨hzero, 0, fun fuel _ => ?_⟩
    simp only [workqueueQueueRead]
    rw [if_neg (by simp [pthreadMutexLock, hzero]), unlock_lock]
  · left
    obtain ⟨x, rest, rfl⟩ := h.exists_first hzero
    obtain ⟨rb, ⟨n, hn⟩, hrest⟩ := h.load hl stack
    refine ⟨{ q with rb := rb, numItems := q.numItems - 1 }, x.2.loaded lua, ⟨n, fun fuel hf => ?_⟩,
      fun _ => ⟨rest, hrest _ rfl rfl⟩, numItems_pred hzero⟩
    have hload : rbLoad lua fuel (pthreadMutexLock q).rb stack =
        .ret 1 rb (x.2.loaded lua :: stack) :=
      hn fuel hf
    simp only [workqueueQueueRead, hload]
    rw [if_pos (show (pthreadMutexLock q).numItems ≠ 0 from hzero)]
    rfl

theorem directionPass_considerate (hl : lua.Rebuilds) {inc : ℕ} {s : Crowd Queue} {k : QueueCall P}
    {again : Bool} {a : Unit} {q : Queue} {w : Wake} (hI : s.obj.Intact lua)
    (hcov : QueueCovered lua s (.pass k again)) (hp : directionPass lua inc k s.obj (.returns a q w)) :
    q.Intact lua ∧
      Considerate QueueCall.CanWait (fun q : Queue => q.numItems.toNat) s.waiters k s.obj q w := by
  cases k with
  | write upval vs =>
    obtain ⟨hfree, hwf, q', w', hw, ho⟩ := hp
    cases ho
    obtain ⟨pending, hkept⟩ := hI hfree
    exact ⟨hkept.writes hwf hw, fun h => h.elim, fun _ => hw.considerate hkept.sound hcov⟩
  | read doNotBlock stack =>
    obtain ⟨hfree, r, o, hy, hreply, ho⟩ := hp
    obtain ⟨pending, hkept⟩ := hI hfree
    rcases hkept.read hl doNotBlock stack with ⟨q', v, hy', hI', hless⟩ | ⟨hzero, hy'⟩
    · rw [hy.unique hy'] at hreply
      cases hreply with
      | took =>
        cases ho
        exact ⟨hI', fun _ => Or.inl hless.le,
          fun _ => Or.inr (Or.inl (Nat.le_of_succ_le hless.le))⟩
      | failed hno => exact absurd ⟨_, rfl, rfl⟩ hno
    · rw [hy.unique hy'] at hreply
      cases doNotBlock with
      | true =>
        cases hreply
        cases ho
        exact ⟨hI, fun _ => Or.inr (congrArg UInt32.toNat hzero), fun _ => Or.inr (Or.inl le_rfl)⟩
      | false =>
        cases hreply
        cases ho
  | close => exact hp.elim

theorem directionPass_waits (hl : lua.Rebuilds) {inc : ℕ} {k : QueueCall P} {q q' : Queue}
    (hI : q.Intact lua) (hp : directionPass lua inc k q (.waits q')) : q'.Intact lua ∧
    q'.numItems.toNat = 0 := by
  cases k with
  | write upval vs =>
    obtain ⟨_, _, _, _, _, ho⟩ := hp
    cases ho
  | read doNotBlock stack =>
    obtain ⟨hfree, r, o, hy, hreply, ho⟩ := hp
    obtain ⟨pending, hkept⟩ := hI hfree
    rcases hkept.read hl doNotBlock stack with ⟨q', v, hy', hI', hless⟩ | ⟨hzero, hy'⟩
    · rw [hy.unique hy'] at hreply
      cases hreply <;> cases ho
    · rw [hy.unique hy'] at hreply
      cases doNotBlock with
      | true =>
        cases hreply
        cases ho
      | false =>
        cases hreply
        cases ho
        exact ⟨hI, congrArg UInt32.toNat hzero⟩
  | close => exact hp.elim

/-- What one pass of a read does on a channel of whole items. -/
theorem Kept.channelRead (hl : lua.Rebuilds) {ch : Channel} {pending : List (Bool × Value P)}
    (h : Kept lua ch.toQueue pending) (doNotBlock : Bool) (stack : List (Value P)) :
    (∃ ch' v wakesAll, Yields (channelRead lua doNotBlock stack ch) (.value (some ch.status) 1
      (v :: ch.status.value lua.versionNum :: stack) ch' wakesAll) ∧
      ch'.Intact lua ∧ ch'.numItems.toNat + 1 = ch.numItems.toNat) ∨
    (ch.numItems = 0 ∧ ((∃ status, Yields (channelRead lua doNotBlock stack ch) (.nothing status ch)) ∨
      doNotBlock = false ∧ Yields (channelRead lua doNotBlock stack ch) (.wait ch))) := by
  obtain ⟨q, closed, drained⟩ := ch
  by_cases hzero : q.numItems = 0
  · right
    have hnum : ¬ (pthreadMutexLock q).numItems ≠ 0 := not_not.mpr hzero
    refine ⟨hzero, ?_⟩
    cases drained with
    | true =>
      refine Or.inl ⟨some .DRAINED, 0, fun fuel _ => ?_⟩
      simp only [TorchIpc.channelRead, if_neg hnum, if_true, unlock_lock]
    | false =>
      cases doNotBlock with
      | true =>
        refine Or.inl ⟨some (Channel.status ⟨q, closed, false⟩), 0, fun fuel _ => ?_⟩
        simp only [TorchIpc.channelRead, if_neg hnum, Bool.false_eq_true, if_false, if_true, unlock_lock]
        rfl
      | false =>
        refine Or.inr ⟨rfl, 0, fun fuel _ => ?_⟩
        simp only [TorchIpc.channelRead, if_neg hnum, Bool.false_eq_true, if_false, unlock_lock]
  · left
    have hnum : (pthreadMutexLock q).numItems ≠ 0 := hzero
    obtain ⟨x, rest, rfl⟩ := h.exists_first hzero
    obtain ⟨rb, ⟨n, hn⟩, hrest⟩ := h.load hl
      ((Channel.status ⟨q, closed, drained⟩).value lua.versionNum :: stack)
    refine ⟨⟨{ q with rb := rb, numItems := q.numItems - 1 }, closed, drained || (closed && q.numItems == 1)⟩,
      x.2.loaded lua, closed && q.numItems == 1, ⟨n, fun fuel hf => ?_⟩,
      fun _ => ⟨rest, hrest _ rfl rfl⟩, numItems_pred hzero⟩
    have hload : rbLoad lua fuel (pthreadMutexLock q).rb
        ((Channel.status ⟨q, closed, drained⟩).value lua.versionNum :: stack) = _ := hn fuel hf
    simp only [Channel.status] at hload
    simp only [TorchIpc.channelRead, if_pos hnum, Channel.status, hload]
    rfl

theorem channelCallPass_considerate (hl : lua.Rebuilds) {s : Crowd Channel} {k : QueueCall P}
    {again : Bool} {a : Unit} {ch : Channel} {w : Wake} (hI : s.obj.Intact lua)
    (hcov : ChannelCovered lua s (.pass k again)) (hp : channelCallPass lua k s.obj (.returns a ch w)) :
    ch.Intact lua ∧
      Considerate QueueCall.CanWait (fun ch : Channel => ch.numItems.toNat) s.waiters k s.obj ch w := by
  cases k with
  | write upval vs =>
    obtain ⟨hfree, rfl, hwf, ch', w', hw, ho⟩ := hp
    cases ho
    obtain ⟨pending, hkept⟩ := hI hfree
    by_cases hshut : s.obj.Shut
    · obtain ⟨rfl, rfl⟩ := (channelWrites_shut hshut).mp hw
      exact ⟨hI, fun h => h.elim, fun _ => Or.inr (Or.inl le_rfl)⟩
    · obtain ⟨q', rfl, hq'⟩ := (channelWrites_open hshut).mp hw
      exact ⟨hkept.writes hwf hq', fun h => h.elim,
        fun _ => hq'.considerate hkept.sound (hcov.resolve_left hshut)⟩
  | read doNotBlock stack =>
    obtain ⟨hfree, r, o, hy, hreply, ho⟩ := hp
    obtain ⟨pending, hkept⟩ := hI hfree
    rcases hkept.channelRead hl doNotBlock stack with
      ⟨ch', v, wakesAll, hy', hI', hless⟩ | ⟨hzero, ⟨status, hy'⟩ | ⟨-, hy'⟩⟩
    · rw [hy.unique hy'] at hreply
      cases hreply with
      | took =>
        cases ho
        exact ⟨hI', fun _ => Or.inl hless.le,
          fun _ => Or.inr (Or.inl (Nat.le_of_succ_le hless.le))⟩
      | failed hno => exact absurd ⟨_, rfl, rfl⟩ hno
    · rw [hy.unique hy'] at hreply
      cases hreply
      cases ho
      exact ⟨hI, fun _ => Or.inr (congrArg UInt32.toNat hzero), fun _ => Or.inr (Or.inl le_rfl)⟩
    · rw [hy.unique hy'] at hreply
      cases hreply
      cases ho
  | close =>
    obtain ⟨hfree, ho⟩ := hp
    cases ho
    have hsame : (channelClose s.obj).1.toQueue = s.obj.toQueue := by
      rw [channelClose]
      split_ifs <;> rfl
    refine ⟨?_, fun h => h.elim, fun _ => Or.inr (Or.inl ?_)⟩
    · rw [hsame]
      exact hI
    · change (channelClose s.obj).1.numItems.toNat ≤ s.obj.numItems.toNat
      rw [hsame]

theorem channelCallPass_waits (hl : lua.Rebuilds) {k : QueueCall P} {ch ch' : Channel}
    (hI : ch.Intact lua) (hp : channelCallPass lua k ch (.waits ch')) :
    ch'.Intact lua ∧ ch'.numItems.toNat = 0 := by
  cases k with
  | write upval vs =>
    obtain ⟨_, _, _, _, _, _, ho⟩ := hp
    cases ho
  | read doNotBlock stack =>
    obtain ⟨hfree, r, o, hy, hreply, ho⟩ := hp
    obtain ⟨pending, hkept⟩ := hI hfree
    rcases hkept.channelRead hl doNotBlock stack with
      ⟨ch', v, wakesAll, hy', hI', hless⟩ | ⟨hzero, ⟨status, hy'⟩ | ⟨-, hy'⟩⟩
    · rw [hy.unique hy'] at hreply
      cases hreply <;> cases ho
    · rw [hy.unique hy'] at hreply
      cases hreply
      cases ho
    · rw [hy.unique hy'] at hreply
      cases hreply
      cases ho
      exact ⟨hI, congrArg UInt32.toNat hzero⟩
  | close =>
    obtain ⟨_, ho⟩ := hp
    cases ho

/-! ### One call and the calls for the single arguments -/

/-- The call with all arguments comes to an end if the single calls do, and leaves the
same object. -/
structure AsSingles {C : Type} (write : List (Value P) → C → C → Wake → Prop) (vs : List (Value P))
    (c : C) (r : Waiters) : Prop where
  ends : (∃ c' w, write vs c c' w) ↔ ∃ c' r' w, WritesEach write vs c r c' r' w
  same : ∀ {c₁ w₁ c₂ r₂ w₂}, write vs c c₁ w₁ → WritesEach write vs c r c₂ r₂ w₂ → c₁ = c₂

/-- It notifies as many of the readers `r`. -/
def SameNotified {C : Type} (write : List (Value P) → C → C → Wake → Prop) (vs : List (Value P))
    (c : C) (r : Waiters) : Prop :=
  ∀ {c₁ w₁ c₂ r₂ w₂}, write vs c c₁ w₁ → WritesEach write vs c r c₂ r₂ w₂ →
    r₂.notified = (r.wake w₁).notified

/-- No function with an upvalue table stands in a key. -/
def KeysPlain (lua : Lua P) (upval : Bool) (vs : List (Value P)) : Prop :=
  ∀ v ∈ vs, ∀ bs, .put bs .key ∉ (script lua false upval v).items

theorem queue_asSingles (lua : Lua P) (upval : Bool) (inc : ℕ) (vs : List (Value P)) (q : Queue)
    (r : Waiters) :
    AsSingles (Writes lua upval inc) vs q r where
  ends := by
    constructor
    · rintro ⟨q', w, h⟩
      obtain ⟨r', hr'⟩ := h.each r
      exact ⟨q', r', w, hr'⟩
    · rintro ⟨q', r', w, h⟩
      exact ⟨q', w, h.writes.1⟩
  same h heach := (h.unique heach.writes.1).1

theorem queue_sameNotified {upval : Bool} {inc : ℕ} {vs : List (Value P)} {q : Queue} {r : Waiters}
    (hrb : q.rb.Sound) (hcov : NotifiesAll lua upval r vs) :
    SameNotified (Writes lua upval inc) vs q r := by
  intro _ _ _ _ _ h heach
  obtain ⟨-, rfl⟩ := h.unique heach.writes.1
  exact heach.notified hrb hcov

theorem queue_notifiesAll {upval : Bool} {inc : ℕ} {vs : List (Value P)} {q : Queue} {r : Waiters}
    (hrb : q.rb.Sound) (hkeys : KeysPlain lua upval vs) (hends : ∃ q' w, Writes lua upval inc vs q q' w)
    (hsame : SameNotified (Writes lua upval inc) vs q r) : NotifiesAll lua upval r vs := by
  obtain ⟨q', w, h⟩ := hends
  obtain ⟨r', heach⟩ := h.each r
  by_contra hcov
  exact heach.not_notified hrb hkeys hcov (hsame h heach)

/-- On a shut channel nobody is notified, and nothing changes. -/
theorem writesEach_shut {vs : List (Value P)} {ch ch' : Channel} {r r' : Waiters} {w : Wake}
    (h : ch.Shut) (heach : WritesEach (ChannelWrites lua) vs ch r ch' r' w) : ch' = ch ∧
    r' = r := by
  cases heach with
  | nil => exact ⟨rfl, rfl⟩
  | cons h₁ _ => cases ((channelWrites_shut h).mp h₁).2
  | fails h₁ => exact ⟨((channelWrites_shut h).mp h₁).1, rfl⟩

theorem channel_asSingles (lua : Lua P) (vs : List (Value P)) (ch : Channel) (r : Waiters) :
    AsSingles (ChannelWrites lua) vs ch r := by
  by_cases hshut : ch.Shut
  · have hnone : ∀ vs, ChannelWrites lua vs ch ch .none :=
      fun vs => (channelWrites_shut hshut).mpr ⟨rfl, rfl⟩
    refine ⟨⟨fun _ => ?_, fun _ => ⟨ch, _, hnone vs⟩⟩, fun h heach => ?_⟩
    · cases vs with
      | nil => exact ⟨ch, r, _, .nil⟩
      | cons v vs => exact ⟨ch, _, _, .fails (hnone [v])⟩
    · rw [(writesEach_shut hshut heach).1]
      exact ((channelWrites_shut hshut).mp h).1
  · have hqueue := queue_asSingles lua false DEFAULT_CHANNEL_SIZE vs ch.toQueue r
    constructor
    · constructor
      · rintro ⟨_, w, h⟩
        obtain ⟨q', rfl, hq'⟩ := (channelWrites_open hshut).mp h
        obtain ⟨q₁, r', w', heach⟩ := hqueue.ends.mp ⟨q', w, hq'⟩
        exact ⟨_, r', w', (writesEach_open hshut).mpr ⟨q₁, rfl, heach⟩⟩
      · rintro ⟨_, r', w, heach⟩
        obtain ⟨q', rfl, hq'⟩ := (writesEach_open hshut).mp heach
        obtain ⟨q₁, w', h⟩ := hqueue.ends.mpr ⟨q', r', w, hq'⟩
        exact ⟨_, w', (channelWrites_open hshut).mpr ⟨q₁, rfl, h⟩⟩
    · intro _ _ _ _ _ h heach
      obtain ⟨q₁, rfl, h₁⟩ := (channelWrites_open hshut).mp h
      obtain ⟨q₂, rfl, h₂⟩ := (writesEach_open hshut).mp heach
      rw [hqueue.same h₁ h₂]

theorem channel_sameNotified {vs : List (Value P)} {ch : Channel} {r : Waiters} (hrb : ch.rb.Sound)
    (hcov : ch.Shut ∨ NotifiesAll lua false r vs) : SameNotified (ChannelWrites lua) vs ch r := by
  intro _ _ _ _ _ h heach
  by_cases hshut : ch.Shut
  · rw [(writesEach_shut hshut heach).2, ((channelWrites_shut hshut).mp h).2]
    rfl
  · obtain ⟨q₁, -, h₁⟩ := (channelWrites_open hshut).mp h
    obtain ⟨q₂, -, h₂⟩ := (writesEach_open hshut).mp heach
    exact queue_sameNotified hrb (hcov.resolve_left hshut) h₁ h₂

theorem channel_notifiesAll {vs : List (Value P)} {ch : Channel} {r : Waiters} (hrb : ch.rb.Sound)
    (hkeys : KeysPlain lua false vs) (hends : ∃ ch' w, ChannelWrites lua vs ch ch' w)
    (hsame : SameNotified (ChannelWrites lua) vs ch r) : ch.Shut ∨ NotifiesAll lua false r vs := by
  by_cases hshut : ch.Shut
  · exact Or.inl hshut
  · right
    obtain ⟨_, w, h⟩ := hends
    obtain ⟨q', -, hq'⟩ := (channelWrites_open hshut).mp h
    refine queue_notifiesAll hrb hkeys ⟨q', w, hq'⟩ fun h₁ h₂ => ?_
    exact hsame ((channelWrites_open hshut).mpr ⟨_, rfl, h₁⟩) ((writesEach_open hshut).mpr ⟨_, rfl, h₂⟩)

theorem Queue.intact_init (lua : Lua P) (size : ℕ) : (workqueueInitQueue size).Intact lua := by
  intro _
  refine ⟨[], Ringbuffer.create_sound size, ?_, rfl, nofun, nofun⟩
  exact Ringbuffer.create_content size

/-- A write of several arguments leaves the queue that the single writes leave, and
notifies as many readers, exactly as far as `NotifiesAll` says; and in every run whose
writes are such, no reader stays blocked beside more items than notified readers. -/
theorem multi_write_equals_singles (hl : lua.Rebuilds) :
    (∀ upval inc vs (q : Queue) r, q.rb.Sound →
      AsSingles (Writes lua upval inc) vs q r ∧
      (NotifiesAll lua upval r vs → SameNotified (Writes lua upval inc) vs q r) ∧
      (KeysPlain lua upval vs → (∃ q' w, Writes lua upval inc vs q q' w) →
        SameNotified (Writes lua upval inc) vs q r → NotifiesAll lua upval r vs)) ∧
    (∀ vs (ch : Channel) r, ch.rb.Sound →
      AsSingles (ChannelWrites lua) vs ch r ∧
      (ch.Shut ∨ NotifiesAll lua false r vs → SameNotified (ChannelWrites lua) vs ch r) ∧
      (KeysPlain lua false vs → (∃ ch' w, ChannelWrites lua vs ch ch' w) →
        SameNotified (ChannelWrites lua) vs ch r → ch.Shut ∨ NotifiesAll lua false r vs)) ∧
    (∀ size inc es s,
      Run (fun s e s' => QueueCovered lua s e ∧ CrowdStep QueueCall.CanWait (directionPass lua inc) s e s')
        ⟨workqueueInitQueue size, ⟨0, 0⟩⟩ es s → Awake (fun q => q.numItems.toNat) s) ∧
    ∀ es s,
      Run (fun s e s' => ChannelCovered lua s e ∧ CrowdStep QueueCall.CanWait (channelCallPass lua) s e s')
        ⟨channelCreate, ⟨0, 0⟩⟩ es s → Awake (fun ch => ch.numItems.toNat) s := by
  refine ⟨fun upval inc vs q r hrb => ⟨queue_asSingles lua upval inc vs q r, queue_sameNotified hrb,
      queue_notifiesAll hrb⟩,
    fun vs ch r hrb => ⟨channel_asSingles lua vs ch r, channel_sameNotified hrb, channel_notifiesAll hrb⟩,
    fun size inc es s hrun => ?_, fun es s hrun => ?_⟩
  · refine awake_run hrun (I := fun q => q.Intact lua) (Queue.intact_init lua size) ?_ ?_
    · exact fun s k again a q w hI hcov hp => directionPass_considerate hl hI hcov hp
    · exact fun k q q' hI hp => directionPass_waits hl hI hp
  · refine awake_run hrun (I := fun ch => ch.Intact lua) (Queue.intact_init lua DEFAULT_CHANNEL_SIZE) ?_ ?_
    · exact fun s k again a ch w hI hcov hp => channelCallPass_considerate hl hI hcov hp
    · exact fun k ch ch' hI hp => channelCallPass_waits hl hI hp

end

theorem reader_blocks (n : ℕ) : CrowdStep QueueCall.CanWait (directionPass sampleLua 16)
    ⟨workqueueInitQueue 16, ⟨n, 0⟩⟩ (.pass (.read false []) false) ⟨workqueueInitQueue 16, ⟨n + 1, 0⟩⟩ := by
  have hp : directionPass sampleLua 16 (.read false []) (workqueueInitQueue 16)
      (.waits (workqueueInitQueue 16)) :=
    ⟨rfl, .wait _, .waits _, ⟨0, fun _ _ => rfl⟩, .wait, rfl⟩
  have hwait : QueueCall.CanWait (.read false [] : QueueCall UInt8) := rfl
  exact .waits hwait (by rintro ⟨⟩) hp

theorem writes_two_nils : ∃ q, q.numItems = 2 ∧
    Writes sampleLua false 16 [.nil, .nil] (workqueueInitQueue 16) q .one ∧
    ∀ n, CrowdStep QueueCall.CanWait (directionPass sampleLua 16) ⟨workqueueInitQueue 16, ⟨n + 1, 0⟩⟩
      (.pass (.write false [.nil, .nil]) false) ⟨q, ⟨n, 1⟩⟩ := by
  have hsound := Ringbuffer.create_sound 16
  have hsavable : ∀ v ∈ [(.nil : Value UInt8), .nil], Savable sampleLua false v := by
    intro v hv
    obtain rfl : v = .nil := by simpa using hv
    exact savable_nil sampleLua false
  obtain ⟨q, -, hy⟩ := queueWrite_savable (show 1 ≤ 16 by decide) (by decide) hsavable (workqueueInitQueue 16)
    (Ringbuffer.create_valid (by decide))
  have hw : Writes sampleLua false 16 [.nil, .nil] (workqueueInitQueue 16) q .one :=
    ⟨_, hy, rfl, rfl⟩
  refine ⟨q, (hw.wrote hsound).numItems_eq, hw, fun n => ?_⟩
  have hp : directionPass sampleLua 16 (.write false [.nil, .nil]) (workqueueInitQueue 16)
      (.returns () q .one) := by
    refine ⟨rfl, ?_, q, .one, hw, rfl⟩
    simp [Value.DeepWf]
  have hnew : false = true → QueueCall.CanWait (.write false [.nil, .nil] : QueueCall UInt8) ∧
    0 < 0 := (by rintro ⟨⟩)
  exact .returns (s := ⟨workqueueInitQueue 16, ⟨n + 1, 0⟩⟩) hnew hp

/-- One reader is blocked when two nils are written. -/
theorem multi_write_equals_singles_two : ∃ q,
    Writes sampleLua false 16 [.nil, .nil] (workqueueInitQueue 16) q .one ∧
      SameNotified (Writes sampleLua false 16) [.nil, .nil] (workqueueInitQueue 16) ⟨1, 0⟩ ∧
      Awake (fun q => q.numItems.toNat) ⟨q, ⟨0, 1⟩⟩ := by
  obtain ⟨q, hnum, hw, hstep⟩ := writes_two_nils
  have hcov : NotifiesAll sampleLua false ⟨1, 0⟩ [.nil, .nil] := by
    refine Or.inr (Or.inr (Or.inl ⟨rfl, nofun, fun v hv => ?_⟩))
    obtain rfl : v = .nil := by simpa using hv
    exact ⟨rfl, by simp [script, puts]⟩
  have hmain := multi_write_equals_singles sampleLua_rebuilds
  refine ⟨q, hw, (hmain.1 false 16 _ _ ⟨1, 0⟩ (Ringbuffer.create_sound 16)).2.1 hcov,
    hmain.2.2.1 16 16 [.pass (.read false []) false, .pass (.write false [.nil, .nil]) false] _ ?_⟩
  have hread : QueueCovered sampleLua ⟨workqueueInitQueue 16, ⟨0, 0⟩⟩ (.pass (.read false []) false) :=
    trivial
  have hwrite : QueueCovered sampleLua ⟨workqueueInitQueue 16, ⟨1, 0⟩⟩
      (.pass (.write false [.nil, .nil]) false) := hcov
  exact (Run.nil.snoc ⟨hread, reader_blocks 0⟩).snoc ⟨hwrite, hstep 0⟩

/-- Two readers are blocked: the write signals one of them, the single writes both. -/
theorem second_reader_not_notified :
    ¬ SameNotified (Writes sampleLua false 16) [.nil, .nil] (workqueueInitQueue 16) ⟨2, 0⟩ ∧
      ∃ es s, Run (CrowdStep QueueCall.CanWait (directionPass sampleLua 16))
        ⟨workqueueInitQueue 16, ⟨0, 0⟩⟩ es s ∧ ¬ Awake (fun q => q.numItems.toNat) s := by
  obtain ⟨q, hnum, hw, hstep⟩ := writes_two_nils
  constructor
  · intro hsame
    obtain ⟨r', heach⟩ := hw.each ⟨2, 0⟩
    obtain ⟨-, j, rfl, hj⟩ := heach.writes
    obtain ⟨-, rfl⟩ : _ ∧ j = 2 := hj.resolve_right fun h => nomatch h.1
    exact absurd (hsame hw heach) (by decide)
  · have hrun := ((Run.nil.snoc (reader_blocks 0)).snoc (reader_blocks 1)).snoc (hstep 1)
    refine ⟨_, _, hrun, fun hawake => ?_⟩
    have hle : q.numItems.toNat ≤ 1 := hawake (show 0 < 1 by decide)
    rw [hnum] at hle
    exact absurd hle (by decide)

end TorchIpc
