import TorchIpc.Queue.Channel

/-! Delivery: in every run of any number of threads over one queue, a workqueue
direction or a channel, the values read are the first ones written, each once and
whole, and the counter is the number of complete items in the buffer. The counter
has 32 bits, so this needs that the queue never holds `2 ^ 32` items. -/

namespace TorchIpc

open Runs Monitor

section
variable {P : Type} {T : Type} [DecidableEq T] {lua : Lua P}

/-- A pass of a workqueue direction that does not overflow the counter. -/
def countedQueuePass (lua : Lua P) (sizeIncrement : ℕ) (k : Call P) (q : Queue)
    (o : Outcome Queue (Reply P)) : Prop :=
  workqueuePass lua sizeIncrement k q o ∧ CountFits k q

/-- What the replies and the queue show. The arguments of a write stand together in
`adds`, and `CanRead v` says that the next read returns `v`. -/
structure Delivered (lua : Lua P) (as : List (Reply P)) (q : Queue) (CanRead : Value P → Prop) :
    Prop where
  no_failure : .failed ∉ as
  items : ∃ taken pending, as.flatMap Reply.adds = taken ++ pending ∧
    as.flatMap Reply.takes = taken.map Value.received ∧
    q.rb.content = pending.flatMap (encode lua false false) ∧
    q.numItems.toNat = pending.length ∧
    ∀ v rest, pending = v :: rest → CanRead v

theorem workqueue_no_failure (hl : lua.Rebuilds) {size inc : ℕ} {es : List (Option (Reply P))}
    {s : Shared T Queue (Call P)}
    (hrun : Run (Step (countedQueuePass lua inc)) (start (workqueueInitQueue size)) es s) :
    .failed ∉ replies es := by
  refine (run_invariant (I := fun as q => (∃ pending, Stored lua q pending) ∧ .failed ∉ as) hrun
    ⟨⟨[], workqueueInitQueue_stored lua size⟩, by simp⟩ ?_ ?_).2
  · rintro as k q a q' w ⟨⟨pending, hs⟩, hno⟩ ⟨hp, hfit⟩
    rcases workqueuePass_stored hl hs hfit hp with
      ⟨vs, q₁, ho, hs'⟩ | ⟨v, rest, q₁, ho, _, hs'⟩ | ⟨ho, _⟩ | ⟨ho, _⟩ <;> cases ho
    · exact ⟨⟨_, hs'⟩, by simpa using hno⟩
    · exact ⟨⟨_, hs'⟩, by simpa using hno⟩
    · exact ⟨⟨_, hs⟩, by simpa using hno⟩
  · rintro as k q q' ⟨⟨pending, hs⟩, hno⟩ ⟨hp, hfit⟩
    rcases workqueuePass_stored hl hs hfit hp with
      ⟨vs, q₁, ho, hs'⟩ | ⟨v, rest, q₁, ho, _, hs'⟩ | ⟨ho, _⟩ | ⟨ho, _⟩ <;> cases ho
    exact ⟨⟨_, hs⟩, hno⟩

/-- The items go through a workqueue direction in order. -/
theorem workqueue_fifo (hl : lua.Rebuilds) {size inc : ℕ} {es : List (Option (Reply P))}
    {s : Shared T Queue (Call P)}
    (hrun : Run (Step (countedQueuePass lua inc)) (start (workqueueInitQueue size)) es s) :
    ∃ taken pending, (replies es).flatMap Reply.adds = taken ++ pending ∧
      (replies es).flatMap Reply.takes = taken.map Value.received ∧ Stored lua s.obj pending := by
  apply fifo_run hrun (workqueueInitQueue_stored lua size)
  · rintro k q a q' w pending hs ⟨hp, hfit⟩
    rcases workqueuePass_stored hl hs hfit hp with
      ⟨vs, q₁, ho, hs'⟩ | ⟨v, rest, q₁, ho, hpend, hs'⟩ | ⟨ho, _⟩ | ⟨ho, _⟩ <;> cases ho
    · exact ⟨[], pending ++ vs, rfl, rfl, hs'⟩
    · exact ⟨[v], rest, by rw [hpend]; simp [Reply.adds], rfl, hs'⟩
    · exact ⟨[], pending, List.append_nil _, rfl, hs⟩
  · rintro k q q' pending hs ⟨hp, hfit⟩
    rcases workqueuePass_stored hl hs hfit hp with
      ⟨vs, q₁, ho, hs'⟩ | ⟨v, rest, q₁, ho, _, hs'⟩ | ⟨ho, _⟩ | ⟨ho, _⟩ <;> cases ho
    exact hs

/-- Exactly-once delivery, for every buffer size and increment, in every run in which
no write overflows the counter. -/
theorem queue_delivers_exactly_once (hl : lua.Rebuilds) :
    (∀ size inc es (s : Shared T Queue (Call P)),
      Run (Step (countedQueuePass lua inc)) (start (workqueueInitQueue size)) es s →
      Delivered lua (replies es) s.obj fun v => ∀ doNotBlock stack, ∃ q',
        Yields (workqueueQueueRead lua doNotBlock stack s.obj)
          (.value none 1 (v.received :: stack) q' false)) ∧
    (∀ es (s : Shared T Channel (Call P)),
      Run (Step (countedPass lua)) (start channelCreate) es s →
      Delivered lua (replies es) s.obj.toQueue fun v => ∀ doNotBlock stack, ∃ ch' wakesAll,
        Yields (channelRead lua doNotBlock stack s.obj) (.value (some s.obj.status) 1
          (v.received :: s.obj.status.value lua.versionNum :: stack) ch' wakesAll)) := by
  constructor
  · intro size inc es s hrun
    obtain ⟨taken, pending, hadds, htakes, hs⟩ := workqueue_fifo hl hrun
    refine ⟨workqueue_no_failure hl hrun, taken, pending, hadds, htakes, hs.content_eq, hs.count,
      fun v rest hpend doNotBlock stack => ?_⟩
    rcases workqueueQueueRead_stored hl hs doNotBlock stack with
      ⟨v', rest', q', hpend', _, hy⟩ | ⟨hnil, _⟩
    · obtain ⟨rfl, rfl⟩ : v = v' ∧ rest = rest' := by simpa using hpend.symm.trans hpend'
      exact ⟨q', hy⟩
    · rw [hpend] at hnil
      exact absurd hnil nofun
  · intro es s hrun
    obtain ⟨taken, pending, hadds, htakes, hholds⟩ := channel_fifo hl hrun
    exact ⟨(history_run hl hrun).no_failure, taken, pending, hadds, htakes,
      hholds.stored.content_eq, hholds.stored.count,
      fun v rest hpend => hholds.read_head hl hpend⟩

end

/-- A thread that writes one nil to a workqueue of eight bytes. -/
theorem queue_delivers_exactly_once_nil : ∃ es s,
    Run (Step (countedQueuePass sampleLua 8)) (start (workqueueInitQueue 8)) es s ∧
      replies es = [.wrote [.nil]] ∧
      Delivered sampleLua (replies es) (s : Shared Unit Queue (Call UInt8)).obj
        fun v => ∀ doNotBlock stack, ∃ q',
          Yields (workqueueQueueRead sampleLua doNotBlock stack s.obj)
            (.value none 1 (v.received :: stack) q' false) := by
  obtain ⟨q', _, _, hy⟩ := queueWrite_nil sampleLua (show 1 ≤ 8 by decide) (by decide) (workqueueInitQueue 8)
    (Ringbuffer.create_valid (by decide))
  have hp : workqueuePass sampleLua 8 (.write [.nil]) (workqueueInitQueue 8)
      (.returns (.wrote [.nil]) q' .one) :=
    ⟨rfl, by simp [Value.Wf, Value.parts, Value.WfNode], q', hy, rfl⟩
  have hrun : Run (Step (countedQueuePass sampleLua 8)) (start (workqueueInitQueue 8))
      [some (.wrote [.nil])] (⟨q', fun _ => .idle⟩ : Shared Unit Queue (Call UInt8)) :=
    Run.nil.snoc (.returns (Or.inl rfl) ⟨hp, show 0 + 1 < 2 ^ 32 by decide⟩ (wakes_idle .one))
  exact ⟨_, _, hrun, rfl, (queue_delivers_exactly_once sampleLua_rebuilds).1 8 8 _ _ hrun⟩

/-- After `2 ^ 32` writes the counter is zero and the buffer holds every item. -/
theorem queue_counter_wraps : ∃ es s,
    Run (Step (channelPass sampleLua)) (start channelCreate) es s ∧
      ∀ CanRead, ¬ Delivered sampleLua (replies es)
        (s : Shared Unit Channel (Call UInt8)).obj.toQueue CanRead := by
  obtain ⟨es, s, hrun, hs⟩ := nilWrites_run (2 ^ 32)
  refine ⟨es, s, hrun, fun CanRead hdel => ?_⟩
  obtain ⟨taken, pending, hadds, htaken, _, hcount, _⟩ := hdel.items
  have htakes : (replies es).flatMap Reply.takes = [] := by
    rw [hs.replies_eq, List.flatMap_eq_nil_iff]
    intro a ha
    rw [List.eq_of_mem_replicate ha]
    rfl
  have hempty : pending = [] := by
    rw [hs.numItems_eq] at hcount
    exact List.length_eq_zero_iff.mp (hcount.symm.trans (by decide))
  rw [htakes] at htaken
  rw [List.map_eq_nil_iff.mp htaken.symm, hempty, hs.replies_eq, List.append_nil,
    List.flatMap_eq_nil_iff] at hadds
  exact absurd (hadds _ (List.mem_replicate.mpr ⟨by decide, rfl⟩)) nofun

end TorchIpc
