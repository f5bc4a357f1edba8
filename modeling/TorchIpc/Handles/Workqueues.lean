import TorchIpc.Base.Runs
import TorchIpc.Handles.Objects
import TorchIpc.Handles.Registry

/-! Handles to workqueues, in all threads together. A handle is made by
`workqueue_open`, or by `rb_load` out of a serialised value; `workqueue_close` and
`workqueue_gc` give it back. `rb_save` asks the queue for a reference on behalf of the
serialised handle. Proved here: as long as no queue with a name is serialised, no write
retains a queue in vain and no queue is destroyed with handles in its buffers, the count
of every queue is the number of its handles, open and serialised. -/

namespace TorchIpc

open Words Runs Linked

/-- Where a serialised value waits: in one of the two buffers of a workqueue, or in the
buffer between a map and its thread. -/
inductive Carrier where
  | queue (w : UInt64)
  | map (thread : ℕ)

/-- The loop that writes to the carrier. -/
def Carrier.Uses : Carrier → GrowthLoop → Prop
  | .queue _, .queue _ _ _ _ => True
  | .map _, .map => True
  | _, _ => False

/-- A workqueue is written and read through a handle. -/
def Carrier.Held (handles : List UInt64) : Carrier → Prop
  | .queue w => w ∈ handles
  | .map _ => True

/-- A serialised value. `isQueue` has the addresses of the workqueues when it was saved:
the bytes tell a workqueue from other objects by the name of its metatable. -/
structure Parcel (P : Type) where
  carrier : Carrier
  upval : Bool
  value : Value P
  isQueue : UInt64 → Bool

def Parcel.inside {P : Type} (p : Parcel P) (w : UInt64) : Bool :=
  match p.carrier with
  | .queue q => q = w
  | .map _ => false

/-- The queues, the open handles of all threads, and the values that are serialised and
not loaded. A handle that was closed is null and stands for nothing. -/
structure Workqueues (P : Type) where
  registry : Registry
  handles : List UInt64
  flight : List (Parcel P)

inductive QueueEvent (P : Type) where
  | opens (name : Option (List UInt8))
  | saves (c : Carrier) (loop : GrowthLoop) (v : Value P) (rb : Ringbuffer)
  | loads (c : Carrier)
  | closes (w : UInt64)

namespace Registry

def isQueue (r : Registry) (w : UInt64) : Bool := (r.info w).isSome

def counted (r : Registry) (w : UInt64) : Bool :=
  match r.info w with
  | some (_, none) => true
  | _ => false

end Registry

def retainAll : List UInt64 → Registry → Option Registry
  | [], r => some r
  | w :: ws, r => (workqueueRetain w r).bind (retainAll ws)

section
variable {P : Type}

def Parcel.queues (lua : Lua P) (p : Parcel P) : List UInt64 :=
  (userdataOf lua p.value).filter p.isQueue

namespace Workqueues

def start : Workqueues P := ⟨.empty, [], []⟩

/-- After a load: the value that `rb_load` pushes has new handles in it. -/
def afterLoad (lua : Lua P) (s : Workqueues P) (before : List (Parcel P)) (p : Parcel P)
    (after : List (Parcel P)) : LoadOutcome P → Workqueues P
  | .ret 1 _ (v :: _) =>
    { s with
      handles := (userdataOf lua v).filter p.isQueue ++ s.handles
      flight := before ++ after }
  | _ => s

/-- The calls on workqueues. `workqueue_gc` closes a handle that is open. -/
inductive Step (lua : Lua P) : Workqueues P → QueueEvent P → Workqueues P → Prop where
  | opens {s name fresh fuel w creator r} : s.registry.mem fresh = none →
      workqueueOpen name fresh fuel s.registry = some (w, creator, r) →
      Step lua s (.opens name) { s with registry := r, handles := w :: s.handles }
  | saves {s c loop v rb index top ok after r} : c.Uses loop → c.Held s.handles → rb.Sound →
      index ≤ top → v.DeepWf lua →
      (∀ w ∈ userdataOf lua v, s.registry.isQueue w = true → w ∈ s.handles) →
      loop.Ends lua v index top ⟨rb, []⟩ ok after →
      retainAll (after.filter s.registry.isQueue) s.registry = some r →
      Step lua s (.saves c loop v rb)
        { s with
          registry := r
          flight := if ok then ⟨c, loop.upval, v, s.registry.isQueue⟩ :: s.flight else s.flight }
  | loads {s p before after rb rest stack o} : s.flight = before ++ p :: after →
      p.carrier.Held s.handles → Holds rb (encode lua false p.upval p.value ++ rest) →
      Yields (fun fuel => rbLoad lua fuel rb stack) o →
      Step lua s (.loads p.carrier) (s.afterLoad lua before p after o)
  | closes {s w destroyed r} : w ∈ s.handles → workqueueClose w s.registry = some (destroyed, r) →
      Step lua s (.closes w)
        { registry := r
          handles := s.handles.erase w
          flight := if destroyed then s.flight.filter fun p => !p.inside w else s.flight }

/-- A value that can be serialised has no queue with a name in it, and no attempt to
write it gets past the first of the other queues in vain; and no queue is closed for the
last time while there are handles in its buffers. -/
def Covered (lua : Lua P) (s : Workqueues P) : QueueEvent P → Prop
  | .saves _ loop v rb => rb.cb = 0 ∨
      ((script lua false loop.upval v).fin = .ok →
        ∀ w ∈ userdataOf lua v, s.registry.isQueue w = true → s.registry.counted w = true) ∧
      ((script lua false loop.upval v).only s.registry.counted).OnceOnly rb.room loop.increment
  | .closes w => (∃ name, s.registry.info w = some (1, name)) →
      ∀ p ∈ s.flight, p.inside w = true → p.queues lua = []
  | _ => True

def CoveredStep (lua : Lua P) (s : Workqueues P) (e : QueueEvent P) (s' : Workqueues P) : Prop :=
  s.Covered lua e ∧ Step lua s e s'

def inFlight (lua : Lua P) (s : Workqueues P) : List UInt64 := s.flight.flatMap (Parcel.queues lua)

/-- The registry is the list of the queues with a name and an open handle, no two have
the same name, and the count of a queue is the number of its handles. -/
structure Balanced (lua : Lua P) (s : Workqueues P) : Prop where
  list : ∃ l, DList s.registry.next s.registry.prev s.registry.head l ∧
    ∀ w, w ∈ l ↔ (∃ name, s.registry.Named w name) ∧ w ∈ s.handles
  names : ∀ v w name, s.registry.Named v name → s.registry.Named w name → v = w
  count : ∀ w n name, s.registry.info w = some (n, name) →
    n = s.handles.count w + (s.inFlight lua).count w
  exists_iff : ∀ w, s.registry.isQueue w = true ↔ w ∈ s.handles ∨ w ∈ s.inFlight lua

/-! ### What every run keeps -/

structure Inv (lua : Lua P) (s : Workqueues P) : Prop where
  lists : ∃ l, s.registry.Lists l
  count : ∀ w n name, s.registry.info w = some (n, name) →
    n = s.handles.count w + (s.inFlight lua).count w
  exists_iff : ∀ w, s.registry.isQueue w = true ↔ w ∈ s.handles ∨ w ∈ s.inFlight lua
  unnamed : ∀ w ∈ s.inFlight lua, s.registry.counted w = true
  stored : ∀ p ∈ s.flight, p.value.DeepWf lua ∧ (script lua false p.upval p.value).fin = .ok

end Workqueues

end

namespace Registry

variable {r : Registry} {w : UInt64}

theorem isQueue_iff : r.isQueue w = true ↔ ∃ n name, r.info w = some (n, name) := by
  rw [isQueue, Option.isSome_iff_exists]
  exact Prod.exists

theorem counted_iff : r.counted w = true ↔ ∃ n, r.info w = some (n, none) := by
  rw [counted]
  constructor
  · intro h
    split at h
    · rename_i n hinfo
      exact ⟨n, hinfo⟩
    · cases h
  · rintro ⟨n, hinfo⟩
    rw [hinfo]

theorem isQueue_of_counted (h : r.counted w = true) : r.isQueue w = true := by
  obtain ⟨n, hn⟩ := counted_iff.mp h
  exact isQueue_iff.mpr ⟨n, none, hn⟩

theorem Lists.retainAll {l : List UInt64} (hl : r.Lists l) {ws : List UInt64}
    (hws : ∀ w ∈ ws, r.isQueue w = true) :
    ∃ r', retainAll ws r = some r' ∧ r'.Lists l ∧ ∀ v, r'.info v =
      (r.info v).map fun x => (if x.2 = none then x.1 + (ws.count v : ℤ) else x.1, x.2) := by
  induction ws generalizing r with
  | nil =>
    refine ⟨r, rfl, hl, fun v => ?_⟩
    simp
  | cons w ws ih =>
    obtain ⟨n, name, hn⟩ := isQueue_iff.mp (hws w List.mem_cons_self)
    obtain ⟨r₁, hr₁, hinfo₁, hl₁⟩ := hl.retain hn
    have hq : ∀ u ∈ ws, r₁.isQueue u = true := by
      intro u hu
      rw [isQueue, hinfo₁]
      rcases eq_or_ne u w with rfl | hne
      · rw [Function.update_self]
        rfl
      · rw [Function.update_of_ne hne]
        exact hws u (List.mem_cons_of_mem _ hu)
    obtain ⟨r', hr', hl', hinfo⟩ := ih hl₁ hq
    refine ⟨r', by rw [TorchIpc.retainAll, hr₁]; exact hr', hl', fun v => ?_⟩
    rw [hinfo, hinfo₁]
    rcases eq_or_ne v w with rfl | hne
    · rw [Function.update_self, hn, Option.map_some, Option.map_some, List.count_cons_self]
      split_ifs with hname
      · push_cast
        rw [add_assoc, add_comm (1 : ℤ)]
      · rfl
    · rw [Function.update_of_ne hne, List.count_cons_of_ne hne.symm]

end Registry

namespace Workqueues

variable {P : Type} {lua : Lua P} {s s' : Workqueues P}

theorem Inv.start (lua : Lua P) : Inv lua (start : Workqueues P) where
  lists := ⟨[], Registry.empty_lists⟩
  count w n name h := by cases h
  exists_iff w := iff_of_false nofun (by simp [Workqueues.start, inFlight])
  unnamed w h := by cases h
  stored p h := by cases h

theorem Inv.info_none (h : s.Inv lua) {w : UInt64} (hw : s.registry.info w = none) :
    s.handles.count w = 0 ∧ (s.inFlight lua).count w = 0 := by
  have hq : ¬ s.registry.isQueue w = true := by rw [Registry.isQueue, hw]; nofun
  rw [h.exists_iff, not_or] at hq
  exact ⟨List.count_eq_zero.mpr hq.1, List.count_eq_zero.mpr hq.2⟩

/-- One queue has changed, and the handles to it. -/
theorem Inv.update (h : s.Inv lua) {r : Registry} (hr : ∃ l, r.Lists l) {w : UInt64}
    {x : Option (ℤ × Option (List UInt8))} (hinfo : r.info = Function.update s.registry.info w x)
    {handles : List UInt64} (hother : ∀ v ≠ w, handles.count v = s.handles.count v)
    (hcount : ∀ n name, x = some (n, name) →
      n = handles.count w + (s.inFlight lua).count w)
    (hexists : x.isSome = true ↔ w ∈ handles ∨ w ∈ s.inFlight lua)
    (hname : w ∈ s.inFlight lua → ∃ n, x = some (n, none)) :
    Inv lua { s with registry := r, handles := handles } where
  lists := hr
  count v n name hv := by
    rw [hinfo] at hv
    rcases eq_or_ne v w with rfl | hne
    · rw [Function.update_self] at hv
      exact hcount n name hv
    · rw [Function.update_of_ne hne] at hv
      rw [hother v hne]
      exact h.count v n name hv
  exists_iff v := by
    rw [Registry.isQueue, hinfo]
    rcases eq_or_ne v w with rfl | hne
    · rw [Function.update_self]
      exact hexists
    · rw [Function.update_of_ne hne, ← List.count_pos_iff, hother v hne, List.count_pos_iff]
      exact h.exists_iff v
  unnamed v hv := by
    rw [Registry.counted_iff, hinfo]
    rcases eq_or_ne v w with rfl | hne
    · rw [Function.update_self]
      exact hname hv
    · rw [Function.update_of_ne hne]
      exact Registry.counted_iff.mp (h.unnamed v hv)
  stored := h.stored

theorem Inv.opens (h : s.Inv lua) {name : Option (List UInt8)} {fresh w : UInt64} {fuel : ℕ}
    {creator : Bool} {r : Registry} (hfresh : s.registry.mem fresh = none)
    (hopen : workqueueOpen name fresh fuel s.registry = some (w, creator, r)) :
    Inv lua { s with registry := r, handles := w :: s.handles } := by
  obtain ⟨l, hl⟩ := h.lists
  obtain ⟨hl', hcases⟩ := hl.opens hfresh hopen
  have hother : ∀ v ≠ w, (w :: s.handles).count v = s.handles.count v := fun v hv =>
    List.count_cons_of_ne hv.symm
  rcases hcases with ⟨rfl, name, hinfo⟩ | ⟨n, t, hn, hinfo⟩
  · obtain ⟨hh, hf⟩ := h.info_none (by rw [Registry.info, hfresh]; rfl)
    refine h.update hl' hinfo hother (fun n t hn => ?_) (iff_of_true rfl (Or.inl List.mem_cons_self))
      fun hw => absurd (List.count_pos_iff.mpr hw) (by omega)
    cases hn
    rw [List.count_cons_self, hh, hf]
    rfl
  · refine h.update hl' hinfo hother (fun m t' hm => ?_) (iff_of_true rfl (Or.inl List.mem_cons_self))
      fun hw => ?_
    · cases hm
      have hcount := h.count w n _ hn
      rw [List.count_cons_self]
      push_cast
      omega
    · obtain ⟨m, hm⟩ := Registry.counted_iff.mp (h.unnamed w hw)
      rw [hn] at hm
      cases hm

theorem Inv.closes (h : s.Inv lua) {w : UInt64} (hw : w ∈ s.handles) {destroyed : Bool} {r : Registry}
    (hclose : workqueueClose w s.registry = some (destroyed, r))
    (hcov : (∃ name, s.registry.info w = some (1, name)) →
      ∀ p ∈ s.flight, p.inside w = true → p.queues lua = []) :
    Inv lua
      { registry := r
        handles := s.handles.erase w
        flight := if destroyed then s.flight.filter fun p => !p.inside w else s.flight } := by
  obtain ⟨l, hl⟩ := h.lists
  obtain ⟨n, name, hn⟩ := Registry.isQueue_iff.mp ((h.exists_iff w).mpr (Or.inl hw))
  obtain ⟨r', l', hclose', hinfo, hl'⟩ := hl.close hn
  obtain ⟨rfl, rfl⟩ := Prod.mk.inj (Option.some.inj (hclose.symm.trans hclose'))
  have hcount := h.count w n name hn
  have hpos := List.count_pos_iff.mpr hw
  have hself : (s.handles.erase w).count w = s.handles.count w - 1 := List.count_erase_self
  have hother : ∀ v ≠ w, (s.handles.erase w).count v = s.handles.count v := fun v hv =>
    List.count_erase_of_ne hv
  -- the handles in values that are left behind
  have hinv : Inv lua { s with registry := r, handles := s.handles.erase w } := by
    refine h.update ⟨l', hl'⟩ hinfo hother (fun m t hm => ?_) ?_ fun hmem => ?_
    · split_ifs at hm
      cases hm
      omega
    · rw [← List.count_pos_iff, ← List.count_pos_iff, hself]
      split_ifs with hlast
      · exact iff_of_false nofun (by omega)
      · exact iff_of_true rfl (by omega)
    · have hmore := List.count_pos_iff.mpr hmem
      obtain ⟨m, hm⟩ := Registry.counted_iff.mp (h.unnamed w hmem)
      rw [hn] at hm
      cases hm
      exact ⟨n - 1, if_neg (by omega)⟩
  by_cases hlast : n = 1
  · rw [decide_eq_true hlast, if_pos rfl]
    have hempty := hcov ⟨name, hlast ▸ hn⟩
    have hflight : (s.flight.filter fun p => !p.inside w).flatMap (Parcel.queues lua) =
        s.inFlight lua := by
      rw [inFlight]
      generalize s.flight = ps at hempty
      induction ps with
      | nil => rfl
      | cons p ps ih =>
        have ih' := ih fun q hq => hempty q (List.mem_cons_of_mem _ hq)
        rw [List.flatMap_cons, List.filter_cons]
        cases hp : p.inside w with
        | true =>
          rw [hempty p List.mem_cons_self hp, List.nil_append]
          exact ih'
        | false => exact congrArg (p.queues lua ++ ·) ih'
    exact
      { lists := hinv.lists
        count := fun v m t hv => by rw [inFlight, hflight]; exact hinv.count v m t hv
        exists_iff := fun v => by rw [inFlight, hflight]; exact hinv.exists_iff v
        unnamed := fun v hv => hinv.unnamed v (by rwa [inFlight, hflight] at hv)
        stored := fun p hp => hinv.stored p (List.mem_filter.mp hp).1 }
  · rw [decide_eq_false hlast]
    exact hinv

/-- Some handles are serialised, and their queues have been asked for as many references. -/
theorem Inv.sends (h : s.Inv lua) {taken : List UInt64} {r : Registry} (hr : ∃ l, r.Lists l)
    (hinfo : ∀ w, r.info w = (s.registry.info w).map fun x =>
      (if x.2 = none then x.1 + (taken.count w : ℤ) else x.1, x.2))
    {flight : List (Parcel P)} {sent : List UInt64}
    (hflight : flight.flatMap (Parcel.queues lua) = sent ++ s.inFlight lua)
    (hcount : ∀ w, s.registry.counted w = true → taken.count w = sent.count w)
    (hcounted : ∀ w ∈ sent, s.registry.counted w = true) (hheld : ∀ w ∈ sent, w ∈ s.handles)
    (hstored : ∀ p ∈ flight, p.value.DeepWf lua ∧ (script lua false p.upval p.value).fin = .ok) :
    Inv lua { s with registry := r, flight := flight } where
  lists := hr
  count w n name hw := by
    rw [hinfo, Option.map_eq_some_iff] at hw
    obtain ⟨⟨m, t⟩, hm, hx⟩ := hw
    have hbefore := h.count w m t hm
    change n = s.handles.count w + ((flight.flatMap (Parcel.queues lua)).count w : ℤ)
    rw [hflight, List.count_append]
    cases t with
    | none =>
      have hc := hcount w (Registry.counted_iff.mpr ⟨m, hm⟩)
      have hn : m + (taken.count w : ℤ) = n := congrArg Prod.fst hx
      push_cast
      omega
    | some t =>
      have hnone : sent.count w = 0 := List.count_eq_zero.mpr fun hw => by
        obtain ⟨k, hk⟩ := Registry.counted_iff.mp (hcounted w hw)
        rw [hm] at hk
        cases hk
      have hn : m = n := congrArg Prod.fst hx
      push_cast
      omega
  exists_iff w := by
    have hsame : r.isQueue w = s.registry.isQueue w := by
      rw [Registry.isQueue, hinfo, Option.isSome_map]
      rfl
    change _ ↔ _ ∨ w ∈ flight.flatMap (Parcel.queues lua)
    rw [hsame, h.exists_iff, hflight, List.mem_append]
    constructor
    · exact Or.imp_right Or.inr
    · rintro (hw | hw | hw)
      · exact Or.inl hw
      · exact Or.inl (hheld w hw)
      · exact Or.inr hw
  unnamed w hw := by
    have hbefore : s.registry.counted w = true := by
      change w ∈ flight.flatMap (Parcel.queues lua) at hw
      rw [hflight] at hw
      exact (List.mem_append.mp hw).elim (hcounted w) (h.unnamed w)
    obtain ⟨n, hn⟩ := Registry.counted_iff.mp hbefore
    rw [Registry.counted_iff, hinfo, hn]
    exact ⟨_, rfl⟩
  stored := hstored

theorem Inv.saves (h : s.Inv lua) {c : Carrier} {loop : GrowthLoop} {v : Value P} {rb : Ringbuffer}
    {index top : ℕ} {ok : Bool} {after : List UInt64} {r : Registry} (hrb : rb.Sound) (hi : index ≤ top)
    (hwf : v.DeepWf lua)
    (hheld : ∀ w ∈ userdataOf lua v, s.registry.isQueue w = true → w ∈ s.handles)
    (hend : loop.Ends lua v index top ⟨rb, []⟩ ok after)
    (hretain : retainAll (after.filter s.registry.isQueue) s.registry = some r)
    (hcov : s.Covered lua (.saves c loop v rb)) :
    Inv lua
      { s with
        registry := r
        flight := if ok then ⟨c, loop.upval, v, s.registry.isQueue⟩ :: s.flight else s.flight } := by
  obtain ⟨l, hl⟩ := h.lists
  obtain ⟨r', hr', hl', hinfo⟩ := hl.retainAll fun w hw => (List.mem_filter.mp hw).2
  obtain rfl : r' = r := Option.some.inj (hr'.symm.trans hretain)
  have hsound : (⟨rb, []⟩ : Effects).rb.Sound := hrb
  have htaken := hend.filter hsound hi s.registry.counted (Or.imp_right And.right hcov)
  rw [List.filter_nil, List.nil_append] at htaken
  have hcount : ∀ w, s.registry.counted w = true → (after.filter s.registry.isQueue).count w =
      (if ok then (userdataOf lua v).filter s.registry.isQueue else []).count w := by
    intro w hw
    have hq := Registry.isQueue_of_counted hw
    rw [List.count_filter hq, ← List.count_filter hw, htaken]
    cases ok with
    | false => rfl
    | true =>
      rw [if_pos rfl, if_pos rfl, List.count_filter hw, List.count_filter hq]
  cases ok with
  | false => exact h.sends ⟨l, hl'⟩ hinfo rfl hcount nofun nofun h.stored
  | true =>
    obtain ⟨hok, hnil⟩ := hend.stored hsound hi
    have hcounted : ∀ w ∈ (userdataOf lua v).filter s.registry.isQueue,
        s.registry.counted w = true := by
      intro w hw
      obtain ⟨hw, hq⟩ := List.mem_filter.mp hw
      rcases hcov with hzero | ⟨hall, -⟩
      · rw [hnil hzero] at hw
        cases hw
      · exact hall hok w hw hq
    refine h.sends ⟨l, hl'⟩ hinfo rfl hcount hcounted (fun w hw => ?_) fun p hp => ?_
    · obtain ⟨hw, hq⟩ := List.mem_filter.mp hw
      exact hheld w hw hq
    · rcases List.mem_cons.mp hp with rfl | hp
      · exact ⟨hwf, hok⟩
      · exact h.stored p hp

theorem Inv.loads (hl : lua.Rebuilds) (h : s.Inv lua) {before after : List (Parcel P)} {p : Parcel P}
    (hs : s.flight = before ++ p :: after) {rb : Ringbuffer} {rest : List UInt8}
    (hrb : Holds rb (encode lua false p.upval p.value ++ rest)) {stack : List (Value P)}
    {o : LoadOutcome P} (ho : Yields (fun fuel => rbLoad lua fuel rb stack) o) :
    Inv lua (s.afterLoad lua before p after o) := by
  have hp : p ∈ s.flight := by
    rw [hs]
    exact List.mem_append_right _ List.mem_cons_self
  obtain ⟨hwf, hok⟩ := h.stored p hp
  obtain ⟨rb', -, hy⟩ := rbLoad_stored hl hwf hok hrb stack
  obtain rfl := ho.unique hy
  rw [afterLoad, userdataOf_loaded p.value hwf]
  -- the handles move from the value to the thread
  have hcount : ∀ w, (p.queues lua ++ s.handles).count w +
      ((before ++ after).flatMap (Parcel.queues lua)).count w =
        s.handles.count w + (s.inFlight lua).count w := by
    intro w
    rw [inFlight, hs, List.flatMap_append, List.flatMap_append, List.flatMap_cons]
    simp only [List.count_append]
    omega
  have hmem : ∀ w, (w ∈ p.queues lua ++ s.handles ∨ w ∈ (before ++ after).flatMap (Parcel.queues lua)) ↔
      (w ∈ s.handles ∨ w ∈ s.inFlight lua) := by
    intro w
    have hw := hcount w
    simp only [← List.count_pos_iff]
    omega
  refine ⟨h.lists, fun w n name hw => ?_, fun w => ?_, fun w hw => ?_, fun q hq => ?_⟩
  · rw [h.count w n name hw, ← Int.natCast_add, ← Int.natCast_add]
    exact congrArg _ (hcount w).symm
  · exact (h.exists_iff w).trans (hmem w).symm
  · refine h.unnamed w ?_
    rw [inFlight, hs, List.flatMap_append, List.flatMap_cons]
    change w ∈ (before ++ after).flatMap (Parcel.queues lua) at hw
    rw [List.flatMap_append] at hw
    exact (List.mem_append.mp hw).elim (List.mem_append_left _) fun hw =>
      List.mem_append_right _ (List.mem_append_right _ hw)
  · refine h.stored q ?_
    rw [hs]
    exact (List.mem_append.mp hq).elim (List.mem_append_left _) fun hq =>
      List.mem_append_right _ (List.mem_cons_of_mem _ hq)

theorem Inv.step (hl : lua.Rebuilds) (h : s.Inv lua) {e : QueueEvent P} (hstep : CoveredStep lua s e s') :
    s'.Inv lua := by
  obtain ⟨hcov, hstep⟩ := hstep
  cases hstep with
  | opens hfresh hopen => exact h.opens hfresh hopen
  | saves _ _ hrb hi hwf hheld hend hretain => exact h.saves hrb hi hwf hheld hend hretain hcov
  | loads hs _ hrb ho => exact h.loads hl hs hrb ho
  | closes hw hclose => exact h.closes hw hclose hcov

theorem Inv.balanced (h : s.Inv lua) : s.Balanced lua := by
  obtain ⟨l, hl⟩ := h.lists
  refine ⟨⟨l, hl.linked, fun w => ?_⟩, hl.names, h.count, h.exists_iff⟩
  rw [hl.mem_iff]
  constructor
  · rintro ⟨name, n, hn⟩
    refine ⟨⟨name, n, hn⟩, ((h.exists_iff w).mp (Registry.isQueue_iff.mpr ⟨n, _, hn⟩)).resolve_right ?_⟩
    intro hw
    obtain ⟨m, hm⟩ := Registry.counted_iff.mp (h.unnamed w hw)
    rw [hn] at hm
    cases hm
  · exact And.left

end Workqueues

/-- In every run in which no queue with a name is serialised, no write retains a queue in
vain and no queue is destroyed with handles in its buffers: the registry is the list of
the queues with a name and an open handle, names are unique, the count of a queue is the
number of its handles, open and serialised, and it exists as long as there is one. -/
theorem workqueue_handles_balanced {P : Type} {lua : Lua P} (hl : lua.Rebuilds) {es : List (QueueEvent P)}
    {s : Workqueues P} (hrun : Run (Workqueues.CoveredStep lua) .start es s) : s.Balanced lua := by
  have hinv : s.Inv lua :=
    hrun.invariant (I := fun _ s => s.Inv lua) (.start lua) fun _ _ _ _ h hs => h.step hl hs
  exact hinv.balanced

/-! ### A handle as an argument of a map -/

def queueTypename : TypeName :=
  .metatable [105, 112, 99, 46, 119, 111, 114, 107, 113, 117, 101, 117, 101]

def queueLua : Lua UInt8 :=
  { sampleLua with getmetatable := fun name => if name = queueTypename.str then queueTypename else .none }

theorem queueLua_rebuilds : queueLua.Rebuilds :=
  ⟨sampleLua_rebuilds.dump_ne_nil, sampleLua_rebuilds.undump_done, sampleLua_rebuilds.undump_more⟩

def queueHandle : Value UInt8 := .userdata queueTypename 5

/-- The argument of a map, saved into a fresh buffer. -/
def passed : QueueEvent UInt8 := .saves (.map 0) .map queueHandle (ringbufferCreate 64)

theorem queueHandle_deepWf : queueHandle.DeepWf queueLua :=
  ⟨Or.inr ⟨by decide, by decide, rfl⟩, fun _ _ => by decide⟩

theorem queueHandle_ends :
    GrowthLoop.map.Ends queueLua queueHandle 1 1 ⟨ringbufferCreate 64, []⟩ true [5] :=
  ⟨1, by decide +kernel⟩

/-- The state after a queue is opened and passed. -/
def afterPassed (r₁ r₂ : Registry) : Workqueues UInt8 :=
  ⟨r₂, [5], [⟨.map 0, false, queueHandle, r₁.isQueue⟩]⟩

theorem passed_steps {name : Option (List UInt8)} {r₁ r₂ : Registry}
    (hopen : workqueueOpen name 5 1 .empty = some (5, true, r₁)) (hq : r₁.isQueue 5 = true)
    (hretain : retainAll [5] r₁ = some r₂) :
    Workqueues.Step queueLua .start (.opens name) ⟨r₁, [5], []⟩ ∧
      Workqueues.Step queueLua ⟨r₁, [5], []⟩ passed (afterPassed r₁ r₂) := by
  have hfilter : [(5 : UInt64)].filter r₁.isQueue = [5] := by rw [List.filter_cons, if_pos hq]; rfl
  refine ⟨.opens rfl hopen, ?_⟩
  apply Workqueues.Step.saves _ _ (Ringbuffer.create_sound 64) le_rfl queueHandle_deepWf
    (fun w hw _ => hw) queueHandle_ends
  · rwa [hfilter]
  · trivial
  · trivial

/-- A queue without a name is passed: two references. -/
theorem workqueue_handles_balanced_passed : ∃ s : Workqueues UInt8, s.handles = [5] ∧
    s.registry.info 5 = some (2, none) ∧ s.Balanced queueLua := by
  obtain ⟨r₁, r₂, hopen, hinfo, hretain, htwo⟩ : ∃ r₁ r₂,
      workqueueOpen none 5 1 .empty = some (5, true, r₁) ∧ r₁.info 5 = some (1, none) ∧
        retainAll [5] r₁ = some r₂ ∧ r₂.info 5 = some (2, none) := ⟨_, _, rfl, rfl, rfl, rfl⟩
  obtain ⟨h₁, h₂⟩ := passed_steps hopen (Registry.isQueue_iff.mpr ⟨1, none, hinfo⟩) hretain
  have hcov : Workqueues.Covered queueLua ⟨r₁, [5], []⟩ passed := by
    refine Or.inr ⟨fun _ w hw _ => ?_, ?_⟩
    · obtain rfl := List.mem_singleton.mp hw
      exact Registry.counted_iff.mpr ⟨1, hinfo⟩
    · change ((script queueLua false false queueHandle).only r₁.counted).OnceOnly _ _
      rw [Script.only_eq_self]
      · exact Script.onceOnly_of_end rfl (by decide +kernel) _ _
      · intro w hw
        obtain rfl := List.mem_singleton.mp hw
        exact Registry.counted_iff.mpr ⟨1, hinfo⟩
  have hopened : Workqueues.CoveredStep queueLua .start (.opens none) ⟨r₁, [5], []⟩ := ⟨trivial, h₁⟩
  exact ⟨_, rfl, htwo,
    workqueue_handles_balanced queueLua_rebuilds ((Run.nil.snoc hopened).snoc ⟨hcov, h₂⟩)⟩

/-- A queue with a name is passed: its count is 1, for the handle here and the one on its
way. -/
theorem named_queue_uncounted : ∃ es, ∃ s : Workqueues UInt8,
    Run (Workqueues.Step queueLua) .start es s ∧ ¬ s.Balanced queueLua := by
  obtain ⟨r₁, r₂, hopen, hinfo, hretain, hone⟩ : ∃ r₁ r₂,
      workqueueOpen (some [113]) 5 1 .empty = some (5, true, r₁) ∧
        r₁.info 5 = some (1, some [113]) ∧
        retainAll [5] r₁ = some r₂ ∧ r₂.info 5 = some (1, some [113]) := ⟨_, _, rfl, rfl, rfl, rfl⟩
  have hq := Registry.isQueue_iff.mpr ⟨1, _, hinfo⟩
  obtain ⟨h₁, h₂⟩ := passed_steps hopen hq hretain
  refine ⟨_, _, (Run.nil.snoc h₁).snoc h₂, fun h => ?_⟩
  have hflight : (afterPassed r₁ r₂).inFlight queueLua = [5] := by
    change (([5] : List UInt64).filter r₁.isQueue ++ []) = [5]
    rw [List.filter_cons, if_pos hq]
    rfl
  have hcount := h.count 5 1 _ hone
  rw [hflight] at hcount
  change (1 : ℤ) = ([5] : List UInt64).count 5 + ([5] : List UInt64).count 5 at hcount
  exact absurd hcount (by decide)

end TorchIpc
