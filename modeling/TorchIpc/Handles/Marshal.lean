import TorchIpc.Handles.Objects
import TorchIpc.Queue.Items

/-! Marshals and the objects in them. `ipc.marshal` retains every object of its
argument once; each `marshal_read` decodes the same bytes again and makes new
handles, which give a reference back when they are collected. Proved here: as long as
no marshal is read more often than it has retained its objects, every object has at
least as many references as handles. -/

namespace TorchIpc

open Words Runs

/-- A `marshal_t` that is not destroyed, apart from its count. Nothing reads the last
three fields: the value it was opened with, the references it took, and how often it
was read. -/
structure Marshal (P : Type) where
  rb : Ringbuffer
  value : Value P
  taken : List UInt64
  reads : ℕ

/-- The counts of all objects, the live handles to them, and the marshals by address.
An object exists while its count is not zero. -/
structure Objects (P : Type) where
  refs : UInt64 → ℤ
  handles : List UInt64
  marshals : List (UInt64 × Marshal P)

/-- `ringbuffer_clone` shares the bytes and copies the positions. -/
def ringbufferClone (rb : Ringbuffer) : Ringbuffer := rb

inductive HandleEvent where
  | opens (m : UInt64)
  | openFails
  | reads (m : UInt64)
  | retains (ptr : UInt64)
  | releases (ptr : UInt64)

section
variable {P : Type}

def Marshal.objects (lua : Lua P) (M : Marshal P) : List UInt64 := userdataOf lua M.value

/-- The references that no handle has got yet. -/
def Marshal.owed (lua : Lua P) (M : Marshal P) (ptr : UInt64) : ℕ :=
  M.taken.count ptr - M.reads * (M.objects lua).count ptr

/-- What the buffer of a marshal holds. -/
structure Marshal.Keeps (lua : Lua P) (M : Marshal P) : Prop where
  wf : M.value.DeepWf lua
  stored : ∃ upval, Holds M.rb (encode lua false upval M.value) ∧
    (script lua false upval M.value).fin = .ok

theorem Marshal.Keeps.read {lua : Lua P} (hl : lua.Rebuilds) {M : Marshal P} (h : M.Keeps lua)
    (stack : List (Value P)) {o : LoadOutcome P}
    (ho : Yields (fun fuel => rbLoad lua fuel (ringbufferClone M.rb) stack) o) :
    ∃ rb v, o = .ret 1 rb (v :: stack) ∧ userdataOf lua v = M.objects lua := by
  obtain ⟨upval, hholds, hok⟩ := h.stored
  rw [← List.append_nil (encode lua false upval M.value)] at hholds
  obtain ⟨rb, _, hy⟩ := rbLoad_stored hl h.wf hok hholds stack
  exact ⟨rb, _, ho.unique hy, userdataOf_loaded M.value h.wf⟩

namespace Objects

/-- After a read: the handles in the value that `rb_load` pushes are new. -/
def afterRead (lua : Lua P) (s : Objects P) (before : List (UInt64 × Marshal P)) (m : UInt64)
    (M : Marshal P) (after : List (UInt64 × Marshal P)) : LoadOutcome P → Objects P
  | .ret 1 _ (v :: _) =>
    { s with
      handles := userdataOf lua v ++ s.handles
      marshals := before ++ (m, { M with reads := M.reads + 1 }) :: after }
  | _ => s

/-- The calls on marshals and on the objects in them. `uncounted` has the objects
whose `retain` leaves the count alone, the workqueues with a name. `marshal_close`,
`marshal_gc` and the finalizers of the other kinds give a reference back; the last one
destroys the object. -/
inductive Step (lua : Lua P) (uncounted : UInt64 → Bool) : Objects P → HandleEvent → Objects P →
    Prop where
  | opens {s m v upval size inc top fuel fx top'} : s.refs m = 0 → 1 ≤ top → v.DeepWf lua →
      (∀ ptr ∈ userdataOf lua v, ptr ∈ s.handles) →
      Marshal.marshalWrite lua upval inc v 1 top ⟨ringbufferCreate size, []⟩ fuel = .ret 0 fx top' →
      Step lua uncounted s (.opens m)
        { refs := fun ptr => s.refs ptr + (fx.retained.filter (!uncounted ·)).count ptr +
            if ptr = m then 1 else 0
          handles := m :: s.handles
          marshals := (m, ⟨fx.rb, v, fx.retained.filter (!uncounted ·), 0⟩) :: s.marshals }
  | openFails {s v upval size inc top fuel retained} : 1 ≤ top →
      (Marshal.marshalWrite lua upval inc v 1 top ⟨ringbufferCreate size, []⟩ fuel).result =
        some (false, retained) →
      Step lua uncounted s .openFails
        { s with refs := fun ptr => s.refs ptr + (retained.filter (!uncounted ·)).count ptr }
  | reads {s m M before after stack o} : m ∈ s.handles → s.marshals = before ++ (m, M) :: after →
      Yields (fun fuel => rbLoad lua fuel (ringbufferClone M.rb) stack) o →
      Step lua uncounted s (.reads m) (s.afterRead lua before m M after o)
  | retains {s ptr} : ptr ∈ s.handles →
      Step lua uncounted s (.retains ptr)
        { s with refs := fun p => s.refs p + if p = ptr ∧ uncounted ptr = false then 1 else 0 }
  | releases {s ptr} : ptr ∈ s.handles →
      Step lua uncounted s (.releases ptr)
        { refs := fun p => s.refs p - if p = ptr then 1 else 0
          handles := s.handles.erase ptr
          marshals := if s.refs ptr = 1 then s.marshals.filter (·.1 ≠ ptr) else s.marshals }

/-- A marshal that is read has taken a reference for each handle that it has made and
that it makes now. -/
def Covered (lua : Lua P) (s : Objects P) : HandleEvent → Prop
  | .reads m => ∀ M, (m, M) ∈ s.marshals → ∀ ptr,
      (M.reads + 1) * (M.objects lua).count ptr ≤ M.taken.count ptr
  | _ => True

def CoveredStep (lua : Lua P) (uncounted : UInt64 → Bool) (s : Objects P) (e : HandleEvent)
    (s' : Objects P) : Prop :=
  s.Covered lua e ∧ Step lua uncounted s e s'

/-! ### What every run keeps -/

/-- The references that the bytes of marshals stand for. -/
def pending (lua : Lua P) (s : Objects P) (ptr : UInt64) : ℕ :=
  (s.marshals.map fun x => x.2.owed lua ptr).sum

structure Inv (lua : Lua P) (s : Objects P) : Prop where
  count_le : ∀ ptr, ((s.handles.count ptr + s.pending lua ptr : ℕ) : ℤ) ≤ s.refs ptr
  keeps : ∀ x ∈ s.marshals, x.2.Keeps lua

variable {lua : Lua P} {uncounted : UInt64 → Bool} {s s' : Objects P}

theorem pending_filter_le (lua : Lua P) (s : Objects P) (keep : UInt64 × Marshal P → Bool) (ptr : UInt64) :
    pending lua { s with marshals := s.marshals.filter keep } ptr ≤ s.pending lua ptr :=
  (List.filter_sublist.map _).sum_le_sum fun _ _ => Nat.zero_le _

theorem Inv.opens (h : s.Inv lua) {m : UInt64} (hm : s.refs m = 0) {M : Marshal P} (hM : M.Keeps lua)
    (hreads : M.reads = 0) :
    Inv lua
      { refs := fun ptr => s.refs ptr + M.taken.count ptr + if ptr = m then 1 else 0
        handles := m :: s.handles
        marshals := (m, M) :: s.marshals } := by
  constructor
  · intro ptr
    have hle := h.count_le ptr
    have howed : M.owed lua ptr = M.taken.count ptr := by
      rw [Marshal.owed, hreads, Nat.zero_mul, Nat.sub_zero]
    simp only [pending, List.map_cons, List.sum_cons, howed, List.count_cons, beq_iff_eq] at hle ⊢
    push_cast at hle ⊢
    rcases eq_or_ne m ptr with rfl | hne
    · simp only [if_true]
      omega
    · simp only [if_neg hne, if_neg hne.symm]
      omega
  · intro x hx
    rcases List.mem_cons.mp hx with rfl | hx
    · exact hM
    · exact h.keeps x hx

theorem Inv.adds (h : s.Inv lua) (more : UInt64 → ℕ) :
    Inv lua { s with refs := fun ptr => s.refs ptr + more ptr } where
  count_le ptr := (h.count_le ptr).trans (by simp)
  keeps := h.keeps

theorem Inv.reads (h : s.Inv lua) {m : UInt64} {M : Marshal P} {before after : List (UInt64 × Marshal P)}
    (hs : s.marshals = before ++ (m, M) :: after) (v : Value P)
    (hv : userdataOf lua v = M.objects lua)
    (hcov : ∀ ptr, (M.reads + 1) * (M.objects lua).count ptr ≤ M.taken.count ptr) :
    Inv lua
      { s with
        handles := userdataOf lua v ++ s.handles
        marshals := before ++ (m, { M with reads := M.reads + 1 }) :: after } := by
  constructor
  · intro ptr
    have hle := h.count_le ptr
    have howed : M.owed lua ptr = (M.objects lua).count ptr +
        Marshal.owed lua { M with reads := M.reads + 1 } ptr := by
      have hc := hcov ptr
      rw [Marshal.owed, Marshal.owed]
      change _ = (M.objects lua).count ptr + (M.taken.count ptr - (M.reads + 1) * (M.objects lua).count ptr)
      rw [Nat.add_mul, Nat.one_mul] at hc ⊢
      omega
    simp only [pending, hs, List.map_append, List.map_cons, List.sum_append, List.sum_cons, howed,
      List.count_append, hv] at hle ⊢
    refine le_trans (Int.ofNat_le.mpr ?_) hle
    omega
  · intro x hx
    have hkeep : ∀ y ∈ before ++ (m, M) :: after, y.2.Keeps lua := fun y hy => h.keeps y (hs ▸ hy)
    rcases List.mem_append.mp hx with hb | hx
    · exact hkeep x (List.mem_append_left _ hb)
    · rcases List.mem_cons.mp hx with rfl | ha
      · have hM := hkeep (m, M) (List.mem_append_right _ List.mem_cons_self)
        exact ⟨hM.wf, hM.stored⟩
      · exact hkeep x (List.mem_append_right _ (List.mem_cons_of_mem _ ha))

theorem Inv.releases (h : s.Inv lua) {ptr : UInt64} (hptr : ptr ∈ s.handles)
    (keep : UInt64 × Marshal P → Bool) :
    Inv lua
      { refs := fun p => s.refs p - if p = ptr then 1 else 0
        handles := s.handles.erase ptr
        marshals := s.marshals.filter keep } := by
  constructor
  · intro p
    have hle := h.count_le p
    have hpending := pending_filter_le lua s keep p
    change (((s.handles.erase ptr).count p +
      pending lua { s with marshals := s.marshals.filter keep } p : ℕ) : ℤ) ≤ _
    rw [List.count_erase]
    have hpos := List.count_pos_iff.mpr hptr
    rcases eq_or_ne p ptr with rfl | hne
    · simp only [beq_self_eq_true, if_true]
      omega
    · simp only [beq_eq_false_iff_ne.mpr hne.symm, if_neg hne, Bool.false_eq_true, if_false]
      omega
  · exact fun x hx => h.keeps x (List.mem_filter.mp hx).1

theorem Inv.step (hl : lua.Rebuilds) (h : s.Inv lua) {e : HandleEvent}
    (hstep : CoveredStep lua uncounted s e s') : s'.Inv lua := by
  obtain ⟨hcov, hstep⟩ := hstep
  cases hstep with
  | @opens _ v upval size inc top fuel fx top' hm htop hwf hheld hwrite =>
    obtain ⟨hsound, hcontent, hok⟩ := marshalWrite_stored (Ringbuffer.create_sound size) htop hwrite
    rw [Ringbuffer.create_content, List.nil_append] at hcontent
    have hvalid : fx.rb.Valid := hsound.resolve_right fun hzero => by
      rw [hzero, Ringbuffer.create_content] at hcontent
      exact encode_ne_nil hok hcontent.symm
    have hkeeps : Marshal.Keeps lua ⟨fx.rb, v, fx.retained.filter (!uncounted ·), 0⟩ :=
      ⟨hwf, upval, ⟨hvalid, hcontent⟩, hok⟩
    exact h.opens hm hkeeps rfl
  | openFails _ _ => exact h.adds _
  | @reads m M before after stack o hm hs ho =>
    have hM : (m, M) ∈ s.marshals := by
      rw [hs]
      exact List.mem_append_right _ List.mem_cons_self
    obtain ⟨rb, v, rfl, hv⟩ := (h.keeps _ hM).read hl stack ho
    exact h.reads hs v hv (hcov M hM)
  | @retains ptr hptr =>
    have hmore := h.adds fun p => if p = ptr ∧ uncounted ptr = false then 1 else 0
    simpa using hmore
  | @releases ptr hptr =>
    split_ifs with hlast
    · exact h.releases hptr _
    · have hall := h.releases hptr fun _ => true
      rwa [List.filter_true] at hall

/-- A read is possible, and makes a handle for each object. -/
theorem Inv.exists_reads (hl : lua.Rebuilds) (uncounted : UInt64 → Bool) (h : s.Inv lua) {m : UInt64} {M : Marshal P}
    {before after : List (UInt64 × Marshal P)} (hm : m ∈ s.handles)
    (hs : s.marshals = before ++ (m, M) :: after) :
    Step lua uncounted s (.reads m)
      { s with
        handles := M.objects lua ++ s.handles
        marshals := before ++ (m, { M with reads := M.reads + 1 }) :: after } := by
  have hkeeps := h.keeps (m, M) (by rw [hs]; exact List.mem_append_right _ List.mem_cons_self)
  obtain ⟨upval, hholds, hok⟩ := hkeeps.stored
  rw [← List.append_nil (encode lua false upval M.value)] at hholds
  obtain ⟨rb, _, hy⟩ := rbLoad_stored hl hkeeps.wf hok hholds []
  have hread : Step lua uncounted s (.reads m) _ := .reads hm hs hy
  have hobjects : userdataOf lua (M.value.loaded lua) = M.objects lua :=
    userdataOf_loaded M.value hkeeps.wf
  rw [afterRead, hobjects] at hread
  exact hread

end Objects

/-- The first read of a marshal is covered, unless a workqueue with a name is in it. -/
theorem first_read_covered {lua : Lua P} {uncounted : UInt64 → Bool} {upval : Bool}
    {size inc top fuel : ℕ} {v : Value P} {fx : Effects} {top' : ℕ} (hsize : 1 ≤ size)
    (htop : 1 ≤ top)
    (h : Marshal.marshalWrite lua upval inc v 1 top ⟨ringbufferCreate size, []⟩ fuel = .ret 0 fx top')
    (hcounted : ∀ ptr ∈ userdataOf lua v, uncounted ptr = false) (ptr : UInt64) :
    (0 + 1) * (userdataOf lua v).count ptr ≤ (fx.retained.filter (!uncounted ·)).count ptr := by
  rw [Nat.zero_add, Nat.one_mul]
  by_cases hptr : ptr ∈ userdataOf lua v
  · rw [List.count_filter (by rw [hcounted ptr hptr]; rfl)]
    exact marshalWrite_retained (Ringbuffer.create_valid hsize) htop h ptr
  · rw [List.count_eq_zero_of_not_mem hptr]
    exact Nat.zero_le _

/-- In every run in which no marshal is read more often than it has taken references,
an object has as many references as live handles or more; so it is not destroyed while
a handle to it is live. -/
theorem marshalled_objects_live {lua : Lua P} (hl : lua.Rebuilds) (uncounted : UInt64 → Bool)
    {refs : UInt64 → ℤ} {handles : List UInt64} (hstart : ∀ ptr, (handles.count ptr : ℤ) ≤ refs ptr)
    {es : List HandleEvent} {s : Objects P}
    (hrun : Run (Objects.CoveredStep lua uncounted) ⟨refs, handles, []⟩ es s) :
    (∀ ptr, (s.handles.count ptr : ℤ) ≤ s.refs ptr) ∧ ∀ ptr ∈ s.handles, 0 < s.refs ptr := by
  have hinv : s.Inv lua := by
    refine hrun.invariant (I := fun _ s => s.Inv lua) ⟨fun ptr => ?_, nofun⟩ fun _ _ _ _ h hs =>
      h.step hl hs
    exact hstart ptr
  have hcount : ∀ ptr, (s.handles.count ptr : ℤ) ≤ s.refs ptr := fun ptr => by
    have hle := hinv.count_le ptr
    push_cast at hle
    omega
  refine ⟨hcount, fun ptr hptr => ?_⟩
  have hpos := List.count_pos_iff.mpr hptr
  have hle := hcount ptr
  omega

end

/-! ### A tensor in a marshal -/

def oneTensor : Objects UInt8 := ⟨fun ptr => if ptr = 7 then 1 else 0, [7], []⟩

/-- A tensor of the type `T`, at the address 7. -/
def tensorValue : Value UInt8 := .userdata (.torch [84]) 7

/-- The tensor is in a marshal at the address 9. -/
structure Marshalled (s : Objects UInt8) : Prop where
  run : Run (Objects.CoveredStep sampleLua fun _ => false) oneTensor [.opens 9] s
  refs : s.refs 7 = 2
  handles : s.handles = [9, 7]
  marshals : ∃ rb, s.marshals = [(9, ⟨rb, tensorValue, [7], 0⟩)]

theorem exists_marshalled : ∃ s, Marshalled s := by
  obtain ⟨fx, hwrite, hretained⟩ : ∃ fx, Marshal.marshalWrite sampleLua false 16 tensorValue 1 1
      ⟨ringbufferCreate 32, []⟩ 1 = .ret 0 fx 1 ∧ fx.retained = [7] := ⟨_, rfl, rfl⟩
  have hwf : tensorValue.DeepWf sampleLua :=
    ⟨Or.inr ⟨by decide, by decide, rfl⟩, fun _ _ => by decide⟩
  have hopen : Objects.CoveredStep sampleLua (fun _ => false) oneTensor (.opens 9) _ :=
    ⟨trivial, .opens rfl le_rfl hwf (fun _ hptr => hptr) hwrite⟩
  refine ⟨_, Run.nil.snoc hopen, ?_, rfl, fx.rb, ?_⟩
  · rw [hretained]
    rfl
  · rw [hretained]
    rfl

theorem oneTensor_balanced (ptr : UInt64) :
    (oneTensor.handles.count ptr : ℤ) ≤ oneTensor.refs ptr := by
  rcases eq_or_ne ptr 7 with rfl | hne
  · decide
  · simp [oneTensor, hne, hne.symm]

theorem Marshalled.inv {s : Objects UInt8} {es : List HandleEvent}
    (hrun : Run (Objects.CoveredStep sampleLua fun _ => false) oneTensor es s) : s.Inv sampleLua :=
  hrun.invariant (I := fun _ s => s.Inv sampleLua) ⟨oneTensor_balanced, nofun⟩
    fun _ _ _ _ h hs => h.step sampleLua_rebuilds hs

/-- The first read is covered, and a second one is possible. -/
theorem exists_two_reads : ∃ s₁ s₂ : Objects UInt8,
    Run (Objects.CoveredStep sampleLua fun _ => false) oneTensor [.opens 9, .reads 9] s₁ ∧
      s₁.handles = [7, 9, 7] ∧ Objects.Step sampleLua (fun _ => false) s₁ (.reads 9) s₂ ∧
      s₂.handles = [7, 7, 9, 7] ∧ s₂.refs 7 = 2 := by
  obtain ⟨s, h⟩ := exists_marshalled
  obtain ⟨rb, hmarshals⟩ := h.marshals
  have hs : s.marshals = [] ++ (9, _) :: [] := hmarshals
  have hread := (Marshalled.inv h.run).exists_reads sampleLua_rebuilds (fun _ => false)
    (by rw [h.handles]; exact List.mem_cons_self) hs
  have hcov : s.Covered sampleLua (.reads 9) := by
    intro M hM ptr
    rw [hmarshals, List.mem_singleton] at hM
    cases hM
    rw [Nat.zero_add, Nat.one_mul]
    rfl
  have hrun := h.run.snoc ⟨hcov, hread⟩
  have hagain := (Marshalled.inv hrun).exists_reads sampleLua_rebuilds (fun _ => false)
    (List.mem_append_right _ (by rw [h.handles]; exact List.mem_cons_self)) rfl
  refine ⟨_, _, hrun, ?_, hagain, ?_, h.refs⟩
  · rw [h.handles]
    rfl
  · rw [h.handles]
    rfl

/-- A tensor is marshalled and read back once. -/
theorem marshalled_objects_live_one : ∃ s : Objects UInt8, s.handles = [7, 9, 7] ∧
    (∀ ptr, (s.handles.count ptr : ℤ) ≤ s.refs ptr) ∧ ∀ ptr ∈ s.handles, 0 < s.refs ptr := by
  obtain ⟨s, _, hrun, hhandles, _⟩ := exists_two_reads
  exact ⟨s, hhandles, marshalled_objects_live sampleLua_rebuilds (fun _ => false) oneTensor_balanced hrun⟩

/-- The second read: three handles, and two references. -/
theorem second_read_uncounted : ∃ es, ∃ s : Objects UInt8,
    Run (Objects.Step sampleLua fun _ => false) oneTensor es s ∧
      ¬ ∀ ptr, (s.handles.count ptr : ℤ) ≤ s.refs ptr := by
  obtain ⟨s₁, s₂, hrun, -, hread, hhandles, hrefs⟩ := exists_two_reads
  refine ⟨_, s₂, (hrun.mono fun _ _ _ hs => hs.2).snoc hread, fun h => ?_⟩
  have h7 := h 7
  rw [hhandles, hrefs] at h7
  exact absurd h7 (by decide)

end TorchIpc
