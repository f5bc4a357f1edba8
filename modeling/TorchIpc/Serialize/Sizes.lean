import TorchIpc.Serialize.Appending

/-! The sizes of a buffer. `ipc.workqueue`, `ipc.marshal` and `ipc.sharedtable` take the
capacity and the increment from the caller as they are. Without a capacity the first byte
divides by it; without an increment a value that does not fit is tried for ever; and sizes
that no block can have come to one or the other, or to a null pointer. -/

namespace TorchIpc

open Runs

section
variable {P : Type}

/-! ### How a write ends -/

inductive WriteEnd where
  | ends (rb : Ringbuffer)
  | divides
  | goesOn

def GrowthOutcome.ending : GrowthOutcome → WriteEnd
  | .ret _ fx _ => .ends fx.rb
  | .raised _ fx => .ends fx.rb
  | .popped fx => .ends fx.rb
  | .undefined => .divides
  | .diverges => .goesOn
  | .timeout => .goesOn

def WriteOutcome.ending : WriteOutcome → WriteEnd
  | .done q => .ends q.rb
  | .error _ q => .ends q.rb
  | .raised _ q => .ends q.rb
  | .undefined => .divides
  | .diverges => .goesOn
  | .timeout => .goesOn

def GrowthLoop.ending (lua : Lua P) (loop : GrowthLoop) (v : Value P) (index top : ℕ) (fx : Effects)
    (fuel : ℕ) :
    WriteEnd :=
  match loop with
  | .queue upval sizeIncrement numItems locks =>
    (queueWrite lua upval sizeIncrement fuel [v] { fx with numItems := numItems, locks := locks }).ending
  | .marshal upval sizeIncrement =>
      (Marshal.marshalWrite lua upval sizeIncrement v index top fx fuel).ending
  | .sharedtable size => (Sharedtable.rbSaveWithGrowth lua size v index top fx fuel).ending
  | .map => (Map.rbSaveWithGrowth lua v index top fx fuel).ending

/-! ### The constructors -/

/-- The functions that open a buffer of a given size. -/
inductive Constructor where
  | workqueue
  | marshal
  | sharedtable

namespace Constructor

abbrev DEFAULT_WORKQUEUE_SIZE : ℕ := 16 * 1024
abbrev DEFAULT_MARSHAL_SIZE : ℕ := 1024 * 16
abbrev BUFFER_SIZE : ℕ := 16 * 1024

def capacity (c : Constructor) (size : Option ℕ) : ℕ :=
  match c with
  | .workqueue => size.getD DEFAULT_WORKQUEUE_SIZE
  | .marshal => size.getD DEFAULT_MARSHAL_SIZE
  | .sharedtable => size.getD BUFFER_SIZE

def increment (c : Constructor) (size inc : Option ℕ) : ℕ := inc.getD (c.capacity size)

/-- The loops that write into such a buffer. -/
def Writes (c : Constructor) (inc : ℕ) : GrowthLoop → Prop
  | .queue _ sizeIncrement _ _ => c = .workqueue ∧ sizeIncrement = inc
  | .marshal _ sizeIncrement => c = .marshal ∧ sizeIncrement = inc
  | .sharedtable sizeIncrement => c = .sharedtable ∧ sizeIncrement = inc
  | .map => False

end Constructor

/-- A write of a value, however it ends; or a read of some bytes, which are there. -/
inductive BufferStep (lua : Lua P) (c : Constructor) (inc : ℕ) : Ringbuffer → Unit → Ringbuffer →
    Prop where
  | write {rb rb' loop v index top retained fuel} : c.Writes inc loop → index ≤ top →
      loop.ending lua v index top ⟨rb, retained⟩ fuel = .ends rb' → BufferStep lua c inc rb () rb'
  | read {rb} (n : ℕ) : rb.content ≠ [] → BufferStep lua c inc rb () (ringbufferRead rb n).2.2

/-- The constructor gets its block; and whatever was done with the buffer, no byte of it is
written or read modulo zero, and the write of a value that can be serialised ends. -/
def Constructor.Works (lua : Lua P) (c : Constructor) (size inc : Option ℕ) : Prop :=
  c.capacity size < 2 ^ 63 ∧ ∀ es rb,
    Run (BufferStep lua c (c.increment size inc)) (ringbufferCreate (c.capacity size)) es rb →
    (rb.content ≠ [] → rb.cb ≠ 0) ∧ ∀ loop, c.Writes (c.increment size inc) loop →
    ∀ v index top retained, index ≤ top →
      (∀ fuel, loop.ending lua v index top ⟨rb, retained⟩ fuel ≠ .divides) ∧
      ((script lua false loop.upval v).fin = .ok →
        ∃ fuel rb', loop.ending lua v index top ⟨rb, retained⟩ fuel = .ends rb')

/-! ### The common loop -/

variable {lua : Lua P} {settle : ℕ → ℕ → Option ℕ} {upval : Bool} {inc : ℕ} {v : Value P} {index top : ℕ} {fx : Effects}

/-- The buffer stays usable, and may still be rolled back after a return. -/
def GrowthOutcome.Usable : GrowthOutcome → Prop
  | .ret _ fx _ => fx.rb.Valid ∧ (ringbufferPopWritePos fx.rb).Valid
  | .raised _ fx => fx.rb.Valid
  | .popped fx => fx.rb.Valid
  | .undefined => False
  | .diverges => True
  | .timeout => True

theorem growthLoop_usable (hsettle : Settles settle) (hinc : 1 ≤ inc) (hlt : inc < 2 ^ 63)
    (hv : fx.rb.Valid) (hi : index ≤ top) (fuel : ℕ) :
    (growthLoop lua settle upval inc v index fuel top fx).Usable := by
  induction fuel generalizing top fx with
  | zero => trivial
  | succ fuel ih =>
    obtain ⟨pushed, fx', happ, -, hsave⟩ := rbSave_retained lua upval v hv hi
    have hpop := Ringbuffer.popWritePos_valid happ.valid (happ.marked _ (Ringbuffer.pushWritePos_marked hv))
    cases hover : overflow (script lua false upval v).items fx.rb.room with
    | some place =>
      by_cases hplace : place = .key
      · rw [growthLoop, hsave, hover, hplace]
        exact happ.valid
      · obtain ⟨top', fx₁, htop, hv₁, -, -, -, hstep⟩ :=
          growthLoop_retry hv (one_le_nextRoom hinc hlt _) hi hsettle hover hplace
        rw [hstep]
        exact ih hv₁ (hi.trans htop)
    | none =>
      have hshort := script_notShort lua false upval v
      rw [growthLoop, hsave, hover]
      cases hfin : (script lua false upval v).fin with
      | ok => exact ⟨happ.valid, hpop⟩
      | raise e => exact happ.valid
      | diverges => trivial
      | code e place =>
        rw [hfin] at hshort
        cases e with
        | ENOMEM => exact absurd rfl hshort
        | _ =>
          cases place with
          | key => exact happ.valid
          | _ => exact ⟨happ.valid, hpop⟩

theorem growthLoop_terminates (hsettle : Settles settle) (hinc : 1 ≤ inc) (hlt : inc < 2 ^ 63)
    (hv : fx.rb.Valid) (hi : index ≤ top) (hfin : (script lua false upval v).fin ≠ .diverges) :
    ∃ fuel r, (growthLoop lua settle upval inc v index fuel top fx).result = some r := by
  generalize hd : (encode lua false upval v).length - fx.rb.room = d
  induction d using Nat.strong_induction_on generalizing top fx with
  | _ d ih =>
    have hlast (hends : overflow (script lua false upval v).items fx.rb.room = some .key ∨
        overflow (script lua false upval v).items fx.rb.room = none ∧
          (script lua false upval v).fin ≠ .diverges) :
        ∃ fuel r, (growthLoop lua settle upval inc v index fuel top fx).result = some r := by
      obtain ⟨ok, -, hresult⟩ := growthLoop_last settle inc hv hi hends
      exact ⟨1, _, hresult 0⟩
    cases hover : overflow (script lua false upval v).items fx.rb.room with
    | none => exact hlast (Or.inr ⟨hover, hfin⟩)
    | some place =>
      by_cases hplace : place = .key
      · exact hlast (Or.inl (hplace ▸ hover))
      have hshort : fx.rb.room < (encode lua false upval v).length := by
        by_contra hfit
        have hnone := overflow_eq_none.mpr (not_lt.mp hfit)
        rw [hover] at hnone
        cases hnone
      obtain ⟨top', fx₁, htop, hv₁, hroom, -, -, hstep⟩ :=
        growthLoop_retry hv (one_le_nextRoom hinc hlt _) hi hsettle hover hplace
      rw [nextRoom_of_lt hlt] at hroom
      obtain ⟨fuel, r, hresult⟩ := ih _ (by rw [← hd, hroom]; omega) hv₁ (hi.trans htop) rfl
      exact ⟨fuel + 1, r, by rw [hstep]; exact hresult⟩

/-- What the loop ends with does not depend on the fuel. -/
theorem growthLoop_more {fuel : ℕ} {r : Bool × List UInt64}
    (h : (growthLoop lua settle upval inc v index fuel top fx).result = some r) {fuel' : ℕ} (hle : fuel ≤ fuel') :
    growthLoop lua settle upval inc v index fuel' top fx = growthLoop lua settle upval inc v index fuel top fx := by
  induction fuel generalizing top fx fuel' with
  | zero => cases h
  | succ fuel ih =>
    obtain ⟨fuel', rfl⟩ : ∃ k, fuel' = k + 1 := ⟨fuel' - 1, by omega⟩
    rw [growthLoop] at h
    rw [growthLoop, growthLoop]
    split at h
    · next code fx₁ top₁ hsave =>
      split_ifs at h ⊢ with hshort
      · cases hsettle : settle top top₁ with
        | none => rfl
        | some top₂ =>
          rw [hsettle] at h
          cases hgrow : ringbufferGrowBy (ringbufferPopWritePos fx₁.rb) inc with
          | none => rfl
          | some rb =>
            simp only [hgrow] at h
            exact ih h (Nat.le_of_succ_le_succ hle)
      · rfl
    · rfl
    · rfl
    · rfl

theorem growthLoop_endless (hsettle : Settles settle) (hinc : inc = 0 ∨ 2 ^ 63 ≤ inc)
    (hv : fx.rb.Valid) (hi : index ≤ top) (hs : Serialisable lua upval v)
    (hshort : fx.rb.room < (encode lua false upval v).length) (fuel : ℕ) :
    (growthLoop lua settle upval inc v index fuel top fx).result = none := by
  induction fuel generalizing top fx with
  | zero => rfl
  | succ fuel ih =>
    obtain ⟨place, hover⟩ : ∃ place, overflow (script lua false upval v).items fx.rb.room =
        some place :=
      Option.ne_none_iff_exists'.mp fun hnone =>
        absurd hshort (not_lt.mpr (overflow_eq_none.mp hnone))
    obtain ⟨bs, hbs⟩ := put_mem_of_overflow hover
    have hplace : place ≠ .key := by
      rintro rfl
      exact hs.2 bs hbs
    rcases Nat.eq_zero_or_pos (nextRoom fx.rb.room inc) with hfull | hroom
    · exact growthLoop_full hv hfull hi hsettle hover hplace (fuel + 1)
    obtain ⟨top', fx₁, htop, hv₁, hsame, -, -, hstep⟩ :=
      growthLoop_retry hv hroom hi hsettle hover hplace
    have hle : nextRoom fx.rb.room inc ≤ fx.rb.room := by
      rw [nextRoom]
      split_ifs <;> omega
    rw [hstep]
    exact ih hv₁ (hi.trans htop) (hsame ▸ hle.trans_lt hshort)

/-- A buffer without a capacity is divided by at the first byte. -/
theorem growthLoop_divides (hcb : fx.rb.cb = 0) (fuel : ℕ) :
    (growthLoop lua settle upval inc .nil index fuel top fx).result = none := by
  cases fuel with
  | zero => rfl
  | succ fuel =>
    have hcb : (ringbufferPushWritePos fx.rb).cb = 0 := hcb
    rw [growthLoop, rbSave, rbWrite, rbWritePop, if_pos hcb]
    rfl

/-! ### The loops of the constructors -/

def WriteEnd.Usable : WriteEnd → Prop
  | .ends rb => rb.Valid
  | .divides => False
  | .goesOn => True

theorem GrowthOutcome.Usable.ending {o : GrowthOutcome} (h : o.Usable) : o.ending.Usable := by
  cases o with
  | ret code fx top => exact h.1
  | _ => exact h

theorem GrowthOutcome.Usable.onQueue {o : GrowthOutcome} (h : o.Usable) (q : Queue) :
    (o.onQueue q).ending.Usable := by
  cases o with
  | ret code fx top =>
    rw [GrowthOutcome.onQueue]
    split_ifs
    · exact h.1
    · exact h.2
  | popped fx => trivial
  | _ => exact h

theorem queueWrite_ending (lua : Lua P) (upval : Bool) (inc fuel : ℕ) (vs : List (Value P)) (q : Queue) :
    (queueWrite lua upval inc fuel vs q).ending =
      (writeLoop lua upval inc fuel vs 2 (vs.length + 1) (pthreadMutexLock q)).ending := by
  rw [queueWrite]
  cases writeLoop lua upval inc fuel vs 2 (vs.length + 1) (pthreadMutexLock q) <;> rfl

/-- With an increment that does not wrap, a write leaves a usable buffer and never divides by
zero. -/
theorem GrowthLoop.usable (loop : GrowthLoop) (hinc : 1 ≤ loop.increment) (hlt : loop.increment < 2 ^ 63)
    (hv : fx.rb.Valid) (hi : index ≤ top) (fuel : ℕ) :
    (loop.ending lua v index top fx fuel).Usable := by
  cases loop with
  | queue upval inc numItems locks =>
    rw [GrowthLoop.ending, queueWrite_ending]
    rcases (writeLoop_single lua upval inc v 2 fuel 2
      (pthreadMutexLock { fx with numItems := numItems, locks := locks })).1 with htimeout | heq
    · exact htimeout ▸ trivial
    · exact heq ▸ (growthLoop_usable settles_id hinc hlt hv le_rfl fuel).onQueue _
  | marshal upval inc =>
    have husable : (growthLoop lua (fun _ top => some top) upval inc v index fuel top fx).Usable :=
      growthLoop_usable settles_id hinc hlt hv hi fuel
    rw [GrowthLoop.ending, Marshal.marshalWrite]
    generalize growthLoop lua (fun _ top => some top) upval inc v index fuel top fx = o at husable
    cases o with
    | ret code fx top =>
      simp only
      split_ifs
      · exact husable.1
      · exact husable.2
    | _ => exact husable
  | sharedtable size => exact (growthLoop_usable settles_id hinc hlt hv hi fuel).ending
  | map => exact (growthLoop_usable settles_reset hinc hlt hv hi fuel).ending

theorem ending_iff (o : GrowthOutcome) : (∃ rb, o.ending = .ends rb) ↔ ∃ r, o.result = some r := by
  cases o with
  | ret code fx top => exact ⟨fun _ => ⟨_, rfl⟩, fun _ => ⟨_, rfl⟩⟩
  | raised e fx => exact ⟨fun _ => ⟨_, rfl⟩, fun _ => ⟨_, rfl⟩⟩
  | popped fx => exact ⟨fun _ => ⟨_, rfl⟩, fun _ => ⟨_, rfl⟩⟩
  | _ => exact iff_of_false (fun ⟨_, h⟩ => nomatch h) (fun ⟨_, h⟩ => nomatch h)

theorem writeEnding_iff (o : WriteOutcome) : (∃ rb, o.ending = .ends rb) ↔
    ∃ r, o.result = some r := by
  cases o with
  | done q => exact ⟨fun _ => ⟨_, rfl⟩, fun _ => ⟨_, rfl⟩⟩
  | error code q => exact ⟨fun _ => ⟨_, rfl⟩, fun _ => ⟨_, rfl⟩⟩
  | raised e q => exact ⟨fun _ => ⟨_, rfl⟩, fun _ => ⟨_, rfl⟩⟩
  | _ => exact iff_of_false (fun ⟨_, h⟩ => nomatch h) (fun ⟨_, h⟩ => nomatch h)

theorem GrowthLoop.ending_iff (loop : GrowthLoop) (hi : index ≤ top) : ∃ settle index' top',
    Settles settle ∧
    index' ≤ top' ∧ ((∃ fuel rb, loop.ending lua v index top fx fuel = .ends rb) ↔
      ∃ fuel r, (growthLoop lua settle loop.upval loop.increment v index' fuel top' fx).result =
        some r) := by
  obtain ⟨settle, index', top', hi', hsettle, hiff⟩ := loop.ends_iff lua v fx hi
  have hrun (fuel : ℕ) : (∃ rb, loop.ending lua v index top fx fuel = .ends rb) ↔
      ∃ r, loop.run lua v index top fx fuel = some r := by
    cases loop with
    | queue => exact writeEnding_iff _
    | _ => exact TorchIpc.ending_iff _
  refine ⟨settle, index', top', hsettle, hi', (exists_congr hrun).trans ?_⟩
  constructor
  · rintro ⟨fuel, ⟨ok, after⟩, h⟩
    obtain ⟨fuel', h'⟩ := (hiff ok after).mp ⟨fuel, h⟩
    exact ⟨fuel', _, h'⟩
  · rintro ⟨fuel, ⟨ok, after⟩, h⟩
    obtain ⟨fuel', h'⟩ := (hiff ok after).mpr ⟨fuel, h⟩
    exact ⟨fuel', _, h'⟩

/-! ### The sizes that work -/

/-- A loop that writes into the buffers of a constructor. -/
def Constructor.loop (c : Constructor) (inc : ℕ) : GrowthLoop :=
  match c with
  | .workqueue => .queue false inc 0 0
  | .marshal => .marshal false inc
  | .sharedtable => .sharedtable inc

theorem Constructor.loop_writes (c : Constructor) (inc : ℕ) : c.Writes inc (c.loop inc) ∧
    (c.loop inc).increment = inc := by
  cases c <;> exact ⟨⟨rfl, rfl⟩, rfl⟩

theorem Constructor.Writes.increment_eq {c : Constructor} {loop : GrowthLoop} (h : c.Writes inc loop) :
    loop.increment = inc := by
  cases loop with
  | map => exact h.elim
  | _ => exact h.2

/-- Exactly the sizes that are not zero, and that a block can have, work. -/
theorem sizes_work_iff (lua : Lua P) (c : Constructor) (size inc : Option ℕ) :
    c.Works lua size inc ↔ (1 ≤ c.capacity size ∧ c.capacity size < 2 ^ 63) ∧
      1 ≤ c.increment size inc ∧ c.increment size inc < 2 ^ 63 := by
  constructor
  · rintro ⟨hblock, hworks⟩
    obtain ⟨-, hwrites⟩ := hworks [] _ .nil
    obtain ⟨hloop, hincrement⟩ := c.loop_writes (c.increment size inc)
    have hends (v : Value P) (hfin : (script lua false (c.loop (c.increment size inc)).upval v).fin = .ok) :=
      (hwrites _ hloop v 1 1 [] le_rfl).2 hfin
    have hcapacity : 1 ≤ c.capacity size := by
      by_contra hzero
      obtain ⟨settle, index, top, -, -, hiff⟩ := @GrowthLoop.ending_iff P lua .nil 1 1
        ⟨ringbufferCreate (c.capacity size), []⟩ (c.loop (c.increment size inc)) le_rfl
      obtain ⟨fuel, r, hresult⟩ := hiff.mp (hends .nil rfl)
      rw [growthLoop_divides (show c.capacity size = 0 by omega)] at hresult
      cases hresult
    refine ⟨⟨hcapacity, hblock⟩, ?_⟩
    by_contra hnot
    -- a string that is as long as the buffer does not fit
    obtain ⟨settle, index, top, hsettle, hi, hiff⟩ := @GrowthLoop.ending_iff P lua
      (.string (List.replicate (c.capacity size) 0)) 1 1 ⟨ringbufferCreate (c.capacity size), []⟩
      (c.loop (c.increment size inc)) le_rfl
    obtain ⟨fuel, r, hresult⟩ := hiff.mp (hends _ rfl)
    have hshort : (Effects.rb ⟨ringbufferCreate (c.capacity size), []⟩).room <
        (encode lua false (c.loop (c.increment size inc)).upval
        (.string (List.replicate (c.capacity size) 0))).length :=
      not_le.mp fun hfits => nomatch (overflow_eq_none.mpr hfits).symm.trans (string_overflows lua _ (c.capacity size))
    have hempty : Ringbuffer.Valid (Effects.rb ⟨ringbufferCreate (c.capacity size), []⟩) :=
      Ringbuffer.create_valid hcapacity
    rw [hincrement] at hresult
    have hinc : c.increment size inc = 0 ∨ 2 ^ 63 ≤ c.increment size inc := by omega
    cases (growthLoop_endless hsettle hinc hempty hi (plain_serialisable lua _ rfl) hshort fuel).symm.trans hresult
  · rintro ⟨⟨hcapacity, hblock⟩, hincrement, hlt⟩
    refine ⟨hblock, fun es rb hrun => ?_⟩
    have hvalid : rb.Valid := by
      refine hrun.invariant (I := fun _ rb => rb.Valid) (Ringbuffer.create_valid hcapacity)
        fun es rb e rb' hv hstep => ?_
      cases hstep with
      | @write _ loop v index top retained fuel hloop hi hending =>
        have hsame := hloop.increment_eq
        have husable := @GrowthLoop.usable P lua v index top ⟨rb, retained⟩ loop
          (hsame ▸ hincrement) (hsame ▸ hlt) hv hi fuel
        rwa [hending] at husable
      | read n _ => exact Ringbuffer.read_valid hv n
    have hcb : rb.cb ≠ 0 := Nat.ne_zero_of_lt hvalid.rp_lt
    refine ⟨fun _ => hcb, fun loop hloop v index top retained hi => ?_⟩
    have hsame := hloop.increment_eq
    constructor
    · intro fuel hdivides
      have husable := @GrowthLoop.usable P lua v index top ⟨rb, retained⟩ loop (hsame ▸ hincrement)
        (hsame ▸ hlt) hvalid hi fuel
      rw [hdivides] at husable
      exact husable
    · intro hfin
      obtain ⟨settle, index', top', hsettle, hi', hiff⟩ :=
        @GrowthLoop.ending_iff P lua v index top ⟨rb, retained⟩ loop hi
      exact hiff.mpr (growthLoop_terminates hsettle (hsame ▸ hincrement) (hsame ▸ hlt) hvalid hi'
        fun hdiverges => nomatch hfin.symm.trans hdiverges)

end

/-- `ipc.workqueue(name, 0)` is accepted, and writing nil into it divides by zero. -/
theorem size_zero_divides : Constructor.capacity .workqueue (some 0) = 0 ∧
    (GrowthLoop.queue false 0 0 0).ending sampleLua .nil 2 2 ⟨ringbufferCreate 0, []⟩ 1 = .divides ∧
    ¬ Constructor.Works sampleLua .workqueue (some 0) none := by
  refine ⟨rfl, rfl, fun hworks => ?_⟩
  exact ((hworks.2 [] _ .nil).2 (.queue false 0 0 0) ⟨rfl, rfl⟩ .nil 2 2 [] le_rfl).1 1 rfl

end TorchIpc
