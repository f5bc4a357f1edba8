import TorchIpc.Base.Simulation
import TorchIpc.Ringbuffer.Buffer

/-! The ring buffer refines a bounded queue of bytes. The abstract state is the
list of unread bytes, the capacity, and the length at the last push of the write
position while only writes followed it. The main result compares every answer of
a run from `ringbufferCreate` with the answer of the queue: they agree unless the
sum of sizes wraps and the new block is not larger than the content. -/

namespace TorchIpc

/-- The calls on a ring buffer, each write with a non-null input. -/
inductive RingbufferOp where
  | write (bs : List UInt8)
  | read (n : ℕ)
  | growBy (n : ℕ)
  | peek
  | pushWritePos
  | popWritePos
  deriving Repr, DecidableEq

/-- What a call hands back: nothing, a count, or a count with the bytes read. -/
inductive RingbufferOut where
  | unit
  | count (n : ℕ)
  | bytes (n : ℕ) (bs : List UInt8)
  deriving Repr, DecidableEq

def Ringbuffer.step (rb : Ringbuffer) : RingbufferOp → RingbufferOut × Option Ringbuffer
  | .write bs =>
    let (n, rb) := ringbufferWrite rb (some bs) bs.length
    (.count n, some rb)
  | .read n =>
    let (n, bs, rb) := ringbufferRead rb n
    (.bytes n bs, some rb)
  | .growBy n => (.unit, ringbufferGrowBy rb n)
  | .peek => (.count (ringbufferPeek rb), some rb)
  | .pushWritePos => (.unit, some (ringbufferPushWritePos rb))
  | .popWritePos => (.unit, some (ringbufferPopWritePos rb))

/-- A call after any others. Without a block there is no answer any more. -/
def Ringbuffer.call : Option Ringbuffer → RingbufferOp → RingbufferOut × Option Ringbuffer
  | some rb, op => rb.step op
  | none, _ => (.unit, none)

/-- A queue of at most `cap` bytes; `mark` is its length at the last push that
only writes have followed. -/
structure Fifo where
  cap : ℕ
  bytes : List UInt8
  mark : Option ℕ
  deriving Repr, DecidableEq

namespace Fifo

def empty (cap : ℕ) : Fifo := ⟨cap, [], none⟩

def step (s : Fifo) : RingbufferOp → RingbufferOut × Fifo
  | .write bs =>
    let fits := bs.take (s.cap - s.bytes.length)
    (.count fits.length, { s with bytes := s.bytes ++ fits })
  | .read n =>
    (.bytes (s.bytes.take n).length (s.bytes.take n),
      { s with bytes := s.bytes.drop n, mark := none })
  | .growBy n => (.unit, { s with cap := (growCapacity s.cap n).getD 0, mark := none })
  | .peek => (.count s.bytes.length, s)
  | .pushWritePos => (.unit, { s with mark := some s.bytes.length })
  | .popWritePos => (.unit, { s with bytes := s.bytes.take (s.mark.getD 0), mark := none })

/-- A pop needs a push that only writes have followed, and the buffer grows by at
least one byte. -/
def Ok (s : Fifo) : RingbufferOp → Prop
  | .growBy n => 1 ≤ n
  | .popWritePos => s.mark.isSome
  | _ => True

/-- The buffer gets a block that is larger than its content. -/
def Grows (s : Fifo) : RingbufferOp → Prop
  | .growBy n => ∃ c ∈ growCapacity s.cap n, s.bytes.length < c
  | _ => True

theorem grows_of_lt {s : Fifo} {n : ℕ} (hn : 1 ≤ n) (hlt : n < 2 ^ 63) (hle : s.bytes.length ≤ s.cap) :
    s.Grows (.growBy n) :=
  ⟨s.cap + n, if_pos hlt, by omega⟩

instance (s : Fifo) : (op : RingbufferOp) → Decidable (s.Ok op)
  | .growBy n => inferInstanceAs (Decidable (1 ≤ n))
  | .popWritePos => inferInstanceAs (Decidable (s.mark.isSome = true))
  | .write _ | .read _ | .peek | .pushWritePos => .isTrue trivial

end Fifo

namespace Ringbuffer

/-- The buffer is valid, holds the bytes of the queue, and can roll back to its mark. -/
structure Refines (rb : Ringbuffer) (s : Fifo) : Prop where
  valid : rb.Valid
  cb_eq : rb.cb = s.cap
  content_eq : rb.content = s.bytes
  marked : ∀ m ∈ s.mark, rb.Marked m

theorem create_refines {cb : ℕ} (h : 1 ≤ cb) : (ringbufferCreate cb).Refines (Fifo.empty cb) :=
  ⟨create_valid h, rfl, create_content cb, by simp [Fifo.empty]⟩

variable {rb : Ringbuffer} {s : Fifo}

theorem Refines.room_eq (h : rb.Refines s) : rb.room = s.cap - s.bytes.length := by
  rw [← h.content_eq, h.valid.length_content, ← h.cb_eq, room]

theorem Refines.write (h : rb.Refines s) (bs : List UInt8) :
    (rb.step (.write bs)).1 = (s.step (.write bs)).1 ∧
      (ringbufferWrite rb (some bs) bs.length).2.Refines (s.step (.write bs)).2 := by
  refine ⟨?_, write_valid h.valid bs, ?_, ?_, ?_⟩
  · simp only [step, Fifo.step, write_fst, h.room_eq, List.length_take, Nat.min_comm]
  · exact (write_cb (some bs) bs.length).trans h.cb_eq
  · rw [write_content h.valid, h.content_eq, h.room_eq]
    rfl
  · exact fun m hm => write_marked (h.marked m hm) (some bs) bs.length

theorem Refines.read (h : rb.Refines s) (n : ℕ) :
    (rb.step (.read n)).1 = (s.step (.read n)).1 ∧
      (ringbufferRead rb n).2.2.Refines (s.step (.read n)).2 := by
  refine ⟨?_, read_valid h.valid n, ?_, ?_, ?_⟩
  · simp only [step, Fifo.step, read_eq h.valid, h.content_eq, List.length_take]
    rw [← h.content_eq, h.valid.length_content]
  · exact (read_cb n).trans h.cb_eq
  · rw [read_content h.valid, h.content_eq]
    rfl
  · simp [Fifo.step]

theorem Refines.length_bytes (h : rb.Refines s) : s.bytes.length = rb.rcb := by
  rw [← h.content_eq, h.valid.length_content]

theorem Refines.growBy (h : rb.Refines s) {n c : ℕ} (hc : growCapacity s.cap n = some c)
    (hlt : s.bytes.length < c) :
    ringbufferGrowBy rb n = some (ringbufferMoveTo rb c) ∧
      (ringbufferMoveTo rb c).Refines (s.step (.growBy n)).2 := by
  rw [h.length_bytes] at hlt
  refine ⟨?_, moveTo_valid h.valid hlt, ?_, (moveTo_content h.valid hlt.le).trans h.content_eq, ?_⟩
  · rw [ringbufferGrowBy, h.cb_eq, hc, Option.map_some]
  · simp [Fifo.step, hc]
  · simp [Fifo.step]

theorem Refines.popWritePos (h : rb.Refines s) {m : ℕ} (hm : s.mark = some m) :
    (ringbufferPopWritePos rb).Refines (s.step .popWritePos).2 := by
  have hmark := h.marked m hm
  refine ⟨popWritePos_valid h.valid hmark, h.cb_eq, ?_, ?_⟩
  · simp only [Fifo.step, popWritePos_content hmark, h.content_eq, hm, Option.getD_some]
  · simp [Fifo.step]

/-- One call: equal answers, and the states stay related. -/
theorem step_refines (h : rb.Refines s) {op : RingbufferOp} (hok : s.Ok op) (hgrows : s.Grows op) :
    (rb.step op).1 = (s.step op).1 ∧ ∃ rb' ∈ (rb.step op).2, rb'.Refines (s.step op).2 := by
  cases op with
  | write bs => exact ⟨(h.write bs).1, _, rfl, (h.write bs).2⟩
  | read n => exact ⟨(h.read n).1, _, rfl, (h.read n).2⟩
  | growBy n =>
    obtain ⟨c, hc, hlt⟩ := hgrows
    exact ⟨rfl, _, h.growBy hc hlt⟩
  | peek =>
    refine ⟨?_, rb, rfl, h⟩
    simp only [step, Fifo.step, ringbufferPeek, h.length_bytes]
  | pushWritePos =>
    refine ⟨rfl, _, rfl, pushWritePos_valid h.valid, h.cb_eq, h.content_eq, ?_⟩
    intro m hm
    simp only [Fifo.step, Option.mem_def, Option.some.injEq] at hm
    rw [← hm, ← h.content_eq]
    exact pushWritePos_marked h.valid
  | popWritePos =>
    obtain ⟨m, hm⟩ := Option.isSome_iff_exists.mp hok
    exact ⟨rfl, _, rfl, h.popWritePos hm⟩

/-- The buffer answers as the queue does, holds its bytes, and its fields are related as they
should be. -/
def Agrees (c : RingbufferOut × Option Ringbuffer) (a : RingbufferOut × Fifo) : Prop :=
  c.1 = a.1 ∧ ∃ rb ∈ c.2, rb.content = a.2.bytes ∧ rb.cb = a.2.cap ∧ a.2.bytes.length ≤ a.2.cap ∧
    rb.rp < rb.cb ∧ rb.wp < rb.cb ∧ rb.rcb ≤ rb.cb ∧ rb.wp = (rb.rp + rb.rcb) % rb.cb

theorem Refines.agrees (h : rb.Refines s) (out : RingbufferOut) :
    Agrees (out, some rb) (out, s) := by
  have hv := h.valid
  refine ⟨rfl, rb, rfl, h.content_eq, h.cb_eq, ?_, hv.rp_lt, hv.wp_lt, hv.rcb_le, hv.wp_eq⟩
  rw [h.length_bytes, ← h.cb_eq]
  exact hv.rcb_le

/-- A block that is not larger than the content is noticed at once. -/
theorem Refines.grows_of_agrees (h : rb.Refines s) {op : RingbufferOp}
    (hagrees : Agrees (rb.step op) (s.step op)) : s.Grows op := by
  cases op with
  | growBy n =>
    obtain ⟨-, rb', hrb', hcontent, -, -, -, hwp, hle, hwp_eq⟩ := hagrees
    obtain ⟨c, hc, rfl⟩ := Option.map_eq_some_iff.mp hrb'
    rw [h.cb_eq] at hc
    refine ⟨c, hc, ?_⟩
    have hrcb : (ringbufferMoveTo rb c).rcb = (ringbufferMoveTo rb c).wp := rfl
    have hkept : (ringbufferMoveTo rb c).content.length = s.bytes.length := by
      rw [hcontent]
      rfl
    have hshort : (ringbufferMoveTo rb c).content.length ≤ (ringbufferMoveTo rb c).rcb := by
      rw [content, Circular.length_window]
      exact Nat.min_le_left _ _
    rw [hkept] at hshort
    exact (hshort.trans hrcb.le).trans_lt hwp
  | _ => trivial

end Ringbuffer

open Simulation in
/-- A run of permitted calls on a fresh buffer gives the answers of the bounded queue, and the
index relations hold after every call, exactly when every block is larger than the content. -/
theorem ringbuffer_refines_fifo_iff (cb : ℕ) (hcb : 1 ≤ cb) (ops : List RingbufferOp)
    (hops : Permitted Fifo.step Fifo.Ok (Fifo.empty cb) ops) :
    List.Forall₂ Ringbuffer.Agrees (trace Ringbuffer.call (some (ringbufferCreate cb)) ops)
        (trace Fifo.step (Fifo.empty cb) ops) ↔
      Permitted Fifo.step Fifo.Grows (Fifo.empty cb) ops := by
  refine trace_forall₂_iff (R := fun rb s => ∃ rb' ∈ rb, rb'.Refines s) ?_ ?_ ops _ _
    ⟨_, rfl, Ringbuffer.create_refines hcb⟩ hops
  · rintro _ s op ⟨rb, rfl, h⟩ hok hgrows
    obtain ⟨hout, rb', hrb', h'⟩ := Ringbuffer.step_refines h hok hgrows
    have hstep : Ringbuffer.call (some rb) op = ((s.step op).1, some rb') := Prod.ext hout hrb'
    rw [hstep]
    exact ⟨h'.agrees _, rb', rfl, h'⟩
  · rintro _ s op ⟨rb, rfl, h⟩ hagrees
    exact h.grows_of_agrees hagrees

/-- A run that fills the buffer, reads, writes over the end, rolls that write
back, and grows the wrapped content. -/
theorem ringbuffer_refines_fifo_wrapped :
    let ops : List RingbufferOp := [.write [1, 2, 3, 4], .read 3, .write [5, 6], .pushWritePos,
      .write [7, 8], .popWritePos, .growBy 2, .peek, .read 9]
    Simulation.Permitted Fifo.step Fifo.Ok (Fifo.empty 4) ops ∧
      List.Forall₂ Ringbuffer.Agrees (Simulation.trace Ringbuffer.call (some (ringbufferCreate 4)) ops)
        (Simulation.trace Fifo.step (Fifo.empty 4) ops) := by
  intro ops
  have hok : Simulation.Permitted Fifo.step Fifo.Ok (Fifo.empty 4) ops := by decide
  refine ⟨hok, (ringbuffer_refines_fifo_iff 4 (by decide) ops hok).mpr ?_⟩
  refine ⟨trivial, trivial, trivial, trivial, trivial, trivial, ?_, trivial, trivial, trivial⟩
  exact Fifo.grows_of_lt (by decide) (by decide) (by decide)

/-- A sum of sizes that wraps to zero leaves no room for the next index. -/
theorem grow_wraps : Simulation.Permitted Fifo.step Fifo.Ok (Fifo.empty 2048) [.growBy (2 ^ 64 - 2048)] ∧
    ¬ List.Forall₂ Ringbuffer.Agrees
      (Simulation.trace Ringbuffer.call (some (ringbufferCreate 2048)) [.growBy (2 ^ 64 - 2048)])
      (Simulation.trace Fifo.step (Fifo.empty 2048) [.growBy (2 ^ 64 - 2048)]) := by
  refine ⟨⟨by decide, trivial⟩, fun hall => ?_⟩
  obtain ⟨⟨-, rb, hrb, -, hcb, -, hrp, -⟩, -⟩ := List.forall₂_cons.mp hall
  have hzero : rb.cb = 0 := hcb
  rw [hzero] at hrp
  exact absurd hrp (Nat.not_lt_zero _)

end TorchIpc
