import Mathlib.Tactic
import TorchIpc.Base.Circular

/-! The byte ring buffer of `ringbuffer.c`. The fields are those of
`ringbuffer_t`; the block `buf` is a list of `cb` bytes. Sizes are natural
numbers: `malloc` is taken to succeed wherever a sum of sizes does not wrap.
Proved here: every operation keeps the four index relations of a valid buffer,
as long as it grows past its content, and acts on its content (the `rcb` bytes
from `rp` on) as a bounded queue does. -/

namespace TorchIpc

open Circular

structure Ringbuffer where
  buf : List UInt8
  cb : ℕ
  rp : ℕ
  wp : ℕ
  rcb : ℕ
  savedWp : ℕ
  savedRcb : ℕ
  deriving Repr, DecidableEq

/-- A fresh block. What it holds is never delivered to a reader. -/
def malloc (cb : ℕ) : List UInt8 := List.replicate cb 0

def ringbufferCreate (cb : ℕ) : Ringbuffer where
  buf := malloc cb
  cb := cb
  rp := 0
  wp := 0
  rcb := 0
  savedWp := 0
  savedRcb := 0

/-- `memcpy(&buf[pos], src, n)` inside the block. -/
def memcpy (buf : List UInt8) (pos : ℕ) (src : List UInt8) (n : ℕ) : List UInt8 :=
  blit buf pos (src.take n)

/-- `ringbuffer_write`. A null `input` moves the write position without storing
anything. -/
def ringbufferWrite (rb : Ringbuffer) (input : Option (List UInt8)) (cb : ℕ) : ℕ × Ringbuffer :=
  let i := min cb (rb.cb - rb.rcb)
  if rb.wp + i < rb.cb then
    let buf := match input with
      | some in8 => memcpy rb.buf rb.wp in8 i
      | none => rb.buf
    (i, { rb with buf := buf, wp := rb.wp + i, rcb := rb.rcb + i })
  else
    let size2 := (rb.wp + i) % rb.cb
    let size1 := i - size2
    let buf := match input with
      | some in8 => memcpy (memcpy rb.buf rb.wp in8 size1) 0 (in8.drop size1) size2
      | none => rb.buf
    (i, { rb with buf := buf, wp := size2, rcb := rb.rcb + i })

/-- `ringbuffer_read`. The second component is what `out` receives; its length is
the returned count. -/
def ringbufferRead (rb : Ringbuffer) (cb : ℕ) : ℕ × List UInt8 × Ringbuffer :=
  let i := min cb rb.rcb
  if rb.rp + i < rb.cb then
    (i, (rb.buf.drop rb.rp).take i, { rb with rp := rb.rp + i, rcb := rb.rcb - i })
  else
    let size2 := (rb.rp + i) % rb.cb
    let size1 := i - size2
    (i, (rb.buf.drop rb.rp).take size1 ++ rb.buf.take size2,
      { rb with rp := size2, rcb := rb.rcb - i })

/-- `rb->cb + cb`, if `malloc` can give as much. A block has fewer than `2 ^ 63` bytes, so
that a sum wraps for no smaller increment. For a larger one it is `2 ^ 64 - n` less than
`cb`, or no block at all. -/
def growCapacity (cb n : ℕ) : Option ℕ :=
  if n < 2 ^ 63 then some (cb + n)
  else if 2 ^ 64 - n ≤ cb then some (cb - (2 ^ 64 - n))
  else none

/-- The free bytes behind it, if there is a block. -/
def nextRoom (room n : ℕ) : ℕ := if n < 2 ^ 63 then room + n else room - (2 ^ 64 - n)

theorem nextRoom_of_lt {n : ℕ} (hn : n < 2 ^ 63) (room : ℕ) : nextRoom room n = room + n :=
  if_pos hn

theorem one_le_nextRoom {n : ℕ} (hpos : 1 ≤ n) (hn : n < 2 ^ 63) (room : ℕ) :
    1 ≤ nextRoom room n := by
  rw [nextRoom_of_lt hn]
  omega

/-- The rest of `ringbuffer_grow_by`, with the new block. -/
def ringbufferMoveTo (rb : Ringbuffer) (newCb : ℕ) : Ringbuffer :=
  let (rcb, out, rb) := ringbufferRead rb newCb
  { rb with
    buf := memcpy (malloc newCb) 0 out rcb
    cb := newCb
    rp := 0
    wp := rcb
    rcb := rcb
    savedWp := 0
    savedRcb := 0 }

/-- `ringbuffer_grow_by`. Without a block the content goes to a null pointer. -/
def ringbufferGrowBy (rb : Ringbuffer) (cb : ℕ) : Option Ringbuffer :=
  (growCapacity rb.cb cb).map (ringbufferMoveTo rb)

def ringbufferPeek (rb : Ringbuffer) : ℕ := rb.rcb

def ringbufferPushWritePos (rb : Ringbuffer) : Ringbuffer :=
  { rb with savedWp := rb.wp, savedRcb := rb.rcb }

def ringbufferPopWritePos (rb : Ringbuffer) : Ringbuffer :=
  { rb with wp := rb.savedWp, rcb := rb.savedRcb }

namespace Ringbuffer

/-- The relations between the fields that every operation keeps. -/
structure Valid (rb : Ringbuffer) : Prop where
  length_buf : rb.buf.length = rb.cb
  rp_lt : rb.rp < rb.cb
  wp_lt : rb.wp < rb.cb
  rcb_le : rb.rcb ≤ rb.cb
  wp_eq : rb.wp = (rb.rp + rb.rcb) % rb.cb

def content (rb : Ringbuffer) : List UInt8 := window rb.buf rb.rp rb.rcb

def room (rb : Ringbuffer) : ℕ := rb.cb - rb.rcb

variable {rb : Ringbuffer}

theorem Valid.length_content (h : rb.Valid) : rb.content.length = rb.rcb := by
  rw [content, length_window, h.length_buf, Nat.min_eq_left h.rcb_le]

theorem Valid.length_add_room (h : rb.Valid) : rb.content.length + rb.room = rb.cb := by
  have := h.rcb_le
  rw [h.length_content, room]
  omega

theorem create_valid {cb : ℕ} (h : 1 ≤ cb) : (ringbufferCreate cb).Valid := by
  constructor <;> simp [ringbufferCreate, malloc] <;> omega

@[simp] theorem create_content (cb : ℕ) : (ringbufferCreate cb).content = [] := by
  simp [content, ringbufferCreate, window]

/-! ### Writing -/

theorem write_fst (input : Option (List UInt8)) (n : ℕ) :
    (ringbufferWrite rb input n).1 = min n rb.room := by
  simp only [ringbufferWrite, room]
  split_ifs <;> rfl

@[simp] theorem write_cb (input : Option (List UInt8)) (n : ℕ) :
    (ringbufferWrite rb input n).2.cb = rb.cb := by
  simp only [ringbufferWrite]
  split_ifs <;> rfl

@[simp] theorem write_rp (input : Option (List UInt8)) (n : ℕ) :
    (ringbufferWrite rb input n).2.rp = rb.rp := by
  simp only [ringbufferWrite]
  split_ifs <;> rfl

@[simp] theorem write_rcb (input : Option (List UInt8)) (n : ℕ) :
    (ringbufferWrite rb input n).2.rcb = rb.rcb + min n rb.room := by
  simp only [ringbufferWrite, room]
  split_ifs <;> rfl

@[simp] theorem write_savedWp (input : Option (List UInt8)) (n : ℕ) :
    (ringbufferWrite rb input n).2.savedWp = rb.savedWp := by
  simp only [ringbufferWrite]
  split_ifs <;> rfl

@[simp] theorem write_savedRcb (input : Option (List UInt8)) (n : ℕ) :
    (ringbufferWrite rb input n).2.savedRcb = rb.savedRcb := by
  simp only [ringbufferWrite]
  split_ifs <;> rfl

/-- In both branches the write position moves by the returned count, modulo the
capacity. -/
theorem write_wp (input : Option (List UInt8)) (n : ℕ) :
    (ringbufferWrite rb input n).2.wp = (rb.wp + min n rb.room) % rb.cb := by
  simp only [ringbufferWrite, room]
  split_ifs with hw
  · exact (Nat.mod_eq_of_lt hw).symm
  · rfl

/-- What the block becomes: one copy, or two when the bytes run over the end. -/
theorem write_buf (h : rb.Valid) (bs : List UInt8) :
    (ringbufferWrite rb (some bs) bs.length).2.buf =
      let xs := bs.take (min bs.length rb.room)
      if rb.wp + xs.length < rb.cb then blit rb.buf rb.wp xs
      else blit (blit rb.buf rb.wp (xs.take (rb.cb - rb.wp))) 0 (xs.drop (rb.cb - rb.wp)) := by
  have hw := h.wp_lt
  simp only [ringbufferWrite, memcpy, List.length_take]
  rw [show rb.cb - rb.rcb = rb.room from rfl]
  have hle : min bs.length rb.room ≤ rb.cb := by unfold room; omega
  rw [show min (min bs.length rb.room) bs.length = min bs.length rb.room by omega]
  generalize min bs.length rb.room = i at hle ⊢
  rcases add_mod_cases hw hle with ⟨hlt, _⟩ | ⟨hge, hmod⟩
  · rw [if_pos hlt, if_pos hlt]
  · have hs : i - (rb.wp + i) % rb.cb = rb.cb - rb.wp := by omega
    have hd : (rb.wp + i) % rb.cb = i - (rb.cb - rb.wp) := by omega
    rw [if_neg (by omega), if_neg (by omega)]
    simp only [hs]
    rw [hd, List.take_take, Nat.min_eq_left (by omega), List.drop_take]

/-- A write keeps the relations between the fields. -/
theorem write_valid (h : rb.Valid) (bs : List UInt8) :
    (ringbufferWrite rb (some bs) bs.length).2.Valid := by
  have hw := h.wp_lt
  have hr := h.rcb_le
  have hp := h.rp_lt
  refine ⟨?_, by simpa using hp, ?_, ?_, ?_⟩
  · rw [write_buf h, write_cb]
    have hl : (bs.take (min bs.length rb.room)).length ≤ rb.cb := by
      rw [List.length_take]
      unfold room
      omega
    generalize bs.take (min bs.length rb.room) = xs at hl ⊢
    simp only
    split_ifs with hfit
    · rw [length_blit _ _ _ (by rw [h.length_buf]; omega), h.length_buf]
    · have h1 : (blit rb.buf rb.wp (xs.take (rb.cb - rb.wp))).length = rb.cb := by
        rw [length_blit _ _ _ (by rw [h.length_buf, List.length_take]; omega), h.length_buf]
      rw [length_blit _ _ _ (by rw [h1, List.length_drop]; omega), h1]
  · rw [write_wp, write_cb]
    exact Nat.mod_lt _ (by omega)
  · rw [write_rcb, write_cb]
    unfold room
    omega
  · rw [write_wp, write_rp, write_rcb, write_cb, h.wp_eq, Nat.mod_add_mod, Nat.add_assoc]

/-- A write appends the longest prefix of its input that fits. -/
theorem write_content (h : rb.Valid) (bs : List UInt8) :
    (ringbufferWrite rb (some bs) bs.length).2.content = rb.content ++ bs.take rb.room := by
  have hw := h.wp_lt
  have hr := h.rcb_le
  have hp := h.rp_lt
  have hlb := h.length_buf
  have htake : bs.take (min bs.length rb.room) = bs.take rb.room := by
    rw [← List.take_take, List.take_take, Nat.min_comm, ← List.take_take, List.take_length]
  rw [content, write_rp, write_rcb, write_buf h, htake, content]
  have hlen : (bs.take rb.room).length = min bs.length rb.room := by
    rw [List.length_take, Nat.min_comm]
  rw [← hlen]
  have hroom : rb.rcb + (bs.take rb.room).length ≤ rb.buf.length := by
    rw [hlen, hlb]
    unfold room
    omega
  generalize bs.take rb.room = xs at hroom
  simp only
  split_ifs with hfit
  · exact window_blit _ _ (by omega) hroom (by rw [hlb]; exact h.wp_eq) (by omega)
  -- the second copy starts at cell 0, right behind the window the first one ends at the last cell
  · have h1 : (xs.take (rb.cb - rb.wp)).length = rb.cb - rb.wp := by
      rw [List.length_take]
      omega
    have hfst := window_blit rb.buf (xs.take (rb.cb - rb.wp)) (p := rb.rp)
      (n := rb.rcb) (w := rb.wp) (by omega) (by omega) (by rw [hlb]; exact h.wp_eq) (by omega)
    have hb : (blit rb.buf rb.wp (xs.take (rb.cb - rb.wp))).length = rb.cb := by
      rw [length_blit _ _ _ (by omega), hlb]
    have hwp := add_mod_cases hp hr
    rw [← h.wp_eq] at hwp
    have hsnd := window_blit (blit rb.buf rb.wp (xs.take (rb.cb - rb.wp)))
      (xs.drop (rb.cb - rb.wp)) (p := rb.rp) (n := rb.rcb + (rb.cb - rb.wp)) (w := 0)
      (by omega) (by rw [List.length_drop]; omega) (by
        rw [hb]
        rcases hwp with ⟨_, e⟩ | ⟨_, e⟩
        · rw [show rb.rp + (rb.rcb + (rb.cb - rb.wp)) = rb.cb by omega, Nat.mod_self]
        · rw [show rb.rp + (rb.rcb + (rb.cb - rb.wp)) = rb.cb + rb.cb by omega]
          simp)
      (by rw [List.length_drop]; omega)
    rw [h1] at hfst
    rw [hfst, List.append_assoc, List.take_append_drop, List.length_drop] at hsnd
    rw [← hsnd]
    congr 1
    omega

theorem exists_content (bs : List UInt8) : ∃ rb : Ringbuffer, rb.Valid ∧ rb.content = bs := by
  have hvalid := create_valid (Nat.le_add_left 1 bs.length)
  have hroom : bs.length ≤ (ringbufferCreate (bs.length + 1)).room := Nat.le_add_right _ _
  refine ⟨(ringbufferWrite (ringbufferCreate (bs.length + 1)) (some bs) bs.length).2, write_valid hvalid bs, ?_⟩
  rw [write_content hvalid, create_content, List.take_of_length_le hroom, List.nil_append]

/-! ### Reading -/

/-- In both branches `out` receives the oldest bytes. -/
theorem read_eq (h : rb.Valid) (n : ℕ) :
    ringbufferRead rb n = (min n rb.rcb, rb.content.take n,
      { rb with rp := (rb.rp + min n rb.rcb) % rb.cb, rcb := rb.rcb - min n rb.rcb }) := by
  have hp := h.rp_lt
  have hr := h.rcb_le
  have hlb := h.length_buf
  have htake : rb.content.take n = window rb.buf rb.rp (min n rb.rcb) := by
    rw [← take_window rb.buf rb.rp (Nat.min_le_right n rb.rcb), ← content, ← List.take_take]
    congr 1
    exact (List.take_of_length_le (by rw [h.length_content])).symm
  rw [htake]
  have hle : min n rb.rcb ≤ rb.cb := by omega
  simp only [ringbufferRead]
  generalize min n rb.rcb = i at hle ⊢
  rcases add_mod_cases hp hle with ⟨hlt, hmod⟩ | ⟨hge, hmod⟩
  · rw [if_pos hlt, hmod, window_slice (by omega)]
  · rw [if_neg (by omega), window_wrap (by omega) (by omega) (by omega), hmod, hlb]
    rw [List.take_of_length_le (l := rb.buf.drop rb.rp) (by rw [List.length_drop]; omega)]

theorem read_valid (h : rb.Valid) (n : ℕ) : (ringbufferRead rb n).2.2.Valid := by
  have hp := h.rp_lt
  have hr := h.rcb_le
  rw [read_eq h]
  refine ⟨h.length_buf, Nat.mod_lt _ (by omega), h.wp_lt, by simp only; omega, ?_⟩
  simp only
  rw [h.wp_eq, Nat.mod_add_mod]
  congr 1
  omega

/-- A read removes a prefix of the content and delivers it. -/
theorem read_content (h : rb.Valid) (n : ℕ) :
    (ringbufferRead rb n).2.2.content = rb.content.drop n := by
  rw [read_eq h]
  simp only [content]
  have hd := drop_window rb.buf rb.rp (Nat.min_le_right n rb.rcb)
    (by rw [h.length_buf]; exact h.rcb_le)
  rw [h.length_buf] at hd
  rw [← hd]
  rcases Nat.le_total n rb.rcb with hn | hn
  · rw [Nat.min_eq_left hn]
  · rw [Nat.min_eq_right hn, List.drop_of_length_le, List.drop_of_length_le] <;>
      rw [length_window] <;> omega

@[simp] theorem read_cb (n : ℕ) : (ringbufferRead rb n).2.2.cb = rb.cb := by
  simp only [ringbufferRead]
  split_ifs <;> rfl

theorem read_fst (n : ℕ) : (ringbufferRead rb n).1 = min n rb.rcb := by
  simp only [ringbufferRead]
  split_ifs <;> rfl

/-! ### Growing and rolling back -/

theorem moveTo_eq (h : rb.Valid) {c : ℕ} (hc : rb.rcb ≤ c) :
    ringbufferMoveTo rb c = { rb with
      buf := blit (malloc c) 0 rb.content, cb := c, rp := 0, wp := rb.rcb, savedWp := 0,
      savedRcb := 0 } := by
  have hl := h.length_content
  have hm : min c rb.rcb = rb.rcb := Nat.min_eq_right hc
  simp only [ringbufferMoveTo, read_eq h, hm, memcpy]
  rw [List.take_take, List.take_of_length_le (by omega)]

theorem moveTo_valid (h : rb.Valid) {c : ℕ} (hc : rb.rcb < c) : (ringbufferMoveTo rb c).Valid := by
  rw [moveTo_eq h hc.le]
  refine ⟨?_, by simp only; omega, hc, hc.le, ?_⟩
  · have hm : (malloc c).length = c := by simp [malloc]
    rw [length_blit _ _ _ (by rw [hm, h.length_content]; omega), hm]
  · simp only [Nat.zero_add]
    rw [Nat.mod_eq_of_lt hc]

/-- The content, wrapped or not, is at the start of the new block. -/
theorem moveTo_content (h : rb.Valid) {c : ℕ} (hc : rb.rcb ≤ c) :
    (ringbufferMoveTo rb c).content = rb.content := by
  have hl := h.length_content
  have hm : (malloc c).length = c := by simp [malloc]
  rw [moveTo_eq h hc, content]
  simp only
  rw [window_slice (by rw [length_blit _ _ _ (by omega)]; omega), List.drop_zero, blit,
    List.take_zero, List.nil_append, List.take_append_of_le_length (by omega),
    List.take_of_length_le (by omega)]

@[simp] theorem moveTo_cb (c : ℕ) : (ringbufferMoveTo rb c).cb = c := rfl

theorem moveTo_rcb (c : ℕ) : (ringbufferMoveTo rb c).rcb = min c rb.rcb := by
  simp only [ringbufferMoveTo, ringbufferRead]
  split_ifs <;> rfl

/-- A buffer that is not full behind it is valid, with the same content. -/
theorem growBy_grows (h : rb.Valid) {n : ℕ} (hroom : 1 ≤ nextRoom rb.room n) :
    ∃ rb', ringbufferGrowBy rb n = some rb' ∧ rb'.Valid ∧ rb'.content = rb.content ∧
      rb'.room = nextRoom rb.room n := by
  have hr := h.rcb_le
  obtain ⟨c, hc, hlt, hnext⟩ : ∃ c, growCapacity rb.cb n = some c ∧ rb.rcb < c ∧
      c - rb.rcb = nextRoom rb.room n := by
    rw [nextRoom, room] at hroom ⊢
    rw [growCapacity]
    split_ifs at hroom ⊢ with hsmall hblock
    · exact ⟨_, rfl, by omega, by omega⟩
    · exact ⟨_, rfl, by omega, by omega⟩
    · omega
  refine ⟨_, congrArg (Option.map _) hc, moveTo_valid h hlt, moveTo_content h hlt.le, ?_⟩
  rw [room, moveTo_cb, moveTo_rcb, Nat.min_eq_right hlt.le, hnext]

theorem growBy_full {n : ℕ} (hroom : nextRoom rb.room n = 0) {rb' : Ringbuffer}
    (h : ringbufferGrowBy rb n = some rb') : rb'.rcb = rb'.cb := by
  obtain ⟨c, hc, rfl⟩ := Option.map_eq_some_iff.mp h
  have hle : c ≤ rb.rcb := by
    rw [nextRoom, room] at hroom
    rw [growCapacity] at hc
    split_ifs at hroom hc with hsmall hblock
    · cases hc
      omega
    · cases hc
      omega
  rw [moveTo_cb, moveTo_rcb, Nat.min_eq_left hle]

theorem growCapacity_le {cb n c : ℕ} (hn : n = 0 ∨ 2 ^ 63 ≤ n) (h : growCapacity cb n = some c) :
    c ≤ cb := by
  rw [growCapacity] at h
  split_ifs at h with hsmall hblock
  · cases h
    omega
  · cases h
    omega

/-- An increment of zero, or one that wraps, gives no room. -/
theorem growBy_le {n : ℕ} (hn : n = 0 ∨ 2 ^ 63 ≤ n) {rb' : Ringbuffer}
    (h : ringbufferGrowBy rb n = some rb') :
    rb'.cb ≤ rb.cb ∧ rb'.rcb = min rb'.cb rb.rcb ∧ rb'.room ≤ rb.room := by
  obtain ⟨c, hc, rfl⟩ := Option.map_eq_some_iff.mp h
  have hle := growCapacity_le hn hc
  refine ⟨hle, moveTo_rcb c, ?_⟩
  rw [room, room, moveTo_cb, moveTo_rcb]
  omega

/-- The saved position is the one at which the content had its first `m` bytes. -/
structure Marked (rb : Ringbuffer) (m : ℕ) : Prop where
  savedRcb_eq : rb.savedRcb = m
  le_rcb : m ≤ rb.rcb
  savedWp_eq : rb.savedWp = (rb.rp + m) % rb.cb

theorem pushWritePos_valid (h : rb.Valid) : (ringbufferPushWritePos rb).Valid :=
  ⟨h.length_buf, h.rp_lt, h.wp_lt, h.rcb_le, h.wp_eq⟩

@[simp] theorem pushWritePos_content : (ringbufferPushWritePos rb).content = rb.content := rfl

theorem pushWritePos_marked (h : rb.Valid) :
    (ringbufferPushWritePos rb).Marked rb.content.length := by
  rw [h.length_content]
  exact ⟨rfl, le_rfl, h.wp_eq⟩

theorem write_marked {m : ℕ} (hm : rb.Marked m) (input : Option (List UInt8)) (n : ℕ) :
    (ringbufferWrite rb input n).2.Marked m := by
  refine ⟨?_, ?_, ?_⟩
  · rw [write_savedRcb, hm.savedRcb_eq]
  · rw [write_rcb]
    exact hm.le_rcb.trans (Nat.le_add_right _ _)
  · rw [write_savedWp, write_rp, write_cb, hm.savedWp_eq]

theorem popWritePos_valid (h : rb.Valid) {m : ℕ} (hm : rb.Marked m) :
    (ringbufferPopWritePos rb).Valid := by
  have hp := h.rp_lt
  have hr := h.rcb_le
  have hle := hm.le_rcb
  have hs := hm.savedRcb_eq
  refine ⟨h.length_buf, hp, ?_, ?_, ?_⟩
  · simp only [ringbufferPopWritePos, hm.savedWp_eq]
    exact Nat.mod_lt _ (by omega)
  · simp only [ringbufferPopWritePos]
    omega
  · simp only [ringbufferPopWritePos, hm.savedWp_eq, hs]

/-- Rolling back drops exactly what came after the first `m` bytes. -/
theorem popWritePos_content {m : ℕ} (hm : rb.Marked m) :
    (ringbufferPopWritePos rb).content = rb.content.take m := by
  rw [content, content, take_window _ _ hm.le_rcb, ← hm.savedRcb_eq]
  rfl

end Ringbuffer

end TorchIpc
