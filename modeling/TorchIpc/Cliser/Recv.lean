import TorchIpc.Cliser.Send
import TorchIpc.Serialize.Reading
import TorchIpc.Queue.Items

/-! Receiving messages (`sock_recv_msg` of `cliser.c`). A payload is stored at the
start of the receive buffer, whose read position is reset but whose count of unread
bytes is not: what an earlier payload held behind its value, or what a failed load
left, is counted for ever. A complete message is still read right, as long as it
fits beside that count. -/

namespace TorchIpc.Cliser

open Words Runs

abbrev LEN_INVALID : ℕ := 0xFFFFFFFFFFFFFFFF

def ringbufferResetReadPos (rb : Ringbuffer) : Ringbuffer := { rb with rp := 0 }

/-- How a receive ends: with the code of `rb_load` and a stack, by an error of its own
or one that came up below `rb_load`, or not at all because the bytes do not come. -/
inductive RecvOutcome (P : Type) where
  | ret (code : ℤ) (stack : List (Value P)) (c : Client)
  | error (e : SockError) (c : Client)
  | raised (c : Client)
  | undefined
  | timeout
  | blocks

section
variable {P : Type}

/-- The client after a receive that has ended. -/
def RecvOutcome.client : RecvOutcome P → Option Client
  | .ret _ _ c => some c
  | .error _ c => some c
  | .raised c => some c
  | .undefined => none
  | .timeout => none
  | .blocks => none

variable (lua : Lua P)

/-- The end of `sock_recv_msg`, for what `rb_load` has done. -/
def RecvOutcome.ofLoad (c : Client) : LoadOutcome P → RecvOutcome P
  | .ret i rb stack =>
    if i < 0 then .error (.code i) { c with recvRb := rb }
    else .ret i stack { c with recvRb := rb }
  | .raise rb => .raised { c with recvRb := rb }
  | .undefined => .undefined
  | .timeout => .timeout

/-- The payload `bs` in the receive buffer, and the load. -/
def loadPayload (bs : List UInt8) (stack : List (Value P)) (c : Client) (fuel : ℕ) :
    RecvOutcome P :=
  let rb := { c.recvRb with buf := memcpy c.recvRb.buf 0 bs bs.length }
  let rb := ringbufferPushWritePos (ringbufferResetReadPos rb)
  let (i, rb) := ringbufferWrite rb none bs.length
  if i ≠ bs.length then
    .error (.str "failed to write the correct number of bytes into the ringbuffer")
      { c with recvRb := ringbufferPopWritePos rb }
  else .ofLoad c (rbLoad lua fuel rb stack)

def sockRecvMsg (stack : List (Value P)) (c : Client) (fuel : ℕ) : RecvOutcome P :=
  match sockRecv 8 c.sock with
  | none => .blocks
  | some (header, sock) =>
    if leVal header = LEN_INVALID then
      .error (.str "remote peer disconnected\n") { c with sock := sock }
    else
      match checkCount header.length 8 "failed to recv the correct number of bytes" with
      | .error e => .error e { c with sock := sock }
      | .ok _ =>
        if SEND_RECV_SIZE < leVal header then
          .error (.str "message size is too large") { c with sock := sock }
        else
          match sockRecvRaw (leVal header) sock with
          | none => .blocks
          | some (.error e, sock) => .error e { c with sock := sock }
          | some (.ok bs, sock) => loadPayload lua bs stack { c with sock := sock } fuel

/-- The receive of a frame with the payload `p` by a call that ends. -/
def recvStep (c : Client) (p : List UInt8) (c' : Client) : Prop :=
  p.length ≤ SEND_RECV_SIZE ∧ ∃ rest stack o, c.sock.incoming = frame p ++ rest ∧
    Yields (sockRecvMsg lua stack c) o ∧ o.client = some c'

/-! ### One receive -/

variable {lua} {c : Client}

/-- The receive buffer between two receives. -/
structure Receiving (c : Client) : Prop where
  readable : c.recvRb.Readable
  cb_eq : c.recvRb.cb = SEND_RECV_SIZE

theorem Receiving.create (sock : Socket) : Receiving (Client.create sock) where
  readable := by constructor <;> simp [Client.create, ringbufferCreate, malloc]
  cb_eq := rfl

/-- The receive buffer when the payload `p` has been counted. -/
def stored (rb : Ringbuffer) (p : List UInt8) : Ringbuffer :=
  (ringbufferWrite (ringbufferPushWritePos (ringbufferResetReadPos
    { rb with buf := memcpy rb.buf 0 p p.length })) none p.length).2

theorem stored_rp (rb : Ringbuffer) (p : List UInt8) : (stored rb p).rp = 0 := by
  rw [stored, Ringbuffer.write_rp]
  rfl

theorem stored_cb (rb : Ringbuffer) (p : List UInt8) : (stored rb p).cb = rb.cb := by
  rw [stored, Ringbuffer.write_cb]
  rfl

theorem stored_buf (rb : Ringbuffer) (p : List UInt8) :
    (stored rb p).buf = Circular.blit rb.buf 0 p := by
  have hcopy : memcpy rb.buf 0 p p.length = Circular.blit rb.buf 0 p := by
    rw [memcpy, List.take_length]
  rw [stored, ringbufferWrite]
  split_ifs
  · exact hcopy
  · exact hcopy

theorem stored_rcb {rb : Ringbuffer} {p : List UInt8} (hp : rb.rcb + p.length ≤ rb.cb) :
    (stored rb p).rcb = rb.rcb + p.length := by
  rw [stored, Ringbuffer.write_rcb, Ringbuffer.room]
  simp only [ringbufferPushWritePos, ringbufferResetReadPos]
  omega

theorem stored_readable {rb : Ringbuffer} (h : rb.Readable) {p : List UInt8}
    (hp : rb.rcb + p.length ≤ rb.cb) : (stored rb p).Readable := by
  have hrp := h.rp_lt
  refine ⟨?_, ?_, ?_⟩
  · rw [stored_buf, stored_cb, Circular.length_blit _ _ _ (by rw [h.length_buf]; omega), h.length_buf]
  · rw [stored_rp, stored_cb]
    omega
  · rw [stored_rcb hp, stored_cb]
    exact hp

/-- What can be read then: the payload, and whatever the block holds behind it. -/
theorem stored_content {rb : Ringbuffer} (h : rb.Readable) {p : List UInt8}
    (hp : rb.rcb + p.length ≤ rb.cb) :
    (stored rb p).rewind.content = p ++ (rb.buf.drop p.length).take rb.rcb := by
  have hcb := stored_cb rb p
  have hcontent : (stored rb p).rewind.content =
      Circular.window (Circular.blit rb.buf 0 p) 0 (rb.rcb + p.length) := by
    rw [← stored_buf, ← stored_rcb hp, ← stored_rp rb p]
    rfl
  rw [hcontent, Circular.window_slice
    (by rw [Circular.length_blit _ _ _ (by rw [h.length_buf]; omega), h.length_buf]; omega)]
  rw [Circular.blit, List.drop_zero, List.take_zero, List.nil_append, Nat.zero_add, Nat.add_comm,
    List.take_length_add_append]

/-- A payload that fits beside the count is loaded. -/
theorem loadPayload_fits {p : List UInt8} (hp : c.recvRb.rcb + p.length ≤ c.recvRb.cb)
    (stack : List (Value P)) (fuel : ℕ) :
    loadPayload lua p stack c fuel = .ofLoad c (rbLoad lua fuel (stored c.recvRb p) stack) := by
  unfold loadPayload
  simp only
  rw [Ringbuffer.write_fst, if_neg]
  · rfl
  · rw [Ringbuffer.room]
    simp only [ringbufferPushWritePos, ringbufferResetReadPos]
    omega

/-- Any other payload is refused, and the count stays. -/
theorem loadPayload_full (h : Receiving c) {p : List UInt8}
    (hp : c.recvRb.cb < c.recvRb.rcb + p.length) (stack : List (Value P)) (fuel : ℕ) :
    loadPayload lua p stack c fuel =
      .error (.str "failed to write the correct number of bytes into the ringbuffer")
        { c with recvRb := ringbufferPopWritePos (stored c.recvRb p) } := by
  have hle := h.readable.rcb_le
  unfold loadPayload
  simp only
  rw [Ringbuffer.write_fst, if_pos]
  · rfl
  · rw [Ringbuffer.room]
    simp only [ringbufferPushWritePos, ringbufferResetReadPos]
    omega

theorem stored_pop_rcb (rb : Ringbuffer) (p : List UInt8) :
    (ringbufferPopWritePos (stored rb p)).rcb = rb.rcb := by
  simp only [ringbufferPopWritePos, stored, Ringbuffer.write_savedRcb, ringbufferPushWritePos,
    ringbufferResetReadPos]

/-- A receive leaves the buffer fit for the next one, however it ends. -/
theorem Receiving.loadPayload (h : Receiving c) {p : List UInt8} (hp : p.length ≤ SEND_RECV_SIZE)
    {stack : List (Value P)} {fuel : ℕ} {c' : Client}
    (hc' : (loadPayload lua p stack c fuel).client = some c') : Receiving c' := by
  have hcap := h.cb_eq
  by_cases hfits : c.recvRb.rcb + p.length ≤ c.recvRb.cb
  · rw [loadPayload_fits hfits] at hc'
    have hload := rbLoad_readable lua (stored_readable h.readable hfits) fuel stack
    generalize rbLoad lua fuel (stored c.recvRb p) stack = o at hc' hload
    have hkept : ∀ rb, rb.Readable ∧ rb.cb = (stored c.recvRb p).cb ∧
        rb.rcb ≤ (stored c.recvRb p).rcb →
          Receiving { c with recvRb := rb } :=
      fun rb hrb => ⟨hrb.1, (hrb.2.1.trans (stored_cb _ _)).trans hcap⟩
    cases o with
    | ret i rb stack' =>
      have hrb := hload rb (Or.inr ⟨i, stack', rfl⟩)
      rw [RecvOutcome.ofLoad] at hc'
      split_ifs at hc'
      · cases hc'
        exact hkept rb hrb
      · cases hc'
        exact hkept rb hrb
    | raise rb =>
      cases hc'
      exact hkept rb (hload rb (Or.inl rfl))
    | undefined => cases hc'
    | timeout => cases hc'
  · rw [loadPayload_full h (not_le.mp hfits)] at hc'
    cases hc'
    have hrp := h.readable.rp_lt
    refine ⟨⟨?_, ?_, ?_⟩, (stored_cb _ _).trans hcap⟩
    · change (stored c.recvRb p).buf.length = (stored c.recvRb p).cb
      rw [stored_buf, stored_cb, Circular.length_blit _ _ _ (by rw [h.readable.length_buf]; omega),
        h.readable.length_buf]
    · change (stored c.recvRb p).rp < (stored c.recvRb p).cb
      rw [stored_rp, stored_cb]
      omega
    · change (ringbufferPopWritePos (stored c.recvRb p)).rcb ≤ (stored c.recvRb p).cb
      rw [stored_pop_rcb, stored_cb]
      exact h.readable.rcb_le

/-- A complete encoding that fits beside the count is read right, and what stands
behind it in the payload is counted from then on. -/
theorem loadPayload_encode (hl : lua.Rebuilds) (h : Receiving c) (oop : Bool) {v : Value P}
    (hwf : v.Wf lua) (hok : (script lua oop false v).fin = .ok) (extra : List UInt8)
    (hp : c.recvRb.rcb + (encode lua oop false v ++ extra).length ≤ SEND_RECV_SIZE)
    (stack : List (Value P)) :
    ∃ c', Yields (loadPayload lua (encode lua oop false v ++ extra) stack c)
        (.ret 1 (v.received :: stack) c') ∧
      c'.sock = c.sock ∧ c'.sendRb = c.sendRb ∧ c'.recvRb.rcb = c.recvRb.rcb + extra.length := by
  have hfits : c.recvRb.rcb + (encode lua oop false v ++ extra).length ≤ c.recvRb.cb := by
    rw [h.cb_eq]
    exact hp
  have hvalid := (stored_readable h.readable hfits).rewind_valid
  have hcontent := stored_content h.readable hfits
  rw [List.append_assoc] at hcontent
  obtain ⟨n, hn⟩ := loads_script hl false v hwf (noUpvalues_of_ok oop v hok) hok nofun
  obtain ⟨rb, hrb, hload⟩ := hn _ _ stack ⟨hvalid, hcontent⟩
  have hle := h.readable.rcb_le
  have hstale : (c.recvRb.buf.drop (encode lua oop false v ++ extra).length).length ≥ c.recvRb.rcb := by
    rw [List.length_drop, h.readable.length_buf]
    omega
  have hret := fun fuel hf => congrArg (RecvOutcome.ofLoad c) (rbLoad_rewind lua (hload fuel hf))
  refine ⟨_, ⟨n, fun fuel hf => (loadPayload_fits hfits stack fuel).trans (hret fuel hf)⟩, rfl, rfl, ?_⟩
  · change rb.rcb = _
    rw [← hrb.valid.length_content, hrb.content_eq, List.length_append, List.length_take,
      Nat.min_eq_left hstale, Nat.add_comm]

theorem sockRecvMsg_frame (lua : Lua P) {p rest : List UInt8} (hp : p.length ≤ SEND_RECV_SIZE)
    (hin : c.sock.incoming = frame p ++ rest) :
    ∃ calls, ∀ stack fuel, sockRecvMsg lua stack c fuel =
      loadPayload lua p stack { c with sock := { c.sock with incoming := rest, calls := calls } } fuel := by
  have hcap : SEND_RECV_SIZE < 2 ^ 31 := by norm_num [SEND_RECV_SIZE]
  have hval : leVal (leBytes 8 p.length) = p.length := by
    refine leVal_leBytes ?_
    have : SEND_RECV_SIZE < 256 ^ 8 := by norm_num [SEND_RECV_SIZE]
    omega
  rw [frame, List.append_assoc] at hin
  obtain ⟨n, hheader⟩ := sockRecv_append hin (length_leBytes 8 p.length).symm
  obtain ⟨m, hdata⟩ := sockRecvRaw_append (s := { c.sock with incoming := p ++ rest, calls := n }) rfl
    (hp.trans_lt hcap)
  have hcheck : ∀ msg, checkCount (leBytes 8 p.length).length 8 msg = .ok () := by
    intro msg
    rw [length_leBytes]
    exact checkCount_ok_iff.mpr (by norm_num)
  refine ⟨m, fun stack fuel => ?_⟩
  unfold sockRecvMsg
  have hvalid : SEND_RECV_SIZE < LEN_INVALID := by norm_num [SEND_RECV_SIZE, LEN_INVALID]
  simp only [hheader, hval, hcheck]
  rw [if_neg (by omega), if_neg (by omega), hdata]

theorem Receiving.withSock (h : Receiving c) (sock : Socket) : Receiving { c with sock := sock } :=
  ⟨h.readable, h.cb_eq⟩

/-- A frame that does not fit beside the count raises an error. -/
theorem sockRecvMsg_full (lua : Lua P) (h : Receiving c) {p rest : List UInt8} (hp : p.length ≤ SEND_RECV_SIZE)
    (hin : c.sock.incoming = frame p ++ rest) (hfull : SEND_RECV_SIZE < c.recvRb.rcb + p.length) :
    ∃ c', ∀ stack fuel, sockRecvMsg lua stack c fuel =
      .error (.str "failed to write the correct number of bytes into the ringbuffer") c' := by
  obtain ⟨calls, hframe⟩ := sockRecvMsg_frame lua hp hin
  exact ⟨_, fun stack fuel => (hframe stack fuel).trans
    (loadPayload_full (h.withSock _) (by rw [(h.withSock _).cb_eq]; exact hfull) stack fuel)⟩

/-! ### Any run of receives -/

theorem Receiving.step (h : Receiving c) {p : List UInt8} {c' : Client}
    (hstep : recvStep lua c p c') : Receiving c' := by
  obtain ⟨hp, rest, stack, o, hin, hy, hc'⟩ := hstep
  obtain ⟨fuel, hfuel⟩ := hy.exists
  obtain ⟨calls, hframe⟩ := sockRecvMsg_frame lua hp hin
  rw [← hfuel, hframe] at hc'
  exact (h.withSock _).loadPayload hp hc'

theorem Receiving.run {sock : Socket} {ps : List (List UInt8)}
    (hrun : Run (recvStep lua) (Client.create sock) ps c) : Receiving c :=
  hrun.invariant (I := fun _ c => Receiving c) (Receiving.create sock)
    fun _ _ _ _ h hstep => h.step hstep

/-- After any frames, whatever they held, a complete message is received right if and
only if it fits beside the bytes that the earlier ones have left in the count. -/
theorem recv_encode_iff (hl : lua.Rebuilds) {sock : Socket} {ps : List (List UInt8)}
    (hrun : Run (recvStep lua) (Client.create sock) ps c) {oop : Bool} {v : Value P} (hwf : v.Wf lua)
    (hok : (script lua oop false v).fin = .ok)
    (hsize : (encode lua oop false v).length ≤ SEND_RECV_SIZE) {rest : List UInt8}
    (hin : c.sock.incoming = frame (encode lua oop false v) ++ rest) (stack : List (Value P)) :
    (∃ c', Yields (sockRecvMsg lua stack c) (.ret 1 (v.received :: stack) c')) ↔
      c.recvRb.rcb + (encode lua oop false v).length ≤ SEND_RECV_SIZE := by
  have h := Receiving.run hrun
  constructor
  · rintro ⟨c', hy⟩
    by_contra hfull
    obtain ⟨fuel, hret⟩ := hy.exists
    obtain ⟨c'', herror⟩ := sockRecvMsg_full lua h hsize hin (not_le.mp hfull)
    rw [herror] at hret
    cases hret
  · intro hfits
    obtain ⟨calls, hframe⟩ := sockRecvMsg_frame lua hsize hin
    obtain ⟨c', ⟨n, hn⟩, _⟩ :=
      loadPayload_encode hl (h.withSock { c.sock with incoming := rest, calls := calls }) oop hwf hok []
        (by rwa [List.append_nil]) stack
    rw [List.append_nil] at hn
    exact ⟨c', n, fun fuel hf => (hframe stack fuel).trans (hn fuel hf)⟩

end

/-! ### A padded message -/

/-- A nil with `n` bytes behind it, then a boolean. -/
def paddedSocket (n : ℕ) : Socket :=
  ⟨[], frame (encode sampleLua true false .nil ++ List.replicate n 7) ++
    frame (encode sampleLua true false (.boolean true)), fun _ => 0, 0⟩

/-- The nil is received, and the padding stays in the count. -/
theorem recv_padded {n : ℕ} (hn : n < SEND_RECV_SIZE) :
    ∃ c, Run (recvStep sampleLua) (Client.create (paddedSocket n))
        [encode sampleLua true false .nil ++ List.replicate n 7] c ∧
      c.sock.incoming = frame (encode sampleLua true false (.boolean true)) ∧ c.recvRb.rcb = n := by
  have hlen : (encode sampleLua true false .nil ++ List.replicate n 7).length = 1 + n := by
    rw [List.length_append, List.length_replicate]
    rfl
  obtain ⟨calls, hframe⟩ := sockRecvMsg_frame sampleLua
    (c := Client.create (paddedSocket n)) (by rw [hlen]; omega) rfl
  have h := Receiving.create { paddedSocket n with
    incoming := frame (encode sampleLua true false (.boolean true)), calls := calls }
  obtain ⟨c, ⟨m, hm⟩, hsock, _, hrcb⟩ := loadPayload_encode sampleLua_rebuilds h true
    (v := .nil) (by simp [Value.Wf, Value.parts, Value.WfNode]) rfl (List.replicate n 7)
    (by rw [hlen]; simp only [Client.create, ringbufferCreate]; omega) []
  refine ⟨c, Run.nil.snoc ⟨by rw [hlen]; omega, _, [], _, rfl,
    ⟨m, fun fuel hf => (hframe [] fuel).trans (hm fuel hf)⟩, rfl⟩, by rw [hsock]; rfl, ?_⟩
  rw [hrcb, List.length_replicate]
  exact Nat.zero_add n

theorem boolean_wf : (Value.boolean true).Wf sampleLua := by
  simp [Value.Wf, Value.parts, Value.WfNode]

/-- With two bytes left in the count the boolean still fits. -/
theorem recv_encode_iff_padded :
    ∃ c c', Run (recvStep sampleLua) (Client.create (paddedSocket 16382))
        [encode sampleLua true false .nil ++ List.replicate 16382 7] c ∧
      Yields (sockRecvMsg sampleLua [] c) (.ret 1 [.boolean true] c') := by
  obtain ⟨c, hrun, hin, hrcb⟩ := recv_padded (n := 16382) (by norm_num [SEND_RECV_SIZE])
  obtain ⟨c', hy⟩ := (recv_encode_iff sampleLua_rebuilds hrun boolean_wf rfl
    (by decide) (hin.trans (List.append_nil _).symm) []).mpr (by rw [hrcb]; decide)
  exact ⟨c, c', hrun, hy⟩

/-- With one byte left it does not. -/
theorem recv_after_padded_nil :
    ∃ c, Run (recvStep sampleLua) (Client.create (paddedSocket 16383))
        [encode sampleLua true false .nil ++ List.replicate 16383 7] c ∧
      c.sock.incoming = frame (encode sampleLua true false (.boolean true)) ∧
      ¬ ∃ c', Yields (sockRecvMsg sampleLua [] c) (.ret 1 [.boolean true] c') := by
  obtain ⟨c, hrun, hin, hrcb⟩ := recv_padded (n := 16383) (by norm_num [SEND_RECV_SIZE])
  refine ⟨c, hrun, hin, ?_⟩
  rintro ⟨c', hy⟩
  obtain ⟨fuel, hret⟩ := hy.exists
  obtain ⟨c'', herror⟩ := sockRecvMsg_full sampleLua (Receiving.run hrun) (by decide)
    (hin.trans (List.append_nil _).symm) (by rw [hrcb]; decide)
  rw [herror] at hret
  cases hret

end TorchIpc.Cliser
