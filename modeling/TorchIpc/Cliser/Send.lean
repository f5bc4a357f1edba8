import TorchIpc.Cliser.Socket
import TorchIpc.Serialize.RoundTrip

/-! Sending messages (`sock_send_msg` of `cliser.c`). The send buffer of a connection
is used for every message, and is rolled back after a value has been saved but not
after one has been refused. What a refused value has left in it stays, and goes out in
front of every later message. -/

namespace TorchIpc.Cliser

open Words

abbrev SEND_RECV_SIZE : ℕ := 16 * 1024

/-- `client_t`: the socket of a connection and its two buffers. -/
structure Client where
  sock : Socket
  sendRb : Ringbuffer
  recvRb : Ringbuffer

def Client.create (sock : Socket) : Client :=
  ⟨sock, ringbufferCreate SEND_RECV_SIZE, ringbufferCreate SEND_RECV_SIZE⟩

/-- How a send ends: it returns, raises an error of its own or one that came up below
`rb_save`, or does not end. -/
inductive SendOutcome where
  | ret (c : Client)
  | error (e : SockError) (c : Client)
  | raised (e : LuaError) (c : Client)
  | diverges
  | undefined

/-- The end of `sock_send_msg`: the length, then the bytes. -/
def sendFramed (bs : List UInt8) (len : ℕ) (sock : Socket) : Except SockError Unit × Socket :=
  match sockSendRaw (leBytes 8 len) sock with
  | (.error e, sock) => (.error e, sock)
  | (.ok _, sock) => sockSendRaw bs sock

section
variable {P : Type} (lua : Lua P)

/-- `sock_send_msg` on the argument at index `2` of `top`. -/
def sockSendMsg (v : Value P) (top : ℕ) (c : Client) : SendOutcome :=
  match rbSave lua true false v 2 ⟨ringbufferPushWritePos c.sendRb, []⟩ top with
  | .ret ret fx _ =>
    if ret ≠ 0 then .error (.code ret) { c with sendRb := fx.rb }
    else
      let len := ringbufferPeek fx.rb
      let rb := ringbufferPopWritePos fx.rb
      match sendFramed (rb.buf.take len) len c.sock with
      | (.error e, sock) => .error e { c with sendRb := rb, sock := sock }
      | (.ok _, sock) => .ret { c with sendRb := rb, sock := sock }
  | .raise e fx => .raised e { c with sendRb := fx.rb }
  | .diverges => .diverges
  | .undefined => .undefined

/-! ### The connections of a process -/

variable {ι : Type} [DecidableEq ι]

structure Attempt (ι P : Type) where
  client : ι
  value : Value P
  sent : Bool

/-- The connections, and the attempts made on them. -/
structure Endpoint (ι P : Type) where
  clients : ι → Client
  log : List (Attempt ι P)

/-- `client:send` on either side, or `server:broadcast` to the clients it finds, in
the order `qsort` leaves them; `extra` arguments follow the value. -/
inductive Op (ι P : Type) where
  | send (client : ι) (v : Value P) (extra : ℕ)
  | broadcast (clients : List ι) (v : Value P) (extra : ℕ)

/-- The client after a send, and whether the send returned. -/
def SendOutcome.result : SendOutcome → Option (Bool × Client)
  | .ret c => some (true, c)
  | .error _ c => some (false, c)
  | .raised _ c => some (false, c)
  | .diverges => none
  | .undefined => none

def attempt (c : ι) (v : Value P) (extra : ℕ) (s : Endpoint ι P) :
    Option (Bool × Endpoint ι P) := do
  let (sent, client) ← (sockSendMsg lua v (2 + extra) (s.clients c)).result
  return (sent, ⟨Function.update s.clients c client, s.log ++ [⟨c, v, sent⟩]⟩)

/-- The loop of `cliser_server_broadcast`, which an error leaves. -/
def broadcastLoop (v : Value P) (extra : ℕ) : List ι → Endpoint ι P → Option (Endpoint ι P)
  | [], s => some s
  | c :: cs, s => do
    let (sent, s) ← attempt lua c v extra s
    if sent then broadcastLoop v extra cs s else return s

def perform (s : Endpoint ι P) : Op ι P → Option (Endpoint ι P)
  | .send c v extra => do
    let (_, s) ← attempt lua c v extra s
    return s
  | .broadcast cs v extra => broadcastLoop lua v extra cs s

end

/-! ### What `rb_save` makes of a value here -/

section
variable {P : Type} (lua : Lua P)

/-- The value can be sent by a connection whose buffer is empty. -/
def sendable (v : Value P) : Prop :=
  (script lua true false v).fin = .ok ∧ (encode lua true false v).length ≤ SEND_RECV_SIZE

/-- The values that `rb_save` refuses before it writes anything. -/
def writesNothing : Value P → Bool
  | .thread => true
  | .lightuserdata => true
  | .userdata _ _ => true
  | _ => false

theorem encode_eq_nil_iff (v : Value P) : encode lua true false v = [] ↔
    writesNothing v = true := by
  have hput : ∀ (bs : List UInt8) (t : Script), bs ≠ [] → ((puts [bs]).seq t).bytes ≠ [] := by
    intro bs t hbs
    rw [seq_bytes rfl, puts_bytes]
    simp [hbs]
  cases v with
  | nil => simp [encode, script, writesNothing]
  | boolean b => simp [encode, script, writesNothing]
  | number bits => simp [encode, script, numberScript, writesNothing]
  | integer n => simp [encode, script, integerScript, writesNothing]
  | string str => simp [encode, script, writesNothing]
  | table es typename =>
    rw [encode, script]
    exact iff_of_false (hput [LUA_TTABLE] _ (by rintro ⟨⟩)) (by rintro ⟨⟩)
  | function p ups =>
    rw [encode, script]
    exact iff_of_false (hput [LUA_TFUNCTION] _ (by rintro ⟨⟩)) (by rintro ⟨⟩)
  | cfunction =>
    rw [encode, script]
    exact iff_of_false (hput [LUA_TFUNCTION] _ (by rintro ⟨⟩)) (by rintro ⟨⟩)
  | userdata typename ptr => simp [encode, script, userdataScript, writesNothing]
  | lightuserdata => simp [encode, script, writesNothing]
  | thread => simp [encode, script, writesNothing]

theorem seq_ne_diverges {s t : Script} (hs : s.fin ≠ .diverges) (ht : t.fin ≠ .diverges) :
    (s.seq t).fin ≠ .diverges := by
  by_cases hok : s.fin = .ok
  · rwa [seq_fin hok]
  · rwa [seq_of_not_ok hok]

theorem mapPlace_ne_diverges {s : Script} (hs : s.fin ≠ .diverges) (f : Place → Place) :
    (s.mapPlace f).fin ≠ .diverges := by
  rw [mapPlace_fin]
  cases hfin : s.fin with
  | diverges => exact absurd hfin hs
  | ok => nofun
  | code e place => nofun
  | raise e => nofun

/-- Without upvalues the only table of upvalues is the empty one. -/
theorem functionScript_ne_diverges (p : P) (ups : List (Option (Value P))) :
    (functionScript lua false p (tableScript (upvalsScript lua true false 1 (lua.upvalueNames p) ups)
      .none)).fin ≠ .diverges := by
  refine seq_ne_diverges (by rintro ⟨⟩) ?_
  split_ifs
  · rintro ⟨⟩
  refine seq_ne_diverges (by rintro ⟨⟩) (seq_ne_diverges (by rintro ⟨⟩) (seq_ne_diverges (by rintro ⟨⟩) ?_))
  rw [upvalsTail]
  split_ifs with henv
  · have hnames : lua.upvalueNames p = ["_ENV"] := by
      rcases hn : lua.upvalueNames p with _ | ⟨name, _ | ⟨name', names⟩⟩
      · simp [envOnly, hn] at henv
      · simpa [envOnly, hn] using henv
      · simp [envOnly, hn] at henv
    have hempty : (upvalsScript lua true false 1 ["_ENV"] ups).fin = .ok := by
      cases ups with
      | nil => rfl
      | cons u us => cases us <;> simp [upvalsScript]
    have htable : (tableScript (upvalsScript lua true false 1 ["_ENV"] ups) .none).fin = .ok :=
      tableScript_fin_ok.mpr hempty
    rw [hnames]
    refine seq_ne_diverges (by rintro ⟨⟩) (seq_ne_diverges (mapPlace_ne_diverges ?_ _) (by rintro ⟨⟩))
    rw [htable]
    rintro ⟨⟩
  · rintro ⟨⟩
  · rintro ⟨⟩

mutual

/-- A message always ends: the walk through the globals starts at an upvalue. -/
theorem script_ne_diverges (v : Value P) : (script lua true false v).fin ≠ .diverges := by
  cases v with
  | nil => nofun
  | boolean b => nofun
  | number bits => nofun
  | integer n => nofun
  | string str => nofun
  | table es typename =>
    rw [script]
    exact seq_ne_diverges nofun
      (seq_ne_diverges (mapPlace_ne_diverges (entriesScript_ne_diverges es) _) nofun)
  | function p ups =>
    rw [script]
    exact functionScript_ne_diverges lua p ups
  | cfunction => nofun
  | userdata typename ptr => simp [script, userdataScript]
  | lightuserdata => simp [script]
  | thread => simp [script]

theorem entriesScript_ne_diverges (es : List (Value P × Value P)) :
    (entriesScript lua true false es).fin ≠ .diverges := by
  match es with
  | [] => nofun
  | (k, v) :: es =>
    rw [entriesScript]
    exact seq_ne_diverges (mapPlace_ne_diverges (script_ne_diverges k) _)
      (seq_ne_diverges (mapPlace_ne_diverges (script_ne_diverges v) _)
        (entriesScript_ne_diverges es))

end

end

/-! ### One attempt -/

section
variable {P : Type} {lua : Lua P} {c : Client} {r : List UInt8}

/-- The send buffer holds the bytes `r` at the start of its block. -/
structure Holding (c : Client) (r : List UInt8) : Prop where
  valid : c.sendRb.Valid
  cb_eq : c.sendRb.cb = SEND_RECV_SIZE
  rp_eq : c.sendRb.rp = 0
  content_eq : c.sendRb.content = r

theorem Holding.create (sock : Socket) : Holding (Client.create sock) [] :=
  ⟨Ringbuffer.create_valid (by decide), rfl, rfl, Ringbuffer.create_content _⟩

theorem Holding.room_eq (h : Holding c r) : c.sendRb.room = SEND_RECV_SIZE - r.length := by
  have := h.valid.length_add_room
  rw [h.content_eq, h.cb_eq] at this
  omega

theorem Holding.length_le (h : Holding c r) : r.length ≤ SEND_RECV_SIZE := by
  have := h.valid.length_add_room
  rw [h.content_eq, h.cb_eq] at this
  omega

theorem take_buf_eq_content {rb : Ringbuffer} (h : rb.Valid) (hrp : rb.rp = 0) :
    rb.buf.take rb.rcb = rb.content := by
  have hle := h.rcb_le
  rw [Ringbuffer.content, hrp, Circular.window_slice (by rw [h.length_buf]; omega), List.drop_zero]

theorem sendFramed_eq {bs : List UInt8} (h : bs.length < 2 ^ 31) (s : Socket) :
    ∃ calls, sendFramed bs bs.length s =
      (.ok (), { s with sent := s.sent ++ frame bs, calls := calls }) := by
  have hheader : (leBytes 8 bs.length).length < 2 ^ 31 := by
    rw [length_leBytes]
    norm_num
  obtain ⟨n, hlen⟩ := sockSendRaw_eq hheader s
  obtain ⟨m, hdata⟩ := sockSendRaw_eq h
    { s with sent := s.sent ++ leBytes 8 bs.length, calls := n }
  refine ⟨m, ?_⟩
  unfold sendFramed
  rw [hlen]
  refine hdata.trans ?_
  rw [frame, ← List.append_assoc]

/-- What an attempt does on a buffer that holds `r`. -/
inductive AttemptSpec (lua : Lua P) (v : Value P) (c : Client) (r : List UInt8) :
    Option (Bool × Client) → Prop where
  | sent {c'} : (script lua true false v).fin = .ok →
      r.length + (encode lua true false v).length ≤ SEND_RECV_SIZE → Holding c' r →
      c'.sock.sent = c.sock.sent ++ frame (r ++ encode lua true false v) →
      AttemptSpec lua v c r (some (true, c'))
  | refused {c'} : ¬ ((script lua true false v).fin = .ok ∧
        r.length + (encode lua true false v).length ≤ SEND_RECV_SIZE) →
      Holding c' (r ++ (encode lua true false v).take (SEND_RECV_SIZE - r.length)) →
      c'.sock = c.sock → AttemptSpec lua v c r (some (false, c'))

theorem Holding.appended (h : Holding c r) {bs : List UInt8} {rb : Ringbuffer}
    (ha : Appended (ringbufferPushWritePos c.sendRb) (bs.take c.sendRb.room) rb) :
    Holding { c with sendRb := rb } (r ++ bs.take (SEND_RECV_SIZE - r.length)) where
  valid := ha.valid
  cb_eq := ha.cb_eq.trans h.cb_eq
  rp_eq := ha.rp_eq.trans h.rp_eq
  content_eq := by rw [ha.content_eq, Ringbuffer.pushWritePos_content, h.content_eq, h.room_eq]

/-- A failure leaves the buffer as `rb_save` did. -/
theorem result_of_failAt {v : Value P} {top top' pushed : ℕ} {place : Place} {e : Errno} {fx : Effects}
    (hsave : rbSave lua true false v 2 ⟨ringbufferPushWritePos c.sendRb, []⟩ top =
      failAt pushed place e fx top') :
    (sockSendMsg lua v top c).result = some (false, { c with sendRb := fx.rb }) := by
  have hcode : -e.toInt ≠ 0 := by cases e <;> decide
  rw [sockSendMsg, hsave]
  cases place with
  | plain => simp [failAt, hcode, SendOutcome.result]
  | upvals => simp [failAt, hcode, SendOutcome.result]
  | key => rfl

/-- A value that fits goes out behind what the buffer held. -/
theorem result_of_saved (h : Holding c r) {v : Value P} {top : ℕ} {fx : Effects}
    (hle : r.length + (encode lua true false v).length ≤ SEND_RECV_SIZE)
    (ha : Appended (ringbufferPushWritePos c.sendRb) (encode lua true false v) fx.rb)
    (hsave : rbSave lua true false v 2 ⟨ringbufferPushWritePos c.sendRb, []⟩ top = .ret 0 fx top) :
    ∃ c', (sockSendMsg lua v top c).result = some (true, c') ∧ Holding c' r ∧
      c'.sock.sent = c.sock.sent ++ frame (r ++ encode lua true false v) := by
  have hmarked := ha.marked _ (Ringbuffer.pushWritePos_marked h.valid)
  rw [h.content_eq] at hmarked
  have hcontent : fx.rb.content = r ++ encode lua true false v := by
    rw [ha.content_eq, Ringbuffer.pushWritePos_content, h.content_eq]
  have hrp : fx.rb.rp = 0 := ha.rp_eq.trans h.rp_eq
  have hpeek : ringbufferPeek fx.rb = (r ++ encode lua true false v).length := by
    rw [← hcontent, ha.valid.length_content]
    rfl
  have hbytes : (ringbufferPopWritePos fx.rb).buf.take (ringbufferPeek fx.rb) =
      r ++ encode lua true false v := (take_buf_eq_content ha.valid hrp).trans hcontent
  have hsize : (r ++ encode lua true false v).length < 2 ^ 31 := by
    have hcap : SEND_RECV_SIZE < 2 ^ 31 := by norm_num [SEND_RECV_SIZE]
    rw [List.length_append]
    exact hle.trans_lt hcap
  obtain ⟨n, hframed⟩ := sendFramed_eq hsize c.sock
  rw [hpeek] at hbytes
  refine ⟨⟨{ c.sock with sent := c.sock.sent ++ frame (r ++ encode lua true false v), calls := n },
    ringbufferPopWritePos fx.rb, c.recvRb⟩, ?_, ⟨?_, ?_, ?_, ?_⟩, rfl⟩
  · unfold sockSendMsg
    rw [hsave]
    simp only [ne_eq, not_true_eq_false, if_false, hpeek, hbytes]
    rw [hframed]
    rfl
  · exact Ringbuffer.popWritePos_valid ha.valid hmarked
  · exact ha.cb_eq.trans h.cb_eq
  · exact hrp
  · rw [Ringbuffer.popWritePos_content hmarked, hcontent, List.take_left]

theorem sockSendMsg_spec (lua : Lua P) (h : Holding c r) (v : Value P) {top : ℕ} (htop : 2 ≤ top) :
    AttemptSpec lua v c r (sockSendMsg lua v top c).result := by
  have hsave := rbSave_eq lua true false v htop ⟨ringbufferPushWritePos c.sendRb, []⟩
  generalize (if 2 = top then 0 else 1) = pushed at hsave
  obtain ⟨fx, ha, hrun⟩ := runItems_spec pushed top
    (fun fx => (script lua true false v).fin.outcome pushed fx top)
    (script lua true false v).items ⟨ringbufferPushWritePos c.sendRb, []⟩
    (Ringbuffer.pushWritePos_valid h.valid)
  rw [Script.run, hrun] at hsave
  have hholds := h.appended ha
  have hfits : overflow (script lua true false v).items (ringbufferPushWritePos c.sendRb).room =
      none ↔ r.length + (encode lua true false v).length ≤ SEND_RECV_SIZE := by
    have hle := h.length_le
    have hroom : (ringbufferPushWritePos c.sendRb).room = SEND_RECV_SIZE - r.length := h.room_eq
    rw [overflow_eq_none, hroom, encode, Script.bytes]
    omega
  cases hover : overflow (script lua true false v).items (ringbufferPushWritePos c.sendRb).room with
  | some place =>
    simp only [hover] at hsave
    rw [result_of_failAt hsave]
    refine .refused (fun hok => ?_) hholds rfl
    rw [hfits.mpr hok.2] at hover
    exact absurd hover (by rintro ⟨⟩)
  | none =>
    simp only [hover] at hsave
    have hle := hfits.mp hover
    cases hfin : (script lua true false v).fin with
    | ok =>
      rw [hfin] at hsave
      have hall : (encode lua true false v).take (ringbufferPushWritePos c.sendRb).room =
          encode lua true false v := List.take_of_length_le (overflow_eq_none.mp hover)
      have ha' : Appended (ringbufferPushWritePos c.sendRb) (encode lua true false v) fx.rb := by
        rw [← hall]
        exact ha
      obtain ⟨c', hresult, hc', hsent⟩ := result_of_saved h hle ha' hsave
      rw [hresult]
      exact .sent hfin hle hc' hsent
    | code e place =>
      rw [hfin] at hsave
      rw [result_of_failAt hsave]
      refine .refused (fun hok => ?_) hholds rfl
      rw [hfin] at hok
      exact absurd hok.1 (by rintro ⟨⟩)
    | raise e =>
      rw [hfin] at hsave
      have hresult : (sockSendMsg lua v top c).result = some (false, { c with sendRb := fx.rb }) := by
        rw [sockSendMsg, hsave]
        rfl
      rw [hresult]
      refine .refused (fun hok => ?_) hholds rfl
      rw [hfin] at hok
      exact absurd hok.1 (by rintro ⟨⟩)
    | diverges => exact absurd hfin (script_ne_diverges lua v)

/-! ### The attempts on one connection -/

variable {ι : Type}

/-- The attempts on a connection, what its buffer holds after them, and what they have
put on the socket. -/
inductive Sends (lua : Lua P) : List (Attempt ι P) → List UInt8 → List UInt8 → Prop where
  | nil : Sends lua [] [] []
  | sent {as r out i v} : Sends lua as r out → (script lua true false v).fin = .ok →
      r.length + (encode lua true false v).length ≤ SEND_RECV_SIZE →
      Sends lua (as ++ [⟨i, v, true⟩]) r (out ++ frame (r ++ encode lua true false v))
  | refused {as r out i v} : Sends lua as r out → ¬ ((script lua true false v).fin = .ok ∧
        r.length + (encode lua true false v).length ≤ SEND_RECV_SIZE) →
      Sends lua (as ++ [⟨i, v, false⟩])
        (r ++ (encode lua true false v).take (SEND_RECV_SIZE - r.length)) out

/-- The messages of the attempts that have returned. -/
def messages (lua : Lua P) (as : List (Attempt ι P)) : List UInt8 :=
  (as.filter Attempt.sent).flatMap fun a => frame (encode lua true false a.value)

/-- No attempt has been refused but for its own value, and the bytes on the socket are
the messages of the others. -/
def Undisturbed (lua : Lua P) (as : List (Attempt ι P)) (out : List UInt8) : Prop :=
  (∀ a ∈ as, a.sent = true ∨ ¬ sendable lua a.value) ∧ out = messages lua as

/-- No value that could be sent comes after one that was refused half-way. -/
def NoneAfterRefusal (lua : Lua P) (as : List (Attempt ι P)) : Prop :=
  as.Pairwise fun a b => sendable lua b.value → sendable lua a.value ∨ writesNothing a.value = true

variable {as : List (Attempt ι P)} {out : List UInt8}

/-- The buffer is empty as long as nothing was refused half-way. -/
theorem Sends.eq_nil_iff (h : Sends lua as r out) :
    r = [] ↔ ∀ a ∈ as, sendable lua a.value ∨ writesNothing a.value = true := by
  induction h with
  | nil => simp
  | @sent as r out i v _ hok hle ih =>
    have hv : sendable lua v := ⟨hok, by omega⟩
    simp only [List.mem_append, List.mem_singleton, or_imp, forall_and, forall_eq]
    rw [ih]
    simp [hv]
  | @refused as r out i v _ hno ih =>
    simp only [List.mem_append, List.mem_singleton, or_imp, forall_and, forall_eq]
    rw [List.append_eq_nil_iff, ← ih, ← encode_eq_nil_iff lua v]
    refine and_congr_right fun hr => ?_
    subst hr
    rw [List.take_eq_nil_iff]
    have hsend : ¬ sendable lua v := fun hv => hno ⟨hv.1, by simpa using hv.2⟩
    simp [hsend, SEND_RECV_SIZE]

theorem messages_sent (i : ι) (v : Value P) : messages lua (as ++ [⟨i, v, true⟩]) =
    messages lua as ++ frame (encode lua true false v) := by
  simp [messages]

theorem messages_refused (i : ι) (v : Value P) :
    messages lua (as ++ [⟨i, v, false⟩]) = messages lua as := by
  simp [messages]

theorem Sends.length_le (h : Sends lua as r out) : (messages lua as).length ≤ out.length := by
  induction h with
  | nil => exact le_rfl
  | sent _ _ _ ih =>
    rw [messages_sent]
    simp only [frame, List.length_append, length_leBytes]
    omega
  | refused _ _ ih => rwa [messages_refused]

/-- A connection is undisturbed exactly while nothing sendable follows a refusal. -/
theorem Sends.undisturbed_iff (h : Sends lua as r out) :
    Undisturbed lua as out ↔ NoneAfterRefusal lua as := by
  induction h with
  | nil => simp [Undisturbed, NoneAfterRefusal, messages]
  | @sent as r out i v hs hok hle ih =>
    have hv : sendable lua v := ⟨hok, by omega⟩
    have hlater : NoneAfterRefusal lua (as ++ [⟨i, v, true⟩]) ↔ NoneAfterRefusal lua as ∧
        r = [] := by
      rw [NoneAfterRefusal, List.pairwise_append, hs.eq_nil_iff, NoneAfterRefusal]
      simp [hv]
    have hbytes : out ++ frame (r ++ encode lua true false v) =
        messages lua as ++ frame (encode lua true false v) ↔ out = messages lua as ∧ r = [] := by
      constructor
      · intro heq
        have hlen := congrArg List.length heq
        have hshort := hs.length_le
        simp only [frame, List.length_append, length_leBytes] at hlen
        obtain rfl := List.eq_nil_of_length_eq_zero (show r.length = 0 by omega)
        exact ⟨(List.append_inj heq (by omega)).1, rfl⟩
      · rintro ⟨rfl, rfl⟩
        rfl
    have hall : (∀ a ∈ as ++ [⟨i, v, true⟩], a.sent = true ∨ ¬ sendable lua a.value) ↔
        ∀ a ∈ as, a.sent = true ∨ ¬ sendable lua a.value := by
      simp [or_imp, forall_and]
    rw [hlater, ← ih, Undisturbed, Undisturbed, messages_sent, hbytes, hall, and_assoc]
  | @refused as r out i v hs hno ih =>
    have hall : (∀ a ∈ as ++ [⟨i, v, false⟩], a.sent = true ∨ ¬ sendable lua a.value) ↔
        (∀ a ∈ as, a.sent = true ∨ ¬ sendable lua a.value) ∧ ¬ sendable lua v := by
      simp [or_imp, forall_and]
    have hlater : NoneAfterRefusal lua (as ++ [⟨i, v, false⟩]) ↔
        NoneAfterRefusal lua as ∧ (sendable lua v → r = []) := by
      rw [NoneAfterRefusal, List.pairwise_append, hs.eq_nil_iff, NoneAfterRefusal]
      simp only [List.pairwise_singleton, true_and, List.mem_singleton, forall_eq]
      exact and_congr_right fun _ => ⟨fun h hv a ha => h a ha hv, fun h a ha hv => h hv a ha⟩
    -- a sendable value is refused only where the buffer is not empty
    have hrefused : (sendable lua v → r = []) ↔ ¬ sendable lua v := by
      refine ⟨fun hr hv => hno ⟨hv.1, ?_⟩, fun hv h => absurd h hv⟩
      rw [hr hv]
      simpa using hv.2
    rw [hlater, hrefused, ← ih, Undisturbed, Undisturbed, messages_refused, hall]
    exact ⟨fun h => ⟨⟨h.1.1, h.2⟩, h.1.2⟩, fun h => ⟨⟨h.1.1, h.2⟩, h.1.2⟩⟩

/-! ### All connections -/

variable [DecidableEq ι]

/-- New connections, whose sockets split the bytes as they like. -/
def Endpoint.create (split : ι → ℕ → ℕ) : Endpoint ι P :=
  ⟨fun i => Client.create ⟨[], [], split i, 0⟩, []⟩

def Endpoint.attempts (s : Endpoint ι P) (i : ι) : List (Attempt ι P) :=
  s.log.filter fun a => a.client = i

/-- Every connection is where its own attempts have brought it. -/
def Tracked (lua : Lua P) (s : Endpoint ι P) : Prop :=
  ∀ i, ∃ r, Holding (s.clients i) r ∧ Sends lua (s.attempts i) r (s.clients i).sock.sent

theorem tracked_create (lua : Lua P) (split : ι → ℕ → ℕ) : Tracked lua (Endpoint.create split) :=
  fun _ => ⟨[], Holding.create _, .nil⟩

theorem attempts_append (s : Endpoint ι P) (f : ι → Client) (i : ι) (v : Value P) (sent : Bool)
    (j : ι) : (⟨f, s.log ++ [⟨i, v, sent⟩]⟩ : Endpoint ι P).attempts j =
      if j = i then s.attempts j ++ [⟨i, v, sent⟩] else s.attempts j := by
  by_cases hj : j = i
  · simp [Endpoint.attempts, hj]
  · simp [Endpoint.attempts, hj, Ne.symm hj]

theorem attempt_spec (i : ι) (v : Value P) (extra : ℕ) {s : Endpoint ι P} (h : Tracked lua s) :
    ∃ sent s', attempt lua i v extra s = some (sent, s') ∧ s'.log = s.log ++ [⟨i, v, sent⟩] ∧
      Tracked lua s' := by
  obtain ⟨r, hhold, hsends⟩ := h i
  have hspec := sockSendMsg_spec lua hhold v (Nat.le_add_right 2 extra)
  have hstep : ∀ sent c' r', Holding c' r' →
      Sends lua (s.attempts i ++ [⟨i, v, sent⟩]) r' c'.sock.sent →
        Tracked lua ⟨Function.update s.clients i c', s.log ++ [⟨i, v, sent⟩]⟩ := by
    intro sent c' r' hhold' hsends' j
    rw [attempts_append]
    by_cases hj : j = i
    · subst hj
      exact ⟨r', by simpa using hhold', by simpa using hsends'⟩
    · simpa [hj] using h j
  unfold attempt
  generalize (sockSendMsg lua v (2 + extra) (s.clients i)).result = o at hspec
  cases hspec with
  | sent hok hle hhold' hout =>
    refine ⟨true, _, rfl, rfl, hstep _ _ _ hhold' ?_⟩
    rw [hout]
    exact hsends.sent hok hle
  | refused hno hhold' hsock =>
    refine ⟨false, _, rfl, rfl, hstep _ _ _ hhold' ?_⟩
    rw [hsock]
    exact hsends.refused hno

theorem broadcastLoop_spec (v : Value P) (extra : ℕ) (cs : List ι) {s : Endpoint ι P}
    (h : Tracked lua s) : ∃ s', broadcastLoop lua v extra cs s = some s' ∧ Tracked lua s' := by
  induction cs generalizing s with
  | nil => exact ⟨s, rfl, h⟩
  | cons c cs ih =>
    obtain ⟨sent, s₁, hattempt, -, h₁⟩ := attempt_spec c v extra h
    simp only [broadcastLoop, hattempt, Option.bind_eq_bind, Option.bind_some]
    cases sent with
    | true => exact ih h₁
    | false => exact ⟨s₁, rfl, h₁⟩

theorem perform_spec (op : Op ι P) {s : Endpoint ι P} (h : Tracked lua s) :
    ∃ s', perform lua s op = some s' ∧ Tracked lua s' := by
  cases op with
  | send i v extra =>
    obtain ⟨sent, s', hattempt, -, h'⟩ := attempt_spec i v extra h
    exact ⟨s', by simp [perform, hattempt], h'⟩
  | broadcast cs v extra => exact broadcastLoop_spec v extra cs h

theorem run_tracked (ops : List (Op ι P)) {s : Endpoint ι P} (h : Tracked lua s) :
    ∃ s', ops.foldlM (perform lua) s = some s' ∧ Tracked lua s' := by
  induction ops generalizing s with
  | nil => exact ⟨s, rfl, h⟩
  | cons op ops ih =>
    obtain ⟨s₁, hop, h₁⟩ := perform_spec op h
    obtain ⟨s', hrun, h'⟩ := ih h₁
    exact ⟨s', by rw [List.foldlM_cons, hop]; exact hrun, h'⟩

/-- Whatever is sent or broadcast, a connection carries exactly the messages of the
sends that returned if and only if nothing sendable followed a refusal on it. -/
theorem refused_send_harmless_iff (lua : Lua P) (split : ι → ℕ → ℕ) (ops : List (Op ι P)) :
    ∃ s, ops.foldlM (perform lua) (Endpoint.create split) = some s ∧
      ∀ i, Undisturbed lua (s.attempts i) (s.clients i).sock.sent ↔
        NoneAfterRefusal lua (s.attempts i) := by
  obtain ⟨s, hrun, h⟩ := run_tracked ops (tracked_create lua split)
  refine ⟨s, hrun, fun i => ?_⟩
  obtain ⟨r, -, hsends⟩ := h i
  exact hsends.undisturbed_iff

end

/-- A C function, refused behind its type, and then a nil. -/
theorem refused_send_precedes_nil :
    ∃ s, [Op.send () (.cfunction : Value UInt8) 0, .send () .nil 0].foldlM (perform sampleLua)
        (Endpoint.create fun _ _ => 0) = some s ∧
      (s.attempts ()).map Attempt.value = [.cfunction, .nil] ∧
      ¬ Undisturbed sampleLua (s.attempts ()) (s.clients ()).sock.sent := by
  obtain ⟨b₁, s₁, h₁, hlog₁, ht₁⟩ := attempt_spec () (.cfunction : Value UInt8) 0
    (tracked_create sampleLua fun _ _ => 0)
  obtain ⟨b₂, s₂, h₂, hlog₂, ht₂⟩ := attempt_spec () (.nil : Value UInt8) 0 ht₁
  have hattempts : s₂.attempts () = [⟨(), .cfunction, b₁⟩, ⟨(), .nil, b₂⟩] := by
    simp [Endpoint.attempts, hlog₂, hlog₁, Endpoint.create]
  refine ⟨s₂, by simp [perform, h₁, h₂], by simp [hattempts], ?_⟩
  obtain ⟨r, -, hsends⟩ := ht₂ ()
  have hnil : sendable sampleLua (.nil : Value UInt8) := ⟨rfl, by decide⟩
  rw [hsends.undisturbed_iff, hattempts]
  intro hnone
  rcases List.pairwise_pair.mp hnone hnil with hsend | hnothing
  · exact absurd hsend.1 nofun
  · exact absurd hnothing nofun

end TorchIpc.Cliser
