import TorchIpc.Cliser.Stream

/-! Asynchronous receives (`sock_recv_msg_peek` and `cliser_client_recv_async`). Both
peeks look at the start of the stream, where the length stands, so that the second one
takes the eight bytes of the length for bytes of the payload. A call is prompt except
where this makes the difference. -/

namespace TorchIpc.Cliser

open Words Runs

/-- `recv` with `MSG_PEEK | MSG_DONTWAIT`, where no answer is `EAGAIN`. -/
def peek (s : Socket) (len : ℕ) : Option (List UInt8) :=
  if s.incoming = [] then none else some (s.incoming.take len)

/-- `sock_recv_msg_peek`. What it has seen of a payload is in the receive buffer. -/
def sockRecvMsgPeek (c : Client) : Except SockError ℕ × Client :=
  match peek c.sock 8 with
  | none => (.ok 0, c)
  | some header =>
    if header.length ≠ 8 then (.ok 0, c)
    else if SEND_RECV_SIZE < leVal header then (.error (.str "message size is too large"), c)
    else
      match peek c.sock (leVal header) with
      | none => (.ok 0, c)
      | some bs =>
        let c := { c with recvRb := { c.recvRb with buf := memcpy c.recvRb.buf 0 bs bs.length } }
        if bs.length ≠ leVal header then (.ok 0, c) else (.ok bs.length, c)

section
variable {P : Type} (lua : Lua P)

def cliserClientRecvAsync (stack : List (Value P)) (c : Client) (fuel : ℕ) : RecvOutcome P :=
  match sockRecvMsgPeek c with
  | (.error e, c) => .error e c
  | (.ok ret, c) => if 0 < ret then sockRecvMsg lua stack c fuel else .ret ret stack c

/-- The call takes the frame of `p` off the socket, whole, and loads its payload. -/
def TakesMessage (c : Client) (p : List UInt8) : Prop :=
  ∃ rest calls, c.sock.incoming = frame p ++ rest ∧ ∀ stack fuel,
    cliserClientRecvAsync lua stack c fuel =
      loadPayload lua p stack { c with sock := { c.sock with incoming := rest, calls := calls } } fuel

/-- The call returns nothing at once and leaves the socket alone. -/
def TakesNothing (c : Client) : Prop :=
  ∃ c', c'.sock = c.sock ∧ ∀ stack fuel, cliserClientRecvAsync lua stack c fuel = .ret 0 stack c'

/-- What a call should do where the peer has sent the payloads `ps` and some prefix of
their frames has come. -/
structure Prompt (c : Client) (ps : List (List UInt8)) : Prop where
  complete : ∀ p ∈ ps.head?, frame p <+: c.sock.incoming → TakesMessage lua c p
  partly : (∀ p ∈ ps.head?, ¬ frame p <+: c.sock.incoming) → TakesNothing lua c

/-! ### The peeks -/

variable {lua} {c : Client}

theorem sockRecvMsgPeek_short (h : c.sock.incoming.length < 8) :
    sockRecvMsgPeek c = (.ok 0, c) := by
  rw [sockRecvMsgPeek, peek]
  split_ifs with hnil
  · rfl
  · have hlen : (c.sock.incoming.take 8).length ≠ 8 := by
      rw [List.length_take]
      omega
    simp only [if_pos hlen]

def peeked (c : Client) (len : ℕ) : Client :=
  { c with recvRb := { c.recvRb with
    buf := memcpy c.recvRb.buf 0 (c.sock.incoming.take len) (c.sock.incoming.take len).length } }

/-- The second peek is content with as many bytes as the payload has, though the first
eight of them are the length. -/
theorem sockRecvMsgPeek_eq (h : 8 ≤ c.sock.incoming.length) {len : ℕ}
    (hlen : leVal (c.sock.incoming.take 8) = len) (hle : len ≤ SEND_RECV_SIZE) :
    sockRecvMsgPeek c = (.ok (if len ≤ c.sock.incoming.length then len else 0), peeked c len) := by
  have hne : c.sock.incoming ≠ [] := by
    rintro hnil
    rw [hnil] at h
    exact absurd h (by decide)
  have hheader : (c.sock.incoming.take 8).length = 8 := by
    rw [List.length_take]
    omega
  simp only [sockRecvMsgPeek, peek, if_neg hne, hheader, hlen, ne_eq, not_true_eq_false, if_false]
  rw [if_neg (by omega)]
  by_cases hpayload : len ≤ c.sock.incoming.length
  · have htaken : (c.sock.incoming.take len).length = len := by
      rw [List.length_take]
      omega
    rw [if_pos hpayload, if_neg (not_not.mpr htaken), htaken, peeked, htaken]
  · have htaken : (c.sock.incoming.take len).length ≠ len := by
      rw [List.length_take]
      omega
    rw [if_neg hpayload, if_pos htaken, peeked]

theorem recvAsync_waits (h : (sockRecvMsgPeek c).1 = .ok 0) (hsock : (sockRecvMsgPeek c).2.sock = c.sock) :
    TakesNothing lua c := by
  refine ⟨(sockRecvMsgPeek c).2, hsock, fun stack fuel => ?_⟩
  rw [cliserClientRecvAsync, ← Prod.eta (sockRecvMsgPeek c), h]
  rfl

theorem recvAsync_goes (h : 8 ≤ c.sock.incoming.length) {len : ℕ}
    (hlen : leVal (c.sock.incoming.take 8) = len) (hle : len ≤ SEND_RECV_SIZE) (hpos : 0 < len)
    (hpayload : len ≤ c.sock.incoming.length) (stack : List (Value P)) (fuel : ℕ) :
    cliserClientRecvAsync lua stack c fuel = sockRecvMsg lua stack (peeked c len) fuel := by
  rw [cliserClientRecvAsync, sockRecvMsgPeek_eq h hlen hle, if_pos hpayload]
  exact if_pos hpos

/-! ### The receive behind them -/

/-- What a peek has stored is overwritten by the payload. -/
theorem loadPayload_peeked {p : List UInt8} (h : p.length ≤ c.sock.incoming.length) (sock : Socket)
    (stack : List (Value P)) (fuel : ℕ) :
    loadPayload lua p stack { peeked c p.length with sock := sock } fuel =
      loadPayload lua p stack { c with sock := sock } fuel := by
  have hlen : (c.sock.incoming.take p.length).length = p.length := by
    rw [List.length_take]
    omega
  have hbuf : memcpy (memcpy c.recvRb.buf 0 (c.sock.incoming.take p.length) p.length) 0 p p.length =
      memcpy c.recvRb.buf 0 p p.length := by
    simp [memcpy, Circular.blit, hlen]
  simp only [loadPayload, peeked, hlen, hbuf]
  rfl

/-- A receive waits for the payload that its length announces. -/
theorem sockRecvMsg_blocks (h : 8 ≤ c.sock.incoming.length) {len : ℕ}
    (hlen : leVal (c.sock.incoming.take 8) = len) (hle : len ≤ SEND_RECV_SIZE)
    (hshort : c.sock.incoming.length < 8 + len) (stack : List (Value P)) (fuel : ℕ) :
    sockRecvMsg lua stack c fuel = .blocks := by
  obtain ⟨calls, hheader⟩ := sockRecv_eq h
  have hlength : (c.sock.incoming.take 8).length = 8 := by
    rw [List.length_take]
    omega
  have hdata : sockRecv len { c.sock with incoming := c.sock.incoming.drop 8, calls := calls } =
    none := by
    apply sockRecv_none
    rw [List.length_drop]
    omega
  have hcheck : checkCount 8 8 "failed to recv the correct number of bytes" = .ok () :=
    checkCount_ok_iff.mpr (by norm_num)
  have hvalid : SEND_RECV_SIZE < LEN_INVALID := by norm_num [SEND_RECV_SIZE, LEN_INVALID]
  unfold sockRecvMsg
  simp only [hheader, hlen, hlength, hcheck]
  rw [if_neg (by omega), if_neg (by omega)]
  simp only [sockRecvRaw, hdata, Option.bind_eq_bind, Option.bind_none]

theorem loadPayload_sock {p : List UInt8} {stack : List (Value P)} {fuel : ℕ} {c' : Client}
    (h : (loadPayload lua p stack c fuel).client = some c') : c'.sock = c.sock := by
  unfold loadPayload at h
  simp only at h
  split_ifs at h
  · cases h
    rfl
  · generalize rbLoad lua fuel _ stack = o at h
    cases o with
    | ret i rb stack' =>
      rw [RecvOutcome.ofLoad] at h
      split_ifs at h
      · cases h
        rfl
      · cases h
        rfl
    | raise rb =>
      cases h
      rfl
    | undefined => cases h
    | timeout => cases h

/-- A call cannot both take a message and take nothing. -/
theorem TakesNothing.not_message (h : TakesNothing lua c) (p : List UInt8) :
    ¬ TakesMessage lua c p := by
  rintro ⟨rest, calls, hin, htakes⟩
  obtain ⟨c', hsock, hnothing⟩ := h
  have hret := (htakes [] 0).symm.trans (hnothing [] 0)
  have hkept := loadPayload_sock (congrArg RecvOutcome.client hret)
  have hlen := congrArg List.length (congrArg Socket.incoming (hsock.symm.trans hkept))
  rw [hin, List.length_append, frame, List.length_append, length_leBytes] at hlen
  change 8 + p.length + rest.length = rest.length at hlen
  omega

/-! ### The next message -/

theorem frame_isPrefix_iff {p : List UInt8} {more available : List UInt8} (h : available <+: frame p ++ more) :
    frame p <+: available ↔ 8 + p.length ≤ available.length := by
  have hlen : (frame p).length = 8 + p.length := by rw [frame, List.length_append, length_leBytes]
  rw [← hlen]
  exact ⟨List.IsPrefix.length_le,
    List.prefix_of_prefix_length_le (List.prefix_append (frame p) more) h⟩

/-- The length of the next payload, as far as it has come. -/
theorem leVal_frame {p : List UInt8} (hp : p.length ≤ SEND_RECV_SIZE) {more available : List UInt8}
    (h : available <+: frame p ++ more) (hlen : 8 ≤ available.length) :
    leVal (available.take 8) = p.length := by
  obtain ⟨behind, heq⟩ := h
  have hheader : available.take 8 = leBytes 8 p.length := by
    have htake := congrArg (List.take 8) heq
    rw [List.take_append_of_le_length hlen, frame, List.append_assoc,
      List.take_left' (length_leBytes 8 _)] at htake
    exact htake
  have hcap : SEND_RECV_SIZE < 256 ^ 8 := by norm_num [SEND_RECV_SIZE]
  rw [hheader, leVal_leBytes (hp.trans_lt hcap)]

/-- A call between two messages takes the next one, if it is not empty, where all of it
has come. -/
theorem recvAsync_message {p : List UInt8} (hp : p.length ≤ SEND_RECV_SIZE) (hne : p ≠ [])
    (hin : frame p <+: c.sock.incoming) : TakesMessage lua c p := by
  obtain ⟨rest, hrest⟩ := hin
  have hlen : c.sock.incoming.length = 8 + p.length + rest.length := by
    rw [← hrest, List.length_append, frame, List.length_append, length_leBytes]
  have hpre : c.sock.incoming <+: frame p ++ rest := by rw [hrest]
  have hval := leVal_frame hp hpre (by omega)
  obtain ⟨calls, hframe⟩ := sockRecvMsg_frame lua (c := peeked c p.length) hp hrest.symm
  refine ⟨rest, calls, hrest.symm, fun stack fuel => ?_⟩
  rw [recvAsync_goes (by omega) hval hp (List.length_pos_iff.mpr hne) (by omega), hframe]
  exact loadPayload_peeked (by omega) _ stack fuel

/-- It takes nothing where less has come than a length, or than the payload alone, and
where the payload is empty. -/
theorem recvAsync_nothing {p : List UInt8} (hp : p.length ≤ SEND_RECV_SIZE) {more : List UInt8}
    (hin : c.sock.incoming <+: frame p ++ more)
    (h : c.sock.incoming.length < 8 ∨ c.sock.incoming.length < p.length ∨ p = []) :
    TakesNothing lua c := by
  by_cases hlen : c.sock.incoming.length < 8
  · have hpeek := sockRecvMsgPeek_short hlen
    exact recvAsync_waits (by rw [hpeek]) (by rw [hpeek])
  · have hpeek := sockRecvMsgPeek_eq (not_lt.mp hlen) (leVal_frame hp hin (not_lt.mp hlen)) hp
    have hret : (if p.length ≤ c.sock.incoming.length then p.length else 0) = 0 := by
      split_ifs with hle
      · rcases h with h | h | rfl
        · exact absurd h hlen
        · exact absurd hle (not_le.mpr h)
        · rfl
      · rfl
    exact recvAsync_waits (by rw [hpeek, hret]) (by rw [hpeek]; rfl)

/-- It waits where the payload could be complete if the length did not count. -/
theorem recvAsync_blocks (lua : Lua P) {p : List UInt8} (hp : p.length ≤ SEND_RECV_SIZE) (hne : p ≠ [])
    {more : List UInt8} (hin : c.sock.incoming <+: frame p ++ more) (hlen : 8 ≤ c.sock.incoming.length)
    (hle : p.length ≤ c.sock.incoming.length) (hshort : c.sock.incoming.length < 8 + p.length)
    (stack : List (Value P)) (fuel : ℕ) : cliserClientRecvAsync lua stack c fuel = .blocks := by
  have hval := leVal_frame hp hin hlen
  rw [recvAsync_goes hlen hval hp (List.length_pos_iff.mpr hne) hle]
  exact sockRecvMsg_blocks (c := peeked c p.length) hlen hval hp hshort stack fuel

/-- The next message, if there is one, has a payload, and of it and its length together
all has come, or less than the payload has bytes, or not even the length. -/
def Decided (c : Client) (ps : List (List UInt8)) : Prop :=
  ∀ p ∈ ps.head?, c.sock.incoming.length < 8 ∨ c.sock.incoming.length < p.length ∨
    p ≠ [] ∧ 8 + p.length ≤ c.sock.incoming.length

instance (c : Client) (ps : List (List UInt8)) : Decidable (Decided c ps) :=
  inferInstanceAs (Decidable (∀ p ∈ ps.head?, c.sock.incoming.length < 8 ∨
    c.sock.incoming.length < p.length ∨ p ≠ [] ∧ 8 + p.length ≤ c.sock.incoming.length))

theorem prompt_iff (lua : Lua P) {ps : List (List UInt8)} (hps : ∀ p ∈ ps, p.length ≤ SEND_RECV_SIZE)
    (hin : c.sock.incoming <+: ps.flatMap frame) : Prompt lua c ps ↔ Decided c ps := by
  cases ps with
  | nil =>
    have hnil : c.sock.incoming = [] := List.prefix_nil.mp hin
    have hpeek := sockRecvMsgPeek_short (c := c) (by rw [hnil]; decide)
    have hnothing : TakesNothing lua c := recvAsync_waits (by rw [hpeek]) (by rw [hpeek])
    exact iff_of_true ⟨by simp, fun _ => hnothing⟩ (by simp [Decided])
  | cons p ps =>
    have hp := hps p List.mem_cons_self
    rw [List.flatMap_cons] at hin
    have hframe := frame_isPrefix_iff hin
    simp only [Decided, List.head?_cons, Option.mem_some_iff, forall_eq']
    constructor
    · rintro ⟨hcomplete, hpartly⟩
      simp only [List.head?_cons, Option.mem_some_iff, forall_eq', hframe] at hcomplete hpartly
      by_contra hnot
      push Not at hnot
      obtain ⟨hlen, hle, hrest⟩ := hnot
      by_cases hnil : p = []
      · have hmessage := hcomplete (by rw [hnil]; exact hlen)
        exact (recvAsync_nothing hp hin (Or.inr (Or.inr hnil))).not_message p hmessage
      · obtain ⟨c', -, hnothing⟩ := hpartly (not_le.mpr (hrest hnil))
        have hblocks := recvAsync_blocks lua hp hnil hin hlen hle (hrest hnil) [] 0
        rw [hnothing] at hblocks
        cases hblocks
    · intro h
      refine ⟨?_, ?_⟩
      · simp only [List.head?_cons, Option.mem_some_iff, forall_eq']
        intro hpre
        have hall := hframe.mp hpre
        rcases h with h | h | ⟨hne, -⟩
        · omega
        · omega
        · exact recvAsync_message hp hne hpre
      · simp only [List.head?_cons, Option.mem_some_iff, forall_eq', hframe]
        intro hshort
        rcases h with h | h | ⟨-, hall⟩
        · exact recvAsync_nothing hp hin (Or.inl h)
        · exact recvAsync_nothing hp hin (Or.inr (Or.inl h))
        · exact absurd hall hshort

/-- On a connection whose receive buffer holds nothing else, the message that is taken is
the value that was sent. -/
theorem TakesMessage.value (hl : lua.Rebuilds) (hc : Cleared c) {v : Value P} (hwf : v.Wf lua)
    (hsend : sendable lua v) (h : TakesMessage lua c (encode lua true false v)) (stack : List (Value P)) :
    ∃ c', Yields (cliserClientRecvAsync lua stack c) (.ret 1 (v.received :: stack) c') ∧
      c.sock.incoming = frame (encode lua true false v) ++ c'.sock.incoming ∧ Cleared c' := by
  obtain ⟨rest, calls, hin, htakes⟩ := h
  have hcleared := hc.withSock { c.sock with incoming := rest, calls := calls }
  obtain ⟨c', ⟨n, hn⟩, hsock, -, hrcb⟩ :=
    loadPayload_encode hl hcleared.receiving true hwf hsend.1 []
    (by rw [List.append_nil, hcleared.rcb_eq, Nat.zero_add]; exact hsend.2) stack
  rw [List.append_nil] at hn
  refine ⟨c', ⟨n, fun fuel hf => (htakes stack fuel).trans (hn fuel hf)⟩, by rw [hsock]; exact hin, ?_, ?_⟩
  · exact hcleared.receiving.loadPayload hsend.2 (congrArg RecvOutcome.client (hn n le_rfl))
  · rw [hrcb, hcleared.rcb_eq]
    rfl

/-- Whatever the peer has sent and however much of it has come, a call is prompt if and
only if what has come decides it. -/
theorem recvAsync_prompt_iff (hl : lua.Rebuilds) {ps : List (List UInt8)}
    (hps : ∀ p ∈ ps, p.length ≤ SEND_RECV_SIZE) (hin : c.sock.incoming <+: ps.flatMap frame) :
    (Prompt lua c ps ↔ Decided c ps) ∧
      ∀ v, v.Wf lua → sendable lua v → TakesMessage lua c (encode lua true false v) → Cleared c →
        ∀ stack, ∃ c', Yields (cliserClientRecvAsync lua stack c) (.ret 1 (v.received :: stack) c') ∧
          c.sock.incoming = frame (encode lua true false v) ++ c'.sock.incoming ∧ Cleared c' :=
  ⟨prompt_iff lua hps hin, fun _ hwf hsend h hc stack => h.value hl hc hwf hsend stack⟩

end

/-! ### A nil -/

/-- A connection on which the first `n` bytes of a nil have come. -/
def nilSocket (n : ℕ) : Client :=
  .create ⟨[], (frame (encode sampleLua true false .nil)).take n, fun _ => 0, 0⟩

theorem nilSocket_begins (n : ℕ) :
    (nilSocket n).sock.incoming <+: [encode sampleLua true false .nil].flatMap frame := by
  rw [List.flatMap_cons, List.flatMap_nil, List.append_nil]
  exact List.take_prefix n _

/-- All nine bytes of it are taken. -/
theorem recvAsync_prompt_nil : Prompt sampleLua (nilSocket 9) [encode sampleLua true false .nil] :=
  (recvAsync_prompt_iff sampleLua_rebuilds (by decide) (nilSocket_begins 9)).1.mpr (by decide)

/-- When the length has come and the type has not, the call waits for it. -/
theorem recvAsync_waits_for_nil :
    (nilSocket 8).sock.incoming <+: [encode sampleLua true false .nil].flatMap frame ∧
      ¬ Prompt sampleLua (nilSocket 8) [encode sampleLua true false .nil] ∧
      ∀ stack fuel, cliserClientRecvAsync sampleLua stack (nilSocket 8) fuel = .blocks := by
  have hpre := nilSocket_begins 8
  refine ⟨hpre, fun h => absurd ((prompt_iff sampleLua (by decide) hpre).mp h) (by decide), ?_⟩
  rw [List.flatMap_cons] at hpre
  exact recvAsync_blocks sampleLua (by decide) (by decide) hpre (by decide) (by decide) (by decide)

end TorchIpc.Cliser
