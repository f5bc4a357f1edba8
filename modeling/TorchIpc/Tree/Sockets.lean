import TorchIpc.Base.Wire
import TorchIpc.Cliser.Stream
import TorchIpc.Tree.Unbuffered

/-! The calls of `allReduce` and `scatter` over sockets. What the nodes send to one another are
the frames of `sock_send_msg`, byte by byte: a `send` takes as many bytes as there is room for,
a `recv` yields some of those that have come, and a process is in the middle of any number of
them. All nodes still come to their ends with what the planned tree says, whatever the sizes of
the socket buffers. -/

namespace TorchIpc.Cliser

open Words

variable {P : Type} (lua : Lua P)

/-- How many bytes `sock_recv_msg` asks for next when it has got these: of the length, then of the
payload, unless it stops with an error at the length. -/
def sockRecvMsgWant (got : List UInt8) : ℕ :=
  if got.length < 8 then 8 - got.length
  else
    let len := leVal (got.take 8)
    if len = LEN_INVALID ∨ SEND_RECV_SIZE < len then 0 else 8 + len - got.length

theorem loadPayload_ne_blocks (bs : List UInt8) (stack : List (Value P)) (c : Client) (fuel : ℕ) :
    loadPayload lua bs stack c fuel ≠ .blocks := by
  intro hblocks
  unfold loadPayload at hblocks
  simp only at hblocks
  split_ifs at hblocks
  cases hload : rbLoad lua fuel (ringbufferWrite (ringbufferPushWritePos (ringbufferResetReadPos
      { c.recvRb with buf := memcpy c.recvRb.buf 0 bs bs.length })) none bs.length).2 stack with
  | ret i rb stack =>
    rw [hload, RecvOutcome.ofLoad] at hblocks
    split_ifs at hblocks
  | raise rb =>
    rw [hload] at hblocks
    cases hblocks
  | undefined =>
    rw [hload] at hblocks
    cases hblocks
  | timeout =>
    rw [hload] at hblocks
    cases hblocks

/-- A receive that finds these bytes waits exactly if it wants more. -/
theorem sockRecvMsg_blocks_iff (stack : List (Value P)) (c : Client) (fuel : ℕ) :
    sockRecvMsg lua stack c fuel = .blocks ↔ 0 < sockRecvMsgWant c.sock.incoming := by
  by_cases hshort : c.sock.incoming.length < 8
  · have hblocks : sockRecvMsg lua stack c fuel = .blocks := by
      unfold sockRecvMsg
      rw [sockRecv_none hshort]
    rw [sockRecvMsgWant, if_pos hshort]
    exact ⟨fun _ => by omega, fun _ => hblocks⟩
  · obtain ⟨calls, hheader⟩ := sockRecv_eq (not_lt.mp hshort)
    have hlen : (c.sock.incoming.take 8).length = 8 := by
      rw [List.length_take]
      omega
    have hcheck : ∀ msg, checkCount (c.sock.incoming.take 8).length 8 msg = .ok () := by
      intro msg
      rw [hlen]
      exact checkCount_ok_iff.mpr (by norm_num)
    rw [sockRecvMsgWant, if_neg hshort]
    unfold sockRecvMsg
    simp only [hheader, hcheck]
    by_cases hinvalid : leVal (c.sock.incoming.take 8) = LEN_INVALID
    · rw [if_pos hinvalid, if_pos (Or.inl hinvalid)]
      exact ⟨nofun, fun hpos => absurd hpos (lt_irrefl 0)⟩
    · by_cases hlarge : SEND_RECV_SIZE < leVal (c.sock.incoming.take 8)
      · rw [if_neg hinvalid, if_pos hlarge, if_pos (Or.inr hlarge)]
        exact ⟨nofun, fun hpos => absurd hpos (lt_irrefl 0)⟩
      · have hnot : ¬ (leVal (c.sock.incoming.take 8) = LEN_INVALID ∨
            SEND_RECV_SIZE < leVal (c.sock.incoming.take 8)) := by
          rw [not_or]
          exact ⟨hinvalid, hlarge⟩
        simp only [if_neg hinvalid, if_neg hlarge, if_neg hnot]
        by_cases hfew : (c.sock.incoming.drop 8).length < leVal (c.sock.incoming.take 8)
        · rw [sockRecvRaw, sockRecv_none hfew]
          rw [List.length_drop] at hfew
          simp only [Option.bind_eq_bind, Option.bind_none, true_iff]
          omega
        · obtain ⟨calls', hdata⟩ := sockRecv_eq
            (s := { c.sock with incoming := c.sock.incoming.drop 8, calls := calls }) (not_lt.mp hfew)
          have hwant : ¬ 0 < 8 + leVal (c.sock.incoming.take 8) - c.sock.incoming.length := by
            rw [List.length_drop] at hfew
            omega
          have hraw : ∃ r, sockRecvRaw (leVal (c.sock.incoming.take 8))
              { c.sock with incoming := c.sock.incoming.drop 8, calls := calls } = some r := by
            rw [sockRecvRaw, hdata]
            exact ⟨_, rfl⟩
          obtain ⟨⟨r, sock⟩, hraw⟩ := hraw
          rw [hraw]
          refine ⟨fun hblocks => ?_, fun hpos => absurd hpos hwant⟩
          cases r with
          | error e => cases hblocks
          | ok bs => exact absurd hblocks (loadPayload_ne_blocks lua bs stack _ fuel)

end TorchIpc.Cliser

namespace TorchIpc.Tree

open Network Wire Cliser Words

/-! ### Messages as Lua values -/

section
variable {P : Type}

theorem numberOfInteger_toNat {n : ℕ} (hpos : 0 < n) (hn : n < 2 ^ 53) :
    (numberOfInteger (UInt64.ofNat n)).toNat = (1022 + Nat.log2 n) * 2 ^ 52 + n * 2 ^ (52 - Nat.log2 n) ∧
      2 ^ 52 ≤ n * 2 ^ (52 - Nat.log2 n) ∧ n * 2 ^ (52 - Nat.log2 n) < 2 ^ 53 ∧
        Nat.log2 n ≤ 52 := by
  have hlog : Nat.log2 n ≤ 52 := by
    have := (Nat.log2_lt hpos.ne').mpr hn
    omega
  have hlow : 2 ^ 52 ≤ n * 2 ^ (52 - Nat.log2 n) := by
    calc 2 ^ 52 = 2 ^ Nat.log2 n * 2 ^ (52 - Nat.log2 n) := by rw [← pow_add]; congr 1; omega
      _ ≤ n * 2 ^ (52 - Nat.log2 n) := Nat.mul_le_mul_right _ (Nat.log2_self_le hpos.ne')
  have hhigh : n * 2 ^ (52 - Nat.log2 n) < 2 ^ 53 := by
    calc n * 2 ^ (52 - Nat.log2 n) < 2 ^ (Nat.log2 n + 1) * 2 ^ (52 - Nat.log2 n) :=
          Nat.mul_lt_mul_of_pos_right Nat.lt_log2_self (by positivity)
      _ = 2 ^ 53 := by rw [← pow_add]; congr 1; omega
  refine ⟨?_, hlow, hhigh, hlog⟩
  have hto : (UInt64.ofNat n).toNat = n := by
    rw [UInt64.toNat_ofNat']
    omega
  have hneg : ¬ 2 ^ 63 ≤ n := by omega
  unfold numberOfInteger
  simp only [hto, if_neg hneg, if_neg hpos.ne', if_pos hlog]
  rw [UInt64.toNat_ofNat', Nat.zero_add, Nat.mod_eq_of_lt]
  have : (1022 + Nat.log2 n) * 2 ^ 52 ≤ 1074 * 2 ^ 52 := Nat.mul_le_mul_right _ (by omega)
  omega

theorem numberOfInteger_inj {n m : ℕ} (hn : n < 2 ^ 53) (hm : m < 2 ^ 53)
    (h : numberOfInteger (UInt64.ofNat n) = numberOfInteger (UInt64.ofNat m)) : n = m := by
  have hzero : (numberOfInteger (UInt64.ofNat 0)).toNat = 0 := by decide
  have hnat := congrArg UInt64.toNat h
  rcases Nat.eq_zero_or_pos n with rfl | hn0
  · rcases Nat.eq_zero_or_pos m with rfl | hm0
    · rfl
    · obtain ⟨hm', -, -, -⟩ := numberOfInteger_toNat hm0 hm
      rw [hzero, hm'] at hnat
      omega
  · obtain ⟨hn', hnlow, hnhigh, hnlog⟩ := numberOfInteger_toNat hn0 hn
    rcases Nat.eq_zero_or_pos m with rfl | hm0
    · rw [hzero, hn'] at hnat
      omega
    · obtain ⟨hm', hmlow, hmhigh, hmlog⟩ := numberOfInteger_toNat hm0 hm
      rw [hn', hm'] at hnat
      -- the exponents agree, and then the mantissas
      have hlog : Nat.log2 n = Nat.log2 m := by omega
      rw [hlog] at hnat
      exact Nat.eq_of_mul_eq_mul_right (by positivity) (Nat.add_left_cancel hnat)

variable (lua : Lua P)

/-- A number of done nodes as `client:send` has it. -/
def countValue (n : ℕ) : Value P := .ofInteger lua.versionNum (UInt64.ofNat n)

theorem countValue_inj {n m : ℕ} (hn : n < 2 ^ 53) (hm : m < 2 ^ 53)
    (h : countValue lua n = countValue lua m) : n = m := by
  unfold countValue Value.ofInteger at h
  split_ifs at h
  · rw [Value.integer.injEq] at h
    have hnat := congrArg UInt64.toNat h
    simp only [UInt64.toNat_ofNat'] at hnat
    omega
  · rw [Value.number.injEq] at h
    exact numberOfInteger_inj hn hm h

theorem countValue_wf (n : ℕ) : (countValue lua n).Wf lua := by
  unfold countValue Value.ofInteger
  split_ifs with hversion
  · simpa [Value.Wf, Value.parts, Value.WfNode] using hversion
  · simp [Value.Wf, Value.parts, Value.WfNode]

theorem countValue_received (n : ℕ) : (countValue lua n).received = countValue lua n := by
  unfold countValue Value.ofInteger
  split_ifs <;> rw [Value.received]

theorem countValue_sendable (n : ℕ) : sendable lua (countValue lua n) := by
  unfold countValue Value.ofInteger
  split_ifs
  · constructor
    · rfl
    · simp [encode, script, integerScript, SEND_RECV_SIZE]
  · constructor
    · rfl
    · simp [encode, script, numberScript, SEND_RECV_SIZE]

end

/-- Leaves that are sent as one message, and arrive as they are. -/
structure Wording {P : Type} (lua : Lua P) (L : Type) where
  value : L → Value P
  injective : Function.Injective value
  wf : ∀ x, (value x).Wf lua
  sendable : ∀ x, Cliser.sendable lua (value x)
  received : ∀ x, (value x).received = value x

section
variable {P L : Type} {lua : Lua P} (th : TH) (W : Wording lua L)

def Wording.wire : Msg L → Value P
  | .leaf x => W.value x
  | .count n => countValue lua n

/-- The counts that Lua can tell apart. -/
def Countable (m : Msg L) : Prop := ∀ n, m = .count n → n < 2 ^ 53

/-- The frames of `sock_send_msg`, and what `sock_recv_msg` takes them for with any client that has
nothing left from before. -/
def sockCodec : Codec (Msg L) UInt8 where
  encode m := Cliser.Item.bytes lua th (.value (W.wire m))
  want := sockRecvMsgWant
  Reads got m := Countable m ∧ ∃ stack c c', Cleared c ∧ c.sock.incoming = got ∧
    Runs.Yields (cliserRecv lua th stack c .value) (some (.value (W.wire m), c'))

variable {th W} {m m' : Msg L}

theorem wire_wf (m : Msg L) : (W.wire m).Wf lua := by
  cases m with
  | leaf x => exact W.wf x
  | count n => exact countValue_wf lua n

theorem wire_sendable (m : Msg L) : Cliser.sendable lua (W.wire m) := by
  cases m with
  | leaf x => exact W.sendable x
  | count n => exact countValue_sendable lua n

theorem wire_received (m : Msg L) : (W.wire m).received = W.wire m := by
  cases m with
  | leaf x => exact W.received x
  | count n => exact countValue_received lua n

theorem yields_wire (hl : lua.Rebuilds) {c : Cliser.Client} (h : Cleared c)
    (hin : c.sock.incoming = (sockCodec th W).encode m) (stack : List (Value P)) :
    ∃ c', Runs.Yields (cliserRecv lua th stack c .value) (some (.value (W.wire m), c')) := by
  have hwf : (Cliser.Item.value (W.wire m)).Wf lua := wire_wf m
  have hsend : (Cliser.Item.value (W.wire m)).Sendable lua th := wire_sendable m
  have hmatch : Matches (Cliser.Item.value (W.wire m)) .value := trivial
  have hin' : c.sock.incoming = (Cliser.Item.value (W.wire m)).bytes lua th ++ [] :=
    hin.trans (List.append_nil _).symm
  obtain ⟨x, c', hy, hx, -⟩ := cliserRecv_spec hl h hwf hsend hmatch hin' stack
  cases x with
  | value v =>
    change v = (W.wire m).received at hx
    rw [hx, wire_received] at hy
    exact ⟨c', hy⟩
  | storage data => exact hx.elim
  | tensor data => exact hx.elim

theorem wire_eq_of_reads (hl : lua.Rebuilds) (h : (sockCodec th W).Reads ((sockCodec th W).encode m) m') :
    W.wire m' = W.wire m := by
  obtain ⟨-, stack, c, c', hc, hin, hy⟩ := h
  obtain ⟨c'', hy'⟩ := yields_wire hl hc hin stack
  have heq := Option.some.inj (hy.unique hy')
  rw [Prod.mk.injEq, Received.value.injEq] at heq
  exact heq.1

theorem sockRecvMsgWant_frame {p got more : List UInt8} (hp : p.length ≤ SEND_RECV_SIZE)
    (h : got ++ more = frame p) :
    sockRecvMsgWant got = if got.length < 8 then 8 - got.length else more.length := by
  rw [sockRecvMsgWant]
  split_ifs with hshort
  · rfl
  · have hhead : got.take 8 = leBytes 8 p.length := by
      have htake := congrArg (List.take 8) h
      rwa [List.take_append_of_le_length (not_lt.mp hshort), frame, List.take_left' (length_leBytes 8 _)] at htake
    have hval : leVal (got.take 8) = p.length := by
      rw [hhead]
      refine leVal_leBytes ?_
      have : SEND_RECV_SIZE < 256 ^ 8 := by norm_num [SEND_RECV_SIZE]
      omega
    have hvalid : SEND_RECV_SIZE < LEN_INVALID := by norm_num [SEND_RECV_SIZE, LEN_INVALID]
    have hlen := congrArg List.length h
    rw [List.length_append, frame, List.length_append, length_leBytes] at hlen
    have hno : ¬ (p.length = LEN_INVALID ∨ SEND_RECV_SIZE < p.length) := by omega
    simp only [hval, if_neg hno]
    omega

theorem carries_msg (hl : lua.Rebuilds) (hm : Countable m) : (sockCodec th W).Carries m := by
  have hframe : (sockCodec th W).encode m = frame (encode lua true false (W.wire m)) := rfl
  have hsize := (wire_sendable (W := W) m).2
  constructor
  · rw [hframe, frame]
    intro hnil
    have hlen := congrArg List.length hnil
    rw [List.length_append, length_leBytes] at hlen
    simp at hlen
  · intro got more h hmore
    change 0 < sockRecvMsgWant got
    rw [sockRecvMsgWant_frame hsize h]
    have hpos := List.length_pos_iff.mpr hmore
    split_ifs <;> omega
  · intro got more h
    change sockRecvMsgWant got ≤ more.length
    rw [sockRecvMsgWant_frame hsize h]
    have hlen := congrArg List.length h
    rw [hframe, List.length_append, frame, List.length_append, length_leBytes] at hlen
    split_ifs <;> omega
  · refine ⟨hm, [], Cliser.Client.create ⟨[], (sockCodec th W).encode m, fun _ => 0, 0⟩, ?_⟩
    have hcleared : Cleared (Cliser.Client.create ⟨[], (sockCodec th W).encode m, fun _ => 0, 0⟩) :=
      ⟨Receiving.create _, rfl⟩
    obtain ⟨c', hy⟩ := yields_wire hl hcleared rfl []
    exact ⟨c', hcleared, rfl, hy⟩

/-! ### The nodes tell their messages apart -/

variable {ι N S : Type} [LinearOrder N] [LinearOrder S]

theorem discerns_recvLeaf (hl : lua.Rebuilds) (peer : ι) :
    Discerns (sockCodec th W) (recvLeaf peer : Prog ι L L) := by
  refine ⟨fun m m' _ hr hm hm' => ?_, fun m => ?_⟩
  · have hwire := wire_eq_of_reads hl hr
    cases m with
    | count n => exact absurd rfl (hm .phase)
    | leaf x =>
      cases m' with
      | count n => exact absurd rfl (hm' .phase)
      | leaf y => rw [W.injective hwire]
  · cases m <;> exact trivial

theorem discerns_recvCount (hl : lua.Rebuilds) (peer : ι) :
    Discerns (sockCodec th W) (recvCount peer : Prog ι L ℕ) := by
  refine ⟨fun m m' hc hr hm hm' => ?_, fun m => ?_⟩
  · have hwire := wire_eq_of_reads hl hr
    cases m with
    | leaf x => exact absurd rfl (hm .phase)
    | count n =>
      cases m' with
      | leaf y => exact absurd rfl (hm' .phase)
      | count n' => rw [countValue_inj lua (hr.1 n' rfl) (hc.reads.1 n rfl) hwire]
  · cases m <;> exact trivial

theorem discerns_put {c : Codec (Msg L) UInt8} (peer : ι) (m : Msg L) :
    Discerns c (Proc.put peer m : Prog ι L Unit) := trivial

theorem discerns_walkTable {c : Codec (Msg L) UInt8} {f : L → Prog ι L (Option L)} (hf : ∀ x, Discerns c (f x))
    (v : Nested N S L) : Discerns c (walkTable f v) := by
  induction v with
  | leaf x =>
    rw [walkTable]
    exact (hf x).bind fun _ => discerns_pure _
  | table t ih =>
    rw [walkTable, tableSort, visits_eq]
    split_ifs
    · apply (discerns_mapM fun e he => ?_).bind fun _ => discerns_pure _
      rw [List.mem_insertionSort, List.mem_map] at he
      obtain ⟨e', he', rfl⟩ := he
      exact (ih e' he').bind fun _ => discerns_pure _
    · exact trivial

theorem discerns_recvWalk (hl : lua.Rebuilds) (peer : ι) (g : L → L → Option L) (v : Nested N S L) :
    Discerns (sockCodec th W) (walkTable (fun x => do return g x (← recvLeaf peer)) v : Prog ι L (Nested N S L)) :=
  discerns_walkTable (fun _ => (discerns_recvLeaf hl peer).bind fun _ => discerns_pure _) v

theorem discerns_sendWalk {c : Codec (Msg L) UInt8} (peer : ι) (v : Nested N S L) :
    Discerns c (walkTable (fun x => do Proc.put peer (.leaf x); return none) v : Prog ι L (Nested N S L)) :=
  discerns_walkTable (fun _ => (discerns_put peer _).bind fun _ => discerns_pure _) v

theorem discerns_sendTo {c : Codec (Msg L) UInt8} (peer : ι) (v : Nested N S L) (d : ℕ) :
    Discerns c (sendTo peer v d : Prog ι L (Nested N S L)) :=
  (discerns_sendWalk peer v).bind fun _ => (discerns_put peer _).bind fun _ => discerns_pure _

theorem discerns_round (hl : lua.Rebuilds) (q : Qsort ι) (conn : Conn ι) (reduce : L → L → Option L)
    (v : Nested N S L) (d : ℕ) : Discerns (sockCodec th W) (round q conn reduce v d) := by
  have hup : ∀ cs (v : Nested N S L) d,
      Discerns (sockCodec th W) (reduceUp reduce cs v d : Prog ι L _) := by
    intro cs v d
    refine discerns_foldlM (fun s peer => ?_) (v, d)
    exact (discerns_recvWalk hl peer reduce s.1).bind fun _ =>
      (discerns_recvCount hl peer).bind fun _ => discerns_pure _
  have hexchange : ∀ (r : Nested N S L × ℕ),
      Discerns (sockCodec th W) (exchange conn.client r.1 r.2) := by
    intro r
    cases conn.client with
    | none => exact discerns_pure _
    | some peer =>
      exact (discerns_sendTo peer r.1 r.2).bind fun v =>
        (discerns_recvWalk hl peer (fun _ y => some y) v).bind fun _ =>
          (discerns_recvCount hl peer).bind fun _ => discerns_pure _
  have hdown : ∀ cs (v : Nested N S L) d,
      Discerns (sockCodec th W) (sendDown cs v d : Prog ι L _) := by
    intro cs v d
    exact discerns_foldlM (fun v peer => discerns_sendTo peer v d) v
  rw [round]
  exact (hup _ v d).bind fun r => (hexchange r).bind fun r => (hdown _ r.1 r.2).bind fun _ =>
    discerns_pure _

theorem discerns_scatter [One N] (hl : lua.Rebuilds) (q : Qsort ι) (conn : Conn ι)
    (v : Option (Nested N S L)) : Discerns (sockCodec th W) (scatter q conn v) := by
  have hdown : ∀ (cs : List ι) (v : Nested N S L),
      Discerns (sockCodec th W) (cs.foldlM (fun v client =>
        walkTable (fun x => do Proc.put client (.leaf x); return none) v) v :
          Prog ι L (Nested N S L)) :=
    fun cs v => discerns_foldlM (fun v client => discerns_sendWalk client v) v
  rw [scatter]
  cases conn.client with
  | none => exact (hdown _ (wrap v)).bind fun _ => discerns_pure _
  | some peer =>
    exact (discerns_recvWalk hl peer (fun _ y => some y) (wrap v)).bind fun v' =>
      (hdown _ v').bind fun _ => discerns_pure _

theorem discerns_callsTree [One N] (hl : lua.Rebuilds) (q : Qsort ι) (conn : Conn ι) (numNodes fuel : ℕ)
    (jobs : List (Job ι N S L)) (i : ι) (lastValue : Option (Nested N S L)) :
    Discerns (sockCodec th W) (callsTree q conn numNodes (fuel + 1) lastValue (jobs.map (Job.call · i))) := by
  induction jobs generalizing lastValue with
  | nil => exact discerns_pure _
  | cons job jobs ih =>
    have hone : Discerns (sockCodec th W) ((job.call i).runTree q conn numNodes (fuel + 1) lastValue) := by
      cases job with
      | scatter value => exact (discerns_scatter hl q conn _).bind fun _ => discerns_pure _
      | allReduce reduce value =>
        simp only [Job.call, Call.runTree, allReduce_eq]
        exact ((discerns_round hl q conn _ _ _).bind fun _ => discerns_pure _).bind fun _ =>
          discerns_pure _
    rw [List.map_cons, callsTree]
    exact hone.bind fun r => (ih r.2).bind fun _ => discerns_pure _

end

/-! ### The messages of a list of calls -/

section
variable {ι N S L : Type} [LinearOrder N] [LinearOrder S] [DecidableEq ι] [Fintype ι] {R : Rooted ι}

omit [DecidableEq ι] in
/-- Nobody is done: without a zero function the counts are 0. -/
theorem shares_snd (job : Job ι N S L) (i : ι) : (job.shares R i).2 = 0 := by
  cases job with
  | scatter value => rfl
  | allReduce reduce value =>
    refine R.subtree_induction (motive := fun a : List L × ℕ => a.2 = 0) (fun _ => rfl) ?_ _ i
    intro a b ha hb
    rw [combine, ha, hb]

theorem countable_payload {r : List L × ℕ} (hr : r.2 = 0) {m : Msg L} (hm : m ∈ payload r) :
    Countable m := by
  rintro n rfl
  simp only [payload, List.mem_append, List.mem_map, List.mem_singleton, reduceCtorEq, and_false, exists_false,
    Msg.count.injEq, false_or] at hm
  rw [hm, hr]
  positivity

omit [LinearOrder N] [LinearOrder S] [DecidableEq ι] [Fintype ι] in
theorem countable_turns {ms : List (Msg L)} (h : ∀ m ∈ ms, Countable m) :
    (∀ x ∈ ms.map Turn.say, Countable x.message) ∧ ∀ x ∈ ms.map Turn.hear, Countable x.message := by
  constructor
  · intro x hx
    obtain ⟨m, hm, rfl⟩ := List.mem_map.mp hx
    exact h m hm
  · intro x hx
    obtain ⟨m, hm, rfl⟩ := List.mem_map.mp hx
    exact h m hm

theorem countable_jobsTurns (jobs : List (Job ι N S L)) (i j : ι) :
    ∀ x ∈ jobsTurns R jobs i j, Countable x.message := by
  intro x hx
  obtain ⟨job, -, hx⟩ := List.mem_flatMap.mp hx
  cases job with
  | allReduce reduce value =>
    have hall := fun i => countable_turns fun m hm =>
      countable_payload (shares_snd (R := R) (.allReduce reduce value) i) (m := m) hm
    simp only [Job.turns, roundTurns] at hx
    split_ifs at hx
    · exact (List.mem_append.mp hx).elim ((hall i).1 x) ((hall R.root).2 x)
    · exact (List.mem_append.mp hx).elim ((hall j).2 x) ((hall R.root).1 x)
    · cases hx
  | scatter value =>
    have hleaves : ∀ m ∈ (leaves (sorted (value R.root))).map Msg.leaf, Countable m := by
      simp [Countable]
    have hall := countable_turns hleaves
    simp only [Job.turns, scatterTurns] at hx
    split_ifs at hx
    · exact hall.2 x hx
    · exact hall.1 x hx
    · cases hx

end

/-! ### All nodes -/

/-- Over sockets with buffers of any sizes all nodes get from each call what the planned tree
says. -/
theorem collectives_over_sockets {P N S L : Type} [LinearOrder N] [LinearOrder S] [One N] {lua : Lua P}
    (hl : lua.Rebuilds) (th : TH) (W : Wording lua L) (n : ℕ) (links : List Link) (hn : 1 ≤ n)
    (htree : SpanningTree n links) (E : Established n links) (q : Qsort (Node n))
    (jobs : List (Job (Node n) N S L)) (hjobs : ∀ job ∈ jobs, job.Uniform)
    (lastValue : Node n → Option (Nested N S L)) (fuel : ℕ) :
    ∃ finals : List (Nested N S L),
      List.Forall₂ (Job.Gives links ⟨1, Finset.mem_Icc.mpr ⟨le_rfl, hn⟩⟩) jobs finals ∧
      ∀ cap : Node n → Node n → ℕ, (∀ i j, 0 < cap i j) → CompletesIn (sockCodec th W) cap
        (fun i => callsTree q (E.conn i) n (fuel + 1) (lastValue i) (jobs.map (Job.call · i)))
        fun _ rs => GotAll n jobs finals rs := by
  have hcard : Fintype.card (Node n) = n := by simp
  let R := E.rooted htree hn q
  refine ⟨jobs.map (Job.final R), ?_, fun cap hcap => ?_⟩
  · rw [List.forall₂_map_right_iff, List.forall₂_same]
    exact fun job hjob => Job.final_gives htree hn E q (hjobs job hjob)
  · apply completesIn_of_talks R (jobsTurns R jobs) _ (flip_jobsTurns jobs) (fun i j h => jobsTurns_along h)
      (fun i => discerns_callsTree hl q _ n fuel jobs i _)
      (fun i j x hx => carries_msg hl (countable_jobsTurns jobs i j x hx)) hcap
    intro i
    have h := talks_callsTree hjobs (E.connOf htree hn q i) fuel (lastValue i)
    rwa [hcard] at h

def numberWording {P : Type} (lua : Lua P) : Wording lua UInt64 where
  value bits := .number bits
  injective a b h := by simpa using h
  wf bits := by simp [Value.Wf, Value.parts, Value.WfNode]
  sendable bits := ⟨rfl, by simp [encode, script, numberScript, SEND_RECV_SIZE]⟩
  received bits := rfl

/-- Two nodes that reduce two numbers and then take one over, through sockets that hold a single
byte. -/
theorem collectives_over_sockets_pair :
    let jobs : List (Job (Node 2) ℕ ℕ UInt64) :=
      [.allReduce max fun i => .leaf (UInt64.ofNat i.1), .scatter fun i => .leaf (UInt64.ofNat i.1)]
    ∃ finals, List.Forall₂ (Job.Gives [⟨1, 2, some 0⟩] ⟨1, by decide⟩) jobs finals ∧
      CompletesIn (sockCodec .reference (numberWording sampleLua)) (fun _ _ => 1)
        (fun i => callsTree (Qsort.insertion (Node 2)) (Established.pair.conn i) 2 1 none (jobs.map (Job.call · i)))
        fun _ rs => GotAll 2 jobs finals rs := by
  intro jobs
  have hjobs : ∀ job ∈ jobs, job.Uniform := by
    simp only [jobs, List.forall_mem_cons, List.not_mem_nil, false_implies, implies_true, and_true]
    exact ⟨⟨fun _ => trivial, fun _ _ => rfl⟩, ⟨fun _ => trivial, fun _ _ => rfl⟩⟩
  obtain ⟨finals, hgives, hall⟩ :=
    collectives_over_sockets sampleLua_rebuilds .reference (numberWording sampleLua) 2
    [⟨1, 2, some 0⟩] (by decide) spanningTree_pair Established.pair (Qsort.insertion (Node 2)) jobs hjobs
    (fun _ => none) 0
  exact ⟨finals, hgives, hall (fun _ _ => 1) fun _ _ => one_pos⟩

end TorchIpc.Tree
