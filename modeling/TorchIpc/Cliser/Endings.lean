import TorchIpc.Cliser.Shapes
import TorchIpc.Cliser.Stream

/-! Connections that end. The calls of `recv` and `send` that `sock_recv` and `sock_send`
make may give errors, and once the peer has closed the connection `recv` gives 0. The
loop of `sock_recv` takes this for progress and never leaves. What the loops return is a
`size_t`, which the callers keep in an `int`. -/

namespace TorchIpc.Endings

open Words Runs Cliser Strided

/-- What a call of `recv` finds: bytes that have come together, at least one, or an
error. Behind the last arrival the peer has closed the connection. -/
inductive Arrival where
  | bytes (b : UInt8) (bs : List UInt8)
  | error
  deriving DecidableEq

/-- `recv(sock, ptr, len, 0)` for a positive length, with the bytes it stores, where no
answer is an error. -/
def recv (len : ℕ) : List Arrival → Option (List UInt8) × List Arrival
  | [] => (some [], [])
  | .error :: as => (none, as)
  | .bytes b bs :: as =>
    (some ((b :: bs).take len),
      match (b :: bs).drop len with
      | [] => as
      | b' :: bs' => .bytes b' bs' :: as)

/-- The loop of `sock_recv`, if it ends: its result, all it has stored, and what is still
to come. -/
def recvLoop (len : ℕ) : ℕ → ℕ → List UInt8 → List Arrival → Option (ℕ × List UInt8 × List Arrival)
  | 0, _, _, _ => none
  | fuel + 1, rem, out, as =>
    if 0 < rem then
      match recv rem as with
      | (none, as) => some (0, out, as)
      | (some bs, as) => recvLoop len fuel (rem - bs.length) (out ++ bs) as
    else some (len, out, as)

def sockRecv (len : ℕ) (as : List Arrival) (fuel : ℕ) : Option (ℕ × List UInt8 × List Arrival) :=
  recvLoop len fuel len [] as

def sockRecvRaw (len : ℕ) (as : List Arrival) (fuel : ℕ) :
    Option (Except SockError (List UInt8) × List Arrival) := do
  let (ret, out, as) ← sockRecv len as fuel
  return ((checkCount ret len "failed to recv the correct number of bytes").map fun _ => out, as)

/-- `sock_recv_msg` up to the payload; `junk` is what the variable `len` holds before it
is received. -/
def recvPayload (junk : UInt64) (as : List Arrival) (fuel : ℕ) :
    Option (Except SockError (List UInt8) × List Arrival) :=
  match sockRecv 8 as fuel with
  | none => none
  | some (ret, out, as) =>
    let len := leVal (memcpy (wordBytes junk) 0 out out.length)
    if len = LEN_INVALID then some (.error (.str "remote peer disconnected\n"), as)
    else
      match checkCount ret 8 "failed to recv the correct number of bytes" with
      | .error e => some (.error e, as)
      | .ok _ =>
        if SEND_RECV_SIZE < len then some (.error (.str "message size is too large"), as)
        else sockRecvRaw len as fuel

/-- `sock_recv_msg`; the socket of `c` plays no part. -/
def sockRecvMsg {P : Type} (lua : Lua P) (junk : UInt64) (stack : List (Value P)) (c : Client)
    (as : List Arrival) (fuel : ℕ) : Option (RecvOutcome P × List Arrival) :=
  match recvPayload junk as fuel with
  | none => none
  | some (.error e, as) => some (.error e c, as)
  | some (.ok bs, as) => some (loadPayload lua bs stack c fuel, as)

/-- The loop of `sock_send`. Each `send` accepts up to `n + 1` bytes or gives an error,
and behind the last answer it waits for ever. -/
def sendLoop (len : ℕ) : List UInt8 → List UInt8 → List (Option ℕ) → Option (ℕ × List UInt8)
  | [], out, _ => some (len, out)
  | _ :: _, _, [] => none
  | _ :: _, out, none :: _ => some (0, out)
  | b :: bs, out, some n :: answers => sendLoop len (bs.drop n) (out ++ b :: bs.take n) answers

def sockSend (bs : List UInt8) (answers : List (Option ℕ)) : Option (ℕ × List UInt8) :=
  sendLoop bs.length bs [] answers

def sockSendRaw (bs : List UInt8) (answers : List (Option ℕ)) :
    Option (Except SockError Unit × List UInt8) := do
  let (ret, out) ← sockSend bs answers
  return (checkCount ret bs.length "failed to send the correct number of bytes", out)

/-- The bytes that come before the first error. -/
def leading : List Arrival → List UInt8
  | [] => []
  | .error :: _ => []
  | .bytes b bs :: as => b :: bs ++ leading as

/-- How many bytes `send` accepts before the first error. -/
def acceptable : List (Option ℕ) → ℕ
  | [] => 0
  | none :: _ => 0
  | some n :: answers => n + 1 + acceptable answers

/-! ### Receiving -/

/-- A `recv` that gives bytes takes them from the front. -/
theorem recv_bytes {rem : ℕ} (hrem : 0 < rem) {as : List Arrival} (h : leading as ≠ []) :
    ∃ bs as', recv rem as = (some bs, as') ∧ 0 < bs.length ∧ bs.length ≤ rem ∧
      leading as = bs ++ leading as' ∧ (.error ∈ as' ↔ .error ∈ as) := by
  match as with
  | [] => exact absurd rfl h
  | .error :: as => exact absurd rfl h
  | .bytes b bs :: as =>
    have hpos : 0 < ((b :: bs).take rem).length := by
      rw [List.length_take, List.length_cons]
      omega
    refine ⟨(b :: bs).take rem, (recv rem (.bytes b bs :: as)).2, rfl, hpos,
      List.length_take_le _ _, ?_, ?_⟩
    · have hsplit := List.take_append_drop rem (b :: bs)
      cases hdrop : (b :: bs).drop rem with
      | nil =>
        rw [hdrop, List.append_nil] at hsplit
        simp only [recv, hdrop, leading, hsplit]
      | cons b' bs' =>
        rw [hdrop] at hsplit
        simp only [recv, hdrop, leading]
        rw [← List.append_assoc, hsplit]
    · cases hdrop : (b :: bs).drop rem with
      | nil => simp [recv, hdrop]
      | cons b' bs' => simp [recv, hdrop]

/-- Without bytes in front it gives an error, or 0 for ever. -/
theorem recv_no_bytes {as : List Arrival} (h : leading as = []) (rem : ℕ) :
    (∃ as', recv rem as = (none, as') ∧ .error ∈ as) ∨ as = [] := by
  match as with
  | [] => exact Or.inr rfl
  | .error :: as => exact Or.inl ⟨as, rfl, List.mem_cons_self⟩
  | .bytes b bs :: as => simp [leading] at h

theorem recvLoop_step {rem : ℕ} (hrem : 0 < rem) {as as' : List Arrival} {bs : List UInt8}
    (hrecv : recv rem as = (some bs, as')) (len fuel : ℕ) (out : List UInt8) :
    recvLoop len (fuel + 1) rem out as = recvLoop len fuel (rem - bs.length) (out ++ bs) as' := by
  rw [recvLoop, if_pos hrem, hrecv]

theorem recvLoop_all (len rem : ℕ) (as : List Arrival) (h : rem ≤ (leading as).length) :
    ∃ as', (∀ fuel > rem, ∀ out, recvLoop len fuel rem out as =
      some (len, out ++ (leading as).take rem, as')) ∧ leading as' = (leading as).drop rem ∧
        (.error ∈ as' ↔ .error ∈ as) := by
  induction rem using Nat.strong_induction_on generalizing as with
  | h rem ih =>
    by_cases hpos : 0 < rem
    · have hne : leading as ≠ [] := by
        intro hnil
        rw [hnil, List.length_nil] at h
        omega
      obtain ⟨bs, as₁, hrecv, hlen, hle, hlead, herror⟩ := recv_bytes hpos hne
      have hshort : rem - bs.length ≤ (leading as₁).length := by
        rw [hlead, List.length_append] at h
        omega
      obtain ⟨as', hloop, hrest, herror'⟩ := ih (rem - bs.length) (by omega) as₁ hshort
      refine ⟨as', fun fuel hf out => ?_, ?_, herror'.trans herror⟩
      · obtain ⟨n, rfl⟩ : ∃ n, fuel = n + 1 := ⟨fuel - 1, by omega⟩
        rw [recvLoop_step hpos hrecv, hloop n (by omega), hlead, List.take_append,
          List.take_of_length_le hle, List.append_assoc]
      · rw [hrest, hlead, List.drop_append, List.drop_of_length_le hle, List.nil_append]
    · obtain rfl : rem = 0 := by omega
      refine ⟨as, fun fuel hf out => ?_, List.drop_zero.symm, Iff.rfl⟩
      obtain ⟨n, rfl⟩ : ∃ n, fuel = n + 1 := ⟨fuel - 1, by omega⟩
      rw [recvLoop, if_neg (lt_irrefl 0), List.take_zero, List.append_nil]

theorem recvLoop_error (len rem : ℕ) (as : List Arrival) (h : (leading as).length < rem)
    (herror : .error ∈ as) : ∃ as', ∀ fuel > rem, ∀ out,
      recvLoop len fuel rem out as = some (0, out ++ leading as, as') := by
  induction rem using Nat.strong_induction_on generalizing as with
  | h rem ih =>
    have hpos : 0 < rem := by omega
    by_cases hnil : leading as = []
    · rcases recv_no_bytes hnil rem with ⟨as', hrecv, -⟩ | rfl
      · refine ⟨as', fun fuel hf out => ?_⟩
        obtain ⟨n, rfl⟩ : ∃ n, fuel = n + 1 := ⟨fuel - 1, by omega⟩
        rw [recvLoop, if_pos hpos, hrecv, hnil, List.append_nil]
      · simp at herror
    · obtain ⟨bs, as₁, hrecv, hlen, hle, hlead, hiff⟩ := recv_bytes hpos hnil
      rw [hlead, List.length_append] at h
      obtain ⟨as', hloop⟩ := ih (rem - bs.length) (by omega) as₁ (by omega) (hiff.mpr herror)
      refine ⟨as', fun fuel hf out => ?_⟩
      obtain ⟨n, rfl⟩ : ∃ n, fuel = n + 1 := ⟨fuel - 1, by omega⟩
      rw [recvLoop_step hpos hrecv, hloop n (by omega), hlead, List.append_assoc]

/-- The connection is closed first, and no number of rounds is enough. -/
theorem recvLoop_endless (len fuel rem : ℕ) (out : List UInt8) (as : List Arrival)
    (h : (leading as).length < rem) (herror : .error ∉ as) :
    recvLoop len fuel rem out as = none := by
  induction fuel generalizing rem out as with
  | zero => rfl
  | succ fuel ih =>
    have hpos : 0 < rem := by omega
    by_cases hnil : leading as = []
    · rcases recv_no_bytes hnil rem with ⟨as', -, hin⟩ | rfl
      · exact absurd hin herror
      · exact (recvLoop_step hpos rfl len fuel out).trans (ih rem (out ++ []) [] h herror)
    · obtain ⟨bs, as₁, hrecv, hlen, hle, hlead, hiff⟩ := recv_bytes hpos hnil
      rw [hlead, List.length_append] at h
      rw [recvLoop_step hpos hrecv]
      exact ih (rem - bs.length) (out ++ bs) as₁ (by omega) (by rwa [hiff])

section
variable {len : ℕ} {as : List Arrival}

theorem sockRecv_all (h : len ≤ (leading as).length) :
    ∃ as', (∀ fuel > len, sockRecv len as fuel = some (len, (leading as).take len, as')) ∧
      leading as' = (leading as).drop len ∧ (.error ∈ as' ↔ .error ∈ as) := by
  obtain ⟨as', hloop, hrest⟩ := recvLoop_all len len as h
  exact ⟨as', fun fuel hf => hloop fuel hf [], hrest⟩

theorem sockRecv_error (h : (leading as).length < len) (herror : .error ∈ as) :
    ∃ as', ∀ fuel > len, sockRecv len as fuel = some (0, leading as, as') := by
  obtain ⟨as', hloop⟩ := recvLoop_error len len as h herror
  exact ⟨as', fun fuel hf => hloop fuel hf []⟩

theorem sockRecv_endless (h : (leading as).length < len) (herror : .error ∉ as) (fuel : ℕ) :
    sockRecv len as fuel = none :=
  recvLoop_endless len fuel len [] as h herror

/-- Where the bytes come, this is the receive from a socket that does not end. -/
theorem sockRecv_socket {s : Socket} (hs : s.incoming = leading as) (h : len ≤ (leading as).length) :
    ∃ out as' calls, Yields (sockRecv len as) (some (len, out, as')) ∧
      TorchIpc.sockRecv len s = some (out, { s with incoming := leading as', calls := calls }) := by
  obtain ⟨as', hall, hrest, -⟩ := sockRecv_all h
  rw [← hs] at h
  obtain ⟨calls, hrecv⟩ := sockRecv_eq h
  refine ⟨_, as', calls, ⟨len + 1, hall⟩, ?_⟩
  rw [hrecv, hrest, hs]

/-- `sock_recv` ends, and returns `len` exactly when it has stored the next `len` bytes. -/
def Ends (len : ℕ) (as : List Arrival) : Prop :=
  ∃ ret out as', Yields (sockRecv len as) (some (ret, out, as')) ∧
    (ret = len ↔ len ≤ (leading as).length) ∧ (ret = len → out = (leading as).take len)

theorem ends_iff : Ends len as ↔ .error ∈ as ∨ len ≤ (leading as).length := by
  by_cases hle : len ≤ (leading as).length
  · obtain ⟨as', hall, -⟩ := sockRecv_all hle
    exact iff_of_true ⟨len, _, as', ⟨len + 1, hall⟩, iff_of_true rfl hle, fun _ => rfl⟩ (Or.inr hle)
  · have hlt := not_le.mp hle
    by_cases herror : .error ∈ as
    · obtain ⟨as', hstop⟩ := sockRecv_error hlt herror
      refine iff_of_true ⟨0, _, as', ⟨len + 1, hstop⟩, iff_of_false (by omega) hle, ?_⟩ (Or.inl herror)
      omega
    · refine iff_of_false ?_ (not_or.mpr ⟨herror, hle⟩)
      rintro ⟨ret, out, as', hy, -⟩
      obtain ⟨fuel, hret⟩ := hy.exists
      rw [sockRecv_endless hlt herror] at hret
      cases hret

theorem sockRecvRaw_of {ret fuel : ℕ} {out : List UInt8} {as' : List Arrival}
    (h : sockRecv len as fuel = some (ret, out, as')) : sockRecvRaw len as fuel =
      some ((checkCount ret len "failed to recv the correct number of bytes").map fun _ => out, as') := by
  rw [sockRecvRaw, h]
  rfl

theorem sockRecvRaw_all (h : len ≤ (leading as).length) (hlen : len < 2 ^ 31) :
    ∃ as', ∀ fuel > len, sockRecvRaw len as fuel = some (.ok ((leading as).take len), as') := by
  obtain ⟨as', hall, -⟩ := sockRecv_all h
  refine ⟨as', fun fuel hf => ?_⟩
  rw [sockRecvRaw_of (hall fuel hf), checkCount_ok_iff.mpr hlen]
  rfl

theorem sockRecvRaw_uncountable (h : len ≤ (leading as).length) (hlen : ¬ len < 2 ^ 31) :
    ∃ e as', ∀ fuel > len, sockRecvRaw len as fuel = some (.error e, as') := by
  obtain ⟨as', hall, -⟩ := sockRecv_all h
  obtain ⟨e, he⟩ := checkCount_error hlen "failed to recv the correct number of bytes"
  refine ⟨e, as', fun fuel hf => ?_⟩
  rw [sockRecvRaw_of (hall fuel hf), he]
  rfl

/-- The result of a loop that was left by an error is refused. -/
theorem checkCount_zero {len : ℕ} (h : 0 < len) (msg : String) :
    checkCount 0 len msg = .error (.str msg) := by
  have hzero : toCInt 0 = 0 := toCInt_eq (by norm_num)
  rw [checkCount, hzero, if_neg (lt_irrefl 0), if_pos]
  simp only [ne_eq, Int.natCast_eq_zero, eq_comm (a := (0 : ℤ))]
  omega

theorem sockRecvRaw_error (h : (leading as).length < len) (herror : .error ∈ as) :
    ∃ e as', ∀ fuel > len, sockRecvRaw len as fuel = some (.error e, as') := by
  obtain ⟨as', hstop⟩ := sockRecv_error h herror
  refine ⟨.str "failed to recv the correct number of bytes", as', fun fuel hf => ?_⟩
  rw [sockRecvRaw_of (hstop fuel hf), checkCount_zero (by omega : 0 < len)]
  rfl

theorem sockRecvRaw_endless (h : (leading as).length < len) (herror : .error ∉ as) (fuel : ℕ) :
    sockRecvRaw len as fuel = none := by
  rw [sockRecvRaw, sockRecv_endless h herror]
  rfl

/-- A raw receive that the stream cuts short raises only where an error comes. -/
theorem sockRecvRaw_raises_iff (h : (leading as).length < len) :
    (∃ e as', Yields (sockRecvRaw len as) (some (.error e, as'))) ↔ .error ∈ as := by
  constructor
  · rintro ⟨e, as', hy⟩
    by_contra herror
    obtain ⟨fuel, hret⟩ := hy.exists
    rw [sockRecvRaw_endless h herror] at hret
    cases hret
  · intro herror
    obtain ⟨e, as', hstop⟩ := sockRecvRaw_error h herror
    exact ⟨e, as', len + 1, hstop⟩

/-! ### Messages -/

/-- A message that has not come whole before the stream ends or fails. -/
def Incomplete (as : List Arrival) : Prop :=
  (leading as).length < 8 + leVal ((leading as).take 8) ∨ (leading as).length < 8

/-- A length that is refused: one that is too large, or the mark of a disconnection. -/
def RefusedLength (as : List Arrival) : Prop :=
  8 ≤ (leading as).length ∧ SEND_RECV_SIZE < leVal ((leading as).take 8)

theorem recvPayload_header (junk : UInt64) (h : 8 ≤ (leading as).length) :
    ∃ as₁, leading as₁ = (leading as).drop 8 ∧
    (.error ∈ as₁ ↔ .error ∈ as) ∧ ∀ fuel > 8, recvPayload junk as fuel =
      if leVal ((leading as).take 8) = LEN_INVALID then
        some (.error (.str "remote peer disconnected\n"), as₁)
      else if SEND_RECV_SIZE < leVal ((leading as).take 8) then
        some (.error (.str "message size is too large"), as₁)
      else sockRecvRaw (leVal ((leading as).take 8)) as₁ fuel := by
  obtain ⟨as₁, hall, hrest, hiff⟩ := sockRecv_all h
  have hlen : ((leading as).take 8).length = 8 := by
    rw [List.length_take]
    omega
  have hstored : memcpy (wordBytes junk) 0 ((leading as).take 8) 8 = (leading as).take 8 := by
    rw [memcpy, List.take_take, Nat.min_self, Circular.blit, List.take_zero, List.nil_append, hlen,
      Nat.zero_add, List.drop_of_length_le (by rw [length_wordBytes]), List.append_nil]
  have hcheck : ∀ msg, checkCount 8 8 msg = .ok () := fun _ => checkCount_ok_iff.mpr (by norm_num)
  refine ⟨as₁, hrest, hiff, fun fuel hf => ?_⟩
  simp only [recvPayload, hall fuel hf, hlen, hstored, hcheck]

/-- A length that is accepted, and the payload behind it. -/
theorem recvPayload_accepted (junk : UInt64) (h : 8 ≤ (leading as).length) (haccept : ¬ RefusedLength as) :
    ∃ as₁, leading as₁ = (leading as).drop 8 ∧ (.error ∈ as₁ ↔ .error ∈ as) ∧ ∀ fuel > 8,
      recvPayload junk as fuel = sockRecvRaw (leVal ((leading as).take 8)) as₁ fuel := by
  obtain ⟨as₁, hrest, hiff, heq⟩ := recvPayload_header junk h
  have hle : ¬ SEND_RECV_SIZE < leVal ((leading as).take 8) := fun hlt => haccept ⟨h, hlt⟩
  have hvalid : SEND_RECV_SIZE < LEN_INVALID := by norm_num [SEND_RECV_SIZE, LEN_INVALID]
  refine ⟨as₁, hrest, hiff, fun fuel hf => ?_⟩
  rw [heq fuel hf, if_neg (by omega), if_neg hle]

theorem Incomplete.payload_short (h : Incomplete as) {as₁ : List Arrival}
    (hheader : 8 ≤ (leading as).length) (hrest : leading as₁ = (leading as).drop 8) :
    (leading as₁).length < leVal ((leading as).take 8) := by
  rw [hrest, List.length_drop]
  rcases h with h | h
  · omega
  · omega

/-- What stands in the variable decides between two errors. -/
theorem recvPayload_error (junk : UInt64) (h : (leading as).length < 8) (herror : .error ∈ as) :
    ∃ e as', ∀ fuel > 8, recvPayload junk as fuel = some (.error e, as') := by
  obtain ⟨as', hstop⟩ := sockRecv_error h herror
  by_cases hinvalid : leVal (memcpy (wordBytes junk) 0 (leading as) (leading as).length) =
    LEN_INVALID
  · refine ⟨.str "remote peer disconnected\n", as', fun fuel hf => ?_⟩
    simp only [recvPayload, hstop fuel hf, if_pos hinvalid]
  · refine ⟨.str "failed to recv the correct number of bytes", as', fun fuel hf => ?_⟩
    simp only [recvPayload, hstop fuel hf, if_neg hinvalid, checkCount_zero (by norm_num : 0 < 8)]

theorem recvPayload_refused (junk : UInt64) (h : RefusedLength as) :
    ∃ e as', ∀ fuel > 8, recvPayload junk as fuel = some (.error e, as') := by
  obtain ⟨as₁, -, -, heq⟩ := recvPayload_header junk h.1
  by_cases hinvalid : leVal ((leading as).take 8) = LEN_INVALID
  · exact ⟨_, as₁, fun fuel hf => (heq fuel hf).trans (if_pos hinvalid)⟩
  · exact ⟨_, as₁, fun fuel hf => ((heq fuel hf).trans (if_neg hinvalid)).trans (if_pos h.2)⟩

theorem recvPayload_raises (junk : UInt64) (h : Incomplete as) (hstop : .error ∈ as ∨ RefusedLength as) :
    ∃ e as', Yields (recvPayload junk as) (some (.error e, as')) := by
  by_cases hrefused : RefusedLength as
  · obtain ⟨e, as', heq⟩ := recvPayload_refused junk hrefused
    exact ⟨e, as', 9, heq⟩
  · have herror := hstop.resolve_right hrefused
    by_cases hheader : 8 ≤ (leading as).length
    · obtain ⟨as₁, hrest, hiff, heq⟩ := recvPayload_accepted junk hheader hrefused
      obtain ⟨e, as', hraw⟩ := sockRecvRaw_error (h.payload_short hheader hrest) (hiff.mpr herror)
      refine ⟨e, as', leVal ((leading as).take 8) + 9, fun fuel hf => ?_⟩
      rw [heq fuel (by omega), hraw fuel (by omega)]
    · obtain ⟨e, as', heq⟩ := recvPayload_error junk (not_le.mp hheader) herror
      exact ⟨e, as', 9, heq⟩

theorem recvPayload_endless (junk : UInt64) (h : Incomplete as) (herror : .error ∉ as) (haccept : ¬ RefusedLength as)
    {fuel : ℕ} (hf : 8 < fuel) : recvPayload junk as fuel = none := by
  by_cases hheader : 8 ≤ (leading as).length
  · obtain ⟨as₁, hrest, hiff, heq⟩ := recvPayload_accepted junk hheader haccept
    rw [heq fuel hf]
    exact sockRecvRaw_endless (h.payload_short hheader hrest) (fun hin => herror (hiff.mp hin)) fuel
  · simp only [recvPayload, sockRecv_endless (not_le.mp hheader) herror]

variable {P : Type}

/-- A message that the stream cuts short raises an error only where `recv` gives one, or
where its length is refused. -/
theorem sockRecvMsg_raises_iff (junk : UInt64) (lua : Lua P) (stack : List (Value P)) (c : Client)
    (h : Incomplete as) : (∃ e c' as', Yields (sockRecvMsg lua junk stack c as) (some (.error e c', as'))) ↔
      .error ∈ as ∨ RefusedLength as := by
  constructor
  · rintro ⟨e, c', as', n, hn⟩
    by_contra hnot
    obtain ⟨herror, haccept⟩ := not_or.mp hnot
    have hret := hn (n + 9) (by omega)
    rw [sockRecvMsg, recvPayload_endless junk h herror haccept (by omega)] at hret
    cases hret
  · intro hstop
    obtain ⟨e, as', n, hn⟩ := recvPayload_raises junk h hstop
    exact ⟨e, c, as', n, fun fuel hf => by rw [sockRecvMsg, hn fuel hf]⟩

/-- Receives end, and raise where the peer has closed the connection too early, if and
only if the end does not come first. -/
theorem receiving_ends_iff (lua : Lua P) :
    (∀ len as, Ends len as ↔ .error ∈ as ∨ len ≤ (leading as).length) ∧
      (∀ len as, (leading as).length < len →
        ((∃ e as', Yields (sockRecvRaw len as) (some (.error e, as'))) ↔ .error ∈ as)) ∧
      ∀ junk as stack c, Incomplete as →
        ((∃ e c' as', Yields (sockRecvMsg lua junk stack c as) (some (.error e c', as'))) ↔
          .error ∈ as ∨ RefusedLength as) :=
  ⟨fun _ _ => ends_iff, fun _ _ => sockRecvRaw_raises_iff,
    fun junk _ stack c => sockRecvMsg_raises_iff junk lua stack c⟩

end

/-- A peer that closes the connection after one byte of a length is waited for, for ever. -/
theorem closed_in_length :
    ¬ Ends 8 [.bytes 1 []] ∧ (∀ fuel, sockRecvRaw 8 [.bytes 1 []] fuel = none) ∧
      ∀ junk stack c, ¬ ∃ e c' as',
        Yields (sockRecvMsg sampleLua junk stack c [.bytes 1 []]) (some (.error e c', as')) := by
  have hshort : (leading [.bytes 1 []]).length < 8 := by decide
  refine ⟨fun h => absurd (ends_iff.mp h) (by decide), sockRecvRaw_endless hshort (by decide), ?_⟩
  intro junk stack c hraises
  have hstop := (sockRecvMsg_raises_iff junk sampleLua stack c (Or.inr hshort)).mp hraises
  exact hstop.elim (by decide) fun hr => absurd hr.1 (not_le.mpr hshort)

/-! ### Sending -/

theorem sendLoop_all (len : ℕ) (bs out : List UInt8) (answers : List (Option ℕ))
    (h : bs.length ≤ acceptable answers) : sendLoop len bs out answers = some (len, out ++ bs) := by
  induction answers generalizing bs out with
  | nil =>
    obtain rfl := List.eq_nil_of_length_eq_zero (Nat.le_zero.mp h)
    rw [sendLoop, List.append_nil]
  | cons answer answers ih =>
    cases bs with
    | nil => rw [sendLoop, List.append_nil]
    | cons b bs =>
      cases answer with
      | none => simp [acceptable] at h
      | some n =>
        have hrest : (bs.drop n).length ≤ acceptable answers := by
          rw [List.length_drop]
          rw [acceptable, List.length_cons] at h
          omega
        rw [sendLoop, ih _ _ hrest, List.append_assoc, List.cons_append, List.take_append_drop]

theorem sendLoop_error (len : ℕ) (bs out : List UInt8) (answers : List (Option ℕ))
    (h : acceptable answers < bs.length) (herror : none ∈ answers) :
    ∃ out', sendLoop len bs out answers = some (0, out') := by
  induction answers generalizing bs out with
  | nil => simp at herror
  | cons answer answers ih =>
    cases bs with
    | nil => simp at h
    | cons b bs =>
      cases answer with
      | none => exact ⟨out, by rw [sendLoop]⟩
      | some n =>
        have hrest : acceptable answers < (bs.drop n).length := by
          rw [List.length_drop]
          rw [acceptable, List.length_cons] at h
          omega
        rw [sendLoop]
        exact ih _ _ hrest (by simpa using herror)

theorem sockSendRaw_all {bs : List UInt8} {answers : List (Option ℕ)}
    (h : bs.length ≤ acceptable answers) : sockSendRaw bs answers =
      some (checkCount bs.length bs.length "failed to send the correct number of bytes", bs) := by
  rw [sockSendRaw, sockSend, sendLoop_all _ _ _ _ h]
  rfl

theorem sockSendRaw_error {bs : List UInt8} {answers : List (Option ℕ)}
    (h : acceptable answers < bs.length) (herror : none ∈ answers) :
    ∃ e out, sockSendRaw bs answers = some (.error e, out) := by
  obtain ⟨out, hloop⟩ := sendLoop_error bs.length bs [] answers h herror
  refine ⟨.str "failed to send the correct number of bytes", out, ?_⟩
  rw [sockSendRaw, sockSend, hloop]
  simp only [Option.bind_eq_bind, Option.bind_some, checkCount_zero (by omega : 0 < bs.length)]
  rfl

/-! ### Raw transfers of any size -/

/-- A raw send returns when all its bytes have been accepted, and raises when an error
comes first. -/
structure SendsRight (bs : List UInt8) (answers : List (Option ℕ)) : Prop where
  all : bs.length ≤ acceptable answers → sockSendRaw bs answers = some (.ok (), bs)
  error : acceptable answers < bs.length → none ∈ answers →
    ∃ e out, sockSendRaw bs answers = some (.error e, out)

/-- A raw receive returns when all its bytes have come, and raises when an error comes
first. -/
structure ReceivesRight (len : ℕ) (as : List Arrival) : Prop where
  all : len ≤ (leading as).length →
    ∃ as', Yields (sockRecvRaw len as) (some (.ok ((leading as).take len), as'))
  error : (leading as).length < len → .error ∈ as →
    ∃ e as', Yields (sockRecvRaw len as) (some (.error e, as'))

theorem sendsRight_iff (bs : List UInt8) (answers : List (Option ℕ)) :
    SendsRight bs answers ↔ (bs.length ≤ acceptable answers → bs.length < 2 ^ 31) := by
  refine ⟨fun h hall => ?_, fun h => ⟨fun hall => ?_, sockSendRaw_error⟩⟩
  · have hret := (sockSendRaw_all hall).symm.trans (h.all hall)
    obtain ⟨hcheck, -⟩ := Prod.mk.inj (Option.some.inj hret)
    exact checkCount_ok_iff.mp hcheck
  · rw [sockSendRaw_all hall, checkCount_ok_iff.mpr (h hall)]

theorem receivesRight_iff (len : ℕ) (as : List Arrival) :
    ReceivesRight len as ↔ (len ≤ (leading as).length → len < 2 ^ 31) := by
  refine ⟨fun h hall => ?_, fun h => ⟨fun hall => ?_, fun hshort => (sockRecvRaw_raises_iff hshort).mpr⟩⟩
  · by_contra hlen
    obtain ⟨as', hok⟩ := h.all hall
    obtain ⟨e, as'', herror⟩ := sockRecvRaw_uncountable hall hlen
    cases hok.unique ⟨len + 1, herror⟩
  · obtain ⟨as', hok⟩ := sockRecvRaw_all hall (h hall)
    exact ⟨as', len + 1, hok⟩

/-- A storage gets through: it is written, and it is read by every receiver that matches. -/
structure StoragePasses (T : ElementType) (st : THStorage) : Prop where
  written : ∀ sock, ∃ s, storageWrite T st sock = .ret s
  read : ∀ (S : ElementType) (u : THStorage) (r : Socket) rest, u.Wf S →
      S.elementSize = T.elementSize →
    u.size = st.size → r.incoming = storageBytes T st ++ rest → ∃ s, storageRead S u r = .ret s

structure TensorPasses (th : TH) (T : ElementType) (t : THTensor) : Prop where
  written : ∀ sock, ∃ s, tensorWrite T th t sock = .ret s
  read : ∀ (S : ElementType) (u : THTensor) (r : Socket) rest, u.Wf S →
      S.elementSize = T.elementSize →
    u.dims = t.dims → r.incoming = tensorHeader th T t ++ ((t.elements T t.bytes).flatten ++ rest) →
      ∃ s, tensorRead S th u r = .ret s

section
variable {T : ElementType} {st : THStorage} {th : TH} {t : THTensor}

theorem storagePasses_iff (h : st.Wf T) : StoragePasses T st ↔
    T.elementSize * st.size < 2 ^ 31 := by
  constructor
  · intro hpasses
    obtain ⟨s, hret⟩ := hpasses.written ⟨[], [], fun _ => 0, 0⟩
    exact storageWrite_length h hret
  · intro hlt
    refine ⟨fun sock => ?_, fun S u r rest hu hE hsize hin => ?_⟩
    · obtain ⟨calls, hwrite⟩ := storageWrite_eq h hlt sock
      exact ⟨_, hwrite⟩
    · obtain ⟨calls, hread⟩ := storageRead_eq h hu hE hsize hlt hin
      exact ⟨_, hread⟩

/-- The bytes of a contiguous tensor's header, and those of its elements. -/
theorem accepted_contiguous_iff (hc : th.isContiguous t.dims = true) (hst : t.storage.isSome = true) :
    accepted th T t ↔
      8 * (2 * t.dims.length + 1) < 2 ^ 31 ∧ T.elementSize * th.nElement t.dims < 2 ^ 31 := by
  have hplan : plan th t = some ([0], th.nElement t.dims) := by rw [plan, if_pos hc, if_pos hst]
  rw [accepted, hplan]
  refine and_congr_right fun _ => ⟨?_, fun hlt => ⟨_, _, rfl, Or.inr hlt⟩⟩
  rintro ⟨ps, n, heq, hfit⟩
  cases heq
  exact hfit.resolve_left (List.cons_ne_nil _ _)

theorem tensorPasses_iff (h : t.Wf T) : TensorPasses th T t ↔ accepted th T t := by
  constructor
  · intro hpasses
    obtain ⟨s, hret⟩ := hpasses.written ⟨[], [], fun _ => 0, 0⟩
    exact accepted_of_tensorWrite h hret
  · intro ha
    refine ⟨fun sock => ?_, fun S u r rest hu hE hdims hin => ?_⟩
    · obtain ⟨calls, hwrite⟩ := tensorWrite_eq h ha sock
      exact ⟨_, hwrite⟩
    · have hau := accepted_of_dims h hu hE hdims ha
      have hsame : u.addresses = t.addresses := by
        rw [THTensor.addresses, hdims, THTensor.addresses]
      rw [tensorHeader, List.append_assoc, ← hdims] at hin
      refine tensorRead_returns hu hau hE.symm hin ?_
      rw [List.length_append, length_elements h, hsame, hE]
      omega

end

/-- Raw transfers, and storages and contiguous tensors of as many bytes as a `size_t` can
count, are transferred right if and only if an `int` can hold each length that is passed
to a raw transfer. -/
theorem raw_transfers_iff (T : ElementType) :
    (∀ bs answers, SendsRight bs answers ↔ (bs.length ≤ acceptable answers → bs.length < 2 ^ 31)) ∧
      (∀ len as, ReceivesRight len as ↔ (len ≤ (leading as).length → len < 2 ^ 31)) ∧
      (∀ st, THStorage.Wf T st → T.elementSize * st.size < 2 ^ 64 →
        (StoragePasses T st ↔ T.elementSize * st.size < 2 ^ 31)) ∧
      ∀ th t, THTensor.Wf T t → th.isContiguous t.dims = true → t.storage.isSome = true →
        T.elementSize * th.nElement t.dims < 2 ^ 64 → (TensorPasses th T t ↔
          8 * (2 * t.dims.length + 1) < 2 ^ 31 ∧ T.elementSize * th.nElement t.dims < 2 ^ 31) :=
  ⟨sendsRight_iff, receivesRight_iff, fun _ h _ => storagePasses_iff h,
    fun _ _ h hc hst _ => (tensorPasses_iff h).trans (accepted_contiguous_iff hc hst)⟩

/-- A storage of `2 ^ 31` bytes, all of them zero, that the socket takes in one piece. -/
theorem storage_of_two_gigabytes :
    ¬ SendsRight (List.replicate (2 ^ 31) 0) [some (2 ^ 31)] ∧
      ¬ StoragePasses .byte ⟨List.replicate (2 ^ 31) 0, 2 ^ 31⟩ := by
  constructor
  · intro h
    have hlt := (sendsRight_iff _ _).mp h (by rw [List.length_replicate]; norm_num [acceptable])
    rw [List.length_replicate] at hlt
    exact lt_irrefl _ hlt
  · intro h
    have hwf : THStorage.Wf .byte ⟨List.replicate (2 ^ 31) 0, 2 ^ 31⟩ :=
      ⟨by rw [List.length_replicate]; norm_num [ElementType.elementSize], by norm_num⟩
    have hlt := (storagePasses_iff hwf).mp h
    norm_num [ElementType.elementSize] at hlt

end TorchIpc.Endings
