import TorchIpc.Base.Words

/-! The byte streams of `cliser.c`: `sock_send` and `sock_recv` over a stream socket
that never fails. At each system call the kernel moves as many bytes as it likes, but
at least one; whatever it chooses, the loops move all of them in order. A receive for
which the peer never sends enough does not return. -/

namespace TorchIpc

open Words

/-- One end of a connection. At its `n`-th system call the kernel moves `split n + 1`
bytes, or all there are if these are fewer. -/
structure Socket where
  sent : List UInt8
  incoming : List UInt8
  split : ℕ → ℕ
  calls : ℕ

namespace Socket

/-- `send(sock, ptr, len, 0)`, with the count that it returns. -/
def send (s : Socket) (bs : List UInt8) : ℕ × Socket :=
  let ret := min bs.length (s.split s.calls + 1)
  (ret, { s with sent := s.sent ++ bs.take ret, calls := s.calls + 1 })

/-- `recv(sock, ptr, len, 0)` with the bytes it stores. It waits while nothing comes. -/
def recv (s : Socket) (len : ℕ) : Option (List UInt8 × Socket) :=
  if s.incoming = [] then none
  else
    let ret := min len (s.split s.calls + 1)
    some (s.incoming.take ret, { s with incoming := s.incoming.drop ret, calls := s.calls + 1 })

end Socket

def sockSendLoop : ℕ → List UInt8 → Socket → Socket
  | 0, _, s => s
  | fuel + 1, bs, s =>
    if 0 < bs.length then
      let (ret, s) := s.send bs
      sockSendLoop fuel (bs.drop ret) s
    else s

/-- `sock_send`; every round of the loop sends a byte. -/
def sockSend (bs : List UInt8) (s : Socket) : ℕ × Socket := (bs.length, sockSendLoop bs.length bs s)

def sockRecvLoop : ℕ → ℕ → Socket → Option (List UInt8 × Socket)
  | 0, _, s => some ([], s)
  | fuel + 1, rem, s =>
    if 0 < rem then do
      let (out, s) ← s.recv rem
      let (rest, s) ← sockRecvLoop fuel (rem - out.length) s
      return (out ++ rest, s)
    else some ([], s)

/-- `sock_recv` with the bytes it stores; every round of the loop receives a byte. -/
def sockRecv (len : ℕ) (s : Socket) : Option (List UInt8 × Socket) := sockRecvLoop len len s

def toCInt (n : ℕ) : ℤ := Int.bmod n 4294967296

/-- The errors that the calls on a connection raise. -/
inductive SockError where
  /-- `LUA_HANDLE_ERROR(L, ret)` for the code of `rb_save` or `rb_load`. -/
  | code (ret : ℤ)
  /-- `LUA_HANDLE_ERROR(L, errno)`. -/
  | errno
  | str (msg : String)
  deriving Repr, DecidableEq

/-- The checks on what `sock_send` or `sock_recv` has returned. -/
def checkCount (ret len : ℕ) (msg : String) : Except SockError Unit :=
  if toCInt ret < 0 then .error .errno
  else if toCInt ret ≠ len then .error (.str msg)
  else .ok ()

def sockSendRaw (bs : List UInt8) (s : Socket) : Except SockError Unit × Socket :=
  let (ret, s) := sockSend bs s
  (checkCount ret bs.length "failed to send the correct number of bytes", s)

/-- `sock_recv_raw`; no answer where it waits for ever. -/
def sockRecvRaw (len : ℕ) (s : Socket) : Option (Except SockError (List UInt8) × Socket) := do
  let (out, s) ← sockRecv len s
  return ((checkCount out.length len "failed to recv the correct number of bytes").map fun _ => out, s)

/-! ### All bytes arrive -/

theorem sockSendLoop_eq (fuel : ℕ) (bs : List UInt8) (s : Socket) (h : bs.length ≤ fuel) :
    ∃ calls, sockSendLoop fuel bs s = { s with sent := s.sent ++ bs, calls := calls } := by
  induction fuel generalizing bs s with
  | zero =>
    obtain rfl := List.eq_nil_of_length_eq_zero (Nat.le_zero.mp h)
    exact ⟨s.calls, by simp [sockSendLoop]⟩
  | succ fuel ih =>
    rw [sockSendLoop]
    split_ifs with hpos
    · have hdrop : (bs.drop (s.send bs).1).length ≤ fuel := by
        simp only [Socket.send, List.length_drop]
        omega
      obtain ⟨calls, hrest⟩ := ih (bs.drop (s.send bs).1) (s.send bs).2 hdrop
      refine ⟨calls, hrest.trans ?_⟩
      simp only [Socket.send, List.append_assoc, List.take_append_drop]
    · obtain rfl := List.eq_nil_of_length_eq_zero (show bs.length = 0 by omega)
      exact ⟨s.calls, by simp⟩

theorem sockSend_eq (bs : List UInt8) (s : Socket) :
    ∃ calls, sockSend bs s = (bs.length, { s with sent := s.sent ++ bs, calls := calls }) := by
  obtain ⟨calls, h⟩ := sockSendLoop_eq bs.length bs s le_rfl
  exact ⟨calls, by rw [sockSend, h]⟩

theorem sockRecvLoop_eq (fuel rem : ℕ) (s : Socket) (hfuel : rem ≤ fuel)
    (h : rem ≤ s.incoming.length) : ∃ calls, sockRecvLoop fuel rem s =
      some (s.incoming.take rem, { s with incoming := s.incoming.drop rem, calls := calls }) := by
  induction fuel generalizing rem s with
  | zero =>
    obtain rfl := Nat.le_zero.mp hfuel
    exact ⟨s.calls, by simp [sockRecvLoop]⟩
  | succ fuel ih =>
    rw [sockRecvLoop]
    split_ifs with hpos
    · have hne : s.incoming ≠ [] := by
        intro hnil
        rw [hnil, List.length_nil] at h
        omega
      set ret := min rem (s.split s.calls + 1) with hret
      have hrecv : s.recv rem = some (s.incoming.take ret,
          { s with incoming := s.incoming.drop ret, calls := s.calls + 1 }) := if_neg hne
      have hlen : (s.incoming.take ret).length = ret := by
        rw [List.length_take]
        omega
      obtain ⟨calls, hrest⟩ := ih (rem - ret)
        { s with incoming := s.incoming.drop ret, calls := s.calls + 1 } (by omega)
        (by simp only [List.length_drop]; omega)
      refine ⟨calls, ?_⟩
      have hsum : ret + (rem - ret) = rem := by omega
      simp only [hrecv, Option.bind_eq_bind, Option.bind_some, hlen, hrest, List.drop_drop]
      rw [← List.take_add, hsum]
      rfl
    · obtain rfl : rem = 0 := by omega
      exact ⟨s.calls, by simp⟩

/-- `sock_recv` stores the next bytes of the stream, however it is split. -/
theorem sockRecv_eq {len : ℕ} {s : Socket} (h : len ≤ s.incoming.length) :
    ∃ calls, sockRecv len s =
      some (s.incoming.take len, { s with incoming := s.incoming.drop len, calls := calls }) :=
  sockRecvLoop_eq len len s le_rfl h

theorem sockRecvLoop_none (fuel rem : ℕ) (s : Socket) (hfuel : rem ≤ fuel)
    (h : s.incoming.length < rem) : sockRecvLoop fuel rem s = none := by
  induction fuel generalizing rem s with
  | zero => omega
  | succ fuel ih =>
    rw [sockRecvLoop, if_pos (by omega)]
    by_cases hnil : s.incoming = []
    · simp [Socket.recv, hnil]
    · have hpos := List.length_pos_iff.mpr hnil
      simp only [Socket.recv, if_neg hnil, Option.bind_eq_bind, Option.bind_some, List.length_take]
      rw [ih _ _ (by omega) (by simp only [List.length_drop]; omega), Option.bind_none]

/-- `sock_recv` does not return before all its bytes have come. -/
theorem sockRecv_none {len : ℕ} {s : Socket} (h : s.incoming.length < len) :
    sockRecv len s = none :=
  sockRecvLoop_none len len s le_rfl h

/-- The bytes of a message at the head of the stream. -/
theorem sockRecv_append {s : Socket} {bs rest : List UInt8} (h : s.incoming = bs ++ rest) {len : ℕ}
    (hlen : len = bs.length) :
    ∃ calls, sockRecv len s = some (bs, { s with incoming := rest, calls := calls }) := by
  subst hlen
  have hle : bs.length ≤ s.incoming.length := by simp [h]
  obtain ⟨calls, hrecv⟩ := sockRecv_eq hle
  refine ⟨calls, hrecv.trans ?_⟩
  rw [h, List.take_left, List.drop_left]

/-! ### Counts -/

theorem toCInt_eq {n : ℕ} (h : n < 2 ^ 31) : toCInt n = n :=
  Int.bmod_eq_of_le (by omega) (by omega)

/-- The checks pass for the lengths that an `int` can hold, and no others. -/
theorem checkCount_ok_iff {len : ℕ} {msg : String} :
    checkCount len len msg = .ok () ↔ len < 2 ^ 31 := by
  have hlt : toCInt len < 2 ^ 31 := by
    have hmod : toCInt len < (((4294967296 : ℕ) : ℤ) + 1) / 2 := Int.bmod_lt (by norm_num)
    have hhalf : (((4294967296 : ℕ) : ℤ) + 1) / 2 = 2 ^ 31 := by norm_num
    rwa [hhalf] at hmod
  constructor
  · intro h
    unfold checkCount at h
    split_ifs at h with hneg heq
    omega
  · intro h
    have heq := toCInt_eq h
    have hnonneg : ¬ toCInt len < 0 := by rw [heq]; exact not_lt.mpr (Int.natCast_nonneg len)
    rw [checkCount, if_neg hnonneg, if_neg (not_not.mpr heq)]

theorem checkCount_error {len : ℕ} (h : ¬ len < 2 ^ 31) (msg : String) :
    ∃ e, checkCount len len msg = .error e := by
  cases hcheck : checkCount len len msg with
  | ok u => exact absurd (checkCount_ok_iff.mp hcheck) h
  | error e => exact ⟨e, rfl⟩

/-- A send of fewer than `2 ^ 31` bytes returns when they are handed over. -/
theorem sockSendRaw_eq {bs : List UInt8} (h : bs.length < 2 ^ 31) (s : Socket) :
    ∃ calls, sockSendRaw bs s = (.ok (), { s with sent := s.sent ++ bs, calls := calls }) := by
  obtain ⟨calls, hsend⟩ := sockSend_eq bs s
  exact ⟨calls, by rw [sockSendRaw, hsend]; simp only [checkCount_ok_iff.mpr h]⟩

/-- A receive of fewer than `2 ^ 31` bytes returns with the next ones of the stream. -/
theorem sockRecvRaw_append {s : Socket} {bs rest : List UInt8} (h : s.incoming = bs ++ rest)
    (hlen : bs.length < 2 ^ 31) : ∃ calls, sockRecvRaw bs.length s =
      some (.ok bs, { s with incoming := rest, calls := calls }) := by
  obtain ⟨calls, hrecv⟩ := sockRecv_append h rfl
  refine ⟨calls, ?_⟩
  unfold sockRecvRaw
  simp only [hrecv, Option.bind_eq_bind, Option.bind_some, checkCount_ok_iff.mpr hlen]
  rfl

end TorchIpc
