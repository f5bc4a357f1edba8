import TorchIpc.Cliser.Recv
import TorchIpc.Serialize.Accepted

/-! Userdata in messages. `rb_save` refuses every userdata when it saves for another process,
but `rb_load` does not know what it loads for: a userdata in the payload of a message becomes
a userdata with the pointer from the payload. -/

namespace TorchIpc.Cliser

open Words Runs Format

section
variable {P : Type}

/-- There is a userdata in the value, at some depth. -/
inductive HasUserdata : Value P → Prop where
  | userdata {typename ptr} : HasUserdata (.userdata typename ptr)
  | key {es typename k v} : (k, v) ∈ es → HasUserdata k → HasUserdata (.table es typename)
  | value {es typename k v} : (k, v) ∈ es → HasUserdata v → HasUserdata (.table es typename)
  | upvalue {p ups v} : some v ∈ ups → HasUserdata v → HasUserdata (.function p ups)

/-- What there is to read of a payload: behind it comes what earlier payloads have left in the
count. -/
def unread (c : Client) (p : List UInt8) : List UInt8 :=
  p ++ (c.recvRb.buf.drop p.length).take c.recvRb.rcb

variable {lua : Lua P} {c : Client} {p rest : List UInt8}

theorem sockRecvMsg_loads (lua : Lua P) (h : Receiving c) (hp : p.length ≤ SEND_RECV_SIZE)
    (hin : c.sock.incoming = frame p ++ rest) (hfits : c.recvRb.rcb + p.length ≤ SEND_RECV_SIZE) :
    Holds (stored c.recvRb p).rewind (unread c p) ∧
      ∃ c₁, ∀ stack fuel, sockRecvMsg lua stack c fuel = .ofLoad c₁ (rbLoad lua fuel (stored c.recvRb p) stack) := by
  rw [← h.cb_eq] at hfits
  obtain ⟨calls, hframe⟩ := sockRecvMsg_frame lua hp hin
  let c₁ : Client := { c with sock := { c.sock with incoming := rest, calls := calls } }
  refine ⟨⟨(stored_readable h.readable hfits).rewind_valid, stored_content h.readable hfits⟩, c₁, fun stack fuel => ?_⟩
  exact (hframe stack fuel).trans (@loadPayload_fits P lua c₁ p hfits stack fuel)

/-- A message is received if it fits and is in the format. -/
theorem recv_encoded (h : Receiving c) (hp : p.length ≤ SEND_RECV_SIZE) (hin : c.sock.incoming = frame p ++ rest)
    (hfits : c.recvRb.rcb + p.length ≤ SEND_RECV_SIZE) {v : Value P} {bs : List UInt8}
    (hv : Encodes lua (.value true) (unread c p) v bs) (stack : List (Value P)) :
    ∃ c', Yields (sockRecvMsg lua stack c) (.ret 1 (v :: stack) c') := by
  obtain ⟨hholds, c₁, hrecv⟩ := sockRecvMsg_loads lua h hp hin hfits
  obtain ⟨n, hn⟩ := hv.loads
  obtain ⟨rb, -, hload⟩ := hn _ stack hholds
  have hret := fun fuel hf => congrArg (RecvOutcome.ofLoad c₁) (rbLoad_rewind lua (hload fuel hf))
  exact ⟨_, n, fun fuel hf => (hrecv stack fuel).trans (hret fuel hf)⟩

theorem encoded_of_recv (h : Receiving c) (hp : p.length ≤ SEND_RECV_SIZE) (hin : c.sock.incoming = frame p ++ rest)
    {stack stack' : List (Value P)} {code : ℤ} {c' : Client}
    (hy : Yields (sockRecvMsg lua stack c) (.ret code stack' c')) :
    c.recvRb.rcb + p.length ≤ SEND_RECV_SIZE ∧ ∃ v bs, stack' = v :: stack ∧
      Encodes lua (.value true) (unread c p) v bs := by
  obtain ⟨fuel, hret⟩ := hy.exists
  by_cases hfits : c.recvRb.rcb + p.length ≤ SEND_RECV_SIZE
  · refine ⟨hfits, ?_⟩
    obtain ⟨hholds, c₁, hrecv⟩ := sockRecvMsg_loads lua h hp hin hfits
    rw [hrecv] at hret
    cases hload : rbLoad lua fuel (stored c.recvRb p) stack with
    | ret i rb stack₁ =>
      rw [hload, RecvOutcome.ofLoad] at hret
      split_ifs at hret with hneg
      cases hret
      obtain ⟨rb₀, hrewind⟩ := rewind_rbLoad lua hload
      exact (rbLoad_encodes lua hholds hrewind (not_lt.mp hneg)).2
    | _ =>
      rw [hload] at hret
      cases hret
  · obtain ⟨c'', herror⟩ := sockRecvMsg_full lua h hp hin (not_le.mp hfits)
    rw [herror] at hret
    cases hret

end

/-! ### Two messages -/

def oneMessage (p : List UInt8) : Client := Client.create ⟨[], frame p, fun _ => 0, 0⟩

def forged : List UInt8 := LUA_TUSERDATA :: (frame [84] ++ leBytes 8 0x4141414141414141)

end TorchIpc.Cliser
