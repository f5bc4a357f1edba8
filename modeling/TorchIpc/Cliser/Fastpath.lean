import TorchIpc.Base.Scripts
import TorchIpc.Cliser.Clients

/-! The fast path between processes on one machine (`cliser.c`, in a build with CUDA). A client
and a server each decide from two addresses whether to exchange their device numbers when they
connect. From then on a client has its mode; the server has one for all of its clients, which
has to be that of the client it transfers to or from. -/

namespace TorchIpc.Fastpath

open Network Runs Linked

/-! ### The handshake -/

inductive End where
  | client
  | server
  deriving DecidableEq

instance : Fintype End := ⟨{.client, .server}, fun x => by cases x <;> simp⟩

def End.other : End → End
  | .client => .server
  | .server => .client

inductive HandshakeError where
  | cuda

inductive GetDevice where
  | device (n : ℤ)
  | noDevice
  | error

structure Cuda where
  getDevice : GetDevice
  canAccessPeer : ℤ → Bool
  enablePeerAccess : ℤ → Bool

/-- `can_use_fastpath`, over the connection to `peer`. -/
def canUseFastpath (cuda : Cuda) (peer : End) (bindAddr addr : UInt32) :
    Proc End ℤ HandshakeError Bool :=
  if bindAddr = addr then
    match cuda.getDevice with
    | .noDevice => return false
    | .error => throw .cuda
    | .device device => do
      Proc.put peer device
      let remoteDevice ← Proc.get peer
      if device ≠ remoteDevice then
        if cuda.canAccessPeer remoteDevice then return cuda.enablePeerAccess remoteDevice
        else return false
      else return false
  else return false

def INADDR_ANY : UInt32 := 0

/-- The addresses of an established connection, between which none is translated: a client
has one of its own, and it reaches a server that is not bound to the wildcard address by dialling
its address, or the wildcard address. -/
structure Connection where
  /-- `server->ip_address`. -/
  bound : UInt32
  dialled : UInt32
  /-- The client's address, which is also that of the server's peer. -/
  own : UInt32
  own_ne : own ≠ INADDR_ANY
  reached : bound ≠ INADDR_ANY → dialled ≠ INADDR_ANY → dialled = bound

/-- The address that an end compares its peer's with. -/
def Connection.bindAddr (c : Connection) : End → UInt32
  | .client => c.own
  | .server => c.bound

def Connection.peerAddr (c : Connection) : End → UInt32
  | .client => c.dialled
  | .server => c.own

/-- The end of `cliser_client`, and of a round of the accept loop. -/
def setUp (c : Connection) (cuda : End → Cuda) (i : End) : Proc End ℤ HandshakeError Bool :=
  canUseFastpath (cuda i) i.other (c.bindAddr i) (c.peerAddr i)

/-- A server bound to the wildcard address is not dialled at the client's own address, and one
bound to the client's own address is not dialled at the wildcard address. -/
def Connection.Clear (c : Connection) : Prop :=
  if c.bound = INADDR_ANY then c.own ≠ c.dialled else c.dialled = INADDR_ANY → c.own ≠ c.bound

theorem Connection.clear_iff (c : Connection) : c.Clear ↔
    (c.own = c.dialled ↔ c.bound = c.own) := by
  have hown := c.own_ne
  rw [Connection.Clear]
  by_cases hbound : c.bound = INADDR_ANY
  · have hserver : ¬ c.bound = c.own := fun h => hown (h.symm.trans hbound)
    rw [if_pos hbound, iff_false_right hserver]
  · rw [if_neg hbound]
    by_cases hdialled : c.dialled = INADDR_ANY
    · have hclient : ¬ c.own = c.dialled := fun h => hown (h.trans hdialled)
      rw [iff_false_left hclient]
      exact ⟨fun h => Ne.symm (h hdialled), fun h _ => Ne.symm h⟩
    · have hsame : c.own = c.dialled ↔ c.bound = c.own := by rw [c.reached hbound hdialled, eq_comm]
      exact ⟨fun _ => hsame, fun _ h => absurd h hdialled⟩

/-! ### Both ends -/

section
variable {cuda : Cuda} {peer : End} {a b : UInt32} {device : ℤ}

theorem canUseFastpath_same (h : a = b) (hdevice : cuda.getDevice = .device device) :
    ∃ f : ℤ → Bool, canUseFastpath cuda peer a b =
      .send peer device (.recv peer fun remoteDevice => .done (f remoteDevice)) := by
  refine ⟨fun r => if device ≠ r then (if cuda.canAccessPeer r then cuda.enablePeerAccess r else false) else false, ?_⟩
  rw [canUseFastpath, if_pos h, hdevice]
  simp only [Proc.put_bind, Proc.get_bind]
  congr 2
  funext r
  split_ifs
  · rfl
  · rfl
  · rfl

theorem canUseFastpath_other (h : a ≠ b) : canUseFastpath cuda peer a b = .done false := if_neg h

end

/-- The devices that are exchanged, if they are. -/
def handshakeScript (device : End → ℤ) (exchange : Bool) (i j : End) : List (ℕ × ℤ) :=
  if exchange = true ∧ j = i.other then [(0, device i)] else []

section
variable {proc : End → Proc End ℤ HandshakeError Bool} {device : End → ℤ}

theorem End.other_other (i : End) : i.other.other = i := by cases i <;> rfl

theorem completes_both (h : ∀ i, ∃ f : ℤ → Bool, proc i =
    .send i.other (device i) (.recv i.other fun remoteDevice => .done (f remoteDevice))) :
    Completes proc fun _ _ => True := by
  refine completes_of_conforms (fun τ => Nat.lt_succ_self τ) (handshakeScript device true) 0 fun i => ?_
  obtain ⟨f, hproc⟩ := h i
  have hout : (planOf (handshakeScript device true) i).out i.other = [(0, device i)] :=
    if_pos ⟨rfl, rfl⟩
  have hinp : (planOf (handshakeScript device true) i).inp i.other = [(0, device i.other)] :=
    if_pos ⟨rfl, i.other_other.symm⟩
  have honly : ∀ j, j ≠ i.other → handshakeScript device true i j = [] ∧
      handshakeScript device true j i = [] := by
    intro j hj
    exact ⟨if_neg fun hc => hj hc.2, if_neg fun hc => hj (by rw [hc.2, End.other_other])⟩
  rw [hproc]
  refine ⟨0, [], hout, le_rfl, 0, device i.other, [], 1,
    hinp, by norm_num, le_rfl, ⟨fun j => ?_, rfl⟩, fun j => ?_, trivial⟩
  · by_cases hj : j = i.other
    · simp [Plan.setOut, Plan.setInp, hj]
    · simpa [Plan.setOut, Plan.setInp, hj, planOf] using (honly j hj).1
  · by_cases hj : j = i.other
    · simp [Plan.setOut, Plan.setInp, hj]
    · simpa [Plan.setOut, Plan.setInp, hj, planOf] using (honly j hj).2

theorem completes_neither (h : ∀ i, proc i = .done false) : Completes proc fun _ _ => True := by
  have hnone : ∀ i j, handshakeScript (fun _ => 0) false i j = [] := fun i j => if_neg (by simp)
  refine completes_of_conforms (fun τ => Nat.lt_succ_self τ) (handshakeScript (fun _ => 0) false) 0 fun i => ?_
  rw [h i]
  exact ⟨⟨fun j => hnone i j, rfl⟩, fun j => hnone j i, trivial⟩

/-- An end that exchanges alone: its device is left in the stream, and it waits. -/
theorem stuck_alone {i : End} {d : ℤ} {k : ℤ → Proc End ℤ HandshakeError Bool} {b : Bool}
    (hi : proc i = .send i.other d (.recv i.other k)) (hother : proc i.other = .done b) :
    ∃ s, Run Step (start proc) [i] s ∧ Stuck s ∧ s.chan i i.other = [d] ∧
      s.proc i = .recv i.other k := by
  have hne : i ≠ i.other := by cases i <;> decide
  let s : Net End ℤ HandshakeError Bool :=
    ⟨Function.update proc i (.recv i.other k), setLink (fun _ _ => []) i i.other [d], fun _ => []⟩
  have hstep : Step (start proc) i s := by
    unfold Step step
    rw [show (start proc).proc i = _ from hi]
    rfl
  have hself : s.proc i = .recv i.other k := Function.update_self _ _ _
  have hrest : s.proc i.other = .done b := (Function.update_of_ne hne.symm _ _).trans hother
  have hback : s.chan i.other i = [] := if_neg fun hc => hne hc.1.symm
  refine ⟨s, Run.nil.snoc hstep, fun j => ?_, if_pos ⟨rfl, rfl⟩, hself⟩
  have hj : j = i ∨ j = i.other := by cases i <;> cases j <;> simp [End.other]
  rcases hj with rfl | rfl
  · unfold step
    rw [hself]
    simp only [hback]
  · unfold step
    rw [hrest]

theorem not_completes_alone {i : End} {d : ℤ} {k : ℤ → Proc End ℤ HandshakeError Bool} {b : Bool}
    (hi : proc i = .send i.other d (.recv i.other k)) (hother : proc i.other = .done b) :
    ¬ Completes proc fun _ _ => True := by
  rintro ⟨bound, hall⟩
  obtain ⟨s, hrun, hstuck, -, hproc⟩ := stuck_alone hi hother
  obtain ⟨a, ha⟩ := ((hall [i] s hrun).2.2.2 hstuck).1 i
  rw [hproc] at ha
  cases ha

end

/-- On machines with devices, the two ends take the same decision exactly if the addresses
are clear; and exactly then every interleaving of the handshake comes to an end with nothing left
in the streams. -/
theorem handshake_iff (c : Connection) (cuda : End → Cuda) (device : End → ℤ)
    (hdevice : ∀ i, (cuda i).getDevice = .device (device i)) :
    ((c.bindAddr .client = c.peerAddr .client ↔ c.bindAddr .server = c.peerAddr .server) ↔ c.Clear) ∧
      ((Completes (setUp c cuda) fun _ _ => True) ↔ c.Clear) := by
  have hclear : c.Clear ↔ (c.bindAddr .client = c.peerAddr .client ↔ c.bindAddr .server = c.peerAddr .server) :=
    c.clear_iff
  have hsame : ∀ i, c.bindAddr i = c.peerAddr i → ∃ f : ℤ → Bool, setUp c cuda i =
      .send i.other (device i) (.recv i.other fun remoteDevice => .done (f remoteDevice)) :=
    fun i h => canUseFastpath_same h (hdevice i)
  have hother : ∀ i, c.bindAddr i ≠ c.peerAddr i → setUp c cuda i = .done false :=
    fun i h => canUseFastpath_other h
  refine ⟨hclear.symm, ?_⟩
  rw [hclear]
  by_cases hclient : c.bindAddr .client = c.peerAddr .client
  · rw [iff_true_left hclient]
    obtain ⟨f, hf⟩ := hsame .client hclient
    by_cases hserver : c.bindAddr .server = c.peerAddr .server
    · refine iff_of_true (completes_both fun i => hsame i ?_) hserver
      cases i with
      | client => exact hclient
      | server => exact hserver
    · exact iff_of_false (not_completes_alone hf (hother .server hserver)) hserver
  · rw [iff_false_left hclient]
    by_cases hserver : c.bindAddr .server = c.peerAddr .server
    · obtain ⟨f, hf⟩ := hsame .server hserver
      exact iff_of_false (not_completes_alone hf (hother .client hclient)) (not_not.mpr hserver)
    · refine iff_of_true (completes_neither fun i => hother i ?_) hserver
      cases i with
      | client => exact hclient
      | server => exact hserver

def oneDevice : Cuda := ⟨.device 0, fun _ => false, fun _ => false⟩

def LOCALHOST : UInt32 := 0x0100007F

/-- A server at 127.0.0.1, and a client that dials it there. -/
def localConnection : Connection := ⟨LOCALHOST, LOCALHOST, LOCALHOST, by decide, fun _ _ => rfl⟩

/-- A server at 0.0.0.0, and a client that dials 127.0.0.1. -/
def wildcardConnection : Connection :=
  ⟨INADDR_ANY, LOCALHOST, LOCALHOST, by decide, fun h => absurd rfl h⟩

/-- Both ends exchange their devices. -/
theorem handshake_iff_local : Completes (setUp localConnection fun _ => oneDevice) fun _ _ =>
    True := by
  have hclear : localConnection.Clear := by
    rw [Connection.Clear, if_neg (by decide)]
    exact fun h => absurd h (by decide)
  exact (handshake_iff localConnection (fun _ => oneDevice) (fun _ => 0) fun _ => rfl).2.mpr hclear

/-- The client sends its device to a server that does not read it, and waits for one that does
not come. -/
theorem wildcard_handshake_stuck :
    (¬ Completes (setUp wildcardConnection fun _ => oneDevice) fun _ _ => True) ∧
      ∃ s, Run Step (start (setUp wildcardConnection fun _ => oneDevice)) [.client] s ∧ Stuck s ∧
        s.chan .client .server = [0] ∧ ∃ k, s.proc .client = .recv .server k := by
  obtain ⟨f, hclient⟩ : ∃ f : ℤ → Bool, setUp wildcardConnection (fun _ => oneDevice) .client =
      .send .server 0 (.recv .server fun remoteDevice => .done (f remoteDevice)) :=
    canUseFastpath_same rfl rfl
  have hserver : setUp wildcardConnection (fun _ => oneDevice) .server = .done false :=
    canUseFastpath_other (by decide)
  refine ⟨@not_completes_alone _ .client _ _ _ hclient hserver, ?_⟩
  obtain ⟨s, hrun, hstuck, hchan, hproc⟩ := @stuck_alone _ .client _ _ _ hclient hserver
  exact ⟨s, hrun, hstuck, hchan, _, hproc⟩

/-! ### The mode of the server -/

inductive Direction where
  | send
  | recv

/-- A transfer of a tensor or a storage: the `use_fastpath` of the context it is made with, and
the one that the client has negotiated. -/
structure Transfer where
  client : UInt64
  direction : Direction
  useFastpath : Bool
  negotiated : Bool

/-- A server with its clients: the `use_fastpath` of each client's context and of its own, and
the transfers it has made. -/
structure FastServer where
  state : ServerState
  negotiated : UInt64 → Bool
  useFastpath : Bool
  transfers : List Transfer

def FastServer.start : FastServer := ⟨.start, fun _ => false, false, []⟩

/-- `sock_send_userdata` and `sock_recv_userdata`, with the context of the server. -/
def sockUserdata (d : Direction) (c : UInt64) (s : FastServer) : FastServer :=
  { s with transfers := s.transfers ++ [⟨c, d, s.useFastpath, s.negotiated c⟩] }

/-- What the server's `send` and `recv` have in common. A message has nothing to do with the
mode. -/
def withClient (d : Direction) (userdata : Bool) (c : UInt64) (s : FastServer) : FastServer :=
  if userdata then sockUserdata d c { s with useFastpath := s.negotiated c } else s

def serverSend : Bool → UInt64 → FastServer → FastServer := withClient .send

def serverRecv : Bool → UInt64 → FastServer → FastServer := withClient .recv

/-- The loop of `cliser_server_broadcast`, which a send that fails leaves. -/
def broadcastLoop (userdata : Bool) (returns : UInt64 → Bool) : List UInt64 → FastServer →
    FastServer
  | [], s => s
  | c :: cs, s =>
    let s := if userdata then sockUserdata .send c s else s
    if returns c then broadcastLoop userdata returns cs s else s

/-- What happens at a server: a client connects and negotiates its mode, something else
happens to the clients and the handles, or a transfer. -/
inductive FastEvent where
  | accept (wait : UInt32) (c : UInt64) (sock : ℕ) (fast : Bool)
  | other (e : ServerEvent)
  | send (h : ℕ) (userdata : Bool)
  | recv (h : ℕ) (userdata : Bool)
  | broadcast (tag : Option (List UInt8)) (userdata : Bool) (returns : UInt64 → Bool)

/-- One step; `qsort` may leave the clients of a broadcast in any order. -/
inductive FastStep : FastServer → FastEvent → FastServer → Prop where
  | accept {s wait c sock fast st} : ServerStep s.state (.accept wait c sock) st →
      FastStep s (.accept wait c sock fast) { s with state := st, negotiated := Function.update s.negotiated c fast }
  | other {s e st} : (∀ wait c sock, e ≠ .accept wait c sock) → ServerStep s.state e st →
      FastStep s (.other e) { s with state := st }
  | send {s h userdata c} : s.state.InLua → s.state.handles h = .valid c →
      FastStep s (.send h userdata) (serverSend userdata c s)
  | recv {s h userdata c} : s.state.InLua → s.state.handles h = .valid c →
      FastStep s (.recv h userdata) (serverRecv userdata c s)
  | broadcast {s tag userdata returns fuel l order} : s.state.InLua →
      copyLoop tag s.state.server fuel s.state.server.clients = some l → order.Perm l →
      FastStep s (.broadcast tag userdata returns) (broadcastLoop userdata returns order s)

/-- Every transfer has been made in the mode of its client. -/
def FastServer.FollowsClients (s : FastServer) : Prop :=
  ∀ t ∈ s.transfers, t.useFastpath = t.negotiated

/-- A tensor or storage is broadcast to clients only that have the mode which the server has
just then. -/
def ModeShared (s : FastServer) : FastEvent → Prop
  | .broadcast tag true _ =>
    ∀ c i, s.state.server.info c = some i → i.tagged tag = true → s.negotiated c = s.useFastpath
  | _ => True

section
variable {s : FastServer} {tag : Option (List UInt8)}

theorem copyLoop_tagged {sv : Server} {fuel : ℕ} {first : Option UInt64} {l : List UInt64}
    (h : copyLoop tag sv fuel first = some l) : ∀ c ∈ l, ∃ i, sv.info c = some i ∧
    i.tagged tag = true := by
  induction fuel generalizing first l with
  | zero => cases h
  | succ fuel ih =>
    cases first with
    | none =>
      cases h
      simp
    | some c =>
      simp only [copyLoop, Option.bind_eq_bind, Option.bind_eq_some_iff] at h
      obtain ⟨i, hi, rest, hrest, hl⟩ := h
      cases hl
      split_ifs with htag
      · intro d hd
        rcases List.mem_cons.mp hd with rfl | hd
        · exact ⟨i, hi, htag⟩
        · exact ih hrest d hd
      · exact ih hrest

theorem FollowsClients.sockUserdata (h : s.FollowsClients) {d : Direction} {c : UInt64}
    (hmode : s.useFastpath = s.negotiated c) : (sockUserdata d c s).FollowsClients := by
  intro t ht
  rcases List.mem_append.mp ht with ht | ht
  · exact h t ht
  · rw [List.mem_singleton.mp ht]
    exact hmode

theorem FollowsClients.withClient (h : s.FollowsClients) (d : Direction) (userdata : Bool) (c : UInt64) :
    (withClient d userdata c s).FollowsClients := by
  have hset : ({ s with useFastpath := s.negotiated c } : FastServer).FollowsClients := h
  unfold Fastpath.withClient
  split_ifs
  · exact FollowsClients.sockUserdata hset rfl
  · exact h

theorem FollowsClients.broadcastLoop (h : s.FollowsClients) (userdata : Bool) (returns : UInt64 → Bool)
    {order : List UInt64} (hmode : userdata = true → ∀ c ∈ order, s.negotiated c = s.useFastpath) :
    (broadcastLoop userdata returns order s).FollowsClients := by
  induction order generalizing s with
  | nil => exact h
  | cons c cs ih =>
    cases userdata with
    | false =>
      simp only [Fastpath.broadcastLoop, Bool.false_eq_true, if_false]
      split_ifs
      · exact ih h nofun
      · exact h
    | true =>
      have hone := @FollowsClients.sockUserdata s h .send c (hmode rfl c List.mem_cons_self).symm
      simp only [Fastpath.broadcastLoop, if_true]
      split_ifs
      · exact ih hone fun _ d hd => hmode rfl d (List.mem_cons_of_mem _ hd)
      · exact hone

theorem FollowsClients.step (h : s.FollowsClients) {e : FastEvent} {s' : FastServer} (hshared : ModeShared s e)
    (hstep : FastStep s e s') : s'.FollowsClients := by
  cases hstep with
  | accept _ => exact h
  | other _ _ => exact h
  | send _ _ => exact FollowsClients.withClient h .send _ _
  | recv _ _ => exact FollowsClients.withClient h .recv _ _
  | @broadcast tag userdata returns fuel l order _ hcopy hperm =>
    refine FollowsClients.broadcastLoop h userdata returns fun hu c hc => ?_
    subst hu
    obtain ⟨i, hi, htag⟩ := copyLoop_tagged hcopy c (hperm.mem_iff.mp hc)
    exact hshared c i hi htag

end

/-- While tensors and storages are broadcast only to clients of the mode that the server has
just then, every transfer is made in the mode of its client. -/
theorem transfers_follow_clients {es : List FastEvent} {s : FastServer}
    (hrun : Run (fun s e s' => ModeShared s e ∧ FastStep s e s') .start es s) : s.FollowsClients :=
  hrun.invariant (I := fun _ s => s.FollowsClients) nofun fun _ _ _ _ h hs =>
    FollowsClients.step h hs.1 hs.2

/-! ### One client on the fast path -/

/-- A server with such a client, and a handle to it. -/
def fastClient (mode : Bool) (transfers : List Transfer) : FastServer :=
  ⟨oneClient 1, Function.update (fun _ => false) 1 true, mode, transfers⟩

theorem fastClient_run : Run (fun s e s' => ModeShared s e ∧ FastStep s e s') .start
    [.accept 1 1 4 true, .other (.recvAny none (fun _ => true) 0)] (fastClient false []) :=
  (Run.nil.snoc ⟨trivial, .accept oneClient_accepts⟩).snoc
    ⟨trivial, .other (by rintro _ _ _ ⟨⟩) (oneClient_recvAny 0)⟩

theorem oneClient_inLua : (oneClient 1).InLua := nofun

/-- A send of a tensor, and a broadcast of one after it. -/
theorem transfers_follow_clients_sent : ∃ es s,
    Run (fun s e s' => ModeShared s e ∧ FastStep s e s') .start es s ∧
      s.transfers = [⟨1, .send, true, true⟩, ⟨1, .send, true, true⟩] ∧ s.FollowsClients := by
  have hsend : FastStep (fastClient false []) (.send 0 true) (fastClient true [⟨1, .send, true, true⟩]) :=
    @FastStep.send _ 0 true 1 oneClient_inLua rfl
  have hbroadcast : FastStep (fastClient true [⟨1, .send, true, true⟩]) (.broadcast none true fun _ => true)
      (fastClient true [⟨1, .send, true, true⟩, ⟨1, .send, true, true⟩]) :=
    @FastStep.broadcast _ none true (fun _ => true) 2 [1] [1] oneClient_inLua rfl (List.Perm.refl _)
  have hshared : ModeShared (fastClient true [⟨1, .send, true, true⟩]) (.broadcast none true fun _ => true) := by
    intro c i hi _
    by_cases hc : c = 1
    · rw [hc]
      rfl
    · have hinfo : (oneClient 1).server.info c = none := Function.update_of_ne hc _ _
      rw [show (oneClient 1).server.info c = some i from hi] at hinfo
      cases hinfo
  have hany : ModeShared (fastClient false []) (.send 0 true) := trivial
  have hrun := (fastClient_run.snoc ⟨hany, hsend⟩).snoc ⟨hshared, hbroadcast⟩
  exact ⟨_, _, hrun, rfl, transfers_follow_clients hrun⟩

/-- A broadcast of a tensor before any send. -/
theorem broadcast_ignores_mode : ∃ es s, Run FastStep .start es s ∧
    s.transfers = [⟨1, .send, false, true⟩] ∧ ¬ s.FollowsClients := by
  have hbroadcast : FastStep (fastClient false []) (.broadcast none true fun _ => true)
      (fastClient false [⟨1, .send, false, true⟩]) :=
    @FastStep.broadcast _ none true (fun _ => true) 2 [1] [1] oneClient_inLua rfl (List.Perm.refl _)
  have hrun := (fastClient_run.mono fun _ _ _ h => h.2).snoc hbroadcast
  refine ⟨_, _, hrun, rfl, fun h => ?_⟩
  have hmode := h ⟨1, .send, false, true⟩ (by simp [fastClient])
  cases hmode

end TorchIpc.Fastpath
