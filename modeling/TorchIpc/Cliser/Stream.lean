import TorchIpc.Cliser.Recv
import TorchIpc.Cliser.Transfer

/-! Values, storages and tensors on one connection. Framed messages and raw elements
share the stream and nothing separates them, so both ends have to agree about every
byte: the sends of a list of items put the bytes of each behind those of the one
before, and the matching receives take exactly these, one item after the other,
however the sockets split them. -/

namespace TorchIpc.Cliser

open Words Strided Circular Runs

inductive Item (P : Type) where
  | value (v : Value P)
  | storage (T : ElementType) (storage : THStorage)
  | tensor (T : ElementType) (tensor : THTensor)

inductive Target where
  | value
  | storage (T : ElementType) (storage : THStorage)
  | tensor (T : ElementType) (tensor : THTensor)

/-- What a receive yields: the value, or what the storage then holds. -/
inductive Received (P : Type) where
  | value (v : Value P)
  | storage (data : List UInt8)
  | tensor (data : List UInt8)

/-- The connection behind a transfer that has returned. -/
def TransferOutcome.transfer : TransferOutcome → Option Transfer
  | .ret s => some s
  | .error _ => none
  | .blocks => none

section
variable {P : Type} (lua : Lua P) (th : TH)

/-- `cliser_client_send` and `cliser_server_send`, with `extra` further arguments;
nothing where they raise an error. -/
def cliserSend (extra : ℕ) (c : Client) : Item P → Option Client
  | .value v =>
    match sockSendMsg lua v (2 + extra) c with
    | .ret c => some c
    | _ => none
  | .storage T storage => do
    let s ← (storageWrite T storage c.sock).transfer
    return { c with sock := s.sock }
  | .tensor T tensor => do
    let s ← (tensorWrite T th tensor c.sock).transfer
    return { c with sock := s.sock }

/-- `cliser_client_recv` and `cliser_server_recv`. -/
def cliserRecv (stack : List (Value P)) (c : Client) (target : Target) (fuel : ℕ) :
    Option (Received P × Client) :=
  match target with
  | .value =>
    match sockRecvMsg lua stack c fuel with
    | .ret 1 (v :: _) c => some (.value v, c)
    | _ => none
  | .storage T storage => do
    let s ← (storageRead T storage c.sock).transfer
    return (.storage s.data, { c with sock := s.sock })
  | .tensor T tensor => do
    let s ← (tensorRead T th tensor c.sock).transfer
    return (.tensor s.data, { c with sock := s.sock })

/-- The values that Lua has, and the storages and tensors that TH has. -/
def Item.Wf : Item P → Prop
  | .value v => v.Wf lua
  | .storage T st => st.Wf T
  | .tensor T t => t.Wf T

/-- The receive that an item is meant for. -/
def Matches : Item P → Target → Prop
  | .value _, .value => True
  | .storage T st, .storage S st' => st'.Wf S ∧ S.elementSize = T.elementSize ∧ st'.size = st.size
  | .tensor T t, .tensor S u => u.Wf S ∧ S.elementSize = T.elementSize ∧ u.dims = t.dims
  | _, _ => False

/-- The receive has yielded the item. -/
def Arrives : Item P → Target → Received P → Prop
  | .value v, .value, .value w => w = v.received
  | .storage _ st, .storage _ _, .storage data => data = st.data
  | .tensor T t, .tensor S u, .tensor data => u.elements S data = t.elements T t.bytes ∧
      ∀ j, (∀ a ∈ u.addresses, j ≠ u.storageOffset + a) → cell S data j = cell S u.bytes j
  | _, _, _ => False

def storageBytes (T : ElementType) (st : THStorage) : List UInt8 :=
  leBytes 8 T.elementSize ++ leBytes 8 st.size ++ st.data

def Item.bytes : Item P → List UInt8
  | .value v => frame (encode lua true false v)
  | .storage T st => storageBytes T st
  | .tensor T t => tensorHeader th T t ++ (t.elements T t.bytes).flatten

/-- The receives one after the other, on a Lua stack that holds `stack`: each takes the
bytes of its item and yields it. -/
inductive Delivered (stack : List (Value P)) : List (Item P) → List Target → Client → Client →
    Prop where
  | nil {c} : Delivered stack [] [] c c
  | cons {item items target targets c c₁ c' x more} :
      c.sock.incoming = Item.bytes lua th item ++ more →
      Yields (cliserRecv lua th stack c target) (some (x, c₁)) → Arrives item target x →
      c₁.sock.incoming = more → Delivered stack items targets c₁ c' →
      Delivered stack (item :: items) (target :: targets) c c'

end

/-! ### Storages -/

section
variable {T S : ElementType} {st u : THStorage}

theorem writeContiguous_all (h : st.Wf T) (sock : Socket) :
    writeContiguous T st.size 0 ⟨st.data, sock⟩ = sendRaw st.data ⟨st.data, sock⟩ := by
  rw [writeContiguous, slice, Nat.mul_zero, List.drop_zero, ← h.length_data, List.take_length]

theorem storageWrite_eq (h : st.Wf T) (hfit : T.elementSize * st.size < 2 ^ 31) (sock : Socket) :
    ∃ calls, storageWrite T st sock =
      .ret ⟨st.data, { sock with sent := sock.sent ++ storageBytes T st, calls := calls }⟩ := by
  have hheader : (leBytes 8 T.elementSize ++ leBytes 8 st.size).length < 2 ^ 31 := by
    rw [List.length_append, length_leBytes, length_leBytes]
    norm_num
  obtain ⟨m, hsend⟩ := sendRaw_ret hheader ⟨st.data, sock⟩
  rw [← h.length_data] at hfit
  obtain ⟨calls, hdata⟩ := sendRaw_ret hfit
    ⟨st.data, { sock with sent := sock.sent ++ (leBytes 8 T.elementSize ++ leBytes 8 st.size), calls := m }⟩
  refine ⟨calls, ?_⟩
  rw [storageWrite, hsend, andThen_ret, writeContiguous_all h, hdata, storageBytes, List.append_assoc]

/-- A storage that is let through has bytes that an `int` can count. -/
theorem storageWrite_length (h : st.Wf T) {sock : Socket} {s : Transfer}
    (hret : storageWrite T st sock = .ret s) : T.elementSize * st.size < 2 ^ 31 := by
  have hheader : (leBytes 8 T.elementSize ++ leBytes 8 st.size).length < 2 ^ 31 := by
    rw [List.length_append, length_leBytes, length_leBytes]
    norm_num
  obtain ⟨m, hsend⟩ := sendRaw_ret hheader ⟨st.data, sock⟩
  rw [storageWrite, hsend, andThen_ret, writeContiguous_all h] at hret
  rw [← h.length_data]
  exact sendRaw_length hret

theorem storageRead_eq (h : st.Wf T) (hu : u.Wf S) (hE : S.elementSize = T.elementSize)
    (hsize : u.size = st.size) (hfit : T.elementSize * st.size < 2 ^ 31) {r : Socket} {rest : List UInt8}
    (hin : r.incoming = storageBytes T st ++ rest) :
    ∃ calls, storageRead S u r = .ret ⟨st.data, { r with incoming := rest, calls := calls }⟩ := by
  have hlength : (leBytes 8 T.elementSize ++ leBytes 8 st.size).length = 16 := by
    rw [List.length_append, length_leBytes, length_leBytes]
  rw [storageBytes, List.append_assoc] at hin
  obtain ⟨m, hheader⟩ := recvRaw_append (s := ⟨u.data, r⟩) hin hlength (by norm_num)
  have hdata : st.data.length = S.elementSize * u.size := by rw [h.length_data, hE, hsize]
  obtain ⟨calls, hrecv⟩ := recvRaw_append
    (s := ⟨u.data, { r with incoming := st.data ++ rest, calls := m }⟩) rfl hdata
    (by rw [← hdata, h.length_data]; exact hfit)
  have hword₀ : word (leBytes 8 T.elementSize ++ leBytes 8 st.size) 0 = S.elementSize := by
    rw [hE]
    apply word_leBytes _ (by cases T <;> decide)
    rw [slice, Nat.mul_zero, List.drop_zero, List.take_left' (length_leBytes 8 _)]
  have hword₁ : word (leBytes 8 T.elementSize ++ leBytes 8 st.size) 1 = u.size := by
    rw [hsize]
    apply word_leBytes _ (by have := h.size_lt; omega)
    rw [slice, List.drop_left' (length_leBytes 8 _), List.take_of_length_le (by simp)]
  have hblit : memcpy u.data (S.elementSize * 0) st.data st.data.length = st.data := by
    rw [memcpy, List.take_length, Nat.mul_zero, blit, List.take_zero, List.nil_append,
      List.drop_of_length_le (by rw [hu.length_data, hdata]; omega), List.append_nil]
  refine ⟨calls, ?_⟩
  rw [storageRead, hheader]
  simp only [hword₀, hword₁, ne_eq, not_true_eq_false, if_false]
  rw [readContiguous, hrecv, hblit]

end

/-! ### One item -/

section
variable {P : Type} {lua : Lua P} {th : TH} {c c' : Client}

/-- The items that a connection with an empty send buffer accepts. -/
def Item.Sendable (lua : Lua P) (th : TH) : Item P → Prop
  | .value v => sendable lua v
  | .storage T st => T.elementSize * st.size < 2 ^ 31
  | .tensor T t => accepted th T t

theorem Holding.withSock {r : List UInt8} (h : Holding c r) (sock : Socket) :
    Holding { c with sock := sock } r :=
  ⟨h.valid, h.cb_eq, h.rp_eq, h.content_eq⟩

/-- A send returns exactly for these, and puts the bytes of its item on the socket. -/
theorem cliserSend_sendable (h : Holding c []) (extra : ℕ) {item : Item P} (hwf : item.Wf lua)
    (hs : item.Sendable lua th) :
    ∃ c', cliserSend lua th extra c item = some c' ∧ Holding c' [] ∧
      c'.sock.sent = c.sock.sent ++ item.bytes lua th := by
  cases item with
  | value v =>
    have hspec := sockSendMsg_spec lua h v (Nat.le_add_right 2 extra)
    rw [cliserSend]
    generalize hout : sockSendMsg lua v (2 + extra) c = o at hspec
    generalize hresult : o.result = r at hspec
    cases hspec with
    | sent _ _ hhold hsent =>
      cases o with
      | ret c₁ =>
        cases hresult
        exact ⟨_, rfl, hhold, hsent⟩
      | error e c₁ => cases hresult
      | raised e c₁ => cases hresult
      | diverges => cases hresult
      | undefined => cases hresult
    | refused hno _ _ => exact absurd ⟨hs.1, by simpa using hs.2⟩ hno
  | storage T st =>
    obtain ⟨m, hwrite⟩ := storageWrite_eq hwf hs c.sock
    refine ⟨{ c with sock := { c.sock with sent := c.sock.sent ++ storageBytes T st, calls := m } }, ?_,
      h.withSock _, rfl⟩
    rw [cliserSend, hwrite]
    rfl
  | tensor T t =>
    obtain ⟨m, hwrite⟩ := tensorWrite_eq hwf hs c.sock
    refine ⟨{ c with sock := { c.sock with
      sent := c.sock.sent ++ (tensorHeader th T t ++ (t.elements T t.bytes).flatten), calls :=
        m } }, ?_,
      h.withSock _, rfl⟩
    rw [cliserSend, hwrite]
    rfl

theorem sendable_of_cliserSend (h : Holding c []) {extra : ℕ} {item : Item P} (hwf : item.Wf lua)
    (hsend : cliserSend lua th extra c item = some c') : item.Sendable lua th := by
  cases item with
  | value v =>
    have hspec := sockSendMsg_spec lua h v (Nat.le_add_right 2 extra)
    rw [cliserSend] at hsend
    generalize sockSendMsg lua v (2 + extra) c = o at hspec hsend
    cases o with
    | ret c₁ =>
      cases hspec with
      | sent hok hle _ _ => exact ⟨hok, by simpa using hle⟩
    | error e c₁ => cases hsend
    | raised e c₁ => cases hsend
    | diverges => cases hsend
    | undefined => cases hsend
  | storage T st =>
    rw [cliserSend] at hsend
    cases hwrite : storageWrite T st c.sock with
    | ret s => exact storageWrite_length hwf hwrite
    | error e =>
      rw [hwrite] at hsend
      cases hsend
    | blocks =>
      rw [hwrite] at hsend
      cases hsend
  | tensor T t =>
    rw [cliserSend] at hsend
    cases hwrite : tensorWrite T th t c.sock with
    | ret s => exact accepted_of_tensorWrite hwf hwrite
    | error e =>
      rw [hwrite] at hsend
      cases hsend
    | blocks =>
      rw [hwrite] at hsend
      cases hsend

/-- Nothing of an earlier payload is left in the receive buffer. -/
structure Cleared (c : Client) : Prop where
  receiving : Receiving c
  rcb_eq : c.recvRb.rcb = 0

theorem Cleared.withSock (h : Cleared c) (sock : Socket) : Cleared { c with sock := sock } :=
  ⟨h.receiving.withSock sock, h.rcb_eq⟩

/-- The matching receive takes these bytes and yields the item. -/
theorem cliserRecv_spec (hl : lua.Rebuilds) (h : Cleared c) {item : Item P} (hwf : item.Wf lua)
    (hsendable : item.Sendable lua th) {target : Target} (hm : Matches item target) {more : List UInt8}
    (hin : c.sock.incoming = item.bytes lua th ++ more) (stack : List (Value P)) :
    ∃ x c₁, Yields (cliserRecv lua th stack c target) (some (x, c₁)) ∧ Arrives item target x ∧
      c₁.sock.incoming = more ∧ Cleared c₁ := by
  cases item with
  | value v =>
    cases target with
    | storage S u => exact hm.elim
    | tensor S u => exact hm.elim
    | value =>
      obtain ⟨hok, hle⟩ := hsendable
      obtain ⟨calls, hframe⟩ := sockRecvMsg_frame lua hle hin
      have hcleared := h.withSock { c.sock with incoming := more, calls := calls }
      obtain ⟨c₁, ⟨n, hn⟩, hsock, _, hrcb⟩ :=
        loadPayload_encode hl hcleared.receiving true hwf hok []
        (by rw [List.append_nil, hcleared.rcb_eq, Nat.zero_add]; exact hle) stack
      rw [List.append_nil] at hn
      have hreceiving := hcleared.receiving.loadPayload hle (congrArg RecvOutcome.client (hn n le_rfl))
      refine ⟨.value v.received, c₁, ⟨n, fun fuel hf => ?_⟩, rfl, by rw [hsock], hreceiving, ?_⟩
      · rw [cliserRecv, hframe, hn fuel hf]
        rfl
      · rw [hrcb, hcleared.rcb_eq]
        rfl
  | storage T st =>
    cases target with
    | value => exact hm.elim
    | tensor S u => exact hm.elim
    | storage S u =>
      obtain ⟨hu, hE, hsize⟩ := hm
      obtain ⟨calls, hread⟩ := storageRead_eq hwf hu hE hsize hsendable hin
      refine ⟨.storage st.data, { c with sock := { c.sock with incoming := more, calls := calls } },
        ⟨0, fun fuel _ => ?_⟩, rfl, rfl, h.withSock _⟩
      rw [cliserRecv, hread]
      rfl
  | tensor T t =>
    cases target with
    | value => exact hm.elim
    | storage S u => exact hm.elim
    | tensor S u =>
      obtain ⟨hu, hE, hdims⟩ := hm
      have hau := accepted_of_dims hwf hu hE hdims hsendable
      obtain ⟨ps, n, hplan, _⟩ := hau.2
      obtain ⟨calls, hread⟩ := tensorRead_copy hwf hu hE hdims hau hplan hin
      have hsame : u.addresses = t.addresses := by
        rw [THTensor.addresses, hdims, THTensor.addresses]
      obtain ⟨_, helements, hkept⟩ :=
        copyBlocks_view hwf hu hE hsame (plan_addresses hu hplan) rfl
      refine ⟨.tensor _, { c with sock := { c.sock with incoming := more, calls := calls } },
        ⟨0, fun fuel _ => ?_⟩, ⟨helements, hkept⟩, rfl, h.withSock _⟩
      rw [cliserRecv, hread]
      rfl

/-! ### Whole streams -/

theorem sent_sendable (extra : ℕ) {items : List (Item P)} (hwf : ∀ item ∈ items, item.Wf lua)
    (hall : ∀ item ∈ items, item.Sendable lua th) (h : Holding c []) :
    ∃ c', items.foldlM (cliserSend lua th extra) c = some c' ∧
      c'.sock.sent = c.sock.sent ++ items.flatMap (Item.bytes lua th) := by
  induction items generalizing c with
  | nil => exact ⟨c, rfl, by simp⟩
  | cons item items ih =>
    obtain ⟨c₁, hone, hhold, hsent⟩ := cliserSend_sendable h extra
      (hwf item List.mem_cons_self) (hall item List.mem_cons_self)
    obtain ⟨c', hrest, hout⟩ := ih (fun i hi => hwf i (List.mem_cons_of_mem _ hi))
      (fun i hi => hall i (List.mem_cons_of_mem _ hi)) hhold
    refine ⟨c', ?_, ?_⟩
    · rw [List.foldlM_cons, hone]
      exact hrest
    · rw [hout, hsent, List.append_assoc, List.flatMap_cons]

theorem sendable_of_sent {extra : ℕ} {items : List (Item P)} (hwf : ∀ item ∈ items, item.Wf lua)
    (h : Holding c []) (hsend : items.foldlM (cliserSend lua th extra) c = some c') :
    ∀ item ∈ items, item.Sendable lua th := by
  induction items generalizing c with
  | nil => simp
  | cons item items ih =>
    rw [List.foldlM_cons] at hsend
    cases hone : cliserSend lua th extra c item with
    | none =>
      rw [hone] at hsend
      cases hsend
    | some c₁ =>
      rw [hone] at hsend
      have hitem := sendable_of_cliserSend h (hwf item List.mem_cons_self) hone
      obtain ⟨c₂, hone', hhold, _⟩ :=
        cliserSend_sendable h extra (hwf item List.mem_cons_self) hitem
      obtain rfl := Option.some.inj (hone.symm.trans hone')
      have hrest := ih (fun i hi => hwf i (List.mem_cons_of_mem _ hi)) hhold hsend
      simpa using ⟨hitem, hrest⟩

theorem delivered_items (hl : lua.Rebuilds) {items : List (Item P)} {targets : List Target}
    (hm : List.Forall₂ Matches items targets) (hwf : ∀ item ∈ items, item.Wf lua)
    (hall : ∀ item ∈ items, item.Sendable lua th) (h : Cleared c) {rest : List UInt8}
    (hin : c.sock.incoming = items.flatMap (Item.bytes lua th) ++ rest) (stack : List (Value P)) :
    ∃ c', Delivered lua th stack items targets c c' ∧ c'.sock.incoming = rest := by
  induction hm generalizing c with
  | nil => exact ⟨c, .nil, hin⟩
  | @cons item target items targets hone _ ih =>
    rw [List.flatMap_cons, List.append_assoc] at hin
    obtain ⟨x, c₁, hyields, harrives, hmore, hcleared⟩ := cliserRecv_spec hl h
      (hwf item List.mem_cons_self) (hall item List.mem_cons_self) hone hin stack
    obtain ⟨c', hdelivered, hrest⟩ := ih (fun i hi => hwf i (List.mem_cons_of_mem _ hi))
      (fun i hi => hall i (List.mem_cons_of_mem _ hi)) hcleared hmore
    exact ⟨c', .cons hin hyields harrives hmore hdelivered, hrest⟩

/-- Items that are sent without a refusal on a new connection arrive in order, and
each receive takes exactly the bytes of its item. -/
theorem stream_delivered (hl : lua.Rebuilds) (th : TH) {items : List (Item P)} {targets : List Target}
    (hwf : ∀ item ∈ items, item.Wf lua) (hm : List.Forall₂ Matches items targets) {sock : Socket}
    {extra : ℕ} (hsend : items.foldlM (cliserSend lua th extra) (Client.create sock) = some c)
    (stack : List (Value P)) :
    c.sock.sent = sock.sent ++ items.flatMap (Item.bytes lua th) ∧
      ∀ r rest, r.incoming = items.flatMap (Item.bytes lua th) ++ rest →
        ∃ c', Delivered lua th stack items targets (Client.create r) c' ∧
          c'.sock.incoming = rest := by
  have hall := sendable_of_sent hwf (Holding.create sock) hsend
  obtain ⟨c₁, hsend', hsent⟩ := sent_sendable extra hwf hall (Holding.create sock)
  obtain rfl := Option.some.inj (hsend.symm.trans hsend')
  refine ⟨hsent, fun r rest hin => ?_⟩
  exact delivered_items hl hm hwf hall ⟨Receiving.create r, rfl⟩ hin stack

end

/-! ### A mixed stream -/

/-- A boolean, a storage and an overlapping view. -/
def mixedItems : List (Item UInt8) :=
  [.value (.boolean true), .storage .short ⟨[1, 2, 3, 4], 2⟩, .tensor .byte (repeatedRow [7, 8, 9] 3 1)]

def mixedTargets : List Target :=
  [.value, .storage .short ⟨[0, 0, 0, 0], 2⟩, .tensor .char (repeatedRow [0, 0, 0, 0] 4 2)]

theorem mixedItems_wf : ∀ item ∈ mixedItems, item.Wf sampleLua := by
  have hrow : (repeatedRow [7, 8, 9] 3 1).Wf .byte := repeatedRow_wf rfl (by norm_num) (by norm_num)
  simp only [mixedItems, List.forall_mem_cons]
  exact ⟨boolean_wf, ⟨rfl, by norm_num⟩, hrow, by simp⟩

theorem mixed_matches : List.Forall₂ Matches mixedItems mixedTargets := by
  refine .cons trivial (.cons ⟨⟨rfl, by norm_num⟩, rfl, rfl⟩ (.cons ⟨?_, rfl, rfl⟩ .nil))
  exact repeatedRow_wf rfl (by norm_num) (by norm_num)

theorem mixedItems_sendable : ∀ item ∈ mixedItems, item.Sendable sampleLua .reference := by
  simp only [mixedItems, List.forall_mem_cons]
  exact ⟨⟨rfl, by decide⟩, by norm_num [Item.Sendable, ElementType.elementSize],
    ⟨by decide, [0, 0], 2, by decide, Or.inr (by decide)⟩, by simp⟩

theorem stream_delivered_mixed :
    ∃ bs, ∀ r rest, r.incoming = bs ++ rest →
      ∃ c', Delivered sampleLua .reference [] mixedItems mixedTargets (Client.create r) c' ∧
        c'.sock.incoming = rest := by
  obtain ⟨c, hsend, _⟩ := sent_sendable 0 mixedItems_wf mixedItems_sendable
    (Holding.create ⟨[], [], fun _ => 0, 0⟩)
  obtain ⟨_, hdelivered⟩ :=
    stream_delivered sampleLua_rebuilds .reference mixedItems_wf mixed_matches hsend []
  exact ⟨_, hdelivered⟩

end TorchIpc.Cliser
