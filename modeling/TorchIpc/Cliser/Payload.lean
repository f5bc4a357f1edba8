import TorchIpc.Cliser.Transfer

/-! What a tensor that is not contiguous puts on the socket. A transfer that raises has
sent something before, so the writers are looked at as programs that keep the socket when
they raise; forgetting it gives the outcomes of the transfers. The merged block is the
longest packed tail of the dimensions, it is never the whole tensor, and the walk over the
other dimensions sends the elements in row-major order if a raw send takes a block. -/

namespace TorchIpc.Cliser

open Words Strided Circular

namespace Sending

/-! ### Writers that keep the socket -/

abbrev SendM := ExceptT TransferError (StateM Socket)

def ofSend (r : Except SockError Unit × Socket) : Except TransferError Unit × Socket :=
  (r.1.mapError .sock, r.2)

def sendRaw (bs : List UInt8) : SendM Unit := ExceptT.mk fun sock => ofSend (sockSendRaw bs sock)

def luaLError (parts : List String) : SendM Unit := throw (.lua (String.join parts))

def strideLoop (body : ℕ → SendM Unit) (stride : ℕ) : ℕ → ℕ → SendM Unit
  | 0, _ => pure ()
  | n + 1, ptr => do
    body ptr
    strideLoop body stride n (ptr + stride)

section
variable (T : ElementType) (th : TH) (t : THTensor)

def writeContiguous (data : List UInt8) (count ptr : ℕ) : SendM Unit :=
  sendRaw (slice data (T.elementSize * ptr) (T.elementSize * count))

def tensorWriteNoncontiguousRcsv (data : List UInt8) (nDimStride : ℕ) :
    List (ℕ × ℕ) → ℕ → ℕ → SendM Unit
  | [], _, _ => pure ()
  | (size, stride) :: _, 0, ptr => strideLoop (writeContiguous T data nDimStride) stride size ptr
  | (size, stride) :: dims, nDim + 1, ptr =>
    strideLoop (tensorWriteNoncontiguousRcsv data nDimStride dims nDim) stride size ptr

/-- The branch of `tensor_write` for a tensor that is not contiguous. -/
def noncontiguous : SendM Unit :=
  let n := t.dims.length
  if n < 2 then luaLError ["not implemented"]
  else if (t.dims.getD (n - 1) (0, 0)).2 ≠ 1 then luaLError ["not implemented"]
  else
    match blockLoop t.dims (n - 1) (t.dims.getD (n - 1) (0, 0)).1 with
    | (0, _) => luaLError ["unreachable"]
    | (i + 1, bc) => tensorWriteNoncontiguousRcsv T t.bytes bc t.dims i t.storageOffset

def tensorWrite : SendM Unit := do
  sendRaw (tensorHeader th T t)
  if th.isContiguous t.dims then
    match t.storage with
    | some _ => writeContiguous T t.bytes (th.nElement t.dims) t.storageOffset
    | none => pure ()
  else noncontiguous T t

end

abbrev runOn (x : SendM Unit) (sock : Socket) : Except TransferError Unit × Socket := x.run.run sock

theorem runOn_bind (x y : SendM Unit) (sock : Socket) : runOn (do x; y) sock =
    match runOn x sock with
    | (.ok _, sock) => runOn y sock
    | (.error e, sock) => (.error e, sock) := by
  show (StateT.bind x.run fun r => ExceptT.bindCont (fun _ => y) r) sock = _
  rw [StateT.bind]
  show (match runOn x sock with | (a, s) => ExceptT.bindCont (fun _ => y) a s) = _
  rcases runOn x sock with ⟨_ | _, sock'⟩ <;> rfl

/-! ### The outcome -/

/-- The outcome of a writer: a raise forgets the socket. -/
def outcome (data : List UInt8) (r : Except TransferError Unit × Socket) : TransferOutcome :=
  match r with
  | (.ok _, sock) => .ret ⟨data, sock⟩
  | (.error e, _) => .error e

/-- A writer that does the same as a transfer that leaves its elements alone. -/
def Refines (data : List UInt8) (x : SendM Unit) (k : Transfer → TransferOutcome) : Prop :=
  ∀ sock, k ⟨data, sock⟩ = outcome data (runOn x sock)

section
variable {data : List UInt8} {T : ElementType} {th : TH} {t : THTensor}

theorem refines_bind {x y : SendM Unit} {k l : Transfer → TransferOutcome} (hx : Refines data x k)
    (hy : Refines data y l) : Refines data (do x; y) fun s => (k s).andThen l := by
  intro sock
  rw [runOn_bind]
  dsimp only
  rw [hx sock]
  rcases runOn x sock with ⟨_ | _, sock'⟩
  · rfl
  · exact hy sock'

theorem sendRaw_refines (bs : List UInt8) : Refines data (sendRaw bs) (Cliser.sendRaw bs) := by
  intro sock
  have hraw : ∀ r : Except SockError Unit × Socket,
      TransferOutcome.ofSend data r = outcome data (ofSend r) := by
    rintro ⟨_ | _, sock⟩ <;> rfl
  exact hraw _

theorem writeContiguous_refines (count ptr : ℕ) :
    Refines data (writeContiguous T data count ptr) (Cliser.writeContiguous T count ptr) :=
  fun sock => sendRaw_refines _ sock

theorem strideLoop_refines {x : ℕ → SendM Unit} {body : ℕ → Transfer → TransferOutcome}
    (hbody : ∀ ptr, Refines data (x ptr) (body ptr)) (stride n ptr : ℕ) :
    Refines data (strideLoop x stride n ptr) (Cliser.strideLoop body stride n ptr) := by
  induction n generalizing ptr with
  | zero => exact fun sock => rfl
  | succ n ih => exact refines_bind (hbody ptr) (ih (ptr + stride))

theorem rcsv_refines (n : ℕ) (dims : List (ℕ × ℕ)) (nDim ptr : ℕ) :
    Refines data (tensorWriteNoncontiguousRcsv T data n dims nDim ptr)
      (Cliser.tensorWriteNoncontiguousRcsv T n dims nDim ptr) := by
  induction dims generalizing nDim ptr with
  | nil => exact fun sock => rfl
  | cons d dims ih =>
    cases nDim with
    | zero => exact strideLoop_refines (writeContiguous_refines n) d.2 d.1 ptr
    | succ nDim => exact strideLoop_refines (ih nDim) d.2 d.1 ptr

theorem noncontiguous_refines : Refines t.bytes (noncontiguous T t)
    (Cliser.noncontiguous (Cliser.tensorWriteNoncontiguousRcsv T) t) := by
  intro sock
  rw [noncontiguous, Cliser.noncontiguous]
  split_ifs
  · rfl
  · rfl
  · rcases blockLoop t.dims (t.dims.length - 1) (t.dims.getD (t.dims.length - 1) (0, 0)).1 with ⟨_ | i, bc⟩
    · rfl
    · exact rcsv_refines bc t.dims i t.storageOffset sock

theorem tensorWrite_refines (sock : Socket) :
    Cliser.tensorWrite T th t sock = outcome t.bytes (runOn (tensorWrite T th t) sock) := by
  have hmove : Refines t.bytes (if th.isContiguous t.dims then
      match t.storage with
      | some _ => writeContiguous T t.bytes (th.nElement t.dims) t.storageOffset
      | none => pure ()
      else noncontiguous T t)
      (moveElements th (Cliser.writeContiguous T) (Cliser.tensorWriteNoncontiguousRcsv T) t) := by
    intro sock
    rw [moveElements]
    split_ifs
    · cases t.storage with
      | none => rfl
      | some st => exact writeContiguous_refines _ _ sock
    · exact noncontiguous_refines sock
  exact refines_bind (sendRaw_refines (tensorHeader th T t)) hmove sock

end

/-! ### What is sent -/

/-- The bytes that a writer adds to the stream, whether it raises or not. -/
def Emits (x : SendM Unit) (sock : Socket) (bs : List UInt8) : Prop :=
  (runOn x sock).2.sent = sock.sent ++ bs

section
variable {data bs : List UInt8} {T : ElementType} {e : TransferError} {sock sock' : Socket}
  {dims : List (ℕ × ℕ)} {n nDim ptr : ℕ}

theorem runOn_sendRaw (bs : List UInt8) (sock : Socket) : ∃ calls, runOn (sendRaw bs) sock =
    ((checkCount bs.length bs.length "failed to send the correct number of bytes").mapError .sock,
      { sock with sent := sock.sent ++ bs, calls := calls }) := by
  obtain ⟨calls, hsend⟩ := sockSend_eq bs sock
  refine ⟨calls, ?_⟩
  show ofSend (sockSendRaw bs sock) = _
  rw [sockSendRaw, hsend]
  dsimp only [ofSend]

/-- A raw send hands over its bytes even if it raises. -/
theorem sendRaw_emits (bs : List UInt8) (sock : Socket) : Emits (sendRaw bs) sock bs := by
  obtain ⟨calls, hrun⟩ := runOn_sendRaw bs sock
  rw [Emits, hrun]

theorem sendRaw_raises (h : ¬ bs.length < 2 ^ 31) (sock : Socket) : ∃ e calls,
    runOn (sendRaw bs) sock =
      (.error (.sock e), { sock with sent := sock.sent ++ bs, calls := calls }) := by
  obtain ⟨calls, hrun⟩ := runOn_sendRaw bs sock
  obtain ⟨e, hcheck⟩ := checkCount_error h "failed to send the correct number of bytes"
  rw [hcheck] at hrun
  exact ⟨e, calls, hrun⟩

theorem strideLoop_raises {x : ℕ → SendM Unit} (h : runOn (x ptr) sock = (.error e, sock'))
    (hn : 1 ≤ n) (stride : ℕ) : runOn (strideLoop x stride n ptr) sock = (.error e, sock') := by
  obtain ⟨m, rfl⟩ := Nat.exists_eq_add_of_le' hn
  rw [strideLoop, runOn_bind, h]

theorem rcsv_raises (h : runOn (writeContiguous T data n ptr) sock = (.error e, sock'))
    (hpos : ∀ d ∈ dims, 1 ≤ d.1) (hdim : nDim < dims.length) :
    runOn (tensorWriteNoncontiguousRcsv T data n dims nDim ptr) sock = (.error e, sock') := by
  induction dims generalizing nDim with
  | nil => simp at hdim
  | cons d dims ih =>
    rw [List.forall_mem_cons] at hpos
    cases nDim with
    | zero => exact strideLoop_raises h hpos.1 d.2
    | succ nDim => exact strideLoop_raises (ih hpos.2 (Nat.lt_of_succ_lt_succ hdim)) hpos.1 d.2

/-- Where a raw send takes a block, the walk sends all of them. -/
theorem rcsv_emits (h : T.elementSize * n < 2 ^ 31) (hdim : nDim < dims.length) (ptr : ℕ)
    (sock : Socket) : ∃ calls, runOn (tensorWriteNoncontiguousRcsv T data n dims nDim ptr) sock =
      (.ok (), { sock with
        sent := sock.sent ++ (addresses (dims.take (nDim + 1))).flatMap fun p =>
          slice data (T.elementSize * (ptr + p)) (T.elementSize * n)
        calls := calls }) := by
  have href : Refines data (tensorWriteNoncontiguousRcsv T data n dims nDim ptr)
      (Cliser.tensorWriteNoncontiguousRcsv T n dims nDim ptr) := rcsv_refines n dims nDim ptr
  specialize href sock
  rw [Cliser.tensorWriteNoncontiguousRcsv, noncontiguousRcsv_eq hdim] at href
  obtain ⟨calls, hwalk⟩ := forEach_write (T := T) (n := n)
    ((addresses (dims.take (nDim + 1))).map (ptr + ·)) (.inr h) ⟨data, sock⟩
  rw [hwalk] at href
  refine ⟨calls, ?_⟩
  generalize runOn (tensorWriteNoncontiguousRcsv T data n dims nDim ptr) sock = r at href
  obtain ⟨_ | _, sock'⟩ := r
  · cases href
  · rw [List.flatMap_map] at href
    cases href
    rfl

end

end Sending

/-! ### The block -/

section
variable {T : ElementType} {th : TH} {t : THTensor} {dims : List (ℕ × ℕ)}

/-- Dimensions of one index in front change nothing. -/
theorem dense_append {ds es : List (ℕ × ℕ)} (hds : ∀ d ∈ ds, d.1 = 1) (hes : Dense es) :
    Dense (ds ++ es) := by
  induction ds with
  | nil => exact hes
  | cons d ds ih =>
    rw [List.forall_mem_cons] at hds
    exact ⟨fun hne => absurd hds.1 hne, ih hds.2⟩

theorem eq_one_of_volume {ds : List (ℕ × ℕ)} (h : volume ds = 1) : ∀ d ∈ ds, d.1 = 1 := by
  induction ds with
  | nil => simp
  | cons d ds ih =>
    rw [volume_cons] at h
    rw [List.forall_mem_cons]
    exact ⟨Nat.eq_one_of_mul_eq_one_right h, ih (Nat.eq_one_of_mul_eq_one_left h)⟩

/-- The merged block of a tensor that is not contiguous is not the whole of it. -/
theorem blockLoop_noncontiguous (h : t.Wf T) (hcontig : th.isContiguous t.dims = false)
    (hlen : 2 ≤ t.dims.length) (hlast : (t.dims.getD (t.dims.length - 1) (0, 0)).2 = 1) :
    ∃ i, blockLoop t.dims (t.dims.length - 1) (t.dims.getD (t.dims.length - 1) (0, 0)).1 =
        (i + 1, volume (packedTail t.dims)) ∧ i < t.dims.length ∧
      packedTail t.dims = t.dims.drop (i + 1) ∧ 2 ≤ volume (t.dims.take (i + 1)) := by
  rcases hloop : blockLoop t.dims (t.dims.length - 1) (t.dims.getD (t.dims.length - 1) (0, 0)).1 with ⟨j, bc⟩
  obtain ⟨hlt, htail, rfl⟩ := blockLoop_last hlen hlast hloop
  -- the rest cannot be one cell: the tensor would be contiguous
  have hmany : volume (t.dims.take j) ≠ 1 := by
    intro hone
    have hdense : Dense (t.dims.take j ++ t.dims.drop j) := by
      apply dense_append (eq_one_of_volume hone)
      rw [← htail]
      exact (packed_packedTail t.dims).dense
    rw [List.take_append_drop] at hdense
    have hdense' : th.isContiguous t.dims = true := h.isContiguous_iff.mpr hdense
    exact absurd (hcontig.symm.trans hdense') Bool.false_ne_true
  have hpos : 1 ≤ volume (t.dims.take j) :=
    volume_pos fun d hd => h.size_pos d (List.mem_of_mem_take hd)
  cases j with
  | zero => exact absurd rfl hmany
  | succ i => exact ⟨i, rfl, Nat.lt_of_succ_lt hlt, htail, by omega⟩

/-! ### The payload -/

/-- The elements in row-major order, one behind the other. -/
def THTensor.payload (T : ElementType) (t : THTensor) : List UInt8 := (t.elements T t.bytes).flatten

theorem THTensor.length_elements (hne : t.dims ≠ []) (data : List UInt8) :
    (t.elements T data).length = volume t.dims := by
  rw [THTensor.elements, List.length_map, THTensor.addresses, if_neg hne, length_addresses]

theorem THTensor.Wf.length_payload (h : t.Wf T) (hne : t.dims ≠ []) :
    (t.payload T).length = volume t.dims * T.elementSize := by
  rw [THTensor.payload, THTensor.elements, ← List.flatMap_def, length_flatMap_of_forall]
  · rw [THTensor.addresses, if_neg hne, length_addresses]
  · intro a ha
    apply length_slice
    have := h.address_inside ha
    rwa [Nat.mul_succ] at this

/-- The contiguous path sends the elements, also where it raises. -/
theorem contiguous_emits (h : t.Wf T) (hne : t.dims ≠ []) (hcontig : th.isContiguous t.dims = true)
    (sock : Socket) : Sending.Emits
      (Sending.writeContiguous T t.bytes (th.nElement t.dims) t.storageOffset) sock (t.payload T) := by
  have hdense := h.isContiguous_iff.mp hcontig
  have hblocks : t.addresses = [0].flatMap fun p =>
    (List.range (th.nElement t.dims)).map (p + ·) := by
    rw [THTensor.addresses, if_neg hne, addresses_of_dense hdense, h.nElement_eq hne hdense]
    simp
  have hpayload := blocks_eq_elements (T := T) hblocks t.bytes
  rw [List.flatMap_singleton, Nat.add_zero] at hpayload
  rw [THTensor.payload, ← hpayload]
  exact Sending.sendRaw_emits _ sock

/-- The blocks of a tensor that is not contiguous. -/
theorem packedTail_blocks {i : ℕ} (hne : t.dims ≠ []) (htail : packedTail t.dims = t.dims.drop (i + 1)) :
    t.addresses = (Strided.addresses (t.dims.take (i + 1))).flatMap fun p =>
      (List.range (volume (packedTail t.dims))).map (p + ·) := by
  have hdense := (packed_packedTail t.dims).dense
  rw [THTensor.addresses, if_neg hne]
  conv_lhs => rw [← List.take_append_drop (i + 1) t.dims]
  rw [addresses_append, ← htail, addresses_of_dense hdense]

/-- A block that a raw send does not take is sent before the walk raises, and no other. -/
theorem rcsv_large (h : t.Wf T) {i : ℕ} (hi : i < t.dims.length)
    (htail : packedTail t.dims = t.dims.drop (i + 1)) (hmany : 2 ≤ volume (t.dims.take (i + 1)))
    (hbig : ¬ T.elementSize * volume (packedTail t.dims) < 2 ^ 31) (sock : Socket) :
    ∃ e calls block, block.length = T.elementSize * volume (packedTail t.dims) ∧
      Sending.runOn (Sending.tensorWriteNoncontiguousRcsv T t.bytes (volume (packedTail t.dims)) t.dims i
        t.storageOffset) sock =
        (.error (.sock e), { sock with sent := sock.sent ++ block, calls := calls }) := by
  have hne : t.dims ≠ [] := List.ne_nil_of_length_pos (Nat.zero_lt_of_lt hi)
  have hinside : T.elementSize * (t.storageOffset + volume (packedTail t.dims)) ≤
      t.bytes.length := by
    have hlength : 0 < (Strided.addresses (t.dims.take (i + 1))).length := by
      rw [length_addresses]
      omega
    obtain ⟨p, hp⟩ := List.exists_mem_of_length_pos hlength
    have hpos : 0 < volume (packedTail t.dims) := by
      by_contra hzero
      rw [Nat.eq_zero_of_not_pos hzero] at hbig
      norm_num at hbig
    refine le_trans (Nat.mul_le_mul_left _ ?_) (h.block_inside (packedTail_blocks hne htail) hpos hp)
    omega
  rw [Nat.mul_add] at hinside
  have hblock := length_slice hinside
  obtain ⟨e, calls, hraise⟩ := Sending.sendRaw_raises (by rwa [hblock]) sock
  exact ⟨e, calls, _, hblock, Sending.rcsv_raises hraise h.size_pos hi⟩

/-- The walk sends the elements exactly if a raw send takes a block. -/
theorem rcsv_emits_iff (h : t.Wf T) {i : ℕ} (hi : i < t.dims.length)
    (htail : packedTail t.dims = t.dims.drop (i + 1)) (hmany : 2 ≤ volume (t.dims.take (i + 1)))
    (sock : Socket) :
    Sending.Emits (Sending.tensorWriteNoncontiguousRcsv T t.bytes (volume (packedTail t.dims)) t.dims i
      t.storageOffset) sock (t.payload T) ↔
        T.elementSize * volume (packedTail t.dims) < 2 ^ 31 := by
  have hne : t.dims ≠ [] := List.ne_nil_of_length_pos (Nat.zero_lt_of_lt hi)
  constructor
  · intro hemits
    by_contra hbig
    obtain ⟨e, calls, block, hblock, hrun⟩ := rcsv_large h hi htail hmany hbig sock
    rw [Sending.Emits, hrun] at hemits
    have hsame := congrArg List.length (List.append_cancel_left hemits)
    have hvolume : volume t.dims = volume (t.dims.take (i + 1)) * volume (packedTail t.dims) := by
      rw [htail, ← volume_append, List.take_append_drop]
    rw [hblock, h.length_payload hne, hvolume, Nat.mul_assoc, Nat.mul_comm _ T.elementSize] at hsame
    have := Nat.mul_le_mul_right (T.elementSize * volume (packedTail t.dims)) hmany
    omega
  · intro hfit
    obtain ⟨calls, hrun⟩ := @Sending.rcsv_emits t.bytes _ _ _ _ hfit hi t.storageOffset sock
    rw [Sending.Emits, hrun, THTensor.payload, ← blocks_eq_elements (packedTail_blocks hne htail)]

/-- The walk raises the errors of raw sends only. -/
theorem noncontiguous_error (h : t.Wf T) (hcontig : th.isContiguous t.dims = false)
    (hlen : 2 ≤ t.dims.length) (hlast : (t.dims.getD (t.dims.length - 1) (0, 0)).2 = 1)
    (sock sock' : Socket) (msg : String) :
    Sending.runOn (Sending.noncontiguous T t) sock ≠ (.error (.lua msg), sock') := by
  obtain ⟨i, hloop, hi, htail, hmany⟩ := blockLoop_noncontiguous h hcontig hlen hlast
  rw [Sending.noncontiguous, if_neg (not_lt.mpr hlen), if_neg (not_not.mpr hlast), hloop]
  dsimp only
  by_cases hfit : T.elementSize * volume (packedTail t.dims) < 2 ^ 31
  · obtain ⟨calls, hrun⟩ := @Sending.rcsv_emits t.bytes _ _ _ _ hfit hi t.storageOffset sock
    rw [hrun]
    simp
  · obtain ⟨e, calls, block, -, hrun⟩ := rcsv_large h hi htail hmany hfit sock
    rw [hrun]
    simp

theorem tensorWrite_error (h : t.Wf T) (hcontig : th.isContiguous t.dims = false)
    (hlen : 2 ≤ t.dims.length) (hlast : (t.dims.getD (t.dims.length - 1) (0, 0)).2 = 1)
    (sock sock' : Socket) (msg : String) :
    Sending.runOn (Sending.tensorWrite T th t) sock ≠ (.error (.lua msg), sock') := by
  rw [Sending.tensorWrite, Sending.runOn_bind, hcontig]
  obtain ⟨calls, hheader⟩ := Sending.runOn_sendRaw (tensorHeader th T t) sock
  rw [hheader]
  cases checkCount (tensorHeader th T t).length (tensorHeader th T t).length
    "failed to send the correct number of bytes" with
  | ok => exact noncontiguous_error h hcontig hlen hlast _ sock' msg
  | error e => simp [Except.mapError]

/-- What is expected of `tensor_write` for a tensor that is not contiguous: the loop leaves a
dimension to walk over, the walk sends the elements, and these are what the contiguous path
sends for a contiguous copy. -/
structure StridedPayload (th : TH) (T : ElementType) (t : THTensor) (sock : Socket) : Prop where
  reached : ∀ sock', Sending.runOn (Sending.tensorWrite T th t) sock ≠ (.error (.lua "unreachable"), sock')
  emits : ∃ i bc, blockLoop t.dims (t.dims.length - 1) (t.dims.getD (t.dims.length - 1) (0, 0)).1 =
      (i + 1, bc) ∧ Sending.Emits
    (Sending.tensorWriteNoncontiguousRcsv T t.bytes bc t.dims i t.storageOffset) sock (t.payload T)
  count : (t.elements T t.bytes).length = volume t.dims ∧
    (volume t.dims < 2 ^ 63 → th.nElement t.dims = volume t.dims)
  copy : ∀ c : THTensor, c.Wf T → c.dims.map Prod.fst = t.dims.map Prod.fst →
    th.isContiguous c.dims = true → c.elements T c.bytes = t.elements T t.bytes →
    Sending.Emits (Sending.writeContiguous T c.bytes (th.nElement c.dims) c.storageOffset) sock
      (t.payload T)

/-- It is so exactly if a raw send takes the longest packed tail of the dimensions. -/
theorem strided_payload_iff (h : t.Wf T) (hcontig : th.isContiguous t.dims = false)
    (hlen : 2 ≤ t.dims.length) (hlast : (t.dims.getD (t.dims.length - 1) (0, 0)).2 = 1)
    (sock : Socket) :
    StridedPayload th T t sock ↔ T.elementSize * volume (packedTail t.dims) < 2 ^ 31 := by
  obtain ⟨i, hloop, hi, htail, hmany⟩ := blockLoop_noncontiguous h hcontig hlen hlast
  have hne : t.dims ≠ [] := List.ne_nil_of_length_pos (Nat.zero_lt_of_lt hi)
  rw [← rcsv_emits_iff h hi htail hmany sock]
  constructor
  · intro hpayload
    obtain ⟨i', bc, hloop', hemits⟩ := hpayload.emits
    obtain ⟨rfl, rfl⟩ : i = i' ∧ volume (packedTail t.dims) = bc := by
      simpa using hloop.symm.trans hloop'
    exact hemits
  · intro hemits
    refine ⟨fun sock' => tensorWrite_error h hcontig hlen hlast sock sock' _, ⟨i, _, hloop, hemits⟩,
      ⟨THTensor.length_elements hne _, th.nElement_eq t.dims hne⟩, ?_⟩
    intro c hc hsizes hccontig helements
    have hcne : c.dims ≠ [] := by
      rintro hnil
      rw [hnil] at hsizes
      exact hne (List.map_eq_nil_iff.mp hsizes.symm)
    have hemits := contiguous_emits hc hcne hccontig sock
    rwa [THTensor.payload, helements, ← THTensor.payload] at hemits

end

/-- Two rows of `n` elements, with one element between them. -/
def twoRows (n : ℕ) : THTensor :=
  ⟨[(2, n + 1), (n, 1)], some ⟨List.replicate (2 * n + 1) 0, 2 * n + 1⟩, 0⟩

theorem twoRows_wf {n : ℕ} (hpos : 1 ≤ n) (hn : 2 * n + 1 < 2 ^ 63) : (twoRows n).Wf .byte where
  size_pos := by simp [twoRows, hpos]
  size_lt := by
    simp [twoRows]
    omega
  storage_wf := by
    rintro st ⟨⟩
    exact ⟨by simp [ElementType.elementSize], hn⟩
  inside _ := ⟨_, rfl, by simp [reach, twoRows]; omega⟩

theorem twoRows_contiguous (n : ℕ) : TH.reference.isContiguous (twoRows n).dims = false := by
  apply decide_eq_false
  intro hdense
  have hstride := hdense.1 (by norm_num)
  simp at hstride

theorem packedTail_twoRows (n : ℕ) : packedTail (twoRows n).dims = [(n, 1)] := by
  simp [twoRows, packedTail, Packed]

theorem strided_payload_two : StridedPayload .reference .byte (twoRows 2) ⟨[], [], fun _ => 0, 0⟩ ↔
    1 * volume (packedTail (twoRows 2).dims) < 2 ^ 31 :=
  strided_payload_iff (twoRows_wf (by norm_num) (by norm_num)) (twoRows_contiguous 2) (by decide) rfl _

/-- If the rows are sent, each of them fits into a raw send. -/
theorem lt_of_payload {n : ℕ} (hpos : 1 ≤ n) (hn : 2 * n + 1 < 2 ^ 63) {sock : Socket}
    (h : StridedPayload .reference .byte (twoRows n) sock) : n < 2 ^ 31 := by
  have hwf := twoRows_wf hpos hn
  obtain ⟨i, hloop, hi, htail, hmany⟩ :=
    blockLoop_noncontiguous hwf (twoRows_contiguous n) le_rfl rfl
  obtain ⟨i', bc, hloop', hemits⟩ := h.emits
  obtain ⟨rfl, rfl⟩ : i = i' ∧ volume (packedTail (twoRows n).dims) = bc := by
    simpa using hloop.symm.trans hloop'
  have hfit := (rcsv_emits_iff hwf hi htail hmany _).mp hemits
  rw [packedTail_twoRows] at hfit
  simpa [ElementType.elementSize] using hfit

/-- Rows of `2 ^ 31` bytes: the first one is sent, and then the error is raised. -/
theorem strided_payload_large : ¬ ∀ (th : TH) (T : ElementType) (t : THTensor) (sock : Socket),
    t.Wf T →
    th.isContiguous t.dims = false → 2 ≤ t.dims.length →
    (t.dims.getD (t.dims.length - 1) (0, 0)).2 = 1 → StridedPayload th T t sock := by
  intro hall
  have hrows : ∀ n : ℕ, 1 ≤ n → 2 * n + 1 < 2 ^ 63 → n < 2 ^ 31 := fun n hpos hn =>
    lt_of_payload hpos hn (hall .reference .byte (twoRows n) ⟨[], [], fun _ => 0, 0⟩ (twoRows_wf hpos hn)
      (twoRows_contiguous n) le_rfl rfl)
  exact absurd (hrows (2 ^ 31) (by norm_num) (by norm_num)) (lt_irrefl _)

end TorchIpc.Cliser
