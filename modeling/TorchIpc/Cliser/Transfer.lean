import TorchIpc.Cliser.Tensor

/-! What the transfers of a storage and of a tensor put on the stream and take from
it. A tensor that is written is its header and its elements in row-major order; a
tensor of the same shape that reads this ends with the same elements, leaves every
other cell of its storage alone and takes nothing that comes after. -/

namespace TorchIpc.Cliser

open Words Strided Circular

/-! ### Blocks on the stream -/

section
variable {T : ElementType} {n : ℕ} {ps : List ℕ} {s s' : Transfer}

theorem forEach_write (ps : List ℕ) (h : ps = [] ∨ T.elementSize * n < 2 ^ 31) (s : Transfer) :
    ∃ calls, forEach (writeContiguous T n) ps s = .ret { s with sock := { s.sock with
      sent := s.sock.sent ++ ps.flatMap fun p =>
        slice s.data (T.elementSize * p) (T.elementSize * n)
      calls := calls } } := by
  induction ps generalizing s with
  | nil => exact ⟨s.sock.calls, by simp [forEach]⟩
  | cons p ps ih =>
    have hlt := h.resolve_left (List.cons_ne_nil p ps)
    have hlen : (slice s.data (T.elementSize * p) (T.elementSize * n)).length < 2 ^ 31 := by
      rw [slice, List.length_take]
      omega
    obtain ⟨m, hsend⟩ := sendRaw_ret hlen s
    obtain ⟨calls, hrest⟩ := ih (Or.inr hlt) { s with sock := { s.sock with
      sent := s.sock.sent ++ slice s.data (T.elementSize * p) (T.elementSize * n), calls := m } }
    refine ⟨calls, ?_⟩
    rw [forEach, writeContiguous, hsend]
    refine hrest.trans ?_
    rw [List.flatMap_cons, List.append_assoc]

/-- A walk that sends blocks and returns has sent blocks that an `int` can count. -/
theorem forEach_write_length (h : forEach (writeContiguous T n) ps s = .ret s')
    (hin : ∀ p ∈ ps, T.elementSize * (p + n) ≤ s.data.length) :
    ps = [] ∨ T.elementSize * n < 2 ^ 31 := by
  cases ps with
  | nil => exact Or.inl rfl
  | cons p ps =>
    refine Or.inr ?_
    cases hsend : writeContiguous T n p s with
    | ret s₁ =>
      have hlen := sendRaw_length hsend
      rwa [length_slice (by rw [← Nat.mul_add]; exact hin p List.mem_cons_self)] at hlen
    | error e =>
      rw [forEach, hsend] at h
      cases h
    | blocks =>
      rw [forEach, hsend] at h
      cases h

/-- A walk that receives stores each block at its position. -/
theorem forEach_read (h : ps = [] ∨ T.elementSize * n < 2 ^ 31) {g : ℕ → List UInt8}
    (hg : ∀ p ∈ ps, (g p).length = T.elementSize * n) {rest : List UInt8}
    (hin : s.sock.incoming = ps.flatMap g ++ rest) :
    ∃ calls, forEach (readContiguous T n) ps s =
      .ret ⟨ps.foldl (fun data p => blit data (T.elementSize * p) (g p)) s.data,
        { s.sock with incoming := rest, calls := calls }⟩ := by
  induction ps generalizing s with
  | nil =>
    rw [List.flatMap_nil, List.nil_append] at hin
    exact ⟨s.sock.calls, by rw [← hin]; rfl⟩
  | cons p ps ih =>
    have hlt := h.resolve_left (List.cons_ne_nil p ps)
    rw [List.flatMap_cons, List.append_assoc] at hin
    obtain ⟨m, hrecv⟩ := recvRaw_append hin (hg p List.mem_cons_self) hlt
    obtain ⟨calls, hrest⟩ := ih (s := ⟨blit s.data (T.elementSize * p) (g p),
      { s.sock with incoming := ps.flatMap g ++ rest, calls := m }⟩) (Or.inr hlt)
      (fun q hq => hg q (List.mem_cons_of_mem _ hq)) rfl
    refine ⟨calls, ?_⟩
    rw [forEach, readContiguous, hrecv, memcpy, List.take_length]
    exact hrest

/-- A walk that receives returns if enough bytes come. -/
theorem forEach_read_ret (h : ps = [] ∨ T.elementSize * n < 2 ^ 31)
    (hin : ps.length * (T.elementSize * n) ≤ s.sock.incoming.length) :
    ∃ s', forEach (readContiguous T n) ps s = .ret s' := by
  induction ps generalizing s with
  | nil => exact ⟨s, rfl⟩
  | cons p ps ih =>
    have hlt := h.resolve_left (List.cons_ne_nil p ps)
    rw [List.length_cons, Nat.succ_mul] at hin
    have htake : (s.sock.incoming.take (T.elementSize * n)).length = T.elementSize * n := by
      rw [List.length_take]
      omega
    obtain ⟨m, hrecv⟩ := recvRaw_append (List.take_append_drop (T.elementSize * n) _).symm htake hlt
    rw [forEach, readContiguous, hrecv]
    exact ih (Or.inr hlt) (by simp only [List.length_drop]; omega)

theorem forEach_read_length (h : forEach (readContiguous T n) ps s = .ret s') :
    (ps = [] ∨ T.elementSize * n < 2 ^ 31) ∧
      ps.length * (T.elementSize * n) ≤ s.sock.incoming.length := by
  induction ps generalizing s with
  | nil => exact ⟨Or.inl rfl, by simp⟩
  | cons p ps ih =>
    cases hread : readContiguous T n p s with
    | ret s₁ =>
      obtain ⟨hlt, hle⟩ := recvRaw_ret hread
      have htake : (s.sock.incoming.take (T.elementSize * n)).length = T.elementSize * n := by
        rw [List.length_take]
        omega
      obtain ⟨m, hrecv⟩ := recvRaw_append (List.take_append_drop (T.elementSize * n) _).symm htake hlt
      rw [forEach, readContiguous, hrecv] at h
      have hrest := (ih h).2
      simp only [List.length_drop] at hrest
      rw [List.length_cons, Nat.succ_mul]
      exact ⟨Or.inr hlt, by omega⟩
    | error e =>
      rw [forEach, hread] at h
      cases h
    | blocks =>
      rw [forEach, hread] at h
      cases h

end

/-! ### Headers -/

theorem length_dimBytes (dims : List (ℕ × ℕ)) : (dimBytes dims).length = 16 * dims.length := by
  induction dims with
  | nil => rfl
  | cons d dims ih =>
    rw [dimBytes, List.flatMap_cons, List.length_append, ← dimBytes, ih]
    simp only [List.length_append, length_leBytes, List.length_cons]
    omega

theorem headerWord_contiguous (T : ElementType) (bc : Bool) :
    headerWord T bc.toNat &&& 0x1 = bc.toNat := by
  cases T <;> cases bc <;> decide

theorem headerWord_fastpath (T : ElementType) (bc : Bool) :
    (headerWord T bc.toNat &&& 0x2) >>> 1 = canUseFastpath := by
  cases T <;> cases bc <;> decide

theorem headerWord_elementSize (T : ElementType) (bc : Bool) :
    (headerWord T bc.toNat &&& 0xF0) >>> 4 = T.elementSize := by
  cases T <;> cases bc <;> decide

theorem eq_of_toNat_eq {a b : Bool} (h : a.toNat = b.toNat) : a = b := by
  cases a <;> cases b <;> simp_all

theorem headerWord_lt (T : ElementType) (bc : Bool) : headerWord T bc.toNat < 256 ^ 8 := by
  cases T <;> cases bc <;> decide

/-- The word that was written is the word that is found. -/
theorem word_leBytes {header : List UInt8} {j m : ℕ} (h : slice header (8 * j) 8 = leBytes 8 m)
    (hm : m < 256 ^ 8) : word header j = m := by
  rw [word, h, leVal_leBytes hm]

theorem slice_of_word {header : List UInt8} {j : ℕ} (h : 8 * j + 8 ≤ header.length) :
    slice header (8 * j) 8 = leBytes 8 (word header j) := by
  have hval := leBytes_leVal (slice header (8 * j) 8)
  rw [length_slice h] at hval
  exact hval.symm

section
variable {header : List UInt8} {dims : List (ℕ × ℕ)} {k : TransferOutcome} {i : ℕ}

theorem dimBytes_cons (d : ℕ × ℕ) (dims : List (ℕ × ℕ)) :
    dimBytes (d :: dims) = leBytes 8 d.1 ++ (leBytes 8 d.2 ++ dimBytes dims) := by
  rw [dimBytes, List.flatMap_cons, List.append_assoc, dimBytes]

theorem slice_dims (header : List UInt8) (i n : ℕ) :
    slice header (8 * (2 * i + 1)) (16 * (n + 1)) =
      slice header (8 * (2 * i + 1)) 8 ++ (slice header (8 * (2 * i + 2)) 8 ++
        slice header (8 * (2 * (i + 1) + 1)) (16 * n)) := by
  rw [show 16 * (n + 1) = 8 + (8 + 16 * n) by omega, slice_add, slice_add]
  rfl

theorem checkDims_eq (hlt : ∀ d ∈ dims, d.1 < 256 ^ 8 ∧ d.2 < 256 ^ 8)
    (h : slice header (8 * (2 * i + 1)) (16 * dims.length) = dimBytes dims) :
    checkDims header k i dims = k := by
  induction dims generalizing i with
  | nil => rfl
  | cons d dims ih =>
    obtain ⟨size, stride⟩ := d
    obtain ⟨hsize, hstride⟩ := hlt (size, stride) List.mem_cons_self
    have hlen : 8 * (2 * i + 1) + 16 * (dims.length + 1) ≤ header.length := by
      have := congrArg List.length h
      rw [length_dimBytes, slice, List.length_take, List.length_drop, List.length_cons] at this
      omega
    rw [List.length_cons, slice_dims, dimBytes_cons] at h
    obtain ⟨h1, h⟩ := List.append_inj h
      (by rw [length_slice (by omega), length_leBytes])
    obtain ⟨h2, h⟩ := List.append_inj h
      (by rw [length_slice (by omega), length_leBytes])
    rw [checkDims, if_neg (not_not.mpr (word_leBytes h1 hsize)),
      if_neg (not_not.mpr (word_leBytes h2 hstride))]
    exact ih (fun e he => hlt e (List.mem_cons_of_mem _ he)) h

/-- Checks that pass have found the words of the dimensions. -/
theorem checkDims_ret {s : Transfer} (h : checkDims header k i dims = .ret s)
    (hlen : 8 * (2 * i + 1) + 16 * dims.length ≤ header.length) :
    slice header (8 * (2 * i + 1)) (16 * dims.length) = dimBytes dims ∧ k = .ret s := by
  induction dims generalizing i with
  | nil => exact ⟨by simp [slice, dimBytes], h⟩
  | cons d dims ih =>
    obtain ⟨size, stride⟩ := d
    rw [List.length_cons] at hlen ⊢
    rw [checkDims] at h
    split_ifs at h with hsize hstride
    · cases h
    · cases h
    · rw [not_not] at hsize hstride
      obtain ⟨hrest, hk⟩ := ih h (by omega)
      refine ⟨?_, hk⟩
      rw [slice_dims, hrest, slice_of_word (by omega), slice_of_word (by omega), hsize, hstride,
        dimBytes_cons]

end

/-! ### Elements -/

def cell (T : ElementType) (data : List UInt8) (j : ℕ) : List UInt8 :=
  slice data (T.elementSize * j) T.elementSize

/-- The elements of the tensor in row-major order, when its storage holds `data`. -/
def THTensor.elements (T : ElementType) (t : THTensor) (data : List UInt8) : List (List UInt8) :=
  t.addresses.map fun a => cell T data (t.storageOffset + a)

/-- The tensors that both directions let through: the shape is implemented, and an `int`
can count the bytes of the header and of a block. -/
def accepted (th : TH) (T : ElementType) (t : THTensor) : Prop :=
  8 * (2 * t.dims.length + 1) < 2 ^ 31 ∧
    ∃ ps n, plan th t = some (ps, n) ∧ (ps = [] ∨ T.elementSize * n < 2 ^ 31)

def tensorHeader (th : TH) (T : ElementType) (t : THTensor) : List UInt8 :=
  leBytes 8 (headerWord T (th.isContiguous t.dims).toNat) ++ dimBytes t.dims

section
variable {T : ElementType} {th : TH} {t : THTensor} {ps : List ℕ} {n : ℕ}

theorem length_tensorHeader (th : TH) (T : ElementType) (t : THTensor) :
    (tensorHeader th T t).length = 8 * (2 * t.dims.length + 1) := by
  rw [tensorHeader, List.length_append, length_leBytes, length_dimBytes]
  omega

theorem THTensor.Wf.address_inside (h : t.Wf T) {a : ℕ} (ha : a ∈ t.addresses) :
    T.elementSize * (t.storageOffset + a + 1) ≤ t.bytes.length := by
  rw [THTensor.addresses] at ha
  split_ifs at ha with hnil
  · simp at ha
  · obtain ⟨st, hst, hlt⟩ := h.inside hnil
    have hle := le_reach ha
    rw [THTensor.bytes, hst, Option.map_some, Option.getD_some, (h.storage_wf st hst).length_data]
    exact Nat.mul_le_mul_left _ (by omega)

/-- A view with these blocks lies in the storage, and so do the blocks. -/
theorem THTensor.Wf.block_inside (h : t.Wf T)
    (hblocks : t.addresses = ps.flatMap fun p => (List.range n).map (p + ·)) (hn : 0 < n) {p : ℕ}
    (hp : p ∈ ps) : T.elementSize * (t.storageOffset + p + n) ≤ t.bytes.length := by
  have hlast : p + (n - 1) ∈ t.addresses := by
    rw [hblocks]
    exact List.mem_flatMap.mpr ⟨p, hp, List.mem_map_of_mem (List.mem_range.mpr (by omega))⟩
  have hin := h.address_inside hlast
  rwa [show t.storageOffset + (p + (n - 1)) + 1 = t.storageOffset + p + n by omega] at hin

/-- The blocks of the storage, one behind the other, are the elements. -/
theorem blocks_eq_elements (hblocks : t.addresses = ps.flatMap fun p => (List.range n).map (p + ·))
    (data : List UInt8) :
    (ps.flatMap fun p => slice data (T.elementSize * (t.storageOffset + p)) (T.elementSize * n)) =
      (t.elements T data).flatten := by
  rw [THTensor.elements, ← List.flatMap_def, hblocks, List.flatMap_assoc]
  congr 1
  funext p
  rw [slice_mul, List.flatMap_map]
  congr 1
  funext q
  rw [cell, Nat.add_assoc]

/-! ### Writing -/

theorem tensorWrite_eq (h : t.Wf T) (ha : accepted th T t) (sock : Socket) :
    ∃ calls, tensorWrite T th t sock = .ret ⟨t.bytes, { sock with
      sent := sock.sent ++ (tensorHeader th T t ++ (t.elements T t.bytes).flatten)
      calls := calls }⟩ := by
  obtain ⟨hheader, ps, n, hplan, hfit⟩ := ha
  rw [← length_tensorHeader th T t] at hheader
  obtain ⟨m, hsend⟩ := sendRaw_ret hheader ⟨t.bytes, sock⟩
  obtain ⟨calls, hblocks⟩ := forEach_write (T := T) (n := n) (ps.map (t.storageOffset + ·))
    (hfit.imp (by rintro rfl; rfl) id)
    ⟨t.bytes, { sock with sent := sock.sent ++ tensorHeader th T t, calls := m }⟩
  refine ⟨calls, ?_⟩
  have hmove := moveElements_eq hplan (writeContiguous T)
    ⟨t.bytes, { sock with sent := sock.sent ++ tensorHeader th T t, calls := m }⟩
  rw [tensorWrite, ← tensorHeader, hsend]
  refine (hmove.trans hblocks).trans ?_
  rw [List.flatMap_map, blocks_eq_elements (plan_addresses h hplan), List.append_assoc]

theorem accepted_of_tensorWrite (h : t.Wf T) {sock : Socket} {s : Transfer}
    (hret : tensorWrite T th t sock = .ret s) : accepted th T t := by
  rw [tensorWrite, ← tensorHeader] at hret
  cases hsend : sendRaw (tensorHeader th T t) ⟨t.bytes, sock⟩ with
  | ret s₁ =>
    have hheader := sendRaw_length hsend
    obtain ⟨m, hsend'⟩ := sendRaw_ret hheader ⟨t.bytes, sock⟩
    rw [hsend'] at hret
    rw [length_tensorHeader] at hheader
    refine ⟨hheader, ?_⟩
    cases hplan : plan th t with
    | none =>
      obtain ⟨e, herror⟩ := moveElements_error hplan (writeContiguous T)
        ⟨t.bytes, { sock with sent := sock.sent ++ tensorHeader th T t, calls := m }⟩
      cases herror.symm.trans hret
    | some b =>
      obtain ⟨ps, n⟩ := b
      have hwalk := (moveElements_eq hplan (writeContiguous T) _).symm.trans hret
      refine ⟨ps, n, rfl, ?_⟩
      rcases Nat.eq_zero_or_pos n with rfl | hn
      · exact Or.inr (by simp)
      · have hlength := forEach_write_length hwalk fun q hq => by
          obtain ⟨p, hp, rfl⟩ := List.mem_map.mp hq
          exact h.block_inside (plan_addresses h hplan) hn hp
        exact hlength.imp (fun hnil => List.map_eq_nil_iff.mp hnil) id
  | error e =>
    rw [hsend] at hret
    cases hret
  | blocks =>
    rw [hsend] at hret
    cases hret

/-! ### Reading -/

/-- A header with the shape of the receiver leads to its elements. -/
theorem tensorRead_header (h : t.Wf T) (hlen : 8 * (2 * t.dims.length + 1) < 2 ^ 31) {S : ElementType}
    (hS : S.elementSize = T.elementSize) {r : Socket} {rest : List UInt8}
    (hin : r.incoming = leBytes 8 (headerWord S (th.isContiguous t.dims).toNat) ++
      (dimBytes t.dims ++ rest)) :
    ∃ calls, tensorRead T th t r =
      moveElements th (readContiguous T) (fun n => noncontiguousRcsv (readContiguous T n)) t
        ⟨t.bytes, { r with incoming := rest, calls := calls }⟩ := by
  set header := leBytes 8 (headerWord S (th.isContiguous t.dims).toNat) ++ dimBytes t.dims with hheader
  have hlength : header.length = 8 * (2 * t.dims.length + 1) := by
    rw [hheader, List.length_append, length_leBytes, length_dimBytes]
    omega
  rw [← List.append_assoc, ← hheader] at hin
  obtain ⟨calls, hrecv⟩ := recvRaw_append (s := ⟨t.bytes, r⟩) hin hlength hlen
  have hword : word header 0 = headerWord S (th.isContiguous t.dims).toNat := by
    apply word_leBytes _ (headerWord_lt S _)
    rw [hheader, slice, Nat.mul_zero, List.drop_zero, List.take_left' (length_leBytes 8 _)]
  have hdims : slice header (8 * (2 * 0 + 1)) (16 * t.dims.length) = dimBytes t.dims := by
    rw [hheader, slice, List.drop_left' (length_leBytes 8 _),
      List.take_of_length_le (by rw [length_dimBytes])]
  have hlt : ∀ d ∈ t.dims, d.1 < 256 ^ 8 ∧ d.2 < 256 ^ 8 := by
    intro d hd
    have := h.size_lt d hd
    omega
  refine ⟨calls, ?_⟩
  rw [tensorRead, hrecv]
  simp only [hword, headerWord_contiguous, headerWord_fastpath, headerWord_elementSize, hS, ne_eq,
    not_true_eq_false, if_false]
  exact checkDims_eq hlt hdims

/-- A read that returns has found a header with its own shape. -/
theorem tensorRead_ret {S : ElementType} {bc : Bool} {r : Socket} {more : List UInt8} {s : Transfer}
    (hin : r.incoming = leBytes 8 (headerWord S bc.toNat) ++ more) (hret : tensorRead T th t r = .ret s) :
    8 * (2 * t.dims.length + 1) < 2 ^ 31 ∧ S.elementSize = T.elementSize ∧
      bc = th.isContiguous t.dims ∧ ∃ rest, more = dimBytes t.dims ++ rest := by
  obtain ⟨hlen, hle⟩ := recvRaw_ret hret
  simp only [hin, List.length_append, length_leBytes] at hle
  set dimLen := 16 * t.dims.length with hdimLen
  have hsplit : r.incoming = (leBytes 8 (headerWord S bc.toNat) ++ more.take dimLen) ++ more.drop dimLen := by
    rw [hin, List.append_assoc, List.take_append_drop]
  have hlength : (leBytes 8 (headerWord S bc.toNat) ++ more.take dimLen).length =
      8 * (2 * t.dims.length + 1) := by
    rw [List.length_append, length_leBytes, List.length_take]
    omega
  set header := leBytes 8 (headerWord S bc.toNat) ++ more.take dimLen with hheader
  obtain ⟨calls, hrecv⟩ := recvRaw_append (s := ⟨t.bytes, r⟩) hsplit hlength hlen
  have hword : word header 0 = headerWord S bc.toNat := by
    apply word_leBytes _ (headerWord_lt S _)
    rw [hheader, slice, Nat.mul_zero, List.drop_zero, List.take_left' (length_leBytes 8 _)]
  rw [tensorRead, hrecv] at hret
  simp only [hword, headerWord_contiguous, headerWord_fastpath, headerWord_elementSize] at hret
  split_ifs at hret with hbc hfast hE
  · cases hret
  · exact absurd rfl hfast
  · cases hret
  · obtain ⟨hdims, _⟩ := checkDims_ret hret (by rw [hlength]; omega)
    rw [hheader, slice, List.drop_left' (length_leBytes 8 _), List.take_take, Nat.min_self] at hdims
    refine ⟨hlen, not_not.mp hE, eq_of_toNat_eq (not_not.mp hbc), more.drop dimLen, ?_⟩
    rw [← hdims, List.take_append_drop]

/-- A receiver of the same shape is let through as well. -/
theorem accepted_of_dims {S : ElementType} {u : THTensor} (ht : t.Wf T) (hu : u.Wf S)
    (hsize : S.elementSize = T.elementSize) (hdims : u.dims = t.dims) (h : accepted th T t) :
    accepted th S u := by
  obtain ⟨hheader, ps, n, hplan, hfit⟩ := h
  rw [accepted, hdims, hsize]
  refine ⟨hheader, ?_⟩
  by_cases hnil : t.dims = []
  · have hcontig : th.isContiguous u.dims = true := by
      rw [hu.isContiguous_iff, hdims, hnil]
      trivial
    have hzero : th.nElement u.dims = 0 := by rw [hdims, hnil, th.nElement_nil]
    by_cases hst : u.storage.isSome
    · exact ⟨[0], 0, by rw [plan, if_pos hcontig, if_pos hst, hzero], Or.inr (by simp)⟩
    · exact ⟨[], 0, by rw [plan, if_pos hcontig, if_neg hst], Or.inl rfl⟩
  · obtain ⟨st, hst, _⟩ := ht.inside hnil
    obtain ⟨st', hst', _⟩ := hu.inside (by rwa [hdims])
    have hsame : plan th u = plan th t := by
      rw [plan, plan, hdims, hst, hst']
      rfl
    exact ⟨ps, n, hsame.trans hplan, hfit⟩

/-- The receiver copies the blocks of the sender. -/
theorem tensorRead_copy {S : ElementType} {u : THTensor} (ht : t.Wf T) (hu : u.Wf S)
    (hsize : S.elementSize = T.elementSize) (hdims : u.dims = t.dims) (ha : accepted th S u)
    (hplan : plan th u = some (ps, n)) {r : Socket} {rest : List UInt8}
    (hin : r.incoming = tensorHeader th T t ++ (t.elements T t.bytes).flatten ++ rest) :
    ∃ calls, tensorRead S th u r =
      .ret ⟨copyBlocks (S.elementSize * n) (S.elementSize * t.storageOffset)
        (S.elementSize * u.storageOffset) t.bytes (ps.map (S.elementSize * ·)) u.bytes,
        { r with incoming := rest, calls := calls }⟩ := by
  obtain ⟨hheader, ps', n', hplan', hfit⟩ := ha
  obtain ⟨rfl, rfl⟩ := Prod.mk.inj (Option.some.inj (hplan'.symm.trans hplan))
  have haddresses : u.addresses = t.addresses := by
    rw [THTensor.addresses, hdims, THTensor.addresses]
  have hblocks := haddresses.symm.trans (plan_addresses hu hplan)
  -- the elements of the sender, cut into the blocks of the receiver
  have hbytes := blocks_eq_elements (T := T) hblocks t.bytes
  rw [← hsize] at hbytes
  rw [tensorHeader, ← hdims, ← hbytes, List.append_assoc, List.append_assoc] at hin
  obtain ⟨m, hread⟩ := tensorRead_header hu hheader hsize.symm hin
  set g := fun q => slice t.bytes (S.elementSize * (t.storageOffset + (q - u.storageOffset)))
    (S.elementSize * n') with hg
  have hgp : ∀ p, g (u.storageOffset + p) =
      slice t.bytes (S.elementSize * (t.storageOffset + p)) (S.elementSize * n') := by
    intro p
    rw [hg]
    simp only [Nat.add_sub_cancel_left]
  have hlength : ∀ q ∈ ps'.map (u.storageOffset + ·), (g q).length = S.elementSize * n' := by
    intro q hq
    obtain ⟨p, hp, rfl⟩ := List.mem_map.mp hq
    rw [hgp]
    rcases Nat.eq_zero_or_pos n' with rfl | hn
    · simp [slice]
    · apply length_slice
      rw [← Nat.mul_add, hsize]
      exact ht.block_inside hblocks hn hp
  obtain ⟨calls, hwalk⟩ := forEach_read (T := S) (s := ⟨u.bytes, { r with
    incoming := (ps'.map (u.storageOffset + ·)).flatMap g ++ rest, calls := m }⟩)
    (hfit.imp (by rintro rfl; rfl) id) hlength rfl
  have hflat : (ps'.map (u.storageOffset + ·)).flatMap g = ps'.flatMap fun p =>
      slice t.bytes (S.elementSize * (t.storageOffset + p)) (S.elementSize * n') := by
    rw [List.flatMap_map]
    congr 1
    funext p
    exact hgp p
  rw [hflat] at hwalk
  refine ⟨calls, (hread.trans (moveElements_eq hplan _ _)).trans (hwalk.trans ?_)⟩
  rw [copyBlocks, List.foldl_map, List.foldl_map]
  simp only [hgp, Nat.mul_add]

/-- Copying the blocks of a view copies its elements and nothing else. -/
theorem copyBlocks_view {S : ElementType} {u : THTensor} (ht : t.Wf T) (hu : u.Wf S)
    (hsize : S.elementSize = T.elementSize) (hsame : u.addresses = t.addresses)
    (hblocks : u.addresses = ps.flatMap fun p => (List.range n).map (p + ·)) {data : List UInt8}
    (hdata : data = copyBlocks (S.elementSize * n) (S.elementSize * t.storageOffset)
      (S.elementSize * u.storageOffset) t.bytes (ps.map (S.elementSize * ·)) u.bytes) :
    data.length = u.bytes.length ∧ u.elements S data = t.elements T t.bytes ∧
      ∀ j, (∀ a ∈ u.addresses, j ≠ u.storageOffset + a) → cell S data j = cell S u.bytes j := by
  rcases Nat.eq_zero_or_pos n with rfl | hn
  · have hnil : u.addresses = [] := by simp [hblocks]
    rw [Nat.mul_zero, copyBlocks_zero] at hdata
    rw [hdata, THTensor.elements, THTensor.elements, ← hsame, hnil]
    exact ⟨rfl, rfl, fun _ _ => rfl⟩
  · obtain ⟨hlength, hcopied, hkept⟩ := copyBlocks_elements S.elementSize t.bytes ps u.bytes
      (s := t.storageOffset) (d := u.storageOffset) (n := n)
      (fun p hp => by rw [hsize]; exact ht.block_inside (hsame.symm.trans hblocks) hn hp)
      (fun p hp => hu.block_inside hblocks hn hp)
    rw [← hdata] at hlength hcopied hkept
    have hmem : ∀ a, a ∈ u.addresses ↔ ∃ p ∈ ps, ∃ q < n, a = p + q := by
      intro a
      simp only [hblocks, List.mem_flatMap, List.mem_map, List.mem_range, eq_comm]
    refine ⟨hlength, ?_, fun j hj => hkept j fun p hp q hq => hj _ ((hmem _).mpr ⟨p, hp, q, hq, rfl⟩)⟩
    rw [THTensor.elements, THTensor.elements, ← hsame]
    apply List.map_congr_left
    intro a ha
    obtain ⟨p, hp, q, hq, rfl⟩ := (hmem a).mp ha
    rw [cell, cell, hcopied p hp q hq, hsize]

/-- A tensor that is written and read by a tensor of the same shape arrives, whatever
the two storages and offsets are and however the stream is split. -/
theorem tensor_roundTrip (th : TH) {S : ElementType} {u : THTensor} (ht : t.Wf T) (hu : u.Wf S)
    (hsize : S.elementSize = T.elementSize) (hdims : u.dims = t.dims) {sock : Socket} {s : Transfer}
    (hwrite : tensorWrite T th t sock = .ret s) :
    ∃ bs, s.sock.sent = sock.sent ++ bs ∧ ∀ r rest, r.incoming = bs ++ rest →
      ∃ data r', tensorRead S th u r = .ret ⟨data, r'⟩ ∧ r'.incoming = rest ∧
        u.elements S data = t.elements T t.bytes ∧ data.length = u.bytes.length ∧
        ∀ j, (∀ a ∈ u.addresses, j ≠ u.storageOffset + a) → cell S data j = cell S u.bytes j := by
  have hat := accepted_of_tensorWrite ht hwrite
  have hau := accepted_of_dims ht hu hsize hdims hat
  obtain ⟨m, heq⟩ := tensorWrite_eq ht hat sock
  rw [heq] at hwrite
  cases hwrite
  refine ⟨_, rfl, fun r rest hin => ?_⟩
  obtain ⟨ps, n, hplan, _⟩ := hau.2
  obtain ⟨calls, hread⟩ := tensorRead_copy ht hu hsize hdims hau hplan hin
  have hsame : u.addresses = t.addresses := by rw [THTensor.addresses, hdims, THTensor.addresses]
  obtain ⟨hlength, helements, hframe⟩ :=
    copyBlocks_view ht hu hsize hsame (plan_addresses hu hplan) rfl
  exact ⟨_, _, hread, rfl, helements, hlength, hframe⟩

end

/-! ### An overlapping view -/

/-- TH for shapes that no product overflows. -/
def TH.reference : TH where
  isContiguous dims := decide (Dense dims)
  nElement dims := if dims = [] then 0 else volume dims
  isContiguous_iff _ _ _ := decide_eq_true_iff
  nElement_nil := rfl
  nElement_eq _ hne _ := if_neg hne

def repeatedRow (data : List UInt8) (size offset : ℕ) : THTensor :=
  ⟨[(2, 0), (2, 1)], some ⟨data, size⟩, offset⟩

theorem repeatedRow_wf {T : ElementType} {data : List UInt8} {size offset : ℕ}
    (hdata : data.length = T.elementSize * size) (hsize : size < 2 ^ 63) (hin : offset + 1 < size) :
    (repeatedRow data size offset).Wf T where
  size_pos := by simp [repeatedRow]
  size_lt := by simp [repeatedRow]
  storage_wf := by
    rintro st ⟨⟩
    exact ⟨hdata, hsize⟩
  inside _ := ⟨_, rfl, hin⟩

theorem tensor_roundTrip_repeatedRow :
    ∃ bs, ∀ r rest, r.incoming = bs ++ rest → ∃ data r',
      tensorRead .char .reference (repeatedRow [0, 0, 0, 0] 4 2) r = .ret ⟨data, r'⟩ ∧
        r'.incoming = rest ∧
        (repeatedRow [0, 0, 0, 0] 4 2).elements .char data = [[8], [9], [8], [9]] := by
  have ht : (repeatedRow [7, 8, 9] 3 1).Wf .byte := repeatedRow_wf rfl (by norm_num) (by norm_num)
  have ha : accepted .reference .byte (repeatedRow [7, 8, 9] 3 1) :=
    ⟨by decide, [0, 0], 2, by decide, Or.inr (by decide)⟩
  obtain ⟨calls, hwrite⟩ := tensorWrite_eq ht ha ⟨[], [], fun _ => 0, 0⟩
  obtain ⟨bs, _, hread⟩ := tensor_roundTrip .reference ht (S := .char) (u := repeatedRow [0, 0, 0, 0] 4 2)
    (repeatedRow_wf rfl (by norm_num) (by norm_num)) rfl rfl hwrite
  refine ⟨bs, fun r rest hin => ?_⟩
  obtain ⟨data, r', hret, hrest, helements, _⟩ := hread r rest hin
  exact ⟨data, r', hret, hrest, helements.trans (by decide)⟩

end TorchIpc.Cliser
