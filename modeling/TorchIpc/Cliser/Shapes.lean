import TorchIpc.Cliser.Transfer

/-! When a tensor takes the place of another on the stream. A header does not say how
many dimensions it has, and the receiver reads as many words as its own tensor has. A
difference between two shapes is therefore found if they have the same number of
dimensions; if one shape begins with the other, what the receiver takes for
dimensions or for elements may be the other kind of bytes. -/

namespace TorchIpc.Cliser

open Words Strided

/-! ### Lengths -/

section
variable {T : ElementType} {th : TH} {t : THTensor} {ps : List ℕ} {n : ℕ}

/-- The bytes that a walk over the blocks moves. -/
theorem length_blocks (h : t.Wf T) (hplan : plan th t = some (ps, n)) :
    t.addresses.length = ps.length * n := by
  rw [plan_addresses h hplan]
  exact length_flatMap_of_forall ps fun p _ => by rw [List.length_map, List.length_range]

theorem length_elements (h : t.Wf T) :
    (t.elements T t.bytes).flatten.length = T.elementSize * t.addresses.length := by
  rw [THTensor.elements, ← List.flatMap_def, Nat.mul_comm]
  refine length_flatMap_of_forall _ fun a ha => ?_
  have := h.address_inside ha
  rw [Nat.mul_add, Nat.mul_one] at this
  exact length_slice this

end

/-- The words of a list of dimensions determine it. -/
theorem dimBytes_inj {ds es : List (ℕ × ℕ)} (hds : ∀ d ∈ ds, d.1 < 2 ^ 63 ∧ d.2 < 2 ^ 63)
    (hes : ∀ d ∈ es, d.1 < 2 ^ 63 ∧ d.2 < 2 ^ 63) (h : dimBytes ds = dimBytes es) : ds = es := by
  have hword : ∀ {a b : ℕ}, a < 2 ^ 63 → b < 2 ^ 63 → leBytes 8 a = leBytes 8 b → a = b := by
    intro a b ha hb hab
    rw [← leVal_leBytes (w := 8) (n := a) (by omega), hab, leVal_leBytes (by omega)]
  induction ds generalizing es with
  | nil =>
    cases es with
    | nil => rfl
    | cons e es =>
      have := congrArg List.length h
      rw [length_dimBytes, length_dimBytes] at this
      simp at this
  | cons d ds ih =>
    cases es with
    | nil =>
      have := congrArg List.length h
      rw [length_dimBytes, length_dimBytes] at this
      simp at this
    | cons e es =>
      have hd := hds d List.mem_cons_self
      have he := hes e List.mem_cons_self
      rw [dimBytes_cons, dimBytes_cons] at h
      obtain ⟨h1, h⟩ := List.append_inj h (by rw [length_leBytes, length_leBytes])
      obtain ⟨h2, h⟩ := List.append_inj h (by rw [length_leBytes, length_leBytes])
      rw [ih (fun x hx => hds x (List.mem_cons_of_mem _ hx))
        (fun x hx => hes x (List.mem_cons_of_mem _ hx)) h,
        Prod.ext (hword hd.1 he.1 h1) (hword hd.2 he.2 h2)]

theorem dimBytes_append (ds es : List (ℕ × ℕ)) :
    dimBytes (ds ++ es) = dimBytes ds ++ dimBytes es := by
  rw [dimBytes, List.flatMap_append, dimBytes, dimBytes]

/-! ### Confusion -/

/-- The two tensors have the same element size, contiguity and dimensions: as many, of
the same sizes and strides. -/
def SameShape (th : TH) (T S : ElementType) (t u : THTensor) : Prop :=
  T.elementSize = S.elementSize ∧ th.isContiguous t.dims = th.isContiguous u.dims ∧ t.dims = u.dims

/-- The receiver `u` takes the tensor `t` for one of its own shape. Either its
dimensions are the first ones of `t`, and it takes the words of the others for
elements; or its first dimensions are those of `t`, and the bytes behind them, of the
elements of `t` and of whatever follows it on the stream, are the words of the others
and enough elements. -/
structure Confused (th : TH) (T S : ElementType) (t u : THTensor) (rest : List UInt8) : Prop where
  elementSize_eq : T.elementSize = S.elementSize
  isContiguous_eq : th.isContiguous t.dims = th.isContiguous u.dims
  accepted : accepted th S u
  dims : (∃ d ds, t.dims = u.dims ++ d :: ds) ∨
    ∃ d ds more, u.dims = t.dims ++ d :: ds ∧
      (t.elements T t.bytes).flatten ++ rest = dimBytes (d :: ds) ++ more ∧
      S.elementSize * u.addresses.length ≤ more.length

section
variable {T S : ElementType} {th : TH} {t u : THTensor} {rest : List UInt8} {r : Socket}

/-- A header with the shape of the receiver and enough bytes behind it let a read
return. -/
theorem tensorRead_returns (hu : u.Wf S) (ha : accepted th S u) (hE : T.elementSize = S.elementSize)
    {more : List UInt8}
    (hin : r.incoming = leBytes 8 (headerWord T (th.isContiguous u.dims).toNat) ++
      (dimBytes u.dims ++ more))
    (hmore : S.elementSize * u.addresses.length ≤ more.length) :
    ∃ s, tensorRead S th u r = .ret s := by
  obtain ⟨hheader, ps, n, hplan, hfit⟩ := ha
  obtain ⟨m, hread⟩ := tensorRead_header hu hheader hE hin
  rw [hread, moveElements_eq hplan]
  apply forEach_read_ret (hfit.imp (by rintro rfl; rfl) id)
  rw [length_blocks hu hplan] at hmore
  rw [List.length_map]
  calc ps.length * (S.elementSize * n) = S.elementSize * (ps.length * n) := by ring
    _ ≤ more.length := hmore

theorem tensorRead_found (hu : u.Wf S) {bc : Bool} {more : List UInt8} {s : Transfer}
    (hin : r.incoming = leBytes 8 (headerWord T bc.toNat) ++ more) (hret : tensorRead S th u r = .ret s) :
    T.elementSize = S.elementSize ∧ bc = th.isContiguous u.dims ∧ accepted th S u ∧
      ∃ rest, more = dimBytes u.dims ++ rest ∧
        S.elementSize * u.addresses.length ≤ rest.length := by
  obtain ⟨hheader, hE, hbc, rest, hmore⟩ := tensorRead_ret hin hret
  rw [hmore, hbc] at hin
  obtain ⟨m, hread⟩ := tensorRead_header hu hheader hE hin
  rw [hread] at hret
  cases hplan : plan th u with
  | none =>
    obtain ⟨e, herror⟩ := moveElements_error hplan (readContiguous S)
      ⟨u.bytes, { r with incoming := rest, calls := m }⟩
    cases herror.symm.trans hret
  | some b =>
    obtain ⟨ps, n⟩ := b
    rw [moveElements_eq hplan] at hret
    obtain ⟨hfit, hlength⟩ := forEach_read_length hret
    rw [List.length_map] at hlength
    refine ⟨hE, hbc, ⟨hheader, ps, n, hplan, hfit.imp (fun h => List.map_eq_nil_iff.mp h) id⟩,
      rest, hmore, ?_⟩
    rw [length_blocks hu hplan]
    calc S.elementSize * (ps.length * n) = ps.length * (S.elementSize * n) := by ring
      _ ≤ rest.length := hlength

/-- Two streams of dimensions that go on differently: one list begins with the other. -/
theorem dims_of_append_eq {ds es : List (ℕ × ℕ)} {xs ys : List UInt8}
    (hds : ∀ d ∈ ds, d.1 < 2 ^ 63 ∧ d.2 < 2 ^ 63) (hes : ∀ d ∈ es, d.1 < 2 ^ 63 ∧ d.2 < 2 ^ 63)
    (h : dimBytes ds ++ xs = dimBytes es ++ ys) (hle : es.length ≤ ds.length) :
    ∃ more, ds = es ++ more ∧ ys = dimBytes more ++ xs := by
  have htake : (ds.take es.length).length = es.length := List.length_take_of_le hle
  rw [← List.take_append_drop es.length ds, dimBytes_append, List.append_assoc] at h
  obtain ⟨h1, h2⟩ := List.append_inj h (by rw [length_dimBytes, length_dimBytes, htake])
  have hprefix : ds.take es.length = es :=
    dimBytes_inj (fun d hd => hds d (List.mem_of_mem_take hd)) hes h1
  refine ⟨ds.drop es.length, ?_, h2.symm⟩
  conv_lhs => rw [← List.take_append_drop es.length ds, hprefix]

/-- A read of a tensor of another shape that returns is a confusion. -/
theorem confused_of_ret (ht : t.Wf T) (hu : u.Wf S) {s : Transfer}
    (hin : r.incoming = tensorHeader th T t ++ (t.elements T t.bytes).flatten ++ rest)
    (hret : tensorRead S th u r = .ret s) (hdiffer : ¬ SameShape th T S t u) :
    Confused th T S t u rest := by
  rw [tensorHeader, List.append_assoc, List.append_assoc] at hin
  obtain ⟨hE, hbc, ha, more, hmore, hlength⟩ := tensorRead_found hu hin hret
  refine ⟨hE, hbc, ha, ?_⟩
  have hne : t.dims ≠ u.dims := fun hdims => hdiffer ⟨hE, hbc, hdims⟩
  rcases Nat.le_total u.dims.length t.dims.length with hle | hle
  · obtain ⟨ds, hds, _⟩ := dims_of_append_eq ht.size_lt hu.size_lt hmore hle
    cases ds with
    | nil => exact absurd (hds.trans (List.append_nil _)) hne
    | cons d ds => exact Or.inl ⟨d, ds, hds⟩
  · obtain ⟨ds, hds, hwords⟩ := dims_of_append_eq hu.size_lt ht.size_lt hmore.symm hle
    cases ds with
    | nil => exact absurd (hds.trans (List.append_nil _)).symm hne
    | cons d ds => exact Or.inr ⟨d, ds, more, hds, hwords, hlength⟩

/-- A shape that begins with another one has at least as many elements. -/
theorem length_addresses_le (ht : t.Wf T) {more : List (ℕ × ℕ)} (h : t.dims = u.dims ++ more) :
    u.addresses.length ≤ t.addresses.length := by
  rw [THTensor.addresses]
  split_ifs with hnil
  · exact Nat.zero_le _
  · have hne : t.dims ≠ [] := by
      rw [h]
      simp [hnil]
    have hpos : 1 ≤ volume more :=
      volume_pos fun d hd => ht.size_pos d (by rw [h]; exact List.mem_append_right _ hd)
    rw [THTensor.addresses, if_neg hne, length_addresses, length_addresses, h, volume_append]
    exact Nat.le_mul_of_pos_right _ hpos

theorem ret_of_confused (ht : t.Wf T) (hu : u.Wf S)
    (hin : r.incoming = tensorHeader th T t ++ (t.elements T t.bytes).flatten ++ rest)
    (hc : Confused th T S t u rest) : ∃ s, tensorRead S th u r = .ret s := by
  rw [tensorHeader, hc.isContiguous_eq, List.append_assoc, List.append_assoc] at hin
  rcases hc.dims with ⟨d, ds, hdims⟩ | ⟨d, ds, more, hdims, hwords, hlength⟩
  · rw [hdims, dimBytes_append, List.append_assoc] at hin
    refine tensorRead_returns hu hc.accepted hc.elementSize_eq hin ?_
    have hle := length_addresses_le ht hdims
    have helements := length_elements ht
    simp only [List.length_append, helements, ← hc.elementSize_eq]
    have := Nat.mul_le_mul_left T.elementSize hle
    omega
  · rw [hwords, ← List.append_assoc (dimBytes t.dims), ← dimBytes_append, ← hdims] at hin
    exact tensorRead_returns hu hc.accepted hc.elementSize_eq hin hlength

/-- A read returns only for a tensor of its own shape, unless it confuses the two. -/
theorem shape_detected_iff (th : TH) (ht : t.Wf T) (hu : u.Wf S) {sock : Socket} {s : Transfer}
    (hwrite : tensorWrite T th t sock = .ret s) (rest : List UInt8) :
    ∃ bs, s.sock.sent = sock.sent ++ bs ∧
      ((∀ r s', r.incoming = bs ++ rest → tensorRead S th u r = .ret s' → SameShape th T S t u) ↔
        ¬ Confused th T S t u rest) := by
  obtain ⟨m, heq⟩ := tensorWrite_eq ht (accepted_of_tensorWrite ht hwrite) sock
  rw [heq] at hwrite
  cases hwrite
  refine ⟨_, rfl, fun h hc => ?_, fun hc r s' hin hret => ?_⟩
  · obtain ⟨s', hret⟩ := ret_of_confused (r := ⟨[], _, fun _ => 0, 0⟩) ht hu rfl hc
    have hdims := (h _ _ rfl hret).2.2
    rcases hc.dims with ⟨d, ds, hmore⟩ | ⟨d, ds, _, hmore, _⟩
    · rw [hdims] at hmore
      simp at hmore
    · rw [hdims] at hmore
      simp at hmore
  · by_contra hdiffer
    exact hc (confused_of_ret ht hu hin hret hdiffer)

end

/-! ### A column and a vector -/

/-- The tensor of these dimensions over a storage of two zero doubles. -/
def twoDoubles (dims : List (ℕ × ℕ)) : THTensor := ⟨dims, some ⟨List.replicate 16 0, 2⟩, 0⟩

theorem twoDoubles_wf {dims : List (ℕ × ℕ)} (hpos : ∀ d ∈ dims, 1 ≤ d.1)
    (hlt : ∀ d ∈ dims, d.1 < 2 ^ 63 ∧ d.2 < 2 ^ 63) (hreach : reach dims < 2) :
    (twoDoubles dims).Wf .double where
  size_pos := hpos
  size_lt := hlt
  storage_wf := by
    rintro st ⟨⟩
    exact ⟨rfl, by norm_num⟩
  inside _ := ⟨_, rfl, by simpa [twoDoubles] using hreach⟩

theorem twoDoubles_vector_accepted : accepted .reference .double (twoDoubles [(2, 1)]) :=
  ⟨by decide, [0], 2, by decide, Or.inr (by decide)⟩

theorem twoDoubles_column_accepted : accepted .reference .double (twoDoubles [(2, 1), (1, 1)]) :=
  ⟨by decide, [0], 2, by decide, Or.inr (by decide)⟩

/-- A vector of one element is told from a vector of two. -/
theorem shape_detected_vectors :
    ∃ bs, ∀ r s', r.incoming = bs → tensorRead .double .reference (twoDoubles [(1, 1)]) r =
      .ret s' →
      SameShape .reference .double .double (twoDoubles [(2, 1)]) (twoDoubles [(1, 1)]) := by
  have ht : (twoDoubles [(2, 1)]).Wf .double :=
    twoDoubles_wf (by simp) (by simp) (by simp [reach])
  obtain ⟨calls, hwrite⟩ := tensorWrite_eq ht twoDoubles_vector_accepted ⟨[], [], fun _ => 0, 0⟩
  obtain ⟨bs, _, hiff⟩ := shape_detected_iff (S := .double) (u := twoDoubles [(1, 1)]) .reference ht
    (twoDoubles_wf (by simp) (by simp) (by simp [reach])) hwrite []
  refine ⟨bs, fun r s' hin hret => hiff.mpr ?_ r s' (hin.trans (List.append_nil bs).symm) hret⟩
  rintro ⟨-, -, -, ⟨d, ds, hdims⟩ | ⟨d, ds, more, hdims, -⟩⟩
  · simp [twoDoubles] at hdims
  · simp [twoDoubles] at hdims

/-- A vector of two elements takes the two words of the second dimension of a column
for its elements. -/
theorem column_read_as_vector :
    ∃ s r s', tensorWrite .double .reference (twoDoubles [(2, 1), (1, 1)]) ⟨[], [], fun _ => 0, 0⟩ =
      .ret s ∧
      r.incoming = s.sock.sent ∧
      tensorRead .double .reference (twoDoubles [(2, 1)]) r = .ret s' ∧
      ¬ SameShape .reference .double .double (twoDoubles [(2, 1), (1, 1)]) (twoDoubles [(2, 1)]) := by
  have ht : (twoDoubles [(2, 1), (1, 1)]).Wf .double :=
    twoDoubles_wf (by simp) (by simp) (by simp [reach])
  have hu : (twoDoubles [(2, 1)]).Wf .double :=
    twoDoubles_wf (by simp) (by simp) (by simp [reach])
  obtain ⟨calls, hwrite⟩ := tensorWrite_eq ht twoDoubles_column_accepted ⟨[], [], fun _ => 0, 0⟩
  have hc : Confused .reference .double .double (twoDoubles [(2, 1), (1, 1)]) (twoDoubles [(2, 1)])
      [] :=
    ⟨rfl, by decide, twoDoubles_vector_accepted, Or.inl ⟨(1, 1), [], rfl⟩⟩
  obtain ⟨s', hret⟩ := ret_of_confused (r := ⟨[], _, fun _ => 0, 0⟩) ht hu rfl hc
  refine ⟨_, _, s', hwrite, ?_, hret, ?_⟩
  · simp
  · rintro ⟨-, -, hdims⟩
    simp [twoDoubles] at hdims

end TorchIpc.Cliser
