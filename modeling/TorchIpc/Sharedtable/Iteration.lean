import TorchIpc.Sharedtable.Failures

/-! `pairs` on a shared table. Each call of `sharedtable_next` takes the key that the last one
has returned back to the shared state, where `lua_next` looks for it. A key that is compared
by its identity is new there, so that it is never found, and the error ends the process. All
other keys are found, and everything fits into the buffer as it did when it was written. -/

namespace TorchIpc.Sharedtable

open Runs

section
variable {P : Type}

/-! ### Iteration -/

/-- The kinds of keys that are equal when their values are. -/
def byValue : Value P → Bool
  | .boolean _ | .number _ | .integer _ | .string _ => true
  | _ => false

variable (lua : Lua P)

/-- The loop over `sharedtable_next` from a key: the entries it goes through until nil is
returned. -/
inductive Visits (self : Value P) : SharedTable P → Value P → List (Value P × Value P) →
    SharedTable P → Prop where
  | done {s k s'} : Yields (sharedtableNext lua s [k, self]) (.returns [.nil] s') →
      Visits self s k [] s'
  | step {s k k' v s₁ es s'} : Yields (sharedtableNext lua s [k, self]) (.returns [k', v] s₁) →
      Visits self s₁ k' es s' → Visits self s k ((k', v) :: es) s'

/-- A call of `sharedtable_write` that returns. -/
inductive WriteStep : SharedTable P → Value P × Value P → SharedTable P → Prop where
  | write {s k v self results s'} : k.Wf lua → v.Wf lua →
      Yields (sharedtableWrite lua s [v, k, self]) (.returns results s') → WriteStep s (k, v) s'

variable {lua}

/-! ### What has been written -/

/-- A value of the shared state, which fits into a buffer of this capacity. -/
structure Stored (lua : Lua P) (cb : ℕ) (v : Value P) : Prop where
  good : Good lua v
  fits : (encode lua false false v).length ≤ cb
  same : v.received = v

theorem Stored.mono {cb cb' : ℕ} {v : Value P} (h : Stored lua cb v) (hle : cb ≤ cb') :
    Stored lua cb' v :=
  ⟨h.good, h.fits.trans hle, h.same⟩

theorem stored_nil {cb : ℕ} (hcb : 1 ≤ cb) : Stored lua cb (.nil : Value P) := ⟨good_nil, hcb, rfl⟩

theorem Stored.sends {cb : ℕ} {v : Value P} (h : Stored lua cb v) (hcb : 1 ≤ cb) (inc : ℕ) :
    Sends lua inc v cb cb := by
  have hnone : overflow (script lua false false v).items cb = none := overflow_eq_none.mpr h.fits
  refine ⟨hcb, 0, ⟨nofun, Or.inr ?_⟩, ⟨hnone, h.good.2⟩, rfl⟩
  rw [roomAt_zero, h.good.2]
  exact ⟨hnone, nofun⟩

theorem Stored.never {cb : ℕ} {v : Value P} (h : Stored lua cb v) (inc n : ℕ)
    (hn : (script lua false false v).Attempted cb inc n) :
    overflow (script lua false false v).items (roomAt cb inc n) ≠ some .upvals := by
  have hnone : overflow (script lua false false v).items cb = none := overflow_eq_none.mpr h.fits
  cases n with
  | zero =>
    rw [roomAt_zero, hnone]
    exact nofun
  | succ n => exact absurd hnone (hn 0 (Nat.succ_pos n))

theorem Stored.norm {cb : ℕ} {k : Value P} (h : Stored lua cb k) :
    Stored lua cb (k.normKey lua.versionNum) := by
  cases k with
  | number bits =>
    have hfits : 9 ≤ cb := h.fits
    refine ⟨h.good.norm, ?_, ?_⟩
    · rw [Value.normKey]
      split_ifs
      · split <;> exact hfits
      · exact hfits
    · rw [Value.normKey]
      split_ifs
      · split <;> rfl
      · rfl
  | _ => exact h

/-- A value that was moved fits into the buffer it was moved through. -/
theorem Sends.stored {v : Value P} {inc cb cb' : ℕ} (hwf : v.Wf lua) (hs : Sends lua inc v cb cb') :
    cb ≤ cb' ∧ Stored lua cb' v.received := by
  have hgood := hs.good hwf
  have hle := hs.le
  obtain ⟨-, K, -, hstored, rfl⟩ := hs
  refine ⟨hle, hgood, ?_, v.received_received⟩
  rw [encode, script_received v hwf hstored.2]
  exact overflow_eq_none.mp hstored.1

/-- Only the table is on the shared stack, its keys are different, and each entry fits into the
buffer, which is empty. -/
structure Written (lua : Lua P) (s : SharedTable P) (es : List (Value P × Value P)) : Prop where
  empty : Empty s.fx
  stack : s.stack = [.table es .none]
  tidy : Assoc.Tidy Value.sameKey Value.isNil
    (fun k => Stored lua s.fx.rb.cb k ∧ k.normKey lua.versionNum = k ∧ k.badKey = false) es
  values : ∀ e ∈ es, Stored lua s.fx.rb.cb e.2

theorem written_new (lua : Lua P) (size inc : ℕ) :
    Written lua (⟨⟨ringbufferCreate size, []⟩, [.table [] .none], inc⟩ : SharedTable P) [] :=
  ⟨⟨Ringbuffer.create_sound size, Ringbuffer.create_content size⟩, rfl, .nil, nofun⟩

theorem Written.sane {s : SharedTable P} {es : List (Value P × Value P)} (h : Written lua s es) :
    Sane lua s :=
  ⟨h.empty, [], es, h.stack, nofun, fun e he => ⟨(h.tidy.key e he).1.good, (h.values e he).good⟩⟩

/-- A key and a value that can be moved are stored. -/
theorem write_stores (hl : lua.Rebuilds) {s : SharedTable P} {es : List (Value P × Value P)}
    (h : Written lua s es) {k v : Value P} (self : Value P) (hk : k.Wf lua) (hv : v.Wf lua)
    (hbad : k.badKey = false) {cb cb' : ℕ} (hsk : Sends lua s.sizeIncrement k s.fx.rb.cb cb)
    (hsv : Sends lua s.sizeIncrement v cb cb') :
    ∃ fx, Empty fx ∧ fx.rb.cb = cb' ∧ Yields (sharedtableWrite lua s [v, k, self])
      (.returns [] ⟨fx, [.table (setEntry (k.received.normKey lua.versionNum) v.received es) .none],
      s.sizeIncrement⟩) := by
  have hle : 2 ≤ [v, k, self].length := show 2 ≤ 3 by decide
  obtain ⟨m, fx, hempty, hcb, n, hn⟩ := take_sends hl hk h.empty hsk 0 hle rfl
  have hlen : 3 ≤ (List.replicate m k ++ [v, k, self]).length := by
    rw [List.length_append]
    exact Nat.le_add_left _ _
  have hat : (List.replicate m k ++ [v, k, self])[(List.replicate m k ++ [v, k, self]).length - 3]? = some v :=
    getElem?_pushed _ le_rfl
  obtain ⟨m', fx', hempty', hcb', n', hn'⟩ :=
    take_sends hl hv (s := ⟨fx, k.received :: s.stack, s.sizeIncrement⟩) hempty
    (hcb.symm ▸ hsv) 1 hlen hat
  have hset : luaSettableAt lua (v.received :: k.received :: s.stack) =
      .stack [.table (setEntry (k.received.normKey lua.versionNum) v.received es) .none] := by
    rw [h.stack, ← List.nil_append [Value.table es .none], luaSettableAt_above, received_badKey,
      hbad, if_neg Bool.false_ne_true]
    rfl
  refine ⟨fx', hempty', hcb', max n n', fun fuel hf => ?_⟩
  have hkey := hn fuel (by omega)
  have hvalue := hn' fuel (by omega)
  simp only [sharedtableWrite, writeKey, writeValue, hkey, hvalue, bind, Except.bind, SharedTable.apply, hset]
  rfl

theorem write_sent (hl : lua.Rebuilds) {s s' : SharedTable P} {es : List (Value P × Value P)}
    (h : Written lua s es) {k v self : Value P} (hk : k.Wf lua) (hv : v.Wf lua) {results : List (Value P)}
    (hy : Yields (sharedtableWrite lua s [v, k, self]) (.returns results s')) : k.badKey = false ∧
      ∃ cb cb', Sends lua s.sizeIncrement k s.fx.rb.cb cb ∧ Sends lua s.sizeIncrement v cb cb' := by
  have hproper : Proper lua s (.write k v) := by
    by_contra hnot
    obtain ⟨n, hn⟩ := (write_settled hl h.sane hk hv self).2 hnot
    obtain ⟨n', hn'⟩ := hy
    have hharm := hn (max n n') (by omega)
    rw [TableOp.run, hn' _ (by omega)] at hharm
    exact hharm trivial
  have hle : 2 ≤ [v, k, self].length := show 2 ≤ 3 by decide
  rcases hproper with hunsendable | ⟨cb, hsk, hunsendable | ⟨hbad, cb', hsv⟩⟩
  -- a refused key or value ends in an error
  · obtain ⟨code, fx, -, n, hn⟩ := take_refused lua hunsendable h.empty 0 hle rfl
    have herror : Yields (sharedtableWrite lua s [v, k, self]) (.error code ⟨fx, s.stack, s.sizeIncrement⟩) := by
      refine ⟨n, fun fuel hf => ?_⟩
      rw [sharedtableWrite, writeKey, hn fuel hf]
      rfl
    cases herror.unique hy
  · obtain ⟨m, fx, hempty, -, n, hn⟩ := take_sends hl hk h.empty hsk 0 hle rfl
    have hlen : 3 ≤ (List.replicate m k ++ [v, k, self]).length := by
      rw [List.length_append]
      exact Nat.le_add_left _ _
    obtain ⟨code, fx', -, n', hn'⟩ :=
      take_refused lua hunsendable (s := ⟨fx, k.received :: s.stack, s.sizeIncrement⟩) hempty 1
      hlen (getElem?_pushed _ le_rfl)
    have herror : Yields (sharedtableWrite lua s [v, k, self]) (.error code ⟨fx', s.stack, s.sizeIncrement⟩) := by
      refine ⟨max n n', fun fuel hf => ?_⟩
      have hkey := hn fuel (by omega)
      have hvalue := hn' fuel (by omega)
      simp only [sharedtableWrite, writeKey, writeValue, hkey, hvalue, bind, Except.bind]
      rfl
    cases herror.unique hy
  · exact ⟨hbad, cb, cb', hsk, hsv⟩

/-- A write leaves such a table, and has made the buffer no smaller. -/
theorem write_written (hl : lua.Rebuilds) {s s' : SharedTable P} {es : List (Value P × Value P)}
    (h : Written lua s es) {e : Value P × Value P} (hstep : WriteStep lua s e s') :
    (∃ es', Written lua s' es') ∧ 1 ≤ s.fx.rb.cb ∧ s.fx.rb.cb ≤ s'.fx.rb.cb := by
  cases hstep with
  | @write k v _ _ _ hk hv hy =>
    obtain ⟨hbad, cb, cb', hsk, hsv⟩ := write_sent hl h hk hv hy
    obtain ⟨fx, hempty, hcb, hstores⟩ := write_stores hl h _ hk hv hbad hsk hsv
    have heq := hy.unique hstores
    injection heq with _ heq
    subst heq
    obtain ⟨hle, hstoredk⟩ := hsk.stored hk
    obtain ⟨hle', hstoredv⟩ := hsv.stored hv
    subst hcb
    have hkey := (hstoredk.mono hle').norm
    refine ⟨⟨_, hempty, rfl, ?_, fun e he => ?_⟩, hsk.1, hle.trans hle'⟩
    · rw [setEntry_eq_update]
      refine Assoc.Tidy.update ⟨fun e he => ?_, h.tidy.present, h.tidy.distinct⟩ ⟨hkey, normKey_normKey _ _, ?_⟩ _
      · obtain ⟨hstored, hnorm⟩ := h.tidy.key e he
        exact ⟨hstored.mono (hle.trans hle'), hnorm⟩
      · rw [← received_badKey] at hbad
        cases hr : k.received with
        | number bits =>
          rw [hr] at hbad
          rw [Value.normKey]
          split_ifs
          · split
            · rfl
            · exact hbad
          · exact hbad
        | _ => rwa [hr] at hbad
    · rw [setEntry_eq_update] at he
      rcases Assoc.mem_update he with he | ⟨-, hvalue, -⟩
      · exact (h.values e he).mono (hle.trans hle')
      · rw [hvalue]
        exact hstoredv

/-! ### One step of the iteration -/

def entryBehind (n : ℕ) (k : Value P) (es : List (Value P × Value P)) :
    Option (Option (Value P × Value P)) :=
  if k.isNil then some es.head? else entryAfter (k.normKey n) es

variable {s : SharedTable P} {es : List (Value P × Value P)} {k : Value P}

theorem next_takes (hl : lua.Rebuilds) (h : Written lua s es) (hcb : 1 ≤ s.fx.rb.cb) (hk : Stored lua s.fx.rb.cb k)
    (self : Value P) : ∃ fx, Empty fx ∧ fx.rb.cb = s.fx.rb.cb ∧
      Yields (s.take lua [k, self] 2 0) (.ok ([k, self], ⟨fx, k :: s.stack, s.sizeIncrement⟩)) := by
  obtain ⟨fx, hempty, hsame, n, hn⟩ :=
    moveValue_quiet hl hk.good.1 s.stack h.empty (hk.sends hcb s.sizeIncrement)
    (Or.inl (show 2 = [k, self].length from rfl)) le_rfl rfl
  refine ⟨fx, hempty, hsame, n, fun fuel hf => ?_⟩
  rw [SharedTable.take, hn fuel hf, hk.same]

/-- A value of the shared stack goes to the calling state. -/
theorem gives_stored (hl : lua.Rebuilds) (h : Empty s.fx) (hcb : 1 ≤ s.fx.rb.cb) {w : Value P}
    (hw : Stored lua s.fx.rb.cb w) (L : List (Value P)) {index : ℕ} (pop : ℕ) (hi : index ≤ s.stack.length)
    (hget : s.stack[s.stack.length - index]? = some w) : ∃ fx, Empty fx ∧ fx.rb.cb = s.fx.rb.cb ∧
      Yields (s.give lua L index pop) (.ok (w :: L, ⟨fx, s.stack, s.sizeIncrement⟩)) := by
  obtain ⟨fx, hempty, hsame, n, hn⟩ :=
    moveValue_quiet hl hw.good.1 L h (hw.sends hcb s.sizeIncrement)
    (Or.inr fun m => hw.never s.sizeIncrement m) hi hget
  refine ⟨fx, hempty, hsame, n, fun fuel hf => ?_⟩
  rw [SharedTable.give, hn fuel hf, hw.same]

theorem luaNextAt_table (k : Value P) (es : List (Value P × Value P)) :
    luaNextAt lua [k, .table es .none] =
    match entryBehind lua.versionNum k es with
    | some (some e) => (.stack [e.2, e.1, .table es .none], true)
    | some none => (.stack [.table es .none], false)
    | none => (.raised, false) := by
  simp only [luaNextAt, List.getLast?_cons_cons, List.getLast?_singleton]
  rw [entryBehind]
  generalize (if k.isNil then some es.head? else entryAfter (k.normKey lua.versionNum) es) = found
  rcases found with _ | _ | e <;> rfl

theorem Written.with_buffer (h : Written lua s es) {fx : Effects} (hempty : Empty fx) (hcb : fx.rb.cb = s.fx.rb.cb) :
    Written lua ⟨fx, s.stack, s.sizeIncrement⟩ es :=
  ⟨hempty, h.stack, hcb ▸ h.tidy, hcb ▸ h.values⟩

/-- A key that is not in the table ends the process. -/
theorem next_panics (hl : lua.Rebuilds) (h : Written lua s es) (hcb : 1 ≤ s.fx.rb.cb) (hk : Stored lua s.fx.rb.cb k)
    (self : Value P) (hfound : entryBehind lua.versionNum k es = none) :
    Yields (sharedtableNext lua s [k, self]) .panicked := by
  obtain ⟨fx, -, -, n, hn⟩ := next_takes hl h hcb hk self
  have hnext : luaNextAt lua (k :: s.stack) = (.raised, false) := by
    rw [h.stack, luaNextAt_table, hfound]
  refine ⟨n, fun fuel hf => ?_⟩
  have hkey := hn fuel hf
  simp only [sharedtableNext, hkey, SharedTable.apply, hnext, bind, Except.bind]
  rfl

theorem next_finishes (hl : lua.Rebuilds) (h : Written lua s es) (hcb : 1 ≤ s.fx.rb.cb) (hk : Stored lua s.fx.rb.cb k)
    (self : Value P) (hfound : entryBehind lua.versionNum k es = some none) :
    ∃ s', Written lua s' es ∧ s'.fx.rb.cb = s.fx.rb.cb ∧
      Yields (sharedtableNext lua s [k, self]) (.returns [.nil] s') := by
  obtain ⟨fx, hempty, hsame, n, hn⟩ := next_takes hl h hcb hk self
  have hnext : luaNextAt lua (k :: s.stack) = (.stack s.stack, false) := by
    rw [h.stack, luaNextAt_table, hfound]
  refine ⟨⟨fx, s.stack, s.sizeIncrement⟩, h.with_buffer hempty hsame, hsame, n, fun fuel hf => ?_⟩
  have hkey := hn fuel hf
  simp only [sharedtableNext, hkey, SharedTable.apply, hnext, bind, Except.bind]
  rfl

/-- Behind every other key there is an entry, which is returned. -/
theorem next_returns (hl : lua.Rebuilds) (h : Written lua s es) (hcb : 1 ≤ s.fx.rb.cb) (hk : Stored lua s.fx.rb.cb k)
    (self : Value P) {e : Value P × Value P} (he : e ∈ es) (hfound : entryBehind lua.versionNum k es = some (some e)) :
    ∃ s', Written lua s' es ∧ s'.fx.rb.cb = s.fx.rb.cb ∧
      Yields (sharedtableNext lua s [k, self]) (.returns [e.1, e.2] s') := by
  obtain ⟨fx, hempty, hsame, n, hn⟩ := next_takes hl h hcb hk self
  have hnext : luaNextAt lua (k :: s.stack) = (.stack (e.2 :: e.1 :: s.stack), true) := by
    rw [h.stack, luaNextAt_table, hfound]
  have hlen : (e.2 :: e.1 :: s.stack).length = 3 := by
    rw [h.stack]
    rfl
  have hcb₁ : 1 ≤ fx.rb.cb := hsame.symm ▸ hcb
  obtain ⟨fx₁, hempty₁, hsame₁, n₁, hn₁⟩ :=
    gives_stored hl (s := ⟨fx, e.2 :: e.1 :: s.stack, s.sizeIncrement⟩) hempty hcb₁
    (hsame.symm ▸ (h.tidy.key e he).1) [k, self] 2 (show 2 ≤ (e.2 :: e.1 :: s.stack).length by omega)
    (by rw [hlen]; rfl)
  have hsame₁' : fx₁.rb.cb = s.fx.rb.cb := hsame₁.trans hsame
  obtain ⟨fx₂, hempty₂, hsame₂, n₂, hn₂⟩ :=
    gives_stored hl (s := ⟨fx₁, e.2 :: e.1 :: s.stack, s.sizeIncrement⟩) hempty₁
    (hsame₁'.symm ▸ hcb : 1 ≤ fx₁.rb.cb) (hsame₁'.symm ▸ h.values e he) [e.1, k, self] 2
    (show 3 ≤ (e.2 :: e.1 :: s.stack).length by omega) (by rw [hlen]; rfl)
  refine ⟨⟨fx₂, s.stack, s.sizeIncrement⟩, h.with_buffer hempty₂ (hsame₂.trans hsame₁'), hsame₂.trans hsame₁',
    max n (max n₁ n₂), fun fuel hf => ?_⟩
  have hkey := hn fuel (by omega)
  have hfirst := hn₁ fuel (by omega)
  have hsecond := hn₂ fuel (by omega)
  simp only [sharedtableNext, hkey, SharedTable.apply, hnext, bind, Except.bind, hfirst, hsecond]
  rfl

/-! ### The whole iteration -/

theorem sameKey_of_identity {k : Value P} (hk : byValue k = false) (a : Value P) :
    a.sameKey k = false := by
  cases k <;> first | (cases a <;> rfl) | cases hk

/-- A key that is compared by its identity is in no entry. -/
theorem entryBehind_identity (n : ℕ) (hk : byValue k = false) (hnil : k.isNil = false) :
    entryBehind n k es = none := by
  have hnorm : k.normKey n = k := by
    cases k with
    | number bits => cases hk
    | _ => rfl
  rw [entryBehind, hnil, if_neg Bool.false_ne_true, hnorm]
  induction es with
  | nil => rfl
  | cons e es ih => rw [entryAfter, sameKey_of_identity hk, if_neg Bool.false_ne_true, ih]

theorem entryBehind_mem {n : ℕ} {e : Value P × Value P} (he : entryBehind n k es = some (some e)) :
    e ∈ es := by
  have hafter : ∀ es : List (Value P × Value P), entryAfter (k.normKey n) es = some (some e) →
      e ∈ es := by
    intro es hes
    induction es with
    | nil => cases hes
    | cons e' es ih =>
      rw [entryAfter] at hes
      split_ifs at hes
      · exact List.mem_cons_of_mem _ (List.mem_of_head? (Option.some.inj hes))
      · exact List.mem_cons_of_mem _ (ih hes)
  rw [entryBehind] at he
  split_ifs at he
  · exact List.mem_of_head? (Option.some.inj he)
  · exact hafter es he

/-- Behind a key that is compared by its value is the entry that follows. -/
theorem Written.entryBehind (h : Written lua s es) {before after : List (Value P × Value P)}
    {e : Value P × Value P} (hes : es = before ++ e :: after) (he : byValue e.1 = true) :
    entryBehind lua.versionNum e.1 es = some after.head? := by
  obtain ⟨hstored, hnorm, hbad⟩ :=
    h.tidy.key e (by rw [hes]; exact List.mem_append_right _ List.mem_cons_self)
  have hdistinct := h.tidy.distinct
  have hkey : IsKey lua e.1 := by
    have hnode := hstored.good.1 _ e.1.self_mem_parts
    cases hk : e.1 <;> rw [hk] at he hbad hnode <;> first | exact hbad | exact hnode | trivial
  rw [Sharedtable.entryBehind, isNil_of_not_badKey hbad, if_neg Bool.false_ne_true, hnorm]
  rw [hes] at hdistinct ⊢
  clear hes
  induction before with
  | nil => rw [List.nil_append, entryAfter, (sameKey_equivalence lua).refl e.1 hkey, if_pos rfl]
  | cons e' before ih =>
    rw [List.cons_append, List.map_cons, List.pairwise_cons] at hdistinct
    have hne : e'.1.sameKey e.1 = false := hdistinct.1 e.1 (by simp)
    rw [List.cons_append, entryAfter, hne, if_neg Bool.false_ne_true, ih hdistinct.2]

/-- The entries behind a key that is found are all visited, when their keys are compared by
their values. -/
theorem visits_rest (hl : lua.Rebuilds) (self : Value P) {after : List (Value P × Value P)}
    (hkeys : ∀ e ∈ after, byValue e.1 = true) (before : List (Value P × Value P)) (h : Written lua s (before ++ after))
    (hcb : 1 ≤ s.fx.rb.cb) (hk : Stored lua s.fx.rb.cb k)
    (hfound : entryBehind lua.versionNum k (before ++ after) = some after.head?) :
    ∃ s', Visits lua self s k after s' ∧ Written lua s' (before ++ after) ∧
      s'.fx.rb.cb = s.fx.rb.cb := by
  induction after generalizing before s k with
  | nil =>
    obtain ⟨s', h', hsame, hy⟩ := next_finishes hl h hcb hk self hfound
    exact ⟨s', .done hy, h', hsame⟩
  | cons e after ih =>
    obtain ⟨he, hrest⟩ := List.forall_mem_cons.mp hkeys
    have hmem : e ∈ before ++ e :: after := List.mem_append_right _ List.mem_cons_self
    obtain ⟨s₁, h₁, hsame, hy⟩ := next_returns hl h hcb hk self hmem hfound
    have hassoc : before ++ e :: after = (before ++ [e]) ++ after := by
      rw [List.append_assoc, List.singleton_append]
    have hbehind := h₁.entryBehind rfl he
    rw [hassoc] at h₁ hbehind ⊢
    obtain ⟨s', hvisits, h', hsame'⟩ := ih hrest (before ++ [e]) h₁ (hsame.symm ▸ hcb)
      (h₁.tidy.key e (hassoc ▸ hmem)).1 hbehind
    exact ⟨s', .step hy hvisits, h', hsame'.trans hsame⟩

/-- What is visited has keys that are compared by their values. -/
theorem Visits.keys_byValue (hl : lua.Rebuilds) {self : Value P}
    {visited : List (Value P × Value P)} {s' : SharedTable P} (hvisits : Visits lua self s k visited
    s') (h : Written lua s es) (hcb : 1 ≤ s.fx.rb.cb) (hk : Stored lua s.fx.rb.cb k) :
    (k.isNil = false → byValue k = true) ∧ ∀ e ∈ visited, byValue e.1 = true := by
  have hfound : ∀ {s k results s'}, Written lua s es → 1 ≤ s.fx.rb.cb → Stored lua s.fx.rb.cb k →
      Yields (sharedtableNext lua s [k, self]) (.returns results s') → k.isNil = false →
        byValue k = true := by
    intro s k results s' h hcb hk hy hnil
    by_contra hnot
    cases (next_panics hl h hcb hk self (entryBehind_identity _ (Bool.eq_false_iff.mpr hnot) hnil)).unique hy
  induction hvisits with
  | done hy => exact ⟨hfound h hcb hk hy, nofun⟩
  | @step s k k' v s₁ visited s' hy _ ih =>
    refine ⟨hfound h hcb hk hy, ?_⟩
    cases hbehind : entryBehind lua.versionNum k es with
    | none => cases (next_panics hl h hcb hk self hbehind).unique hy
    | some e =>
      cases e with
      | none =>
        obtain ⟨s₂, -, -, hy₂⟩ := next_finishes hl h hcb hk self hbehind
        cases hy₂.unique hy
      | some e =>
        have hmem := entryBehind_mem hbehind
        obtain ⟨s₂, h₂, hsame, hy₂⟩ := next_returns hl h hcb hk self hmem hbehind
        cases hy₂.unique hy
        obtain ⟨hstored, -, hbad⟩ := h₂.tidy.key e hmem
        obtain ⟨hkey, hrest⟩ := ih h₂ (hsame.symm ▸ hcb) hstored
        exact List.forall_mem_cons.mpr ⟨hkey (isNil_of_not_badKey hbad), hrest⟩

/-- Into a buffer without a capacity the first key cannot be written. -/
theorem next_no_capacity (h : Empty s.fx) (hcb : s.fx.rb.cb = 0) (self : Value P) {results : List (Value P)}
    {s' : SharedTable P} : ¬ Yields (sharedtableNext lua s [.nil, self]) (.returns results s') := by
  rintro ⟨n, hn⟩
  have hsends : ¬ ∃ cb, Sends lua s.sizeIncrement .nil s.fx.rb.cb cb := by
    rintro ⟨cb, hpos, -⟩
    omega
  have hle : 2 ≤ [Value.nil, self].length := le_rfl
  have hsendable : ¬ Unsendable (.nil : Value P) := id
  obtain ⟨o, ho, hharm⟩ := take_spoils hsendable h hsends 0 hle rfl n
  have hret := hn n le_rfl
  simp only [sharedtableNext, ho, bind, Except.bind, outcome] at hret
  rw [hret] at hharm
  exact hharm s h.2 trivial

/-- The loop of `pairs` goes through the table from beginning to end, and leaves the shared
stack and the buffer as they were. -/
def Iterated (lua : Lua P) (self : Value P) (s : SharedTable P) (es : List (Value P × Value P)) :
    Prop :=
  ∃ s', Visits lua self s .nil es s' ∧ s'.stack = s.stack ∧ s'.fx.rb.content = s.fx.rb.content ∧
    s'.fx.rb.cb = s.fx.rb.cb

theorem iterated_iff (hl : lua.Rebuilds) (self : Value P) (h : Written lua s es) :
    Iterated lua self s es ↔ 1 ≤ s.fx.rb.cb ∧ ∀ e ∈ es, byValue e.1 = true := by
  constructor
  · rintro ⟨s', hvisits, -, -, -⟩
    rcases Nat.eq_zero_or_pos s.fx.rb.cb with hzero | hcb
    · cases hvisits with
      | done hy => exact absurd hy (next_no_capacity h.empty hzero self)
      | step hy _ => exact absurd hy (next_no_capacity h.empty hzero self)
    · exact ⟨hcb, (hvisits.keys_byValue hl h hcb (stored_nil hcb)).2⟩
  · rintro ⟨hcb, hkeys⟩
    obtain ⟨s', hvisits, h', hsame⟩ := visits_rest hl self hkeys [] h hcb (stored_nil hcb) rfl
    exact ⟨s', hvisits, h'.stack.trans h.stack.symm, h'.empty.2.trans h.empty.2.symm, hsame⟩

/-- Whatever has been written into a new shared table: the iteration is complete exactly when
the table has a buffer, and no key is compared by its identity. -/
theorem pairs_complete_iff (hl : lua.Rebuilds) {size inc : ℕ} {writes : List (Value P × Value P)}
    (hrun : Run (WriteStep lua) ⟨⟨ringbufferCreate size, []⟩, [.table [] .none], inc⟩ writes s)
    (self : Value P) :
    ∃ es, s.stack = [.table es .none] ∧
      (Iterated lua self s es ↔ 1 ≤ size ∧ ∀ e ∈ es, byValue e.1 = true) := by
  have hinv : (∃ es, Written lua s es) ∧ (1 ≤ s.fx.rb.cb ↔ 1 ≤ size) := by
    refine hrun.invariant (I := fun _ s => (∃ es, Written lua s es) ∧ (1 ≤ s.fx.rb.cb ↔ 1 ≤ size))
      ⟨⟨[], written_new lua size inc⟩, Iff.rfl⟩ fun _ s e s' hs hstep => ?_
    obtain ⟨⟨es, hes⟩, hcb⟩ := hs
    obtain ⟨hes', hpos, hle⟩ := write_written hl hes hstep
    exact ⟨hes', iff_of_true (hpos.trans hle) (hcb.mp hpos)⟩
  obtain ⟨⟨es, h⟩, hcb⟩ := hinv
  exact ⟨es, h.stack, by rw [iterated_iff hl self h, hcb]⟩

end

def newTable : SharedTable UInt8 := ⟨⟨ringbufferCreate 64, []⟩, [.table [] .none], 64⟩

theorem sends_of_fits {v : Value UInt8} {n : ℕ} (hn : 1 ≤ n) (hfin : (script sampleLua false false v).fin = .ok)
    (hfits : (encode sampleLua false false v).length ≤ n) : Sends sampleLua n v n n := by
  have hnone : overflow (script sampleLua false false v).items n = none :=
    overflow_eq_none.mpr hfits
  refine ⟨hn, 0, ⟨nofun, Or.inr ?_⟩, ⟨hnone, hfin⟩, rfl⟩
  rw [roomAt_zero, hfin]
  exact ⟨hnone, nofun⟩

/-- What is written of a key that is compared by its value is iterated over. -/
theorem pairs_complete_iff_boolean :
    ∃ s, Run (WriteStep sampleLua) newTable [(.boolean true, .boolean false)] s ∧
    Iterated sampleLua .nil s [(.boolean true, .boolean false)] := by
  have hwf : ∀ b, (Value.boolean b : Value UInt8).Wf sampleLua :=
    fun b w hw => List.mem_singleton.mp hw ▸ trivial
  have hsends : ∀ b, Sends sampleLua newTable.sizeIncrement (.boolean b) 64 64 := fun b =>
    sends_of_fits (by decide) rfl (by cases b <;> decide)
  obtain ⟨fx, -, -, hy⟩ := write_stores sampleLua_rebuilds (written_new sampleLua 64 64) .nil
    (hwf true) (hwf false) rfl (hsends true) (hsends false)
  have hrun : Run (WriteStep sampleLua) newTable [(.boolean true, .boolean false)] _ :=
    Run.nil.snoc (.write (hwf true) (hwf false) hy)
  obtain ⟨es, hstack, hiff⟩ := pairs_complete_iff sampleLua_rebuilds hrun .nil
  obtain rfl : [(.boolean true, .boolean false)] = es := by
    injection hstack with hstack
    injection hstack
  exact ⟨_, hrun, hiff.mpr ⟨by decide, by simp [byValue]⟩⟩

/-- A table is accepted as a key and returned, and then ends the process. -/
theorem table_key_panics : ∃ s, WriteStep sampleLua newTable (.table [] .none, .boolean true) s ∧
    ¬ Iterated sampleLua .nil s [(.table [] .none, .boolean true)] ∧
    ∃ s₁, Yields (sharedtableNext sampleLua s [.nil, .nil]) (.returns [.table [] .none, .boolean true] s₁) ∧
      Yields (sharedtableNext sampleLua s₁ [.table [] .none, .nil]) .panicked := by
  have hwfk : (Value.table [] .none : Value UInt8).Wf sampleLua :=
    fun w hw => List.mem_singleton.mp hw ▸ ⟨Or.inl rfl, nofun, .nil⟩
  have hwfv : (Value.boolean true : Value UInt8).Wf sampleLua :=
    fun w hw => List.mem_singleton.mp hw ▸ trivial
  have hsk : Sends sampleLua newTable.sizeIncrement (.table [] .none) 64 64 :=
    sends_of_fits (by decide) rfl (by decide)
  have hsv : Sends sampleLua newTable.sizeIncrement (.boolean true) 64 64 :=
    sends_of_fits (by decide) rfl (by decide)
  obtain ⟨fx, hempty, hcb, hy⟩ :=
    write_stores sampleLua_rebuilds (written_new sampleLua 64 64) .nil hwfk hwfv rfl hsk hsv
  have hstep := WriteStep.write hwfk hwfv hy
  obtain ⟨⟨es, hes⟩, -, hle⟩ := write_written sampleLua_rebuilds (written_new sampleLua 64 64) hstep
  obtain rfl : [(.table [] .none, .boolean true)] = es := by
    have hstack := hes.stack
    injection hstack with hstack
    injection hstack
  have hpos : 1 ≤ fx.rb.cb := hcb.symm ▸ (by decide : 1 ≤ 64)
  obtain ⟨s₁, h₁, hsame, hnext⟩ :=
    next_returns sampleLua_rebuilds hes hpos (stored_nil hpos) .nil (List.mem_singleton_self _) rfl
  refine ⟨_, hstep, fun hiter => ?_, s₁, hnext, ?_⟩
  · have hkey := ((iterated_iff sampleLua_rebuilds .nil hes).mp hiter).2 _ (List.mem_singleton_self _)
    cases hkey
  · exact next_panics sampleLua_rebuilds h₁ (hsame.symm ▸ hpos) (h₁.tidy.key _ (List.mem_singleton_self _)).1 .nil rfl

end TorchIpc.Sharedtable
