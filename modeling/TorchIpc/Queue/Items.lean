import TorchIpc.Queue.Write

/-! The items in a queue. A queue stores a list of values when its buffer holds
their complete encodings one after the other and its counter is their number. A
write appends its arguments to that list as long as the counter does not overflow,
and a load takes the first of them. -/

namespace TorchIpc

open Words Runs

section
variable {P : Type} {lua : Lua P}

/-! ### Stored items -/

/-- The queue stores the values `pending`, oldest first, and nobody is in the middle
of a call. -/
structure Stored (lua : Lua P) (q : Queue) (pending : List (Value P)) : Prop where
  sound : q.rb.Sound
  content_eq : q.rb.content = pending.flatMap (encode lua false false)
  count : q.numItems.toNat = pending.length
  locks : q.locks = 0
  wf : ∀ v ∈ pending, v.Wf lua
  ok : ∀ v ∈ pending, (script lua false false v).fin = .ok

theorem Stored.numItems_eq_zero {q : Queue} {pending : List (Value P)} (h : Stored lua q pending) :
    q.numItems = 0 ↔ pending = [] := by
  rw [← List.length_eq_zero_iff, ← h.count, ← UInt32.toNat_inj]
  rfl

theorem queueWrite_wrote {upval : Bool} {inc fuel : ℕ} {vs : List (Value P)} {q q' : Queue}
    (hrb : q.rb.Sound) (h : queueWrite lua upval inc fuel vs q = .done q') :
    Wrote lua upval q vs q' := by
  have hspec := writeLoop_spec lua upval inc fuel vs 2 (vs.length + 1)
    (pthreadMutexLock q) hrb (by omega)
  rw [queueWrite] at h
  generalize writeLoop lua upval inc fuel vs 2 (vs.length + 1) (pthreadMutexLock q) = o at hspec h
  cases hspec with
  | done hw =>
    cases h
    exact ⟨hw.sound, hw.content_eq, hw.numItems_eq, by
      simp [pthreadMutexUnlock, hw.locks_eq, pthreadMutexLock], hw.all_ok⟩
  | _ => cases h

/-- A write that does not overflow the counter appends its arguments. -/
theorem Stored.write {inc fuel : ℕ} {vs pending : List (Value P)} {q q' : Queue}
    (hs : Stored lua q pending) (hwf : ∀ v ∈ vs, v.Wf lua)
    (hfit : q.numItems.toNat + vs.length < 2 ^ 32)
    (h : queueWrite lua false inc fuel vs q = .done q') : Stored lua q' (pending ++ vs) := by
  have hw := queueWrite_wrote hs.sound h
  refine ⟨hw.sound, ?_, ?_, hw.locks_eq.trans hs.locks, ?_, ?_⟩
  · rw [hw.content_eq, hs.content_eq, List.flatMap_append]
  · have hlen : (UInt32.ofNat vs.length).toNat = vs.length := by
      rw [UInt32.toNat_ofNat']
      omega
    rw [hw.numItems_eq, UInt32.toNat_add, hlen, List.length_append, ← hs.count]
    omega
  · exact fun v hv => (List.mem_append.mp hv).elim (hs.wf v) (hwf v)
  · exact fun v hv => (List.mem_append.mp hv).elim (hs.ok v) (hw.all_ok v)

/-- Loading takes the oldest item, on any stack. -/
theorem Stored.load (hl : lua.Rebuilds) {v : Value P} {pending : List (Value P)} {q : Queue}
    (hs : Stored lua q (v :: pending)) (stack : List (Value P)) :
    ∃ rb, Yields (fun fuel => rbLoad lua fuel q.rb stack) (.ret 1 rb (v.received :: stack)) ∧
      Stored lua { q with rb := rb, numItems := q.numItems - 1 } pending := by
  have hok := hs.ok v List.mem_cons_self
  have hc : q.rb.content = encode lua false false v ++ pending.flatMap (encode lua false false) :=
    hs.content_eq
  have hv : q.rb.Valid := by
    refine hs.sound.resolve_right fun h0 => ?_
    rw [h0, Ringbuffer.create_content] at hc
    exact encode_ne_nil hok (List.append_eq_nil_iff.mp hc.symm).1
  obtain ⟨n, hn⟩ := loads_script hl false v (hs.wf v List.mem_cons_self)
    (noUpvalues_of_ok false v hok) hok (by simp)
  obtain ⟨rb, hrb, hload⟩ := hn q.rb _ stack ⟨hv, hc⟩
  refine ⟨rb, ⟨n, hload⟩, Or.inl hrb.valid, hrb.content_eq, ?_, hs.locks,
    fun w hw => hs.wf w (List.mem_cons_of_mem _ hw), fun w hw =>
      hs.ok w (List.mem_cons_of_mem _ hw)⟩
  have hcount := hs.count
  rw [List.length_cons] at hcount
  have hone : (1 : UInt32) ≤ q.numItems := UInt32.le_iff_toNat_le.mpr (by rw [hcount]; simp)
  rw [UInt32.toNat_sub_of_le _ _ hone, hcount]
  rfl

/-! ### Writes that succeed -/

theorem mem_of_overflow {items : List Item} {n : ℕ} {place : Place}
    (h : overflow items n = some place) : ∃ bs, .put bs place ∈ items := by
  induction items generalizing n with
  | nil => simp [overflow] at h
  | cons x xs ih =>
    cases x with
    | retain ptr =>
      obtain ⟨bs, hbs⟩ := ih h
      exact ⟨bs, List.mem_cons_of_mem _ hbs⟩
    | put bs place' =>
      rw [overflow] at h
      split_ifs at h with hfit
      · obtain ⟨bs', hbs'⟩ := ih h
        exact ⟨bs', List.mem_cons_of_mem _ hbs'⟩
      · cases h
        exact ⟨bs, List.mem_cons_self⟩

/-- A value that `rb_save` accepts and that has no closure among its table keys. -/
structure Savable (lua : Lua P) (upval : Bool) (v : Value P) : Prop where
  ok : (script lua false upval v).fin = .ok
  no_key : ∀ bs, .put bs .key ∉ (script lua false upval v).items

/-- Such an argument is stored after finitely many rounds of growing. -/
theorem writeLoop_savable {upval : Bool} {inc : ℕ} (hinc : 1 ≤ inc) (hlt : inc < 2 ^ 63) {v : Value P}
    (hs : Savable lua upval v) (vs : List (Value P)) (d index height : ℕ) (q : Queue)
    (hv : q.rb.Valid) (hi : index ≤ height)
    (hd : (encode lua false upval v).length ≤ q.rb.room + d) :
    ∃ n height' q', height ≤ height' ∧ q'.rb.Valid ∧ ∀ fuel,
      writeLoop lua upval inc (fuel + n) (v :: vs) index height q =
        writeLoop lua upval inc fuel vs (index + 1) height' q' := by
  induction d using Nat.strong_induction_on generalizing height q with
  | _ d ih =>
    have hattempt := rbSave_attempt lua upval v (Or.inl hv) q.retained hi
    generalize hsave : rbSave lua false upval v index ⟨ringbufferPushWritePos q.rb, q.retained⟩
      height = o at hattempt
    cases hattempt with
    | undefined h0 =>
      rw [h0] at hv
      exact absurd hv.rp_lt (by simp [ringbufferCreate])
    | @fits pushed fx hsound hcontent hpop hpopc =>
      rw [hs.ok] at hsave
      have hfx : fx.rb.Valid := by
        refine hsound.resolve_right fun h0 => encode_ne_nil hs.ok ?_
        rw [h0, Ringbuffer.create_content] at hcontent
        exact (List.append_eq_nil_iff.mp hcontent.symm).2
      refine ⟨1, height,
        { q with rb := fx.rb, retained := fx.retained, numItems := q.numItems + 1 }, le_rfl, hfx,
        fun fuel => ?_⟩
      rw [writeLoop, hsave]
      rfl
    | @short pushed fx place _ hover hpop hcontent hcb =>
      obtain ⟨bs, hbs⟩ := mem_of_overflow hover
      have hshort : q.rb.room < (encode lua false upval v).length := by
        by_contra hfit
        have hnone := overflow_eq_none.mpr (not_lt.mp hfit)
        rw [hover] at hnone
        simp at hnone
      have hroom : (ringbufferPopWritePos fx.rb).room = q.rb.room := by
        have h1 := hv.length_add_room
        have h2 := hpop.length_add_room
        rw [hcontent, hcb] at h2
        omega
      -- the next round has `inc` more bytes of room
      obtain ⟨rb, hgrow, hvalid, -, hgrown⟩ :=
        Ringbuffer.growBy_grows hpop (n := inc) (by rw [nextRoom_of_lt hlt]; omega)
      rw [nextRoom_of_lt hlt] at hgrown
      have hretry : ∀ height₁ ≥ height, ∃ n height' q', height ≤ height' ∧ q'.rb.Valid ∧
          ∀ fuel, writeLoop lua upval inc (fuel + n) (v :: vs) index height₁
            { q with rb := rb, retained := fx.retained } =
              writeLoop lua upval inc fuel vs (index + 1) height' q' := by
        intro height₁ hh
        obtain ⟨n, height', q', hle, hq', hrun⟩ := ih (d - 1) (by omega) height₁
          { q with rb := rb, retained := fx.retained } hvalid (hi.trans hh)
          (by simp only [hgrown]; omega)
        exact ⟨n, height', q', hh.trans hle, hq', hrun⟩
      have hround : ∀ height₁, rbSave lua false upval v index
            ⟨ringbufferPushWritePos q.rb, q.retained⟩ height =
              .ret (-Errno.ENOMEM.toInt) fx height₁ →
          ∀ fuel, writeLoop lua upval inc (fuel + 1) (v :: vs) index height q =
            writeLoop lua upval inc fuel (v :: vs) index height₁
              { q with rb := rb, retained := fx.retained } := by
        intro height₁ hret fuel
        rw [writeLoop, hret]
        simp only [if_true, hgrow]
      obtain ⟨height₁, hh, hret⟩ : ∃ height₁ ≥ height,
          failAt pushed place .ENOMEM fx height = .ret (-Errno.ENOMEM.toInt) fx height₁ := by
        cases place with
        | plain => exact ⟨height, le_rfl, rfl⟩
        | upvals => exact ⟨height + pushed, Nat.le_add_right _ _, rfl⟩
        | key => exact absurd hbs (hs.no_key bs)
      obtain ⟨n, height', q', hle, hq', hrun⟩ := hretry height₁ hh
      refine ⟨n + 1, height', q', hle, hq', fun fuel => ?_⟩
      rw [← Nat.add_assoc, hround height₁ (hsave.trans hret), hrun]

theorem queueWrite_savable {upval : Bool} {inc : ℕ} (hinc : 1 ≤ inc) (hlt : inc < 2 ^ 63) {vs : List (Value P)}
    (hs : ∀ v ∈ vs, Savable lua upval v) (q : Queue) (hv : q.rb.Valid) :
    ∃ q', q'.rb.Valid ∧
      Yields (fun fuel => queueWrite lua upval inc fuel vs q) (.done q') := by
  have hloop : ∀ (vs : List (Value P)) (index height : ℕ) (q : Queue), q.rb.Valid →
      (∀ v ∈ vs, Savable lua upval v) → index + vs.length ≤ height + 1 → ∃ q' n, q'.rb.Valid ∧
        ∀ fuel ≥ n, writeLoop lua upval inc fuel vs index height q = .done q' := by
    intro vs
    induction vs with
    | nil =>
      intro index height q hv _ _
      refine ⟨q, 1, hv, fun fuel hf => ?_⟩
      obtain ⟨fuel, rfl⟩ : ∃ m, fuel = m + 1 := ⟨fuel - 1, by omega⟩
      rw [writeLoop]
    | cons v vs ih =>
      intro index height q hv hs hi
      rw [List.length_cons] at hi
      obtain ⟨n, height', q₁, hle, hq₁, hrun⟩ :=
        writeLoop_savable hinc hlt (hs v List.mem_cons_self) vs
        (encode lua false upval v).length index height q hv (by omega) (by omega)
      obtain ⟨q', m, hq', hdone⟩ := ih (index + 1) height' q₁ hq₁
        (fun w hw => hs w (List.mem_cons_of_mem _ hw)) (by omega)
      refine ⟨q', m + n, hq', fun fuel hf => ?_⟩
      obtain ⟨fuel, rfl⟩ : ∃ k, fuel = k + n := ⟨fuel - n, by omega⟩
      rw [hrun, hdone fuel (by omega)]
  obtain ⟨q', n, hq', hdone⟩ := hloop vs 2 (vs.length + 1) (pthreadMutexLock q) hv hs (by omega)
  refine ⟨pthreadMutexUnlock q', hq', n, fun fuel hf => ?_⟩
  simp only [queueWrite, hdone fuel hf]

theorem savable_nil (lua : Lua P) (upval : Bool) : Savable lua upval .nil :=
  ⟨rfl, by simp [script, puts]⟩

theorem queueWrite_nil (lua : Lua P) {inc : ℕ} (hinc : 1 ≤ inc) (hlt : inc < 2 ^ 63) (q : Queue)
    (hv : q.rb.Valid) :
    ∃ q', q'.rb.Valid ∧ Wrote lua false q [.nil] q' ∧
      Yields (fun fuel => queueWrite lua false inc fuel [.nil] q) (.done q') := by
  obtain ⟨q', hq', hy⟩ := queueWrite_savable hinc hlt
    (fun v hv => by rw [List.mem_singleton.mp hv]; exact savable_nil lua false) q hv
  obtain ⟨fuel, hdone⟩ := hy.exists
  exact ⟨q', hq', queueWrite_wrote (Or.inl hv) hdone, hy⟩

end

end TorchIpc
