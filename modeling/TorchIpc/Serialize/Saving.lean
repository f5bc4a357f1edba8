import TorchIpc.Handles.Objects

/-! What the loops that grow the buffer leave in it. A value that is stored has its
complete encoding behind the old content; one that is refused with a code has left there
what was written before the refusal, because two of the loops do not roll it back. -/

namespace TorchIpc

open Runs

section
variable {P : Type}

/-- A buffer with something in it is not the one of size zero. -/
theorem Ringbuffer.Sound.valid {rb : Ringbuffer} (h : rb.Sound) (hne : rb.content ≠ []) :
    rb.Valid := by
  refine h.resolve_right fun h0 => hne ?_
  rw [h0, Ringbuffer.create_content]

inductive Saved (lua : Lua P) (upval : Bool) (v : Value P) (fx : Effects) : GrowthOutcome →
    Prop where
  | stored {fx' top'} : (script lua false upval v).fin = .ok → fx'.rb.Sound →
      fx'.rb.content = fx.rb.content ++ encode lua false upval v →
        Saved lua upval v fx (.ret 0 fx' top')
  | refused {e place fx' top'} : (script lua false upval v).fin = .code e place → place ≠ .key →
      fx'.rb.Sound → fx'.rb.content = fx.rb.content ++ encode lua false upval v →
      Saved lua upval v fx (.ret (-e.toInt) fx' top')
  | raised {e fx'} : Saved lua upval v fx (.raised e fx')
  | undefined : Saved lua upval v fx .undefined
  | diverges : Saved lua upval v fx .diverges
  | timeout : Saved lua upval v fx .timeout

theorem Saved.of_content {lua : Lua P} {upval : Bool} {v : Value P} {fx fx₁ : Effects} {o : GrowthOutcome}
    (hc : fx₁.rb.content = fx.rb.content) (h : Saved lua upval v fx₁ o) :
    Saved lua upval v fx o := by
  cases h with
  | stored hfin hsound hcontent => exact .stored hfin hsound (hc ▸ hcontent)
  | refused hfin hplace hsound hcontent => exact .refused hfin hplace hsound (hc ▸ hcontent)
  | raised => exact .raised
  | undefined => exact .undefined
  | diverges => exact .diverges
  | timeout => exact .timeout

theorem Saved.of_result {lua : Lua P} {upval : Bool} {v : Value P} {fx : Effects} {o : GrowthOutcome}
    (h : o.result = none) : Saved lua upval v fx o := by
  cases o with
  | undefined => exact .undefined
  | diverges => exact .diverges
  | timeout => exact .timeout
  | _ => cases h

variable {lua : Lua P} {settle : ℕ → ℕ → Option ℕ} {upval : Bool} {inc : ℕ} {v : Value P}

/-- What a loop does to the stack between two attempts takes nothing away. -/
def Settles (settle : ℕ → ℕ → Option ℕ) : Prop := ∀ a b, a ≤ b → ∃ c, settle a b = some c ∧ a ≤ c

theorem settles_id : Settles fun _ top => some top := fun _ b hab => ⟨b, rfl, hab⟩

theorem settles_reset : Settles fun startsize top =>
    if top < startsize then none else some startsize :=
  fun a _ hab => ⟨a, if_neg (not_lt.mpr hab), le_rfl⟩

/-- The loop meets its specification, whatever the increment. -/
theorem growthLoop_saved (hsettle : Settles settle) (fuel : ℕ) {index top : ℕ} {fx : Effects}
    (hrb : fx.rb.Sound) (hi : index ≤ top) :
    Saved lua upval v fx (growthLoop lua settle upval inc v index fuel top fx) := by
  induction fuel generalizing top fx with
  | zero => exact .timeout
  | succ fuel ih =>
    have hattempt := rbSave_attempt lua upval v hrb fx.retained hi
    generalize hsave : rbSave lua false upval v index ⟨ringbufferPushWritePos fx.rb, fx.retained⟩ top = o
      at hattempt
    cases hattempt with
    | undefined _ =>
      rw [growthLoop, hsave]
      exact .undefined
    | @short pushed fx₁ place hv hover _ _ _ =>
      by_cases hkey : place = .key
      · rw [growthLoop, hsave, hkey]
        exact .raised
      rcases Nat.eq_zero_or_pos (nextRoom fx.rb.room inc) with hzero | hpos
      · exact .of_result (growthLoop_full hv hzero hi hsettle hover hkey (fuel + 1))
      obtain ⟨top', fx', hle, hv', -, -, hcontent', hstep⟩ :=
        growthLoop_retry hv hpos hi hsettle hover hkey
      rw [hstep]
      exact (ih (Or.inl hv') (hi.trans hle)).of_content hcontent'
    | @fits pushed fx₁ hsound hcontent hpop hpopc =>
      rw [growthLoop, hsave]
      cases hfin : (script lua false upval v).fin with
      | ok => exact .stored hfin hsound hcontent
      | raise e => exact .raised
      | diverges => exact .diverges
      | code e place =>
        have hshort := script_notShort lua false upval v
        rw [hfin] at hshort
        have hcode : e ≠ .ENOMEM := by
          rintro rfl
          exact absurd rfl hshort
        have hne := errno_ne hcode
        cases place with
        | key => exact .raised
        | plain =>
          simp only [End.outcome, failAt, if_neg hne]
          exact .refused hfin (by rintro ⟨⟩) hsound hcontent
        | upvals =>
          simp only [End.outcome, failAt, if_neg hne]
          exact .refused hfin (by rintro ⟨⟩) hsound hcontent

/-! ### The stack -/

/-- A loop that sets the stack back leaves it as it was, once the value is stored. -/
theorem growthLoop_top {index top : ℕ} (hi : index ≤ top)
    (hreset : ∀ n, n = 0 ∨ n = (if index = top then 0 else 1) → settle top (top + n) = some top)
    (fuel : ℕ) {fx fx' : Effects} {top' : ℕ}
    (h : growthLoop lua settle upval inc v index fuel top fx = .ret 0 fx' top') :
    top' = top := by
  induction fuel generalizing fx with
  | zero => cases h
  | succ fuel ih =>
    rw [growthLoop] at h
    split at h
    · next code fx₁ top₁ hsave =>
      have htop := rbSave_top hi hsave
      split_ifs at h with hshort
      · have hsettle : settle top top₁ = some top := by
          rcases htop with rfl | ⟨-, rfl⟩
          · exact hreset 0 (Or.inl rfl)
          · exact hreset _ (Or.inr rfl)
        rw [hsettle] at h
        cases hgrow : ringbufferGrowBy (ringbufferPopWritePos fx₁.rb) inc with
        | none =>
          simp only [hgrow] at h
          cases h
        | some rb =>
          simp only [hgrow] at h
          exact ih h
      · cases h
        exact htop.resolve_right fun hne => hne.1 rfl
    · cases h
    · cases h
    · cases h

/-! ### Values that can be stored -/

/-- So many rounds of growing make room for the value, and none ends inside a key. -/
def Script.Storable (s : Script) (room inc : ℕ) : Prop :=
  ∃ K, s.LastAttempt room inc K ∧ s.StoredIn (roomAt room inc K)

/-- With enough room the first attempt stores the value. -/
theorem growthLoop_fits {index top : ℕ} {fx : Effects} (hv : fx.rb.Valid) (hi : index ≤ top)
    (hstored : (script lua false upval v).StoredIn fx.rb.room) :
    ∃ fx', fx'.rb.Valid ∧ fx'.rb.room = fx.rb.room - (encode lua false upval v).length ∧
      Yields (fun fuel => growthLoop lua settle upval inc v index fuel top fx) (.ret 0 fx' top) := by
  have hfits : (encode lua false upval v).length ≤ (ringbufferPushWritePos fx.rb).room :=
    overflow_eq_none.mp hstored.1
  have hpush := Ringbuffer.pushWritePos_valid hv
  obtain ⟨fx', happ, hrun⟩ := run_of_fits (if index = top then 0 else 1) (script lua false upval v)
    ⟨ringbufferPushWritePos fx.rb, fx.retained⟩ top hpush hfits
  rw [← rbSave_eq lua false upval v hi, hstored.2] at hrun
  have hroom := happ.room_eq hpush
  refine ⟨fx', happ.valid, hroom, 1, fun fuel hf => ?_⟩
  obtain ⟨fuel, rfl⟩ : ∃ k, fuel = k + 1 := ⟨fuel - 1, by omega⟩
  simp only [growthLoop, hrun, End.outcome]
  exact if_neg (by decide)

theorem growthLoop_attempts (hsettle : Settles settle) {index top : ℕ} {fx : Effects} (hv : fx.rb.Valid)
    (hi : index ≤ top) {K : ℕ} (hK : (script lua false upval v).LastAttempt fx.rb.room inc K) :
    ∃ top' fx', top ≤ top' ∧ fx'.rb.Valid ∧ fx'.rb.room = roomAt fx.rb.room inc K ∧ ∀ fuel,
      growthLoop lua settle upval inc v index (fuel + K) top fx =
        growthLoop lua settle upval inc v index fuel top' fx' := by
  induction K generalizing top fx with
  | zero => exact ⟨top, fx, le_rfl, hv, rfl, fun _ => rfl⟩
  | succ K ih =>
    obtain ⟨place, hover, hplace⟩ := hK.retried 0 (Nat.succ_pos K)
    rw [roomAt_zero] at hover
    -- behind a full buffer there is no last attempt
    have hgrow : 1 ≤ nextRoom fx.rb.room inc := by
      by_contra hfull
      exact not_lastAttempt_of_full hover (by omega) hK
    obtain ⟨top₁, fx₁, htop, hv₁, hroom, -, -, hstep⟩ :=
      growthLoop_retry hv hgrow hi hsettle hover hplace
    obtain ⟨top', fx', htop', hv', hroom', hrest⟩ := ih hv₁ (hi.trans htop)
      (by rw [hroom]; exact (Script.LastAttempt.succ_iff hover hplace).mp hK)
    refine ⟨top', fx', htop.trans htop', hv', by rw [hroom', hroom, roomAt_succ], fun fuel => ?_⟩
    rw [← hrest fuel, ← Nat.add_assoc, hstep]

theorem growthLoop_stores_at (hsettle : Settles settle) {index top : ℕ} {fx : Effects} (hv : fx.rb.Valid)
    (hi : index ≤ top) {K : ℕ} (hK : (script lua false upval v).LastAttempt fx.rb.room inc K)
    (hstored : (script lua false upval v).StoredIn (roomAt fx.rb.room inc K)) :
    ∃ fx' top', fx'.rb.Valid ∧
      fx'.rb.room = roomAt fx.rb.room inc K - (encode lua false upval v).length ∧
      Yields (fun fuel => growthLoop lua settle upval inc v index fuel top fx) (.ret 0 fx' top') := by
  obtain ⟨top₁, fx₁, htop, hv₁, hroom, hlast⟩ := growthLoop_attempts hsettle hv hi hK
  obtain ⟨fx', hv', hroom', n, hn⟩ :=
    @growthLoop_fits P lua settle upval inc v index top₁ fx₁ hv₁ (hi.trans htop)
    (by rwa [hroom])
  refine ⟨fx', top₁, hv', by rw [hroom', hroom], n + K, fun fuel hf => ?_⟩
  obtain ⟨fuel, rfl⟩ : ∃ k, fuel = k + K := ⟨fuel - K, by omega⟩
  exact (hlast fuel).trans (hn fuel (by omega))

theorem growthLoop_refuses_at (hsettle : Settles settle) {index top : ℕ} {fx : Effects} (hv : fx.rb.Valid)
    (hi : index ≤ top) {K : ℕ} (hK : (script lua false upval v).LastAttempt fx.rb.room inc K)
    (hfits : overflow (script lua false upval v).items (roomAt fx.rb.room inc K) = none) {e : Errno}
    {place : Place} (hfin : (script lua false upval v).fin = .code e place) (hplace : place ≠ .key) :
    ∃ fx' top', Yields (fun fuel => growthLoop lua settle upval inc v index fuel top fx)
      (.ret (-e.toInt) fx' top') := by
  obtain ⟨top₁, fx₁, htop, hv₁, hroom, hlast⟩ := growthLoop_attempts hsettle hv hi hK
  obtain ⟨pushed, fx', -, -, hsave⟩ := rbSave_retained lua upval v hv₁ (hi.trans htop)
  have hshort := script_notShort lua false upval v
  rw [hfin] at hshort
  have hcode : e ≠ .ENOMEM := by
    rintro rfl
    exact absurd rfl hshort
  have hret : ∃ top', failAt pushed place e fx' top₁ = .ret (-e.toInt) fx' top' := by
    cases place with
    | plain => exact ⟨_, rfl⟩
    | upvals => exact ⟨_, rfl⟩
    | key => exact absurd rfl hplace
  obtain ⟨top', hret⟩ := hret
  refine ⟨fx', top', K + 1, fun fuel hf => ?_⟩
  obtain ⟨fuel, rfl⟩ : ∃ k, fuel = k + 1 + K := ⟨fuel - 1 - K, by omega⟩
  rw [hroom, hfits, hfin] at hsave
  replace hsave := hsave.trans hret
  simp only [hlast (fuel + 1), growthLoop, hsave]
  exact if_neg (errno_ne hcode)

/-- A write that fails inside of a key raises an error, as what is no value to save does. -/
theorem growthLoop_raises_at (hsettle : Settles settle) {index top : ℕ} {fx : Effects} (hv : fx.rb.Valid)
    (hi : index ≤ top) {K : ℕ} (hK : (script lua false upval v).LastAttempt fx.rb.room inc K)
    (hraise : overflow (script lua false upval v).items (roomAt fx.rb.room inc K) = some .key ∨
      (∃ e, (script lua false upval v).fin = .raise e) ∨
      ∃ e, (script lua false upval v).fin = .code e .key) :
    ∃ e fx', Yields (fun fuel => growthLoop lua settle upval inc v index fuel top fx) (.raised e fx') := by
  obtain ⟨top₁, fx₁, htop, hv₁, hroom, hlast⟩ := growthLoop_attempts hsettle hv hi hK
  obtain ⟨pushed, fx', -, -, hsave⟩ := rbSave_retained lua upval v hv₁ (hi.trans htop)
  rw [hroom] at hsave
  obtain ⟨e, hsave⟩ : ∃ e, rbSave lua false upval v index { fx₁ with rb := ringbufferPushWritePos fx₁.rb } top₁ =
      .raise e fx' := by
    rcases hK.ends with hkey | ⟨hfits, -⟩
    · rw [hkey] at hsave
      exact ⟨_, hsave⟩
    rw [hfits] at hsave
    rcases hraise with hkey | ⟨e, hfin⟩ | ⟨e, hfin⟩
    · cases hfits.symm.trans hkey
    · rw [hfin] at hsave
      exact ⟨_, hsave⟩
    · rw [hfin] at hsave
      exact ⟨_, hsave⟩
  refine ⟨e, fx', K + 1, fun fuel hf => ?_⟩
  obtain ⟨fuel, rfl⟩ : ∃ k, fuel = k + 1 + K := ⟨fuel - 1 - K, by omega⟩
  simp only [hlast (fuel + 1), growthLoop, hsave]

/-- A value without functions in its keys is storable. -/
theorem Serialisable.storable (hinc : 1 ≤ inc) (hlt : inc < 2 ^ 63) (hs : Serialisable lua upval v)
    (room : ℕ) : (script lua false upval v).Storable room inc := by
  generalize hd : (encode lua false upval v).length - room = d
  induction d using Nat.strong_induction_on generalizing room with
  | _ d ih =>
    cases hover : overflow (script lua false upval v).items room with
    | none =>
      refine ⟨0, ⟨nofun, Or.inr ⟨hover, ?_⟩⟩, hover, hs.1⟩
      rw [hs.1]
      exact nofun
    | some place =>
      obtain ⟨bs, hbs⟩ := put_mem_of_overflow hover
      have hplace : place ≠ .key := by
        rintro rfl
        exact hs.2 bs hbs
      have hshort : room < (encode lua false upval v).length := by
        by_contra hfit
        have hnone := overflow_eq_none.mpr (not_lt.mp hfit)
        rw [hover] at hnone
        cases hnone
      have hnext := nextRoom_of_lt hlt room
      obtain ⟨K, hK, hstored⟩ :=
        ih _ (show (encode lua false upval v).length - nextRoom room inc < d by omega)
        (nextRoom room inc) rfl
      exact ⟨K + 1, (Script.LastAttempt.succ_iff hover hplace).mpr hK, hstored⟩

/-- Such a value is stored after finitely many rounds of growing. -/
theorem growthLoop_stores (hsettle : Settles settle) (hinc : 1 ≤ inc) (hlt : inc < 2 ^ 63)
    (hs : Serialisable lua upval v) {index top : ℕ} {fx : Effects} (hv : fx.rb.Valid) (hi : index ≤ top) :
    ∃ fx' top', fx'.rb.Valid ∧
      Yields (fun fuel => growthLoop lua settle upval inc v index fuel top fx) (.ret 0 fx' top') := by
  obtain ⟨K, hK, hstored⟩ := hs.storable hinc hlt fx.rb.room
  obtain ⟨fx', top', hv', -, hy⟩ := growthLoop_stores_at hsettle hv hi hK hstored
  exact ⟨fx', top', hv', hy⟩

end

end TorchIpc
