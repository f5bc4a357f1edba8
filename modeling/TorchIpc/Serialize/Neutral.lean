import TorchIpc.Serialize.Saving

/-! What `rb_save` leaves on the Lua stack. A function that does not lie on top is copied
there, and the copy stays when its upvalues are refused or run out of room. The table that
has the function for a key finds out, the caller of the outermost call does not. -/

namespace TorchIpc

open Runs

/-- Where a script refuses a value with a code. -/
def End.refusal : End → Option Place
  | .code _ place => some place
  | .ok => none
  | .raise _ => none
  | .diverges => none

/-- Where the script stops and returns a code, with room for `n` bytes. -/
def Script.stopsAt (s : Script) (n : ℕ) : Option Place := (overflow s.items n).or s.fin.refusal

/-- A stop there leaves the stack alone, and trips no check. -/
def Place.Neutral (index top : ℕ) : Place → Prop
  | .plain => True
  | .upvals => index = top
  | .key => False

def LuaError.Neutral : LuaError → Prop
  | .stackCheck _ => False
  | .persistCFunction => True
  | .closure _ _ _ _ => True
  | .retain => True

/-- The stack is as high as at entry whenever the call returns, and the error of a stack
check is not raised. -/
def SaveOutcome.Neutral (top : ℕ) : SaveOutcome → Prop
  | .ret _ _ top' => top' = top
  | .raise e _ => e.Neutral
  | .diverges => True
  | .undefined => True

def GrowthOutcome.Neutral (top : ℕ) : GrowthOutcome → Prop
  | .ret _ _ top' => top' = top
  | .raised e _ => e.Neutral
  | .popped _ => True
  | .undefined => True
  | .diverges => True
  | .timeout => True

section
variable {P : Type}

theorem failAt_neutral_iff {index top : ℕ} (place : Place) (e : Errno) (fx : Effects) :
    (failAt (if index = top then 0 else 1) place e fx top).Neutral top ↔ ∀ place' ∈ some place,
    place'.Neutral index top := by
  rw [show (∀ place' ∈ some place, place'.Neutral index top) ↔ place.Neutral index top by simp]
  cases place with
  | plain => exact iff_of_true rfl trivial
  | upvals =>
    change top + (if index = top then 0 else 1) = top ↔ index = top
    split_ifs with htop
    · exact iff_of_true rfl htop
    · exact iff_of_false (Nat.succ_ne_self top) htop
  | key => exact Iff.rfl

theorem outcome_neutral_iff {index top : ℕ} {e : End} (he : e.Regular) (fx : Effects) :
    (e.outcome (if index = top then 0 else 1) fx top).Neutral top ↔ ∀ place ∈ e.refusal,
    place.Neutral index top := by
  cases e with
  | ok => exact iff_of_true rfl nofun
  | code e place => exact failAt_neutral_iff place e fx
  | raise e =>
    refine iff_of_true ?_ nofun
    cases e with
    | stackCheck loc => exact absurd rfl (he loc)
    | _ => trivial
  | diverges => exact iff_of_true trivial nofun

variable {lua : Lua P} {oop upval : Bool} {inc : ℕ} {v : Value P} {index top : ℕ} {fx : Effects}

/-- A save is neutral when it does not stop among the upvalues of a copied function. -/
theorem rbSave_neutral (hi : index ≤ top) (hv : fx.rb.Valid) :
    (rbSave lua oop upval v index fx top).Neutral top ↔
      ∀ place ∈ (script lua oop upval v).stopsAt fx.rb.room, place.Neutral index top := by
  obtain ⟨fx', -, hrun⟩ := runItems_spec (if index = top then 0 else 1) top
    (fun fx => (script lua oop upval v).fin.outcome (if index = top then 0 else 1) fx top)
    (script lua oop upval v).items fx hv
  rw [rbSave_eq lua oop upval v hi, Script.run, hrun, Script.stopsAt]
  cases overflow (script lua oop upval v).items fx.rb.room with
  | some place => exact failAt_neutral_iff place .ENOMEM fx'
  | none => exact outcome_neutral_iff (script_regular lua oop upval v) fx'

/-- A buffer without a capacity: a value that is not refused at once divides by it. -/
theorem rbSave_neutral_zero (hi : index ≤ top) (hcb : fx.rb.cb = 0) :
    (rbSave lua oop upval v index fx top).Neutral top := by
  rw [rbSave_eq lua oop upval v hi, Script.run]
  rcases script_begins lua oop upval v with ⟨e, hstop⟩ | ⟨b, bs, rest, hput⟩
  · rw [hstop]
    rfl
  · rw [hput, runItems, if_pos hcb]
    trivial

theorem neutral_of_result {o : GrowthOutcome} (h : o.result = none) : o.Neutral top := by
  cases o with
  | undefined => trivial
  | diverges => trivial
  | timeout => trivial
  | _ => cases h

/-- A loop that keeps the stack between its attempts leaves it alone when they all do. -/
theorem growthLoop_neutral (hi : index ≤ top) (hv : fx.rb.Valid)
    (hstops : ∀ k, (script lua false upval v).Attempted fx.rb.room inc k →
      ∀ place ∈ (script lua false upval v).stopsAt (roomAt fx.rb.room inc k),
        place.Neutral index top) (fuel : ℕ) :
    (growthLoop lua (fun _ top => some top) upval inc v index fuel top fx).Neutral top := by
  induction fuel generalizing fx with
  | zero => trivial
  | succ fuel ih =>
    have hroom := hstops 0 nofun
    rw [roomAt_zero] at hroom
    have hneutral : (rbSave lua false upval v index { fx with rb := ringbufferPushWritePos fx.rb } top).Neutral top :=
      (rbSave_neutral hi (Ringbuffer.pushWritePos_valid hv)).mpr hroom
    have hattempt := rbSave_attempt lua upval v (Or.inl hv) fx.retained hi
    -- behind a full buffer the loop does not return
    have hfull (place : Place) (hover : overflow (script lua false upval v).items fx.rb.room = some place)
        (hplace : place ≠ .key) (hzero : nextRoom fx.rb.room inc = 0) :
        (growthLoop lua (fun _ top => some top) upval inc v index (fuel + 1) top fx).Neutral top :=
      neutral_of_result (growthLoop_full hv hzero hi settles_id hover hplace (fuel + 1))
    rw [growthLoop] at hfull ⊢
    generalize rbSave lua false upval v index { fx with rb := ringbufferPushWritePos fx.rb } top = o
      at hneutral hattempt hfull
    cases hattempt with
    | @fits pushed fx₁ _ _ _ _ =>
      have hregular := script_regular lua false upval v
      cases hfin : (script lua false upval v).fin with
      | ok => rfl
      | raise e =>
        rw [hfin] at hneutral
        exact hneutral
      | diverges => trivial
      | code e place =>
        rw [hfin] at hneutral hregular
        cases e with
        | ENOMEM => exact absurd rfl hregular
        | _ => cases place <;> exact hneutral
    | @short pushed fx₁ place _ hover hpop hcontent hcb =>
      have hplace : place.Neutral index top := hroom place (by rw [Script.stopsAt, hover]; rfl)
      rcases Nat.eq_zero_or_pos (nextRoom fx.rb.room inc) with hzero | hgrow
      · exact hfull place hover (fun hkey => by rw [hkey] at hplace; exact hplace) hzero
      have hpopRoom : (ringbufferPopWritePos fx₁.rb).room = fx.rb.room := by
        have hbefore := hv.length_add_room
        have hafter := hpop.length_add_room
        rw [hcontent, hcb] at hafter
        omega
      obtain ⟨rb, hrb, hgrown, -, hgrownRoom⟩ :=
        Ringbuffer.growBy_grows hpop (hpopRoom.symm ▸ hgrow)
      rw [hpopRoom] at hgrownRoom
      have hnext := @ih { fx₁ with rb := rb } hgrown fun k hk => by
        rw [hgrownRoom] at hk ⊢
        exact hstops (k + 1) (hk.succ hover)
      cases place with
      | plain =>
        simp only [failAt, if_true, hrb]
        exact hnext
      | upvals =>
        have htop : top + pushed = top := hneutral
        simp only [failAt, htop, if_true, hrb]
        exact hnext
      | key => exact hplace.elim
    | undefined _ => trivial

/-- `marshal_open` with `n` arguments: the handle is pushed on top of them, and what is on
top in the end is returned. -/
def Marshal.marshalOpen (lua : Lua P) (upval : Bool) (size inc : ℕ) (v : Value P) (n fuel : ℕ) :
    GrowthOutcome :=
  marshalWrite lua upval inc v 1 (n + 1) ⟨ringbufferCreate size, []⟩ fuel

/-- A save is neutral exactly when it does not stop among the upvalues of a copied function;
and when no attempt stops there, `marshal_open` returns its handle. -/
theorem rbSave_neutral_iff (lua : Lua P) (upval : Bool) (v : Value P) :
    (∀ oop index top (fx : Effects), index ≤ top → fx.rb.Sound → ((rbSave lua oop upval v index fx top).Neutral top ↔
      fx.rb.cb = 0 ∨ ∀ place ∈ (script lua oop upval v).stopsAt fx.rb.room,
        place.Neutral index top)) ∧
    ∀ size inc n fuel, 1 ≤ size → 1 ≤ n →
      (∀ k, ∀ place ∈ (script lua false upval v).stopsAt (roomAt size inc k), place = .plain) →
      (Marshal.marshalOpen lua upval size inc v n fuel).Neutral (n + 1) := by
  refine ⟨fun oop index top fx hi hrb => ?_, fun size inc n fuel hsize hn hstops => ?_⟩
  · rcases hrb with hv | hzero
    · have hcb : fx.rb.cb ≠ 0 := Nat.ne_zero_of_lt hv.rp_lt
      rw [rbSave_neutral hi hv, or_iff_right hcb]
    · have hcb : fx.rb.cb = 0 := by
        rw [hzero]
        rfl
      exact iff_of_true (rbSave_neutral_zero hi hcb) (Or.inl hcb)
  · have hneutral : (growthLoop lua (fun _ top => some top) upval inc v 1 fuel (n + 1)
        ⟨ringbufferCreate size, []⟩).Neutral (n + 1) := by
      refine growthLoop_neutral (Nat.le_add_left 1 n) (Ringbuffer.create_valid hsize) (fun k _ place hplace => ?_) fuel
      rw [hstops k place hplace]
      trivial
    rw [Marshal.marshalOpen, Marshal.marshalWrite]
    generalize growthLoop lua (fun _ top => some top) upval inc v 1 fuel (n + 1)
      ⟨ringbufferCreate size, []⟩ = o at hneutral
    cases o with
    | _ => exact hneutral

end

theorem rbSave_neutral_iff_nil :
    (rbSave sampleLua false false .nil 1 ⟨ringbufferCreate 16, []⟩ 1).Neutral 1 :=
  ((rbSave_neutral_iff sampleLua false .nil).1 false 1 1 ⟨ringbufferCreate 16, []⟩ le_rfl
  (Ringbuffer.create_sound 16)).mpr
    (Or.inr fun place hplace => by cases hplace)

/-- Room for a function without its upvalue table: the copy of the function stays on the stack. -/
theorem copy_stays : ∃ fx', rbSave sampleLua false false (.function 1 [none]) 1 ⟨ringbufferCreate 35, []⟩ 2 =
    .ret (-Errno.ENOMEM.toInt) fx' 3 := by
  obtain ⟨fx', -, hrun⟩ := runItems_spec 1 2
    (fun fx => (script sampleLua false false (.function 1 [none])).fin.outcome 1 fx 2)
    (script sampleLua false false (.function 1 [none])).items ⟨ringbufferCreate 35, []⟩
    (Ringbuffer.create_valid (by decide))
  have hover : overflow (script sampleLua false false (.function 1 [none])).items 35 =
    some .upvals := rfl
  have hroom : (ringbufferCreate 35).room = 35 := rfl
  rw [hroom, hover] at hrun
  exact ⟨fx', (rbSave_eq sampleLua false false _ (by decide) _).trans hrun⟩

end TorchIpc
