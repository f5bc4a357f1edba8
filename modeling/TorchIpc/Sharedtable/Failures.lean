import TorchIpc.Serialize.Neutral
import TorchIpc.Sharedtable.Atomic

/-! What a failed operation on a shared table leaves behind. An operation that fails has
changed nothing only if the value was refused before anything was written of it. Every other
failure leaves bytes in the buffer, or the mutex locked, or ends the process. So an
operation is harmless if each value it moves can be stored, or is refused at once. -/

namespace TorchIpc.Sharedtable

open Runs

section
variable {P : Type} {lua : Lua P}

/-! ### Values that do not make the trip -/

def Unsendable : Value P → Prop
  | .thread => True
  | .lightuserdata => True
  | .userdata .none _ => True
  | _ => False

/-- The value is stored in an empty buffer of the first capacity, which then has the other. -/
def Sends (lua : Lua P) (inc : ℕ) (v : Value P) (cb cb' : ℕ) : Prop :=
  1 ≤ cb ∧ ∃ K, (script lua false false v).LastAttempt cb inc K ∧
    (script lua false false v).StoredIn (roomAt cb inc K) ∧ cb' = roomAt cb inc K

theorem Sends.le {inc cb cb' : ℕ} {v : Value P} (h : Sends lua inc v cb cb') : cb ≤ cb' := by
  obtain ⟨-, K, hK, hstored, rfl⟩ := h
  cases K with
  | zero => exact le_rfl
  | succ K =>
    obtain ⟨place, hover, -⟩ := hK.retried 0 (Nat.succ_pos K)
    by_contra hlt
    have hfits := (overflow_eq_none.mp hstored.1).trans (not_le.mp hlt).le
    cases hover.symm.trans (overflow_eq_none.mpr hfits)

/-- Nothing is in the buffer; it may have no capacity. -/
def Empty (fx : Effects) : Prop := fx.rb.Sound ∧ fx.rb.content = []

theorem Empty.clean {fx : Effects} (h : Empty fx) (hcb : 1 ≤ fx.rb.cb) : Clean fx := by
  refine ⟨h.1.resolve_right fun hzero => ?_, h.2⟩
  rw [hzero] at hcb
  exact absurd hcb (by decide)

theorem Clean.empty {fx : Effects} (h : Clean fx) : Empty fx := ⟨Or.inl h.valid, h.content_eq⟩

variable (lua) in
theorem Unsendable.script_eq {v : Value P} (h : Unsendable v) :
    ∃ e, script lua false false v = stop (.code e .plain) ∧ e ≠ .ENOMEM := by
  cases v with
  | thread => exact ⟨.EPERM, rfl, nofun⟩
  | lightuserdata => exact ⟨.EPERM, rfl, nofun⟩
  | userdata typename ptr =>
    cases typename with
    | none => exact ⟨.EINVAL, rfl, nofun⟩
    | torch name => exact h.elim
    | metatable name => exact h.elim
  | _ => exact h.elim

variable (lua) in
theorem Unsendable.refused {v : Value P} (h : Unsendable v) :
    ∃ e : Errno, ∀ inc index top fx, index ≤ top →
      ∀ fuel, rbSaveWithGrowth lua inc v index top fx (fuel + 1) =
      .ret (-e.toInt) { fx with rb := ringbufferPushWritePos fx.rb } top := by
  obtain ⟨e, hscript, he⟩ := h.script_eq lua
  refine ⟨e, fun inc index top fx hi fuel => ?_⟩
  have hsave : rbSave lua false false v index { fx with rb := ringbufferPushWritePos fx.rb } top =
      .ret (-e.toInt) { fx with rb := ringbufferPushWritePos fx.rb } top := by
    rw [rbSave_eq lua false false v hi, hscript]
    rfl
  rw [rbSaveWithGrowth, growthLoop, hsave]
  exact if_neg (errno_ne he)

theorem puts_seq_bytes_ne_nil (b : UInt8) (bss : List (List UInt8)) (t : Script) :
    ((puts ([b] :: bss)).seq t).bytes ≠ [] := by
  rw [seq_bytes rfl, puts_bytes, List.flatten_cons, List.append_assoc]
  exact List.cons_ne_nil _ _

variable (lua) in
/-- Of every other value at least the type is written. -/
theorem encode_ne_nil_of_sendable {v : Value P} (h : ¬ Unsendable v) :
    encode lua false false v ≠ [] := by
  rw [encode]
  cases v with
  | thread => exact absurd trivial h
  | lightuserdata => exact absurd trivial h
  | userdata typename ptr =>
    cases typename with
    | none => exact absurd trivial h
    | torch name => exact puts_seq_bytes_ne_nil _ _ _
    | metatable name => exact puts_seq_bytes_ne_nil _ _ _
  | table es typename => exact puts_seq_bytes_ne_nil _ _ _
  | function p ups => exact puts_seq_bytes_ne_nil _ _ _
  | cfunction => exact puts_seq_bytes_ne_nil _ _ _
  | nil => exact List.cons_ne_nil _ _
  | boolean b => exact List.cons_ne_nil _ _
  | number bits => exact List.cons_ne_nil _ _
  | integer n => exact List.cons_ne_nil _ _
  | string bytes => exact List.cons_ne_nil _ _

/-- Into a buffer without a capacity nothing can be written. -/
theorem growthLoop_no_capacity {v : Value P} (hne : encode lua false false v ≠ []) {inc index top : ℕ} {fx : Effects}
    (hcb : fx.rb.cb = 0) (hi : index ≤ top) (fuel : ℕ) :
    growthLoop lua (fun _ top => some top) false inc v index (fuel + 1) top fx = .undefined := by
  have hrun := rbSave_eq lua false false v hi { fx with rb := ringbufferPushWritePos fx.rb }
  rcases script_starts lua false false v with hnil | ⟨b, bs, rest, hput⟩
  · exact absurd (by rw [encode, Script.bytes, hnil]; rfl) hne
  · rw [Script.run, hput, runItems] at hrun
    rw [growthLoop, hrun.trans (if_pos hcb)]

theorem sends_of_stored {v : Value P} (hne : encode lua false false v ≠ [])
    {inc index top fuel top' : ℕ} {fx fx' : Effects} (h : Empty fx) (hi : index ≤ top)
    (hret : rbSaveWithGrowth lua inc v index top fx fuel = .ret 0 fx' top') :
    ∃ cb', Sends lua inc v fx.rb.cb cb' := by
  cases fuel with
  | zero => cases hret
  | succ fuel =>
    rcases Nat.eq_zero_or_pos fx.rb.cb with hzero | hpos
    · rw [rbSaveWithGrowth, growthLoop_no_capacity hne hzero hi] at hret
      cases hret
    · have hclean := h.clean hpos
      have hresult : (growthLoop lua (fun _ top => some top) false inc v index (fuel + 1) top fx).result =
          some (true, fx'.retained) := by
        rw [rbSaveWithGrowth] at hret
        rw [hret]
        rfl
      obtain ⟨K, hK, hok, -⟩ := growthLoop_result settles_id hclean.valid hi hresult
      rw [hclean.room_eq] at hK hok
      exact ⟨_, hpos, K, hK, hok.mp rfl, rfl⟩

/-! ### One value -/

theorem moveValue_sends (hl : lua.Rebuilds) {v : Value P} (hwf : v.Wf lua) {inc cb' : ℕ}
    {src : List (Value P)} {index : ℕ} (dst : List (Value P)) {fx : Effects} (h : Empty fx)
    (hs : Sends lua inc v fx.rb.cb cb') (hi : index ≤ src.length) (hget : src[src.length - index]? = some v) :
    ∃ m fx', Empty fx' ∧ fx'.rb.cb = cb' ∧
      Yields (moveValue lua inc src index dst fx) (.moved (List.replicate m v ++ src) (v.received :: dst) fx') := by
  obtain ⟨hcb, K, hK, hstored, rfl⟩ := hs
  have hclean := h.clean hcb
  rw [← hclean.room_eq] at hK hstored
  obtain ⟨src', fx', hcb', n, hn⟩ := moveValue_moves hl hwf dst hK hstored hclean hi hget
  obtain ⟨N, hN⟩ := moveValue_moved hl hwf
  obtain ⟨-, hclean', m, rfl, -⟩ :=
    hN inc src index dst fx hclean hi hget (max n N) (by omega) _ _ _ (hn _ (by omega))
  exact ⟨m, fx', hclean'.empty, by rw [hcb', hclean.room_eq], n, hn⟩

/-- Nothing is left on the stack it came from, if no attempt stops among the upvalues of a
function below the top. -/
theorem moveValue_quiet (hl : lua.Rebuilds) {v : Value P} (hwf : v.Wf lua) {inc cb' : ℕ}
    {src : List (Value P)} {index : ℕ} (dst : List (Value P)) {fx : Effects} (h : Empty fx)
    (hs : Sends lua inc v fx.rb.cb cb')
    (hquiet : index = src.length ∨ ∀ n, (script lua false false v).Attempted fx.rb.cb inc n →
      overflow (script lua false false v).items (roomAt fx.rb.cb inc n) ≠ some .upvals)
    (hi : index ≤ src.length) (hget : src[src.length - index]? = some v) :
    ∃ fx', Empty fx' ∧ fx'.rb.cb = cb' ∧
      Yields (moveValue lua inc src index dst fx) (.moved src (v.received :: dst) fx') := by
  obtain ⟨m, fx', hempty', hcb', n, hn⟩ := moveValue_sends hl hwf dst h hs hi hget
  obtain ⟨hcb, K, hK, hstored, rfl⟩ := hs
  have hclean := h.clean hcb
  -- no attempt leaves anything
  have hneutral : (rbSaveWithGrowth lua inc v index src.length fx n).Neutral src.length := by
    refine growthLoop_neutral hi hclean.valid (fun j hj place hplace => ?_) n
    rw [hclean.room_eq] at hj hplace
    rw [Script.stopsAt, hstored.2] at hplace
    cases hover : overflow (script lua false false v).items (roomAt fx.rb.cb inc j) with
    | none => rw [hover] at hplace; cases hplace
    | some place' =>
      rw [hover] at hplace
      obtain rfl : place' = place := Option.some.inj hplace
      cases place' with
      | plain => trivial
      | upvals => exact hquiet.resolve_right fun hnever => hnever j hj hover
      | key =>
        have hlt : j < K := by
          by_contra hle
          rcases eq_or_lt_of_le (not_lt.mp hle) with rfl | hbehind
          · cases hover.symm.trans hstored.1
          · exact hj K hbehind hstored.1
        obtain ⟨place, hplace, hne⟩ := hK.retried j hlt
        exact hne (Option.some.inj (hplace.symm.trans hover))
  have hmoved := hn n le_rfl
  simp only [moveValue, hget] at hmoved
  have hm : List.replicate m v ++ src = src := by
    generalize rbSaveWithGrowth lua inc v index src.length fx n = o at hneutral hmoved
    cases o with
    | ret code fx₁ top =>
      obtain rfl : top = src.length := hneutral
      simp only at hmoved
      split_ifs at hmoved with hcode
      generalize rbLoad lua n fx₁.rb dst = o at hmoved
      cases o with
      | ret =>
        simp only [Nat.sub_self, List.replicate_zero, List.nil_append] at hmoved
        injection hmoved with hsrc
        exact hsrc.symm
      | _ => cases hmoved
    | _ => cases hmoved
  rw [hm] at hn
  exact ⟨fx', hempty', hcb', n, hn⟩

variable (lua) in
/-- A value that is refused at once changes nothing. -/
theorem moveValue_refused {v : Value P} (hv : Unsendable v) (inc : ℕ) {src : List (Value P)}
    {index : ℕ} (dst : List (Value P)) {fx : Effects} (h : Empty fx) (hi : index ≤ src.length)
    (hget : src[src.length - index]? = some v) :
    ∃ code fx', Empty fx' ∧ fx'.rb.cb = fx.rb.cb ∧
      Yields (moveValue lua inc src index dst fx) (.refused code src fx') := by
  obtain ⟨e, hsave⟩ := hv.refused lua
  have hne : ¬ -e.toInt = 0 := by cases e <;> decide
  have hsound : (ringbufferPushWritePos fx.rb).Sound := by
    rcases h.1 with hvalid | hzero
    · exact Or.inl (Ringbuffer.pushWritePos_valid hvalid)
    · right
      rw [hzero]
      rfl
  refine ⟨-e.toInt, { fx with rb := ringbufferPushWritePos fx.rb }, ⟨hsound, h.2⟩, rfl, 1, fun fuel hf => ?_⟩
  obtain ⟨fuel, rfl⟩ : ∃ k, fuel = k + 1 := ⟨fuel - 1, by omega⟩
  simp only [moveValue, hget, hsave inc index src.length fx hi fuel, if_neg hne, Nat.sub_self, List.replicate_zero,
    List.nil_append]

/-- Any other value is not moved, and if it is refused, bytes are left in the buffer. -/
theorem moveValue_spoils {v : Value P} (hv : ¬ Unsendable v) {inc : ℕ} {src : List (Value P)}
    {index : ℕ} (dst : List (Value P)) {fx : Effects} (h : Empty fx) (hs : ¬ ∃ cb', Sends lua inc v fx.rb.cb cb')
    (hi : index ≤ src.length) (hget : src[src.length - index]? = some v) (fuel : ℕ) :
    (∀ src' dst' fx', moveValue lua inc src index dst fx fuel ≠ .moved src' dst' fx') ∧
      ∀ code src' fx', moveValue lua inc src index dst fx fuel = .refused code src' fx' →
        (script lua false false v).fin ≠ .ok ∧ fx'.rb.content ≠ [] := by
  have hne := encode_ne_nil_of_sendable lua hv
  have hsaved : Saved lua false v fx (rbSaveWithGrowth lua inc v index src.length fx fuel) :=
    growthLoop_saved settles_id fuel h.1 hi
  have hstored : ∀ fx' top', rbSaveWithGrowth lua inc v index src.length fx fuel ≠
      .ret 0 fx' top' :=
    fun fx' top' hret => hs (sends_of_stored hne h hi hret)
  simp only [moveValue, hget]
  generalize rbSaveWithGrowth lua inc v index src.length fx fuel = o at hsaved hstored
  cases hsaved with
  | @stored fx' top' => exact absurd rfl (hstored fx' top')
  | @refused e place fx' top' hfin hplace hsound hcontent =>
    have hcode : ¬ -e.toInt = 0 := by cases e <;> decide
    simp only [if_neg hcode]
    refine ⟨by rintro _ _ _ ⟨⟩, fun code src' fx₁ heq => ?_⟩
    cases heq
    rw [hcontent, h.2, List.nil_append, hfin]
    exact ⟨by rintro ⟨⟩, hne⟩
  | _ => exact ⟨by rintro _ _ _ ⟨⟩, by rintro _ _ _ ⟨⟩⟩

/-! ### The specification -/

/-- The operation has succeeded, or has raised an error and left everything as it was: the
map, the rest of the shared stack, the content of the buffer, and the mutex, which only
this kind of error gives back. -/
def Harmless (s : SharedTable P) : TableOutcome P → Prop
  | .returns _ _ => True
  | .error _ s' => s'.fx.rb.content = s.fx.rb.content ∧ s'.stack = s.stack
  | _ => False

inductive TableOp (P : Type) where
  | read (k : Value P)
  | write (k v : Value P)
  | next (k : Value P)
  | len

/-- The operation, on a stack with the shared table (`self`) and its arguments. -/
def TableOp.run (lua : Lua P) (self : Value P) (s : SharedTable P) : TableOp P → ℕ → TableOutcome P
  | .read k, fuel => sharedtableRead lua s [k, self] fuel
  | .write k v, fuel => sharedtableWrite lua s [v, k, self] fuel
  | .next k, fuel => sharedtableNext lua s [k, self] fuel
  | .len, _ => sharedtableLen lua s

def TableOp.Wf (lua : Lua P) : TableOp P → Prop
  | .read k => k.Wf lua
  | .write k v => k.Wf lua ∧ v.Wf lua
  | .next k => k.Wf lua
  | .len => True

/-- The value at this index of the stack is stored in a buffer of the first capacity. -/
def SendsAt (lua : Lua P) (inc : ℕ) (stack : List (Value P)) (index cb cb' : ℕ) : Prop :=
  ∃ w, stack[stack.length - index]? = some w ∧ Sends lua inc w cb cb'

/-- Every value that the operation moves can be stored, or is refused at once; and the key
is one that the table can have, or, to go on from it, one that it has. -/
def Proper (lua : Lua P) (s : SharedTable P) : TableOp P → Prop
  | .read k => Unsendable k ∨ ∃ cb, Sends lua s.sizeIncrement k s.fx.rb.cb cb ∧
      ∃ stack, luaGettable lua (k.received :: s.stack) = .stack stack ∧
        ∃ cb', SendsAt lua s.sizeIncrement stack 2 cb cb'
  | .write k v => Unsendable k ∨ ∃ cb, Sends lua s.sizeIncrement k s.fx.rb.cb cb ∧
      (Unsendable v ∨ k.badKey = false ∧ ∃ cb', Sends lua s.sizeIncrement v cb cb')
  | .next k => Unsendable k ∨ ∃ cb, Sends lua s.sizeIncrement k s.fx.rb.cb cb ∧
      ∃ stack more, luaNextAt lua (k.received :: s.stack) = (.stack stack, more) ∧
        (more = true → ∃ cb' cb'', SendsAt lua s.sizeIncrement stack 2 cb cb' ∧
          SendsAt lua s.sizeIncrement stack 3 cb' cb'')
  | .len => True

/-- Operations that meet the condition, by any thread: each has the mutex from its beginning
to its end. -/
inductive OpStep (lua : Lua P) : SharedTable P → TableOp P → SharedTable P → Prop where
  | returns {s op self results s'} : op.Wf lua → Proper lua s op →
      Yields (op.run lua self s) (.returns results s') → OpStep lua s op s'
  | error {s op self code s'} : op.Wf lua → Proper lua s op →
      Yields (op.run lua self s) (.error code s') → OpStep lua s op s'

/-! ### One hop of an operation -/

theorem take_sends (hl : lua.Rebuilds) {v : Value P} (hwf : v.Wf lua) {s : SharedTable P} (h : Empty s.fx) {cb : ℕ}
    (hs : Sends lua s.sizeIncrement v s.fx.rb.cb cb) {L : List (Value P)} {index : ℕ} (pop : ℕ)
    (hi : index ≤ L.length) (hget : L[L.length - index]? = some v) :
    ∃ m fx, Empty fx ∧ fx.rb.cb = cb ∧
      Yields (s.take lua L index pop)
        (.ok (List.replicate m v ++ L, ⟨fx, v.received :: s.stack, s.sizeIncrement⟩)) := by
  obtain ⟨m, fx, hempty, hcb, n, hn⟩ := moveValue_sends hl hwf s.stack h hs hi hget
  refine ⟨m, fx, hempty, hcb, n, fun fuel hf => ?_⟩
  rw [SharedTable.take, hn fuel hf]

variable (lua) in
theorem take_refused {v : Value P} (hv : Unsendable v) {s : SharedTable P} (h : Empty s.fx) {L : List (Value P)}
    {index : ℕ} (pop : ℕ) (hi : index ≤ L.length) (hget : L[L.length - index]? = some v) :
    ∃ code fx, Empty fx ∧ Yields (s.take lua L index pop)
      (.error (.error code ⟨fx, s.stack.drop pop, s.sizeIncrement⟩)) := by
  obtain ⟨code, fx, hempty, -, n, hn⟩ := moveValue_refused lua hv s.sizeIncrement s.stack h hi hget
  refine ⟨code, fx, hempty, n, fun fuel hf => ?_⟩
  rw [SharedTable.take, hn fuel hf]

/-- What an operation ends with when it does harm. -/
def Spoils (x : Except (TableOutcome P) (List (Value P) × SharedTable P)) : Prop :=
  ∃ o, x = .error o ∧ ∀ s : SharedTable P, s.fx.rb.content = [] → ¬ Harmless s o

theorem take_spoils {v : Value P} (hv : ¬ Unsendable v) {s : SharedTable P} (h : Empty s.fx)
    (hs : ¬ ∃ cb, Sends lua s.sizeIncrement v s.fx.rb.cb cb) {L : List (Value P)} {index : ℕ}
    (pop : ℕ) (hi : index ≤ L.length) (hget : L[L.length - index]? = some v) (fuel : ℕ) :
    Spoils (s.take lua L index pop fuel) := by
  obtain ⟨hmoved, hrefused⟩ := moveValue_spoils hv s.stack h hs hi hget fuel
  rw [SharedTable.take]
  generalize moveValue lua s.sizeIncrement L index s.stack s.fx fuel = o at hmoved hrefused
  cases o with
  | moved src dst fx => exact absurd rfl (hmoved src dst fx)
  | refused code src fx =>
    refine ⟨_, rfl, fun s₀ h₀ hharmless => (hrefused code src fx rfl).2 ?_⟩
    rw [← h₀]
    exact hharmless.1
  | _ => exact ⟨_, rfl, fun _ _ => id⟩

/-- A value that the shared state can have: it was stored once. -/
def Good (lua : Lua P) (v : Value P) : Prop := v.Wf lua ∧ (script lua false false v).fin = .ok

theorem Sends.good {v : Value P} {inc cb cb' : ℕ} (hwf : v.Wf lua) (hs : Sends lua inc v cb cb') :
    Good lua v.received := by
  obtain ⟨-, K, -, hstored, -⟩ := hs
  refine ⟨hwf.received, ?_⟩
  rw [script_received v hwf hstored.2]
  exact hstored.2

theorem Good.not_unsendable {v : Value P} (h : Good lua v) : ¬ Unsendable v := by
  intro hv
  obtain ⟨e, hscript, -⟩ := hv.script_eq lua
  have hok := h.2
  rw [hscript] at hok
  cases hok

theorem give_sends (hl : lua.Rebuilds) {v : Value P} (hv : Good lua v) {s : SharedTable P} (h : Empty s.fx) {cb : ℕ}
    (hs : Sends lua s.sizeIncrement v s.fx.rb.cb cb) (L : List (Value P)) {index : ℕ} (pop : ℕ)
    (hi : index ≤ s.stack.length) (hget : s.stack[s.stack.length - index]? = some v) :
    ∃ m fx, Empty fx ∧ fx.rb.cb = cb ∧
      Yields (s.give lua L index pop)
        (.ok (v.received :: L, ⟨fx, List.replicate m v ++ s.stack, s.sizeIncrement⟩)) := by
  obtain ⟨m, fx, hempty, hcb, n, hn⟩ := moveValue_sends hl hv.1 L h hs hi hget
  refine ⟨m, fx, hempty, hcb, n, fun fuel hf => ?_⟩
  rw [SharedTable.give, hn fuel hf]

theorem give_spoils {v : Value P} (hv : Good lua v) {s : SharedTable P} (h : Empty s.fx)
    (hs : ¬ ∃ cb, Sends lua s.sizeIncrement v s.fx.rb.cb cb) (L : List (Value P)) {index : ℕ}
    (pop : ℕ) (hi : index ≤ s.stack.length) (hget : s.stack[s.stack.length - index]? = some v)
    (fuel : ℕ) :
    Spoils (s.give lua L index pop fuel) := by
  obtain ⟨hmoved, hrefused⟩ := moveValue_spoils hv.not_unsendable L h hs hi hget fuel
  rw [SharedTable.give]
  generalize moveValue lua s.sizeIncrement s.stack index L s.fx fuel = o at hmoved hrefused
  cases o with
  | moved src dst fx => exact absurd rfl (hmoved src dst fx)
  | refused code src fx => exact absurd hv.2 (hrefused code src fx rfl).1
  | _ => exact ⟨_, rfl, fun _ _ => id⟩

/-! ### The shared stack -/

/-- Between two operations. Above the table may be left over what a long function key was
moved from. -/
structure Sane (lua : Lua P) (s : SharedTable P) : Prop where
  empty : Empty s.fx
  stack : ∃ vs es, s.stack = vs ++ [.table es .none] ∧ (∀ w ∈ vs, Good lua w) ∧
    ∀ e ∈ es, Good lua e.1 ∧ Good lua e.2

variable (lua) in
theorem luaGettable_above (k : Value P) (vs : List (Value P)) (es : List (Value P × Value P)) :
    luaGettable lua (k :: (vs ++ [.table es .none])) =
      .stack (Assoc.lookup Value.sameKey .nil (k.normKey lua.versionNum) es :: (vs ++ [.table es .none])) := by
  have hlast : (k :: (vs ++ [.table es .none])).getLast? = some (.table es .none) := by
    rw [← List.cons_append, List.getLast?_concat]
  simp only [luaGettable, hlast]

theorem setBottom_append (es es' : List (Value P × Value P)) (vs : List (Value P)) :
    setBottom es' (vs ++ [Value.table es .none]) = vs ++ [Value.table es' .none] := by
  induction vs with
  | nil => rfl
  | cons v vs ih =>
    rw [List.cons_append, List.cons_append, ← ih]
    cases vs <;> rfl

variable (lua) in
theorem luaSettableAt_above (k v : Value P) (vs : List (Value P)) (es : List (Value P × Value P)) :
    luaSettableAt lua (v :: k :: (vs ++ [Value.table es .none])) =
      if k.badKey then .raised
      else .stack (vs ++ [Value.table (setEntry (k.normKey lua.versionNum) v es) .none]) := by
  have hlast : (v :: k :: (vs ++ [Value.table es .none])).getLast? = some (.table es .none) := by
    rw [← List.cons_append, ← List.cons_append, List.getLast?_concat]
  simp only [luaSettableAt, hlast, setBottom_append]

variable (lua) in
theorem luaNextAt_above (k : Value P) (vs : List (Value P)) (es : List (Value P × Value P)) :
    luaNextAt lua (k :: (vs ++ [Value.table es .none])) = (.raised, false) ∨
      luaNextAt lua (k :: (vs ++ [Value.table es .none])) = (.stack (vs ++ [Value.table es .none]), false) ∨
      ∃ e ∈ es, luaNextAt lua (k :: (vs ++ [Value.table es .none])) =
        (.stack (e.2 :: e.1 :: (vs ++ [Value.table es .none])), true) := by
  have hlast : (k :: (vs ++ [Value.table es .none])).getLast? = some (.table es .none) := by
    rw [← List.cons_append, List.getLast?_concat]
  have hafter : ∀ es' : List (Value P × Value P), (∀ e ∈ es', e ∈ es) →
      ∀ e, entryAfter (k.normKey lua.versionNum) es' =
        some (some e) → e ∈ es := by
    intro es' hes' e he
    induction es' with
    | nil => cases he
    | cons e' es' ih =>
      rw [entryAfter] at he
      split_ifs at he
      · exact hes' e (List.mem_cons_of_mem _ (List.mem_of_head? (Option.some.inj he)))
      · exact ih (fun e he => hes' e (List.mem_cons_of_mem _ he)) he
  have hfound : ∀ e, (if k.isNil then some es.head? else entryAfter (k.normKey lua.versionNum) es) =
      some (some e) →
        e ∈ es := by
    intro e he
    split_ifs at he
    · exact List.mem_of_head? (Option.some.inj he)
    · exact hafter es (fun _ => id) e he
  simp only [luaNextAt, hlast]
  generalize (if k.isNil then some es.head? else entryAfter (k.normKey lua.versionNum) es) =
    found at hfound
  match found with
  | none => exact Or.inl rfl
  | some none => exact Or.inr (Or.inl rfl)
  | some (some e) => exact Or.inr (Or.inr ⟨e, hfound e rfl, rfl⟩)

theorem getElem?_above (vs : List (Value P)) (t : Value P) {i : ℕ} (hi : 2 ≤ i) (hle : i ≤ vs.length + 1) :
    ∃ w ∈ vs, (vs ++ [t])[(vs ++ [t]).length - i]? = some w := by
  have hlt : (vs ++ [t]).length - i < vs.length := by
    rw [List.length_append, List.length_singleton]
    omega
  exact ⟨_, List.getElem_mem hlt, by rw [List.getElem?_append_left hlt, List.getElem?_eq_getElem hlt]⟩

theorem getElem?_pushed (xs : List (Value P)) {stack : List (Value P)} {i : ℕ} (hi : i ≤ stack.length) :
    (xs ++ stack)[(xs ++ stack).length - i]? = stack[stack.length - i]? := by
  have hindex : (xs ++ stack).length - i = xs.length + (stack.length - i) := by
    rw [List.length_append]
    omega
  rw [hindex, List.getElem?_append_right (Nat.le_add_right _ _), Nat.add_sub_cancel_left]

theorem good_nil : Good lua (.nil : Value P) := ⟨wf_nil, rfl⟩

theorem Good.norm {k : Value P} (h : Good lua k) : Good lua (k.normKey lua.versionNum) := by
  cases k with
  | number bits =>
    rw [Value.normKey]
    split_ifs with hversion
    · split
      · exact ⟨fun w hw => List.mem_singleton.mp hw ▸ hversion, rfl⟩
      · exact h
    · exact h
  | _ => exact h

theorem good_lookup {es : List (Value P × Value P)} (hes : ∀ e ∈ es, Good lua e.1 ∧ Good lua e.2)
    (k : Value P) :
    Good lua (Assoc.lookup Value.sameKey .nil k es) := by
  have hor : Assoc.lookup Value.sameKey .nil k es = .nil ∨
      ∃ e ∈ es, Assoc.lookup Value.sameKey .nil k es = e.2 :=
    Assoc.lookup_mem_or k es
  rcases hor with hnil | ⟨e, he, heq⟩
  · rw [hnil]
    exact good_nil
  · rw [heq]
    exact (hes e he).2

theorem good_setEntry {es : List (Value P × Value P)} (hes : ∀ e ∈ es, Good lua e.1 ∧ Good lua e.2)
    {k v : Value P} (hk : Good lua k) (hv : Good lua v) : ∀ e ∈ setEntry k v es, Good lua e.1 ∧
    Good lua e.2 := by
  intro e he
  rw [setEntry_eq_update] at he
  rcases Assoc.mem_update he with he | ⟨-, hvalue, hkey | hkey⟩
  · exact hes e he
  · rw [hvalue, hkey]
    exact ⟨hk, hv⟩
  · obtain ⟨e', he', heq⟩ := List.mem_map.mp hkey
    rw [hvalue, ← heq]
    exact ⟨(hes e' he').1, hv⟩

/-! ### The operations -/

/-- The shared table that is left, if there is one. -/
def TableOutcome.state? : TableOutcome P → Option (SharedTable P)
  | .returns _ s => some s
  | .error _ s => some s
  | _ => none

/-- Under the condition the operation is harmless and leaves a sane table, and only then. -/
def Settled (lua : Lua P) (s : SharedTable P) (f : ℕ → TableOutcome P) (proper : Prop) : Prop :=
  (proper → ∃ o, Yields f o ∧ Harmless s o ∧ ∀ s' ∈ o.state?, Sane lua s') ∧
    (¬ proper → ∃ n, ∀ fuel ≥ n, ¬ Harmless s (f fuel))

theorem Settled.congr {s : SharedTable P} {f g : ℕ → TableOutcome P} {p q : Prop} (h : Settled lua s f p)
    (hf : ∀ fuel, g fuel = f fuel) (hp : q ↔ p) : Settled lua s g q := by
  obtain rfl : g = f := funext hf
  obtain rfl : q = p := propext hp
  exact h

theorem settled_returns {s s' : SharedTable P} (results : List (Value P)) (h : Sane lua s') :
    Settled lua s (fun _ => .returns results s') True := by
  refine ⟨fun _ => ⟨.returns results s', ⟨0, fun _ _ => rfl⟩, trivial, fun s'' hs'' => ?_⟩, fun h => absurd trivial h⟩
  obtain rfl : s' = s'' := Option.some.inj hs''
  exact h

theorem settled_panicked (s : SharedTable P) : Settled lua s (fun _ => .panicked) False :=
  ⟨False.elim, fun _ => ⟨0, fun _ _ => id⟩⟩

/-- A value comes to the shared state, and the operation goes on. -/
theorem settled_take (hl : lua.Rebuilds) {s₀ s : SharedTable P} (h₀ : Sane lua s₀) (h : Empty s.fx)
    {v : Value P} (hwf : v.Wf lua) {L : List (Value P)} {index pop : ℕ} (hi : index ≤ L.length)
    (hget : L[L.length - index]? = some v) (hpop : s.stack.drop pop = s₀.stack)
    {g : ℕ → List (Value P) × SharedTable P → Except (TableOutcome P) (List (Value P) × SharedTable P)} {Q : ℕ → Prop}
    (hrest : ∀ m fx, Empty fx → Good lua v.received → Settled lua s₀ (fun fuel =>
      outcome (g fuel (List.replicate m v ++ L, ⟨fx, v.received :: s.stack, s.sizeIncrement⟩)))
        (Q fx.rb.cb)) :
    Settled lua s₀ (fun fuel => outcome (s.take lua L index pop fuel >>= g fuel))
      (Unsendable v ∨ ∃ cb, Sends lua s.sizeIncrement v s.fx.rb.cb cb ∧ Q cb) := by
  have hsent : ∀ cb, Sends lua s.sizeIncrement v s.fx.rb.cb cb → ∃ m fx, Empty fx ∧ fx.rb.cb = cb ∧
    ∃ n, ∀ fuel ≥ n,
      outcome (s.take lua L index pop fuel >>= g fuel) =
        outcome (g fuel (List.replicate m v ++ L, ⟨fx, v.received :: s.stack, s.sizeIncrement⟩)) := by
    intro cb hs
    obtain ⟨m, fx, hempty, hcb, n, hn⟩ := take_sends hl hwf h hs pop hi hget
    refine ⟨m, fx, hempty, hcb, n, fun fuel hf => ?_⟩
    rw [hn fuel hf]
    rfl
  refine ⟨fun hproper => ?_, fun hnot => ?_⟩
  · rcases hproper with hv | ⟨cb, hs, hq⟩
    · obtain ⟨code, fx, hempty, n, hn⟩ := take_refused lua hv h pop hi hget
      refine ⟨.error code ⟨fx, s.stack.drop pop, s.sizeIncrement⟩, ⟨n, fun fuel hf => ?_⟩, ?_, fun s' hs' => ?_⟩
      · simp only [hn fuel hf]
        rfl
      · exact ⟨hempty.2.trans h₀.empty.2.symm, hpop⟩
      · obtain rfl := Option.some.inj hs'
        exact ⟨hempty, by rw [hpop]; exact h₀.stack⟩
    · obtain ⟨m, fx, hempty, rfl, n, hn⟩ := hsent cb hs
      obtain ⟨o, ⟨n', hn'⟩, ho⟩ := (hrest m fx hempty (hs.good hwf)).1 hq
      exact ⟨o, ⟨max n n', fun fuel hf => (hn fuel (by omega)).trans (hn' fuel (by omega))⟩, ho⟩
  · by_cases hs : ∃ cb, Sends lua s.sizeIncrement v s.fx.rb.cb cb
    · obtain ⟨cb, hs⟩ := hs
      obtain ⟨m, fx, hempty, rfl, n, hn⟩ := hsent cb hs
      obtain ⟨n', hn'⟩ := (hrest m fx hempty (hs.good hwf)).2 fun hq => hnot (Or.inr ⟨_, hs, hq⟩)
      refine ⟨max n n', fun fuel hf => ?_⟩
      simp only [hn fuel (by omega)]
      exact hn' fuel (by omega)
    · refine ⟨0, fun fuel _ => ?_⟩
      obtain ⟨o, ho, hharm⟩ := take_spoils (fun hv => hnot (Or.inl hv)) h hs pop hi hget fuel
      simp only [ho]
      exact hharm s₀ h₀.empty.2

/-- A value goes to the calling state, and the operation goes on. -/
theorem settled_give (hl : lua.Rebuilds) {s₀ s : SharedTable P} (h₀ : Sane lua s₀) (h : Empty s.fx)
    {w : Value P} (hw : Good lua w) (L : List (Value P)) {index : ℕ} (pop : ℕ) (hi : index ≤ s.stack.length)
    (hget : s.stack[s.stack.length - index]? = some w)
    {g : ℕ → List (Value P) × SharedTable P → Except (TableOutcome P) (List (Value P) × SharedTable P)} {Q : ℕ → Prop}
    (hrest : ∀ m fx, Empty fx → Settled lua s₀ (fun fuel =>
      outcome (g fuel (w.received :: L, ⟨fx, List.replicate m w ++ s.stack, s.sizeIncrement⟩)))
        (Q fx.rb.cb)) :
    Settled lua s₀ (fun fuel => outcome (s.give lua L index pop fuel >>= g fuel))
      (∃ cb, SendsAt lua s.sizeIncrement s.stack index s.fx.rb.cb cb ∧ Q cb) := by
  have hat : ∀ cb, SendsAt lua s.sizeIncrement s.stack index s.fx.rb.cb cb ↔
      Sends lua s.sizeIncrement w s.fx.rb.cb cb := by
    intro cb
    constructor
    · rintro ⟨w', hw', hs⟩
      obtain rfl := Option.some.inj (hget.symm.trans hw')
      exact hs
    · exact fun hs => ⟨w, hget, hs⟩
  have hsent : ∀ cb, Sends lua s.sizeIncrement w s.fx.rb.cb cb → ∃ m fx, Empty fx ∧ fx.rb.cb = cb ∧
    ∃ n, ∀ fuel ≥ n,
      outcome (s.give lua L index pop fuel >>= g fuel) =
        outcome (g fuel (w.received :: L, ⟨fx, List.replicate m w ++ s.stack, s.sizeIncrement⟩)) := by
    intro cb hs
    obtain ⟨m, fx, hempty, hcb, n, hn⟩ := give_sends hl hw h hs L pop hi hget
    refine ⟨m, fx, hempty, hcb, n, fun fuel hf => ?_⟩
    rw [hn fuel hf]
    rfl
  refine ⟨fun ⟨cb, hs, hq⟩ => ?_, fun hnot => ?_⟩
  · obtain ⟨m, fx, hempty, rfl, n, hn⟩ := hsent cb ((hat cb).mp hs)
    obtain ⟨o, ⟨n', hn'⟩, ho⟩ := (hrest m fx hempty).1 hq
    exact ⟨o, ⟨max n n', fun fuel hf => (hn fuel (by omega)).trans (hn' fuel (by omega))⟩, ho⟩
  · by_cases hs : ∃ cb, Sends lua s.sizeIncrement w s.fx.rb.cb cb
    · obtain ⟨cb, hs⟩ := hs
      obtain ⟨m, fx, hempty, rfl, n, hn⟩ := hsent cb hs
      obtain ⟨n', hn'⟩ := (hrest m fx hempty).2 fun hq => hnot ⟨_, (hat _).mpr hs, hq⟩
      refine ⟨max n n', fun fuel hf => ?_⟩
      simp only [hn fuel (by omega)]
      exact hn' fuel (by omega)
    · refine ⟨0, fun fuel _ => ?_⟩
      obtain ⟨o, ho, hharm⟩ := give_spoils hw h hs L pop hi hget fuel
      simp only [ho]
      exact hharm s₀ h₀.empty.2

/-- What is left when values above the table are popped. -/
theorem sane_drop {fx : Effects} (h : Empty fx) (inc : ℕ) {ws : List (Value P)} {es : List (Value P × Value P)}
    (hws : ∀ w ∈ ws, Good lua w) (hes : ∀ e ∈ es, Good lua e.1 ∧ Good lua e.2) {n : ℕ} (hn : n ≤ ws.length) :
    Sane lua ⟨fx, (ws ++ [Value.table es .none]).drop n, inc⟩ := by
  refine ⟨h, ws.drop n, es, ?_, fun w hw => hws w (List.mem_of_mem_drop hw), hes⟩
  exact List.drop_append_of_le_length hn

theorem read_settled (hl : lua.Rebuilds) {s : SharedTable P} (h : Sane lua s) {k : Value P} (hwf : k.Wf lua)
    (self : Value P) : Settled lua s ((TableOp.read k).run lua self s) (Proper lua s (.read k)) := by
  obtain ⟨vs, es, hstack, hvs, hes⟩ := h.stack
  have hrun : ∀ fuel, (TableOp.read k).run lua self s fuel =
      outcome (s.take lua [k, self] 2 0 fuel >>=
        fun p => p.2.apply (luaGettable lua) >>= fun s => readValue lua s p.1 fuel) := by
    intro fuel
    rw [TableOp.run, sharedtableRead, readKey]
    cases s.take lua [k, self] 2 0 fuel with
    | error o => rfl
    | ok p =>
      cases hp : p.2.apply (luaGettable lua) with
      | error o => simp only [bind, Except.bind, hp]
      | ok s' =>
        simp only [bind, Except.bind, hp]
        rfl
  refine Settled.congr (settled_take hl h h.empty hwf (show 2 ≤ [k, self].length from le_rfl) rfl rfl
    fun m fx hempty hk => ?_) hrun Iff.rfl
  obtain ⟨found, hgood, hget⟩ : ∃ found, Good lua found ∧
      luaGettable lua (k.received :: s.stack) = .stack (found :: s.stack) := by
    rw [hstack]
    exact ⟨_, good_lookup hes _, luaGettable_above lua _ _ _⟩
  have hfound : ∀ w ∈ found :: vs, Good lua w := List.forall_mem_cons.mpr ⟨hgood, hvs⟩
  have hlen : 2 ≤ (found :: s.stack).length := by
    rw [hstack, List.length_cons, List.length_append, List.length_singleton]
    omega
  obtain ⟨w, hw, hat⟩ := getElem?_above (found :: vs) (.table es .none) (le_refl 2)
    (by rw [List.length_cons]; omega)
  rw [List.cons_append, ← hstack] at hat
  have hgive := settled_give hl h (s := ⟨fx, found :: s.stack, s.sizeIncrement⟩) hempty (hfound w hw)
    (List.replicate m k ++ [k, self]) 1 hlen hat
    (g := fun _ p => .ok (p.1.take 1, { p.2 with stack := p.2.stack.drop 1 })) (Q := fun _ => True)
    fun m' fx' hempty' => by
      refine settled_returns _ ?_
      change Sane lua ⟨fx', (List.replicate m' w ++ found :: s.stack).drop 1, s.sizeIncrement⟩
      rw [hstack, ← List.cons_append, ← List.append_assoc]
      refine sane_drop hempty' _ (fun u hu => ?_) hes ?_
      · rcases List.mem_append.mp hu with hu | hu
        · obtain rfl := List.eq_of_mem_replicate hu
          exact hfound u hw
        · exact hfound u hu
      · rw [List.length_append, List.length_cons]
        omega
  refine hgive.congr (fun fuel => ?_) ?_
  · simp only [SharedTable.apply, hget, readValue, bind, Except.bind]
    rfl
  · constructor
    · rintro ⟨stack, heq, cb', hs⟩
      rw [hget] at heq
      cases heq
      exact ⟨cb', hs, trivial⟩
    · rintro ⟨cb', hs, -⟩
      exact ⟨_, hget, cb', hs⟩

theorem write_settled (hl : lua.Rebuilds) {s : SharedTable P} (h : Sane lua s) {k v : Value P}
    (hk : k.Wf lua) (hv : v.Wf lua) (self : Value P) :
    Settled lua s ((TableOp.write k v).run lua self s) (Proper lua s (.write k v)) := by
  obtain ⟨vs, es, hstack, hvs, hes⟩ := h.stack
  have hrun : ∀ fuel, (TableOp.write k v).run lua self s fuel =
      outcome (s.take lua [v, k, self] 2 0 fuel >>=
        fun p => p.2.take lua p.1 3 1 fuel >>= fun p => p.2.apply (luaSettableAt lua) >>= fun s =>
          .ok ([], s)) := by
    intro fuel
    rw [TableOp.run, sharedtableWrite, writeKey]
    cases s.take lua [v, k, self] 2 0 fuel <;> rfl
  have hle : 2 ≤ [v, k, self].length := show 2 ≤ 3 by decide
  refine Settled.congr (settled_take hl h h.empty hk hle rfl rfl fun m fx hempty hgoodk => ?_) hrun Iff.rfl
  have hlen : 3 ≤ (List.replicate m k ++ [v, k, self]).length := by
    rw [List.length_append]
    exact Nat.le_add_left _ _
  have hat : (List.replicate m k ++ [v, k, self])[(List.replicate m k ++ [v, k, self]).length - 3]? = some v :=
    getElem?_pushed _ le_rfl
  refine (settled_take hl h (s := ⟨fx, k.received :: s.stack, s.sizeIncrement⟩) hempty hv hlen hat rfl
    (g := fun _ p => p.2.apply (luaSettableAt lua) >>= fun s => .ok ([], s)) (Q := fun _ => k.badKey = false)
    fun m' fx' hempty' hgoodv => ?_).congr (fun _ => rfl) ?_
  · have hset := luaSettableAt_above lua k.received v.received vs es
    rw [← hstack, received_badKey] at hset
    cases hbad : k.badKey with
    | true =>
      rw [hbad, if_pos rfl] at hset
      refine (settled_panicked s).congr (fun fuel => ?_) (by simp)
      simp only [SharedTable.apply, hset]
      rfl
    | false =>
      rw [hbad, if_neg Bool.false_ne_true] at hset
      have hsane := sane_drop hempty' s.sizeIncrement hvs (good_setEntry hes hgoodk.norm hgoodv)
        (Nat.zero_le _)
      refine (settled_returns [] hsane).congr (fun fuel => ?_) (by simp)
      simp only [SharedTable.apply, hset]
      rfl
  · refine or_congr Iff.rfl ?_
    constructor
    · rintro ⟨hbad, cb', hs⟩
      exact ⟨cb', hs, hbad⟩
    · rintro ⟨cb', hs, hbad⟩
      exact ⟨hbad, cb', hs⟩

theorem sendsAt_pushed (xs : List (Value P)) {stack : List (Value P)} {i : ℕ} (hi : i ≤ stack.length) (inc cb cb' : ℕ) :
    SendsAt lua inc (xs ++ stack) i cb cb' ↔ SendsAt lua inc stack i cb cb' := by
  rw [SendsAt, SendsAt, getElem?_pushed xs hi]

theorem next_settled (hl : lua.Rebuilds) {s : SharedTable P} (h : Sane lua s) {k : Value P} (hwf : k.Wf lua)
    (self : Value P) : Settled lua s ((TableOp.next k).run lua self s) (Proper lua s (.next k)) := by
  obtain ⟨vs, es, hstack, hvs, hes⟩ := h.stack
  refine Settled.congr (settled_take hl h h.empty hwf (show 2 ≤ [k, self].length from le_rfl) rfl rfl
    fun m fx hempty hk => ?_) (fun _ => rfl) Iff.rfl
  have hnext := luaNextAt_above lua k.received vs es
  rw [← hstack] at hnext
  rcases hnext with hraised | hend | ⟨e, he, hentry⟩
  -- the key is not in the table
  · refine (settled_panicked s).congr (fun fuel => ?_) ?_
    · simp only [SharedTable.apply, hraised, bind, Except.bind]
      rfl
    · rw [iff_false]
      rintro ⟨stack, more, heq, -⟩
      rw [hraised] at heq
      cases heq
  -- there is no other entry
  · have hsane : Sane lua ⟨fx, s.stack, s.sizeIncrement⟩ := ⟨hempty, h.stack⟩
    refine (settled_returns [.nil] hsane).congr (fun fuel => ?_) ?_
    · simp only [SharedTable.apply, hend, bind, Except.bind]
      rfl
    · rw [iff_true]
      exact ⟨_, _, hend, by rintro ⟨⟩⟩
  -- both of the entry go back
  · have hgood : ∀ w ∈ e.2 :: e.1 :: vs, Good lua w :=
      List.forall_mem_cons.mpr ⟨(hes e he).2, List.forall_mem_cons.mpr ⟨(hes e he).1, hvs⟩⟩
    have hlen : 3 ≤ (e.2 :: e.1 :: s.stack).length := by
      rw [hstack, List.length_cons, List.length_cons, List.length_append, List.length_singleton]
      omega
    obtain ⟨w₂, hw₂, hat₂⟩ := getElem?_above (e.2 :: e.1 :: vs) (.table es .none) (le_refl 2)
      (by rw [List.length_cons, List.length_cons]; omega)
    obtain ⟨w₃, hw₃, hat₃⟩ :=
      getElem?_above (e.2 :: e.1 :: vs) (.table es .none) (show 2 ≤ 3 by decide)
      (by rw [List.length_cons, List.length_cons]; omega)
    rw [List.cons_append, List.cons_append, ← hstack] at hat₂ hat₃
    have hgive := settled_give hl h (s := ⟨fx, e.2 :: e.1 :: s.stack, s.sizeIncrement⟩) hempty
      (hgood w₂ hw₂) (List.replicate m k ++ [k, self]) 2 (le_trans (by decide) hlen) hat₂
      (g := fun fuel p => p.2.give lua p.1 3 2 fuel >>= fun p =>
        .ok ((p.1.take 2).reverse, { p.2 with stack := p.2.stack.drop 2 }))
      (Q := fun cb => ∃ cb', SendsAt lua s.sizeIncrement (e.2 :: e.1 :: s.stack) 3 cb cb' ∧ True)
      fun m₂ fx₂ hempty₂ => by
        have hlen₂ : 3 ≤ (List.replicate m₂ w₂ ++ e.2 :: e.1 :: s.stack).length := by
          rw [List.length_append]
          omega
        refine (settled_give hl h (s := ⟨fx₂, List.replicate m₂ w₂ ++ e.2 :: e.1 :: s.stack, s.sizeIncrement⟩) hempty₂
          (hgood w₃ hw₃) (w₂.received :: (List.replicate m k ++ [k, self])) 2 hlen₂
          ((getElem?_pushed _ hlen).trans hat₃)
          (g := fun _ p => .ok ((p.1.take 2).reverse, { p.2 with stack := p.2.stack.drop 2 }))
          (Q := fun _ => True) fun m₃ fx₃ hempty₃ => ?_).congr (fun _ => rfl) ?_
        · refine settled_returns _ ?_
          change Sane lua ⟨fx₃, (List.replicate m₃ w₃ ++ (List.replicate m₂ w₂ ++ e.2 :: e.1 :: s.stack)).drop 2,
            s.sizeIncrement⟩
          rw [hstack, ← List.cons_append, ← List.cons_append, ← List.append_assoc, ← List.append_assoc]
          refine sane_drop hempty₃ _ (fun u hu => ?_) hes ?_
          · rcases List.mem_append.mp hu with hu | hu
            · rcases List.mem_append.mp hu with hu | hu
              · obtain rfl := List.eq_of_mem_replicate hu
                exact hgood u hw₃
              · obtain rfl := List.eq_of_mem_replicate hu
                exact hgood u hw₂
            · exact hgood u hu
          · rw [List.length_append, List.length_cons, List.length_cons]
            omega
        · exact exists_congr fun cb' => and_congr (sendsAt_pushed _ hlen _ _ _).symm Iff.rfl
    refine hgive.congr (fun fuel => ?_) ?_
    · simp only [SharedTable.apply, hentry, bind, Except.bind]
      rfl
    · constructor
      · rintro ⟨stack, more, heq, hs⟩
        rw [hentry] at heq
        cases heq
        obtain ⟨cb', cb'', h₂, h₃⟩ := hs rfl
        exact ⟨cb', h₂, cb'', h₃, trivial⟩
      · rintro ⟨cb', h₂, cb'', h₃, -⟩
        exact ⟨_, _, hentry, fun _ => ⟨cb', cb'', h₂, h₃⟩⟩

theorem len_settled {s : SharedTable P} (h : Sane lua s) (self : Value P) :
    Settled lua s (TableOp.len.run lua self s) (Proper lua s .len) := by
  obtain ⟨vs, es, hstack, -, -⟩ := h.stack
  have hcount : sharedtableLen lua s = .returns [.ofInteger lua.versionNum (UInt64.ofNat es.length)] s := by
    have hlast : s.stack.getLast? = some (.table es .none) := by rw [hstack, List.getLast?_concat]
    simp only [sharedtableLen, countEntries, hlast]
    rfl
  exact (settled_returns _ h).congr (fun _ => hcount) Iff.rfl

/-- Every operation on a sane table is harmless exactly under the condition. -/
theorem op_settled (hl : lua.Rebuilds) {s : SharedTable P} (h : Sane lua s) {op : TableOp P}
    (hop : op.Wf lua) (self : Value P) : Settled lua s (op.run lua self s) (Proper lua s op) := by
  cases op with
  | read k => exact read_settled hl h hop self
  | write k v => exact write_settled hl h hop.1 hop.2 self
  | next k => exact next_settled hl h hop self
  | len => exact len_settled h self

/-! ### Runs -/

theorem step_sane (hl : lua.Rebuilds) {s s' : SharedTable P} {op : TableOp P} (h : Sane lua s)
    (hstep : OpStep lua s op s') : Sane lua s' := by
  cases hstep with
  | returns hop hproper hy =>
    obtain ⟨o, ho, -, hleft⟩ := (op_settled hl h hop _).1 hproper
    obtain rfl := ho.unique hy
    exact hleft s' rfl
  | error hop hproper hy =>
    obtain ⟨o, ho, -, hleft⟩ := (op_settled hl h hop _).1 hproper
    obtain rfl := ho.unique hy
    exact hleft s' rfl

/-- What has come to the shared state could be stored. -/
theorem sends_of_taken {v : Value P} {s : SharedTable P} (h : Empty s.fx) {L : List (Value P)}
    {index : ℕ} (pop : ℕ) (hi : index ≤ L.length) (hget : L[L.length - index]? = some v)
    (hok : ∃ n, ∀ fuel ≥ n, ∃ p, s.take lua L index pop fuel = .ok p) :
    ∃ cb, Sends lua s.sizeIncrement v s.fx.rb.cb cb := by
  obtain ⟨n, hn⟩ := hok
  by_contra hs
  by_cases hv : Unsendable v
  · obtain ⟨code, fx, -, n', hn'⟩ := take_refused lua hv h pop hi hget
    obtain ⟨p, hp⟩ := hn (max n n') (by omega)
    rw [hn' _ (by omega)] at hp
    cases hp
  · obtain ⟨p, hp⟩ := hn n le_rfl
    obtain ⟨o, ho, -⟩ := take_spoils hv h hs pop hi hget n
    rw [ho] at hp
    cases hp

/-- What a value needs to come to the shared state without an error. -/
theorem take_taken (hl : lua.Rebuilds) {v : Value P} (hwf : v.Wf lua) {s : SharedTable P} (h : Empty s.fx)
    {L : List (Value P)} {index : ℕ} (pop : ℕ) (hi : index ≤ L.length) (hget : L[L.length - index]? = some v)
    (hok : ∃ n, ∀ fuel ≥ n, ∃ p, s.take lua L index pop fuel = .ok p) :
    ∃ m fx, Empty fx ∧ Good lua v.received ∧
      Yields (s.take lua L index pop)
        (.ok (List.replicate m v ++ L, ⟨fx, v.received :: s.stack, s.sizeIncrement⟩)) := by
  obtain ⟨cb, hs⟩ := sends_of_taken h pop hi hget hok
  obtain ⟨m, fx, hempty, -, hy⟩ := take_sends hl hwf h hs pop hi hget
  exact ⟨m, fx, hempty, hs.good hwf, hy⟩

theorem copyEntry_sane (hl : lua.Rebuilds) {k v : Value P} (hk : k.Wf lua) (hv : v.Wf lua) {s : SharedTable P}
    (h : Sane lua s) (L : List (Value P))
    (hok : ∃ n, ∀ fuel ≥ n, ∃ p, copyEntryToTable lua s (v :: k :: L) fuel = .ok p) :
    ∃ L' s', Sane lua s' ∧ Yields (copyEntryToTable lua s (v :: k :: L)) (.ok (L', s')) := by
  obtain ⟨vs, es, hstack, hvs, hes⟩ := h.stack
  obtain ⟨n, hn⟩ := hok
  obtain ⟨m, fx, hempty, hgoodk, n₁, hn₁⟩ :=
    take_taken hl hk h.empty 0 (Nat.sub_le _ _) (copyEntry_args k v L 0).1
    ⟨n, fun fuel hf => by
      obtain ⟨p, hp⟩ := hn fuel hf
      obtain ⟨p₁, hp₁, -⟩ := bind_ok hp
      exact ⟨p₁, hp₁⟩⟩
  have hle : (v :: k :: L).length ≤ (List.replicate m k ++ v :: k :: L).length := by
    rw [List.length_append]
    exact Nat.le_add_left _ _
  obtain ⟨m', fx', hempty', hgoodv, n₂, hn₂⟩ :=
    take_taken hl hv (s := ⟨fx, k.received :: s.stack, s.sizeIncrement⟩) hempty 0
    hle (copyEntry_args k v L m).2 ⟨max n n₁, fun fuel hf => by
      obtain ⟨p, hp⟩ := hn fuel (by omega)
      obtain ⟨p₁, hp₁, hrest⟩ := bind_ok hp
      rw [hn₁ fuel (by omega)] at hp₁
      cases hp₁
      obtain ⟨p₂, hp₂, -⟩ := bind_ok hrest
      exact ⟨p₂, hp₂⟩⟩
  have hset := luaSettableAt_above lua k.received v.received vs es
  rw [← hstack] at hset
  have hcopy : ∀ fuel ≥ max n₁ n₂, copyEntryToTable lua s (v :: k :: L) fuel =
      (SharedTable.apply ⟨fx', v.received :: k.received :: s.stack, s.sizeIncrement⟩ (luaSettableAt lua)).map
        fun s => (List.replicate m' v ++ (List.replicate m k ++ v :: k :: L), s) := by
    intro fuel hf
    have hfirst := hn₁ fuel (by omega)
    have hsecond := hn₂ fuel (by omega)
    simp only [copyEntryToTable, hfirst, bind, Except.bind, hsecond]
    rfl
  cases hbad : k.received.badKey with
  | true =>
    rw [hbad, if_pos rfl] at hset
    obtain ⟨p, hp⟩ := hn (max n (max n₁ n₂)) (by omega)
    rw [hcopy _ (by omega), SharedTable.apply, hset] at hp
    cases hp
  | false =>
    rw [hbad, if_neg Bool.false_ne_true] at hset
    refine ⟨List.replicate m' v ++ (List.replicate m k ++ v :: k :: L), _, sane_drop hempty'
      s.sizeIncrement hvs (good_setEntry hes hgoodk.norm hgoodv) (Nat.zero_le _), max n₁ n₂,
        fun fuel hf => ?_⟩
    rw [hcopy fuel hf, SharedTable.apply, hset]
    rfl

theorem initTable_sane (hl : lua.Rebuilds) (L : List (Value P)) {es : List (Value P × Value P)}
    (hes : ∀ e ∈ es, e.1.Wf lua ∧ e.2.Wf lua) {s s' : SharedTable P} (h : Sane lua s)
    (hinit : Yields (fun fuel => initTable lua L fuel es s) (.ok s')) : Sane lua s' := by
  induction es generalizing s with
  | nil =>
    obtain ⟨n, hn⟩ := hinit
    cases hn n le_rfl
    exact h
  | cons e es ih =>
    obtain ⟨k, v⟩ := e
    obtain ⟨⟨hk, hv⟩, hrest⟩ := List.forall_mem_cons.mp hes
    obtain ⟨n, hn⟩ := hinit
    obtain ⟨L₁, s₁, hsane, n₁, hn₁⟩ := copyEntry_sane hl hk hv h L ⟨n, fun fuel hf => by
      obtain ⟨p, hp, -⟩ := bind_ok (hn fuel hf)
      exact ⟨p, hp⟩⟩
    refine ih hrest hsane ⟨max n n₁, fun fuel hf => ?_⟩
    obtain ⟨p, hp, hlater⟩ := bind_ok (hn fuel (by omega))
    rw [hn₁ fuel (by omega)] at hp
    cases hp
    exact hlater

/-- A table that has been created, of whatever size, and then used by operations that meet
the condition: an operation succeeds, or raises an error and changes nothing, if it meets
the condition, and not otherwise. -/
theorem sharedtable_failures (hl : lua.Rebuilds) {size inc : ℕ} (L : List (Value P))
    {entries : List (Value P × Value P)} (hentries : ∀ e ∈ entries, e.1.Wf lua ∧ e.2.Wf lua)
    {s₀ : SharedTable P} (hcreate : Yields (sharedtableCreate lua size inc L entries) (.ok s₀))
    {ops : List (TableOp P)} {s : SharedTable P} (hrun : Run (OpStep lua) s₀ ops s) {op : TableOp P}
    (hop : op.Wf lua) (self : Value P) : (∃ o, Yields (op.run lua self s) o ∧ Harmless s o) ↔
    Proper lua s op := by
  have hsound : (ringbufferCreate size).Sound := by
    rcases Nat.eq_zero_or_pos size with rfl | hpos
    · exact Or.inr rfl
    · exact Or.inl (Ringbuffer.create_valid hpos)
  have hnew : Sane lua (⟨⟨ringbufferCreate size, []⟩, [.table [] .none], inc⟩ : SharedTable P) :=
    ⟨⟨hsound, Ringbuffer.create_content size⟩, [], [], rfl, nofun, nofun⟩
  have hsane₀ : Sane lua s₀ := initTable_sane hl L hentries hnew hcreate
  have hsane : Sane lua s :=
    hrun.invariant (I := fun _ s => Sane lua s) hsane₀ fun _ _ _ _ h hstep => step_sane hl h hstep
  obtain ⟨hharmless, hharm⟩ := op_settled hl hsane hop self
  constructor
  · rintro ⟨o, ⟨n, hn⟩, ho⟩
    by_contra hnot
    obtain ⟨n', hn'⟩ := hharm hnot
    refine hn' (max n n') (by omega) ?_
    rwa [hn _ (by omega)]
  · intro hproper
    obtain ⟨o, hy, ho, -⟩ := hharmless hproper
    exact ⟨o, hy, ho⟩

end

def emptyTable : SharedTable UInt8 := ⟨⟨ringbufferCreate 16, []⟩, [.table [] .none], 16⟩

theorem emptyTable_created : Yields (sharedtableCreate sampleLua 16 16 [] []) (.ok emptyTable) :=
  ⟨0, fun _ _ => rfl⟩

/-- A coroutine as a key is refused, and nothing has changed. -/
theorem sharedtable_failures_thread :
    ∃ o, Yields ((TableOp.read .thread).run sampleLua .nil emptyTable) o ∧ Harmless emptyTable o :=
  (sharedtable_failures sampleLua_rebuilds [] (fun _ he => absurd he List.not_mem_nil) emptyTable_created .nil
    (show (TableOp.read .thread).Wf sampleLua from fun _ hw => List.mem_singleton.mp hw ▸ trivial) .nil).mpr
    (Or.inl trivial)

/-- The key nil reaches the shared state, where `lua_settable` raises an error that ends
the process. -/
theorem nil_key_panics : Yields (sharedtableCreate sampleLua 16 16 [] []) (.ok emptyTable) ∧
    Yields ((TableOp.write .nil (.boolean true)).run sampleLua .nil emptyTable) .panicked ∧
    ¬ Harmless emptyTable .panicked := by
  have hempty : Empty emptyTable.fx :=
    ⟨Or.inl (Ringbuffer.create_valid (by decide)), Ringbuffer.create_content 16⟩
  have hnil : Sends sampleLua 16 .nil 16 16 :=
    ⟨by decide, 0, ⟨nofun, Or.inr ⟨rfl, nofun⟩⟩, ⟨rfl, rfl⟩, rfl⟩
  have htrue : Sends sampleLua 16 (.boolean true) 16 16 :=
    ⟨by decide, 0, ⟨nofun, Or.inr ⟨rfl, nofun⟩⟩, ⟨rfl, rfl⟩, rfl⟩
  have hwf : (Value.boolean true : Value UInt8).Wf sampleLua :=
    fun _ hw => List.mem_singleton.mp hw ▸ trivial
  have hle : 2 ≤ [Value.boolean true, .nil, .nil (P := UInt8)].length := show 2 ≤ 3 by decide
  obtain ⟨m, fx, hempty₁, hcb, n₁, hn₁⟩ :=
    take_sends sampleLua_rebuilds (v := Value.nil) wf_nil (s := emptyTable) hempty
    hnil 0 hle rfl
  have hlen : 3 ≤ (List.replicate m Value.nil ++ [Value.boolean true, .nil, .nil (P := UInt8)]).length := by
    rw [List.length_append]
    exact Nat.le_add_left _ _
  have hat : (List.replicate m Value.nil ++
    [Value.boolean true, .nil, .nil (P := UInt8)])[(List.replicate m Value.nil ++
      [Value.boolean true, .nil, .nil (P := UInt8)]).length - 3]? = some (.boolean true) :=
        getElem?_pushed _ le_rfl
  have hsends : Sends sampleLua emptyTable.sizeIncrement (.boolean true) fx.rb.cb 16 := by rwa [hcb]
  obtain ⟨m', fx', -, -, n₂, hn₂⟩ := take_sends sampleLua_rebuilds hwf
    (s := ⟨fx, .nil :: emptyTable.stack, emptyTable.sizeIncrement⟩) hempty₁ hsends 1 hlen hat
  refine ⟨emptyTable_created, ⟨max n₁ n₂, fun fuel hf => ?_⟩, id⟩
  have hkey := hn₁ fuel (by omega)
  have hvalue := hn₂ fuel (by omega)
  simp only [Value.received] at hkey hvalue
  simp only [TableOp.run, sharedtableWrite, writeKey, writeValue, hkey, hvalue, bind, Except.bind]
  rfl

end TorchIpc.Sharedtable
