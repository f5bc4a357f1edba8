import TorchIpc.Base.Runs
import TorchIpc.Queue.Write

/-! The loops that save a value and grow the buffer when it does not fit: the one of a
queue, `marshal_write`, and the two functions `rb_save_with_growth`. A short save is
rolled back in the buffer, but the objects it has retained stay retained, and the
next attempt retains them again. Proved here: what exactly each loop has retained
when it ends, and from it when this is one reference for each occurrence. -/

namespace TorchIpc

open Words Runs

/-- How a loop ends: with the code of the last `rb_save`; by an error below it; by the
error for a stack that has shrunk; or not at all. -/
inductive GrowthOutcome where
  | ret (code : ℤ) (fx : Effects) (top : ℕ)
  | raised (e : LuaError) (fx : Effects)
  | popped (fx : Effects)
  | undefined
  | diverges
  | timeout

section
variable {P : Type} (lua : Lua P)

/-- The loop. What it does to the stack between two attempts is `settle`. -/
def growthLoop (settle : ℕ → ℕ → Option ℕ) (upval : Bool) (inc : ℕ) (v : Value P) (index : ℕ) :
    ℕ → ℕ → Effects → GrowthOutcome
  | 0, _, _ => .timeout
  | fuel + 1, startsize, fx =>
    match rbSave lua false upval v index { fx with rb := ringbufferPushWritePos fx.rb } startsize with
    | .ret ret fx top =>
      if ret = -Errno.ENOMEM.toInt then
        match settle startsize top with
        | some top =>
          match ringbufferGrowBy (ringbufferPopWritePos fx.rb) inc with
          | some rb => growthLoop settle upval inc v index fuel top { fx with rb := rb }
          | none => .undefined
        | none => .popped fx
      else .ret ret fx top
    | .raise e fx => .raised e fx
    | .undefined => .undefined
    | .diverges => .diverges

def Sharedtable.rbSaveWithGrowth (size : ℕ) (v : Value P) (index top : ℕ) (fx : Effects) (fuel : ℕ) :
    GrowthOutcome :=
  growthLoop lua (fun _ top => some top) false size v index fuel top fx

abbrev Map.MAX_ARG_SIZE : ℕ := 16 * 1024

def Map.rbSaveWithGrowth (v : Value P) (index top : ℕ) (fx : Effects) (fuel : ℕ) : GrowthOutcome :=
  growthLoop lua (fun startsize top => if top < startsize then none else some startsize) false
    MAX_ARG_SIZE v index fuel top fx

/-- `marshal_write`; a code other than zero becomes an error. -/
def Marshal.marshalWrite (upval : Bool) (sizeIncrement : ℕ) (v : Value P) (index top : ℕ) (fx : Effects)
    (fuel : ℕ) : GrowthOutcome :=
  match growthLoop lua (fun _ top => some top) upval sizeIncrement v index fuel top fx with
  | .ret ret fx top => .ret ret (if ret = 0 then fx else { fx with rb := ringbufferPopWritePos fx.rb }) top
  | o => o

end

/-- Whether a loop has stored its value, and what it has retained. -/
def GrowthOutcome.result : GrowthOutcome → Option (Bool × List UInt64)
  | .ret code fx _ => some (code = 0, fx.retained)
  | .raised _ fx => some (false, fx.retained)
  | .popped fx => some (false, fx.retained)
  | .undefined => none
  | .diverges => none
  | .timeout => none

def WriteOutcome.result : WriteOutcome → Option (Bool × List UInt64)
  | .done q => some (true, q.retained)
  | .error _ q => some (false, q.retained)
  | .raised _ q => some (false, q.retained)
  | .undefined => none
  | .diverges => none
  | .timeout => none

/-! ### The objects of a value -/

section
variable {P : Type} (lua : Lua P)

mutual

/-- The objects that a value takes along, one for each occurrence: in tables, and in
the upvalues of functions but for `_ENV`, which stays behind. -/
def userdataOf : Value P → List UInt64
  | .userdata _ ptr => [ptr]
  | .table es _ => entriesUserdata es
  | .function p ups => upvalsUserdata (lua.upvalueNames p) ups
  | .nil => []
  | .boolean _ => []
  | .lightuserdata => []
  | .number _ => []
  | .integer _ => []
  | .string _ => []
  | .cfunction => []
  | .thread => []

def entriesUserdata : List (Value P × Value P) → List UInt64
  | [] => []
  | (k, v) :: es => userdataOf k ++ userdataOf v ++ entriesUserdata es

def upvalsUserdata : List String → List (Option (Value P)) → List UInt64
  | name :: names, some v :: us =>
    (if name = "_ENV" then [] else userdataOf v) ++ upvalsUserdata names us
  | _ :: names, none :: us => upvalsUserdata names us
  | _, [] => []
  | [], _ :: _ => []

end

end

/-- The objects that a script retains when every write fits. -/
def retains : List Item → List UInt64
  | [] => []
  | .put _ _ :: items => retains items
  | .retain ptr :: items => ptr :: retains items

def Script.retains (s : Script) : List UInt64 := TorchIpc.retains s.items

theorem retains_append (xs ys : List Item) : retains (xs ++ ys) = retains xs ++ retains ys := by
  induction xs with
  | nil => rfl
  | cons x xs ih =>
    cases x with
    | put bs place => exact ih
    | retain ptr => exact congrArg (ptr :: ·) ih

theorem retainsIn_of_fits {items : List Item} {n : ℕ} (h : overflow items n = none) :
    retainsIn items n = retains items := by
  induction items generalizing n with
  | nil => rfl
  | cons x xs ih =>
    cases x with
    | put bs place =>
      rw [overflow] at h
      split_ifs at h with hfit
      rw [retainsIn, if_pos hfit, ih h, retains]
    | retain ptr => exact congrArg (ptr :: ·) (ih h)

@[simp] theorem puts_retains (bss : List (List UInt8)) : (puts bss).retains = [] := by
  induction bss with
  | nil => rfl
  | cons bs bss ih => exact ih

@[simp] theorem stop_retains (e : End) : (stop e).retains = [] := rfl

@[simp] theorem mapPlace_retains (f : Place → Place) (s : Script) :
    (s.mapPlace f).retains = s.retains := by
  obtain ⟨items, fin⟩ := s
  change retains (items.map (Item.mapPlace f)) = retains items
  induction items with
  | nil => rfl
  | cons x xs ih =>
    cases x with
    | put bs place => exact ih
    | retain ptr => exact congrArg (ptr :: ·) ih

theorem seq_retains {s : Script} (hs : s.fin = .ok) (t : Script) :
    (s.seq t).retains = s.retains ++ t.retains := by
  rw [Script.retains, Script.seq, hs]
  exact retains_append _ _

section
variable {P : Type} {lua : Lua P}

theorem tableScript_retains {body : Script} (hb : body.fin = .ok) (typename : TypeName) :
    (tableScript body typename).retains = body.retains := by
  rw [tableScript, seq_retains rfl, seq_retains (by rw [mapPlace_fin, hb]; rfl)]
  simp

theorem entryScript_retains {k v : Script} (hk : k.fin = .ok) (hv : v.fin = .ok) (rest : Script) :
    (entryScript k v rest).retains = k.retains ++ v.retains ++ rest.retains := by
  rw [entryScript, seq_retains (by rw [mapPlace_fin, hk]; rfl),
    seq_retains (by rw [mapPlace_fin, hv]; rfl), mapPlace_retains, mapPlace_retains,
      List.append_assoc]

theorem functionScript_retains {upval : Bool} {p : P} {table : Script}
    (hok : (functionScript lua upval p table).fin = .ok) :
    (functionScript lua upval p table).retains = (upvalsTail lua upval p table).retains := by
  rw [functionScript, seq_fin rfl] at hok
  rw [functionScript, seq_retains rfl]
  split_ifs at hok ⊢ with hL
  · exact absurd hok (by simp)
  · rw [seq_retains rfl, seq_retains rfl, seq_retains rfl]
    simp

theorem userdataScript_retains {typename : TypeName} {ptr : UInt64} {oop : Bool}
    (hok : (userdataScript lua oop typename ptr).fin = .ok) :
    (userdataScript lua oop typename ptr).retains = [ptr] := by
  have hretain : (Script.mk [.retain ptr] .ok).retains = [ptr] := rfl
  rw [userdataScript] at hok ⊢
  split_ifs at hok ⊢ with hoop
  · simp at hok
  cases typename with
  | none => simp at hok
  | torch name =>
    simp only at hok ⊢
    rw [seq_retains rfl]
    cases hr : lua.retain (.torch name) ptr <;> simp [hr, seq_fin_ok] at hok
    simp [hretain]
  | metatable name =>
    simp only at hok ⊢
    rw [seq_retains rfl]
    cases hr : lua.retain (.metatable name) ptr <;> simp [hr, seq_fin_ok] at hok
    simp [hretain]

mutual

/-- A value that is accepted retains each of its objects once for each occurrence. -/
theorem script_retains (oop upval : Bool) (v : Value P) (hok : (script lua oop upval v).fin = .ok) :
    (script lua oop upval v).retains = userdataOf lua v := by
  cases v with
  | nil => rfl
  | boolean b => rfl
  | number bits => rfl
  | integer n => rfl
  | string str => rfl
  | table es typename =>
    rw [script] at hok ⊢
    rw [tableScript_fin_ok] at hok
    rw [tableScript_retains hok, userdataOf]
    exact entriesScript_retains oop upval es hok
  | function p ups =>
    rw [script] at hok ⊢
    rw [functionScript_retains hok, userdataOf]
    have htail := (functionScript_bytes hok).1
    rw [upvalsTail] at htail ⊢
    split_ifs at htail ⊢ with henv hups
    · simp only [seq_fin_ok, mapPlace_fin, End.mapPlace_ok, tableScript_fin_ok] at htail
      rw [seq_retains rfl, seq_retains (by
        rw [mapPlace_fin, End.mapPlace_ok, tableScript_fin_ok]; exact htail.2.1), mapPlace_retains,
        tableScript_retains htail.2.1, upvalsScript_retains oop upval 1 _ ups htail.2.1]
      simp
    · simp at htail
    · have hnil : lua.upvalueNames p = [] := List.length_eq_zero_iff.mp (by omega)
      rw [hnil]
      cases ups <;> simp [upvalsUserdata]
  | userdata typename ptr =>
    rw [script] at hok ⊢
    exact userdataScript_retains hok
  | cfunction => simp [script, seq_fin_ok] at hok
  | lightuserdata => simp [script] at hok
  | thread => simp [script] at hok

theorem entriesScript_retains (oop upval : Bool) (es : List (Value P × Value P))
    (hok : (entriesScript lua oop upval es).fin = .ok) :
    (entriesScript lua oop upval es).retains = entriesUserdata lua es := by
  match es with
  | [] => rfl
  | (k, v) :: es =>
    rw [entriesScript, entryScript_fin_ok] at hok
    rw [entriesScript, entryScript_retains hok.1 hok.2.1, entriesUserdata,
      script_retains oop upval k hok.1, script_retains oop upval v hok.2.1,
      entriesScript_retains oop upval es hok.2.2]

theorem upvalsScript_retains (oop upval : Bool) (i : ℕ) (names : List String)
    (ups : List (Option (Value P))) (hok : (upvalsScript lua oop upval i names ups).fin = .ok) :
    (upvalsScript lua oop upval i names ups).retains = upvalsUserdata lua names ups := by
  match names, ups with
  | name :: names, u :: us =>
    have ih := upvalsScript_retains oop upval (i + 1) names us
    rw [upvalsScript.eq_def] at hok ⊢
    simp only at hok ⊢
    split_ifs at hok ⊢ with hname
    · rw [ih hok]
      cases u <;> simp [upvalsUserdata, hname]
    match u with
    | none => simp at hok
    | some v =>
      simp only at hok ⊢
      split_ifs at hok ⊢ with hnil
      · have hv : userdataOf lua v = [] := by
          cases v with
          | nil => rw [userdataOf]
          | _ => simp [Value.isNil] at hnil
        rw [ih hok, upvalsUserdata, if_neg hname, hv, List.nil_append]
      · rw [entryScript_fin_ok] at hok
        have hkey : (upvalKeyScript lua.versionNum i).retains = [] := by
          rw [upvalKeyScript]
          split_ifs <;> rfl
        rw [entryScript_retains hok.1 hok.2.1, ih hok.2.2, upvalsUserdata, if_neg hname, hkey,
          script_retains oop upval v hok.2.1, List.nil_append]
  | _, [] =>
    rw [upvalsScript.eq_def, upvalsUserdata.eq_def]
    simp
  | [], _ :: _ => rfl

end

end

/-! ### Nothing else is retained -/

theorem mem_retains_of_mem_retainsIn {items : List Item} {n : ℕ} {ptr : UInt64}
    (h : ptr ∈ retainsIn items n) : ptr ∈ retains items := by
  induction items generalizing n with
  | nil => exact h
  | cons x xs ih =>
    cases x with
    | put bs place =>
      rw [retainsIn] at h
      split_ifs at h
      · exact ih h
      · cases h
    | retain q =>
      rcases List.mem_cons.mp h with rfl | h
      · exact List.mem_cons_self
      · exact List.mem_cons_of_mem _ (ih h)

theorem mem_retains_seq {s t : Script} {ptr : UInt64} (h : ptr ∈ (s.seq t).retains) :
    ptr ∈ s.retains ∨ ptr ∈ t.retains := by
  by_cases hok : s.fin = .ok
  · rw [seq_retains hok] at h
    exact List.mem_append.mp h
  · rw [seq_of_not_ok hok] at h
    exact Or.inl h

theorem mem_retains_puts_seq {bss : List (List UInt8)} {t : Script} {ptr : UInt64}
    (h : ptr ∈ ((puts bss).seq t).retains) : ptr ∈ t.retains :=
  (mem_retains_seq h).resolve_left (by simp)

section
variable {P : Type} {lua : Lua P}

theorem mem_tableScript_retains {body : Script} {typename : TypeName} {ptr : UInt64}
    (h : ptr ∈ (tableScript body typename).retains) : ptr ∈ body.retains := by
  rcases mem_retains_seq (mem_retains_puts_seq h) with hbody | hrest
  · rwa [mapPlace_retains] at hbody
  · simp at hrest

theorem mem_entryScript_retains {k v rest : Script} {ptr : UInt64}
    (h : ptr ∈ (entryScript k v rest).retains) :
    ptr ∈ k.retains ∨ ptr ∈ v.retains ∨ ptr ∈ rest.retains := by
  have hall := (mem_retains_seq h).imp_right mem_retains_seq
  rwa [mapPlace_retains, mapPlace_retains] at hall

theorem mem_functionScript_retains {upval : Bool} {p : P} {table : Script} {ptr : UInt64}
    (h : ptr ∈ (functionScript lua upval p table).retains) : ptr ∈ table.retains := by
  have htail := mem_retains_puts_seq h
  split_ifs at htail
  · cases htail
  · replace htail := mem_retains_puts_seq (mem_retains_puts_seq (mem_retains_puts_seq htail))
    rw [upvalsTail] at htail
    split_ifs at htail
    · rcases mem_retains_seq (mem_retains_puts_seq htail) with htable | hstop
      · rwa [mapPlace_retains] at htable
      · cases hstop
    · cases htail
    · cases htail

theorem mem_userdataScript_retains {oop : Bool} {typename : TypeName} {ptr q : UInt64}
    (h : q ∈ (userdataScript lua oop typename ptr).retains) : q = ptr := by
  rw [userdataScript] at h
  split_ifs at h
  · cases h
  cases typename with
  | none => cases h
  | torch name =>
    have hretain := mem_retains_puts_seq h
    cases hr : lua.retain (.torch name) ptr <;> simp only [hr] at hretain
    · cases hretain
    · exact List.mem_singleton.mp hretain
    · cases hretain
  | metatable name =>
    have hretain := mem_retains_puts_seq h
    cases hr : lua.retain (.metatable name) ptr <;> simp only [hr] at hretain
    · cases hretain
    · exact List.mem_singleton.mp hretain
    · cases hretain

mutual

/-- A value retains only objects in it, accepted or not. -/
theorem mem_script_retains (oop upval : Bool) (v : Value P) {ptr : UInt64}
    (h : ptr ∈ (script lua oop upval v).retains) : ptr ∈ userdataOf lua v := by
  cases v with
  | table es typename =>
    rw [script] at h
    rw [userdataOf]
    exact mem_entriesScript_retains oop upval es (mem_tableScript_retains h)
  | function p ups =>
    rw [script] at h
    rw [userdataOf]
    exact mem_upvalsScript_retains oop upval 1 _ ups
      (mem_tableScript_retains (mem_functionScript_retains h))
  | userdata typename q =>
    rw [script] at h
    rw [userdataOf, mem_userdataScript_retains h]
    exact List.mem_singleton_self q
  | nil => cases h
  | boolean b => cases h
  | lightuserdata => cases h
  | number bits => cases h
  | integer n => cases h
  | string bytes => cases h
  | cfunction => cases mem_retains_puts_seq h
  | thread => cases h

theorem mem_entriesScript_retains (oop upval : Bool) (es : List (Value P × Value P)) {ptr : UInt64}
    (h : ptr ∈ (entriesScript lua oop upval es).retains) : ptr ∈ entriesUserdata lua es := by
  match es with
  | [] => cases h
  | (k, v) :: es =>
    rw [entriesScript] at h
    rw [entriesUserdata, List.mem_append, List.mem_append, or_assoc]
    exact (mem_entryScript_retains h).imp (mem_script_retains oop upval k)
      (Or.imp (mem_script_retains oop upval v) (mem_entriesScript_retains oop upval es))

theorem mem_upvalsScript_retains (oop upval : Bool) (i : ℕ) (names : List String)
    (ups : List (Option (Value P))) {ptr : UInt64}
    (h : ptr ∈ (upvalsScript lua oop upval i names ups).retains) :
    ptr ∈ upvalsUserdata lua names ups := by
  match names, ups with
  | name :: names, none :: us =>
    rw [upvalsScript] at h
    rw [upvalsUserdata]
    split_ifs at h
    · exact mem_upvalsScript_retains oop upval (i + 1) names us h
    · cases h
  | name :: names, some v :: us =>
    rw [upvalsScript] at h
    rw [upvalsUserdata, List.mem_append]
    split_ifs at h with hname hnil
    · exact Or.inr (mem_upvalsScript_retains oop upval (i + 1) names us h)
    · exact Or.inr (mem_upvalsScript_retains oop upval (i + 1) names us h)
    · rw [if_neg hname]
      rcases mem_entryScript_retains h with hkey | hv | hrest
      · rw [upvalKeyScript] at hkey
        split_ifs at hkey <;> cases hkey
      · exact Or.inl (mem_script_retains oop upval v hv)
      · exact Or.inr (mem_upvalsScript_retains oop upval (i + 1) names us hrest)
  | [], [] => cases h
  | _ :: _, [] => cases h
  | [], _ :: _ => cases h

end

end

/-! ### What a loop has retained -/

/-- The room of attempt number `k`, when the first one has `room`. -/
def roomAt (room inc k : ℕ) : ℕ := (fun room => nextRoom room inc)^[k] room

@[simp] theorem roomAt_zero (room inc : ℕ) : roomAt room inc 0 = room := rfl

theorem roomAt_succ (room inc k : ℕ) : roomAt room inc (k + 1) = roomAt (nextRoom room inc) inc k :=
  rfl

/-- A buffer that is full behind its first attempt stays so. -/
theorem roomAt_of_full {room inc : ℕ} (h : nextRoom room inc = 0) (k : ℕ) :
    roomAt room inc (k + 1) = 0 := by
  rw [roomAt_succ, h]
  have hzero : nextRoom 0 inc = 0 := by
    rw [nextRoom] at h ⊢
    split_ifs at h ⊢ <;> omega
  induction k with
  | zero => rfl
  | succ k ih => rw [roomAt_succ, hzero, ih]

/-- The attempt number `K` is the last one: the ones before it run out of room and are
told so, and this one does not, or trips a stack check when it does. -/
structure Script.LastAttempt (s : Script) (room inc K : ℕ) : Prop where
  retried : ∀ k < K, ∃ place, overflow s.items (roomAt room inc k) = some place ∧ place ≠ .key
  ends : overflow s.items (roomAt room inc K) = some .key ∨
    overflow s.items (roomAt room inc K) = none ∧ s.fin ≠ .diverges

/-- The attempt number `k` is made: the ones before it run out of room. -/
def Script.Attempted (s : Script) (room inc k : ℕ) : Prop :=
  ∀ j < k, overflow s.items (roomAt room inc j) ≠ none

theorem Script.Attempted.succ {s : Script} {room inc k : ℕ} {place : Place} (hover : overflow s.items room = some place)
    (h : s.Attempted (nextRoom room inc) inc k) : s.Attempted room inc (k + 1) := by
  intro j hj
  cases j with
  | zero =>
    rw [roomAt_zero, hover]
    exact Option.some_ne_none _
  | succ j => exact h j (Nat.lt_of_succ_lt_succ hj)

/-- The value is stored if there is room for `n` bytes. -/
def Script.StoredIn (s : Script) (n : ℕ) : Prop := overflow s.items n = none ∧ s.fin = .ok

/-- What the attempts up to number `K` retain. -/
def Script.retainedBy (s : Script) (room inc K : ℕ) : List UInt64 :=
  (List.range (K + 1)).flatMap fun k => retainsIn s.items (roomAt room inc k)

theorem Script.LastAttempt.succ_iff {s : Script} {room inc K : ℕ} {place : Place}
    (hover : overflow s.items room = some place) (hplace : place ≠ .key) :
    s.LastAttempt room inc (K + 1) ↔ s.LastAttempt (nextRoom room inc) inc K := by
  constructor
  · intro h
    exact ⟨fun k hk => h.retried (k + 1) (Nat.succ_lt_succ hk), h.ends⟩
  · intro h
    refine ⟨fun k hk => ?_, h.ends⟩
    cases k with
    | zero => exact ⟨place, hover, hplace⟩
    | succ k => exact h.retried k (Nat.lt_of_succ_lt_succ hk)

theorem Script.retainedBy_succ (s : Script) (room inc K : ℕ) :
    s.retainedBy room inc (K + 1) = retainsIn s.items room ++ s.retainedBy (nextRoom room inc) inc K := by
  rw [Script.retainedBy, List.range_succ_eq_map, List.flatMap_cons, List.flatMap_map, roomAt_zero, Script.retainedBy]
  rfl

theorem Script.retainedBy_zero (s : Script) (room inc : ℕ) :
    s.retainedBy room inc 0 = retainsIn s.items room := by
  simp [Script.retainedBy]

section
variable {P : Type}

/-- A value is refused at once, or its script begins with a write. -/
theorem script_begins (lua : Lua P) (oop upval : Bool) (v : Value P) :
    (∃ e, script lua oop upval v = stop (.code e .plain)) ∨
      ∃ b bs rest, (script lua oop upval v).items = .put (b :: bs) .plain :: rest := by
  have hputs : ∀ b bss (t : Script), ∃ b' bs rest,
      ((puts ([b] :: bss)).seq t).items = .put (b' :: bs) .plain :: rest :=
    fun b bss t => ⟨b, [], _, rfl⟩
  cases v with
  | nil => exact Or.inr ⟨_, _, _, rfl⟩
  | boolean b => exact Or.inr ⟨_, _, _, rfl⟩
  | number bits => exact Or.inr ⟨_, _, _, rfl⟩
  | integer n => exact Or.inr ⟨_, _, _, rfl⟩
  | string str => exact Or.inr ⟨_, _, _, rfl⟩
  | table es typename => exact Or.inr (hputs _ _ _)
  | function p ups => exact Or.inr (hputs _ _ _)
  | cfunction => exact Or.inr ⟨_, _, _, rfl⟩
  | userdata typename ptr =>
    rw [script, userdataScript]
    split_ifs
    · exact Or.inl ⟨_, rfl⟩
    · cases typename with
      | torch name => exact Or.inr (hputs _ _ _)
      | metatable name => exact Or.inr (hputs _ _ _)
      | none => exact Or.inl ⟨_, rfl⟩
  | lightuserdata => exact Or.inl ⟨_, rfl⟩
  | thread => exact Or.inl ⟨_, rfl⟩

/-- A script has no items, or its first one writes. -/
theorem script_starts (lua : Lua P) (oop upval : Bool) (v : Value P) :
    (script lua oop upval v).items = [] ∨
      ∃ b bs rest, (script lua oop upval v).items = .put (b :: bs) .plain :: rest :=
  (script_begins lua oop upval v).imp_left fun ⟨_, h⟩ => by rw [h]; rfl

variable {lua : Lua P} {settle : ℕ → ℕ → Option ℕ} {upval : Bool} {inc : ℕ} {v : Value P}
variable {index startsize : ℕ} {fx : Effects}

theorem rbSave_retained (lua : Lua P) (upval : Bool) (v : Value P) (hv : fx.rb.Valid)
    (hi : index ≤ startsize) :
    ∃ pushed fx', Appended (ringbufferPushWritePos fx.rb)
        ((itemBytes (script lua false upval v).items).take fx.rb.room) fx'.rb ∧
      fx'.retained = fx.retained ++ retainsIn (script lua false upval v).items fx.rb.room ∧
      rbSave lua false upval v index { fx with rb := ringbufferPushWritePos fx.rb } startsize =
        match overflow (script lua false upval v).items fx.rb.room with
        | none => (script lua false upval v).fin.outcome pushed fx' startsize
        | some place => failAt pushed place .ENOMEM fx' startsize := by
  obtain ⟨fx', ha, hret, hrun⟩ := runItems_retained (if index = startsize then 0 else 1) startsize
    (fun fx => (script lua false upval v).fin.outcome (if index = startsize then 0 else 1) fx startsize)
    (script lua false upval v).items { fx with rb := ringbufferPushWritePos fx.rb }
    (Ringbuffer.pushWritePos_valid hv)
  exact ⟨_, fx', ha, hret, (rbSave_eq lua false upval v hi _).trans hrun⟩

/-- An attempt that runs out of room, and the next one in another block. -/
theorem growthLoop_retry (hv : fx.rb.Valid) (hgrow : 1 ≤ nextRoom fx.rb.room inc) (hi : index ≤ startsize)
    (hsettle : ∀ a b, a ≤ b → ∃ c, settle a b = some c ∧ a ≤ c) {place : Place}
    (hover : overflow (script lua false upval v).items fx.rb.room = some place) (hplace : place ≠ .key) :
    ∃ top fx', startsize ≤ top ∧ fx'.rb.Valid ∧ fx'.rb.room = nextRoom fx.rb.room inc ∧
      fx'.retained = fx.retained ++ retainsIn (script lua false upval v).items fx.rb.room ∧
      fx'.rb.content = fx.rb.content ∧
      ∀ fuel, growthLoop lua settle upval inc v index (fuel + 1) startsize fx =
        growthLoop lua settle upval inc v index fuel top fx' := by
  obtain ⟨pushed, fx₁, ha, hret, hsave⟩ := rbSave_retained lua upval v hv hi
  simp only [hover] at hsave
  obtain ⟨hpop, hcontent, hpopRoom⟩ := ha.rolledBack hv
  obtain ⟨rb, hgrow, hgrown, hkept, hroom⟩ := Ringbuffer.growBy_grows hpop (hpopRoom.symm ▸ hgrow)
  rw [hpopRoom] at hroom
  obtain ⟨top₁, htop₁, hfail⟩ : ∃ top₁ ≥ startsize,
      failAt pushed place .ENOMEM fx₁ startsize = .ret (-Errno.ENOMEM.toInt) fx₁ top₁ := by
    cases place with
    | plain => exact ⟨startsize, le_rfl, rfl⟩
    | upvals => exact ⟨startsize + pushed, Nat.le_add_right _ _, rfl⟩
    | key => exact absurd rfl hplace
  obtain ⟨top, hset, htop⟩ := hsettle startsize top₁ htop₁
  refine ⟨top, { fx₁ with rb := rb }, htop, hgrown, hroom, hret, hkept.trans hcontent, fun fuel => ?_⟩
  rw [growthLoop, hsave, hfail]
  simp only [if_true, hset, hgrow]

/-- A full buffer that does not grow: every attempt fails at its first write. -/
theorem growthLoop_stuck (hinc : inc = 0 ∨ 2 ^ 63 ≤ inc) (hfull : fx.rb.rcb = fx.rb.cb) (hi : index ≤ startsize)
    (hsettle : ∀ a b, a ≤ b → ∃ c, settle a b = some c ∧ a ≤ c) {b : UInt8} {bs : List UInt8}
    {rest : List Item} (hput : (script lua false upval v).items = .put (b :: bs) .plain :: rest)
    (fuel : ℕ) : (growthLoop lua settle upval inc v index fuel startsize fx).result = none := by
  induction fuel generalizing startsize fx with
  | zero => rfl
  | succ fuel ih =>
    rw [growthLoop, rbSave_eq lua false upval v hi, Script.run, hput, runItems]
    by_cases hcb : (ringbufferPushWritePos fx.rb).cb = 0
    · rw [if_pos hcb]
      rfl
    -- nothing is written, so the buffer is as full as before
    obtain ⟨rb, hwrite, hpopped, hkept⟩ :
        ∃ rb, ringbufferWrite (ringbufferPushWritePos fx.rb) (some (b :: bs))
          (b :: bs).length = (0, rb) ∧ (ringbufferPopWritePos rb).rcb = fx.rb.cb ∧
            (ringbufferPopWritePos rb).cb = fx.rb.cb := by
      refine ⟨_, Prod.ext ?_ rfl, (Ringbuffer.write_savedRcb _ _).trans hfull, Ringbuffer.write_cb _ _⟩
      rw [Ringbuffer.write_fst, Ringbuffer.room]
      change min _ (fx.rb.cb - fx.rb.rcb) = 0
      omega
    rw [if_neg hcb, hwrite]
    simp only
    rw [if_pos (by simp)]
    obtain ⟨top, hset, htop⟩ := hsettle startsize startsize le_rfl
    simp only [failAt, if_true, hset]
    cases hgrow : ringbufferGrowBy (ringbufferPopWritePos rb) inc with
    | none => rfl
    | some rb' =>
      obtain ⟨hle, hrcb, -⟩ := Ringbuffer.growBy_le hinc hgrow
      rw [hpopped, Nat.min_eq_left (hle.trans hkept.le)] at hrcb
      exact @ih _ { fx with rb := rb' } hrcb (hi.trans htop)

/-- An attempt that runs out of room, behind which there is none at all. -/
theorem growthLoop_full (hv : fx.rb.Valid) (hgrow : nextRoom fx.rb.room inc = 0) (hi : index ≤ startsize)
    (hsettle : ∀ a b, a ≤ b → ∃ c, settle a b = some c ∧ a ≤ c) {place : Place}
    (hover : overflow (script lua false upval v).items fx.rb.room = some place) (hplace : place ≠ .key)
    (fuel : ℕ) : (growthLoop lua settle upval inc v index fuel startsize fx).result = none := by
  have hinc : inc = 0 ∨ 2 ^ 63 ≤ inc := by
    rw [nextRoom] at hgrow
    split_ifs at hgrow with hsmall
    · omega
    · exact Or.inr (not_lt.mp hsmall)
  obtain ⟨b, bs, rest, hput⟩ := (script_starts lua false upval v).resolve_left fun hnil => by
    rw [hnil] at hover
    cases hover
  cases fuel with
  | zero => rfl
  | succ fuel =>
    obtain ⟨pushed, fx₁, happ, -, hsave⟩ := rbSave_retained lua upval v hv hi
    simp only [hover] at hsave
    have hroom := (happ.rolledBack hv).2.2
    obtain ⟨top₁, htop₁, hfail⟩ : ∃ top₁ ≥ startsize,
        failAt pushed place .ENOMEM fx₁ startsize = .ret (-Errno.ENOMEM.toInt) fx₁ top₁ := by
      cases place with
      | plain => exact ⟨startsize, le_rfl, rfl⟩
      | upvals => exact ⟨startsize + pushed, Nat.le_add_right _ _, rfl⟩
      | key => exact absurd rfl hplace
    obtain ⟨top, hset, htop⟩ := hsettle startsize top₁ htop₁
    rw [growthLoop, hsave, hfail]
    simp only [if_true, hset]
    cases hnext : ringbufferGrowBy (ringbufferPopWritePos fx₁.rb) inc with
    | none => rfl
    | some rb =>
      refine growthLoop_stuck hinc ?_ (hi.trans htop) hsettle hput fuel
      exact Ringbuffer.growBy_full (by rw [hroom, hgrow]) hnext

/-- An attempt that fails for another reason than room, or trips the stack check, is
the last. -/
theorem growthLoop_failed (settle : ℕ → ℕ → Option ℕ) (inc : ℕ) {pushed : ℕ} {place : Place}
    {e : Errno} {fx' : Effects}
    (hsave : rbSave lua false upval v index { fx with rb := ringbufferPushWritePos fx.rb } startsize =
      failAt pushed place e fx' startsize)
    (he : e = .ENOMEM → place = .key) (fuel : ℕ) :
    (growthLoop lua settle upval inc v index (fuel + 1) startsize fx).result =
      some (false, fx'.retained) := by
  rw [growthLoop, hsave]
  cases place with
  | key => rfl
  | plain =>
    cases e with
    | ENOMEM => exact absurd (he rfl) nofun
    | EPERM => rfl
    | EINVAL => rfl
  | upvals =>
    cases e with
    | ENOMEM => exact absurd (he rfl) nofun
    | EPERM => rfl
    | EINVAL => rfl

/-- An attempt that fits is the last, whatever its end. -/
theorem growthLoop_fitted (settle : ℕ → ℕ → Option ℕ) (inc : ℕ) {pushed : ℕ} {fx' : Effects}
    (hsave : rbSave lua false upval v index { fx with rb := ringbufferPushWritePos fx.rb } startsize =
      (script lua false upval v).fin.outcome pushed fx' startsize)
    (hfin : (script lua false upval v).fin ≠ .diverges) :
    ∃ ok : Bool, (ok = true ↔ (script lua false upval v).fin = .ok) ∧ ∀ fuel,
      (growthLoop lua settle upval inc v index (fuel + 1) startsize fx).result =
        some (ok, fx'.retained) := by
  have hshort := script_notShort lua false upval v
  cases hend : (script lua false upval v).fin with
  | ok =>
    refine ⟨true, iff_of_true rfl rfl, fun fuel => ?_⟩
    rw [growthLoop, hsave, hend]
    rfl
  | code e place =>
    rw [hend] at hsave hshort
    refine ⟨false, iff_of_false (by rintro ⟨⟩) (by rintro ⟨⟩), growthLoop_failed settle inc hsave fun he => ?_⟩
    rw [he] at hshort
    exact absurd rfl hshort
  | raise e =>
    refine ⟨false, iff_of_false (by rintro ⟨⟩) (by rintro ⟨⟩), fun fuel => ?_⟩
    rw [growthLoop, hsave, hend]
    rfl
  | diverges => exact absurd hend hfin

theorem growthLoop_last (settle : ℕ → ℕ → Option ℕ) (inc : ℕ) (hv : fx.rb.Valid)
    (hi : index ≤ startsize)
    (hends : overflow (script lua false upval v).items fx.rb.room = some .key ∨
      overflow (script lua false upval v).items fx.rb.room = none ∧
        (script lua false upval v).fin ≠ .diverges) :
    ∃ ok : Bool, (ok = true ↔ (script lua false upval v).StoredIn fx.rb.room) ∧ ∀ fuel,
      (growthLoop lua settle upval inc v index (fuel + 1) startsize fx).result =
        some (ok, fx.retained ++ retainsIn (script lua false upval v).items fx.rb.room) := by
  obtain ⟨pushed, fx', ha, hret, hsave⟩ := rbSave_retained lua upval v hv hi
  rw [← hret]
  rcases hends with hkey | ⟨hfits, hfin⟩
  · simp only [hkey] at hsave
    refine ⟨false, iff_of_false (by rintro ⟨⟩) (fun h => ?_), growthLoop_failed settle inc hsave fun _ => rfl⟩
    cases hkey.symm.trans h.1
  · simp only [hfits] at hsave
    obtain ⟨ok, hok, hresult⟩ := growthLoop_fitted settle inc hsave hfin
    refine ⟨ok, ?_, hresult⟩
    rw [hok]
    exact (and_iff_right hfits).symm

theorem growthLoop_result (hsettle : ∀ a b, a ≤ b → ∃ c, settle a b = some c ∧ a ≤ c)
    (hv : fx.rb.Valid) (hi : index ≤ startsize) {fuel : ℕ} {ok : Bool} {after : List UInt64}
    (h : (growthLoop lua settle upval inc v index fuel startsize fx).result = some (ok, after)) :
    ∃ K, (script lua false upval v).LastAttempt fx.rb.room inc K ∧
      (ok = true ↔ (script lua false upval v).StoredIn (roomAt fx.rb.room inc K)) ∧
      after = fx.retained ++ (script lua false upval v).retainedBy fx.rb.room inc K := by
  induction fuel generalizing startsize fx with
  | zero => cases h
  | succ fuel ih =>
    have hlast : (overflow (script lua false upval v).items fx.rb.room = some .key ∨
        overflow (script lua false upval v).items fx.rb.room = none ∧
          (script lua false upval v).fin ≠ .diverges) →
        ∃ K, (script lua false upval v).LastAttempt fx.rb.room inc K ∧
          (ok = true ↔ (script lua false upval v).StoredIn (roomAt fx.rb.room inc K)) ∧
          after = fx.retained ++ (script lua false upval v).retainedBy fx.rb.room inc K := by
      intro hends
      obtain ⟨ok', hok', hresult⟩ := growthLoop_last settle inc hv hi hends
      obtain ⟨rfl, rfl⟩ := Prod.mk.inj (Option.some.inj ((hresult fuel).symm.trans h))
      refine ⟨0, ⟨nofun, by simpa using hends⟩, by simpa using hok', ?_⟩
      rw [Script.retainedBy_zero]
    cases hover : overflow (script lua false upval v).items fx.rb.room with
    | none =>
      by_cases hdiv : (script lua false upval v).fin = .diverges
      · obtain ⟨pushed, fx', _, _, hsave⟩ := rbSave_retained lua upval v hv hi
        rw [growthLoop, hsave, hover] at h
        simp only [hdiv] at h
        cases h
      · exact hlast (Or.inr ⟨hover, hdiv⟩)
    | some place =>
      by_cases hplace : place = .key
      · exact hlast (Or.inl (hplace ▸ hover))
      · by_cases hgrow : 1 ≤ nextRoom fx.rb.room inc
        · obtain ⟨top, fx', htop, hv', hroom, hret, -, hstep⟩ :=
            growthLoop_retry hv hgrow hi hsettle hover hplace
          rw [hstep] at h
          obtain ⟨K, hK, hok, hafter⟩ := ih hv' (hi.trans htop) h
          rw [hroom] at hK hok hafter
          refine ⟨K + 1, (Script.LastAttempt.succ_iff hover hplace).mpr hK, hok, ?_⟩
          rw [hafter, hret, Script.retainedBy_succ, List.append_assoc]
        -- the loop does not end
        · rw [growthLoop_full hv (by omega) hi hsettle hover hplace] at h
          cases h

theorem not_lastAttempt_of_full {room K : ℕ} {place : Place}
    (hover : overflow (script lua false upval v).items room = some place) (hgrow : nextRoom room inc = 0) :
    ¬ (script lua false upval v).LastAttempt room inc (K + 1) := by
  intro hK
  have hends := hK.ends
  rw [roomAt_of_full hgrow] at hends
  rcases script_starts lua false upval v with hnil | ⟨b, bs, rest, hput⟩
  · rw [hnil] at hover
    cases hover
  · rw [hput, overflow, if_neg (by simp)] at hends
    rcases hends with hkey | ⟨hnone, -⟩
    · cases hkey
    · cases hnone

theorem growthLoop_ends (hsettle : ∀ a b, a ≤ b → ∃ c, settle a b = some c ∧ a ≤ c)
    (hv : fx.rb.Valid) (hi : index ≤ startsize) {K : ℕ}
    (hK : (script lua false upval v).LastAttempt fx.rb.room inc K) :
    ∃ fuel ok, (growthLoop lua settle upval inc v index fuel startsize fx).result =
      some (ok, fx.retained ++ (script lua false upval v).retainedBy fx.rb.room inc K) ∧
      (ok = true ↔ (script lua false upval v).StoredIn (roomAt fx.rb.room inc K)) := by
  induction K generalizing startsize fx with
  | zero =>
    obtain ⟨ok, hok, hresult⟩ := growthLoop_last settle inc hv hi hK.ends
    exact ⟨1, ok, by rw [Script.retainedBy_zero]; exact hresult 0, hok⟩
  | succ K ih =>
    obtain ⟨place, hover, hplace⟩ := hK.retried 0 (Nat.succ_pos K)
    rw [roomAt_zero] at hover
    have hgrow : 1 ≤ nextRoom fx.rb.room inc := by
      by_contra hfull
      exact not_lastAttempt_of_full hover (by omega) hK
    obtain ⟨top, fx', htop, hv', hroom, hret, -, hstep⟩ :=
      growthLoop_retry hv hgrow hi hsettle hover hplace
    obtain ⟨fuel, ok, hresult, hok⟩ := ih hv' (hi.trans htop)
      (by rw [hroom]; exact (Script.LastAttempt.succ_iff hover hplace).mp hK)
    rw [hroom] at hresult hok
    refine ⟨fuel + 1, ok, ?_, ?_⟩
    · rw [hstep, hresult, hret, Script.retainedBy_succ, List.append_assoc]
    · exact hok

/-- A buffer without a capacity: nothing is written and nothing retained. -/
theorem growthLoop_zero (hcb : fx.rb.cb = 0) (hi : index ≤ startsize) {fuel : ℕ} {ok : Bool}
    {after : List UInt64}
    (h : (growthLoop lua settle upval inc v index fuel startsize fx).result = some (ok, after)) :
    after = fx.retained ∧
      (ok = true ↔ (script lua false upval v).fin = .ok) ∧ (ok = true → userdataOf lua v = []) := by
  cases fuel with
  | zero => cases h
  | succ fuel =>
    have hrun := rbSave_eq lua false upval v hi { fx with rb := ringbufferPushWritePos fx.rb }
    rw [Script.run] at hrun
    rcases script_starts lua false upval v with hnil | ⟨b, bs, rest, hput⟩
    · rw [hnil, runItems] at hrun
      by_cases hdiv : (script lua false upval v).fin = .diverges
      · rw [growthLoop, hrun, hdiv] at h
        cases h
      · obtain ⟨ok', hok', hresult⟩ := growthLoop_fitted settle inc hrun hdiv
        obtain ⟨rfl, rfl⟩ := Prod.mk.inj (Option.some.inj ((hresult fuel).symm.trans h))
        refine ⟨rfl, hok', fun hok => ?_⟩
        rw [← script_retains false upval v (hok'.mp hok), Script.retains, hnil, retains]
    · rw [hput] at hrun
      rw [growthLoop, hrun.trans (if_pos hcb)] at h
      cases h

end

/-! ### The four loops -/

/-- The loops, with what each reads besides the value. -/
inductive GrowthLoop where
  | queue (upval : Bool) (sizeIncrement : ℕ) (numItems : UInt32) (locks : ℕ)
  | marshal (upval : Bool) (sizeIncrement : ℕ)
  | sharedtable (size : ℕ)
  | map

namespace GrowthLoop

def upval : GrowthLoop → Bool
  | .queue upval _ _ _ => upval
  | .marshal upval _ => upval
  | .sharedtable _ => false
  | .map => false

def increment : GrowthLoop → ℕ
  | .queue _ sizeIncrement _ _ => sizeIncrement
  | .marshal _ sizeIncrement => sizeIncrement
  | .sharedtable size => size
  | .map => Map.MAX_ARG_SIZE

section
variable {P : Type}

/-- One write of `v`. The argument of a queue is the second of two. -/
def run (lua : Lua P) (loop : GrowthLoop) (v : Value P) (index top : ℕ) (fx : Effects) (fuel : ℕ) :
    Option (Bool × List UInt64) :=
  match loop with
  | .queue upval sizeIncrement numItems locks =>
    (queueWrite lua upval sizeIncrement fuel [v]
      { fx with numItems := numItems, locks := locks }).result
  | .marshal upval sizeIncrement =>
    (Marshal.marshalWrite lua upval sizeIncrement v index top fx fuel).result
  | .sharedtable size => (Sharedtable.rbSaveWithGrowth lua size v index top fx fuel).result
  | .map => (Map.rbSaveWithGrowth lua v index top fx fuel).result

def Ends (lua : Lua P) (loop : GrowthLoop) (v : Value P) (index top : ℕ) (fx : Effects) (ok : Bool)
    (after : List UInt64) : Prop :=
  ∃ fuel, loop.run lua v index top fx fuel = some (ok, after)

end

end GrowthLoop

section
variable {P : Type} {lua : Lua P}

theorem queueWrite_result (upval : Bool) (inc fuel : ℕ) (vs : List (Value P)) (q : Queue) :
    (queueWrite lua upval inc fuel vs q).result =
      (writeLoop lua upval inc fuel vs 2 (vs.length + 1) (pthreadMutexLock q)).result := by
  rw [queueWrite]
  cases writeLoop lua upval inc fuel vs 2 (vs.length + 1) (pthreadMutexLock q) <;> rfl

theorem marshalWrite_result (upval : Bool) (inc : ℕ) (v : Value P) (index top : ℕ) (fx : Effects)
    (fuel : ℕ) :
    (Marshal.marshalWrite lua upval inc v index top fx fuel).result =
      (growthLoop lua (fun _ top => some top) upval inc v index fuel top fx).result := by
  rw [Marshal.marshalWrite]
  cases growthLoop lua (fun _ top => some top) upval inc v index fuel top fx with
  | ret code fx top =>
    rw [GrowthOutcome.result, GrowthOutcome.result]
    split_ifs <;> rfl
  | _ => rfl

/-- The end of the queue's loop over one argument, when the common loop ends so. -/
def GrowthOutcome.onQueue (q : Queue) : GrowthOutcome → WriteOutcome
  | .ret code fx _ =>
    if code = 0 then .done { q with rb := fx.rb, retained := fx.retained, numItems := q.numItems + 1 }
    else .error code { q with rb := ringbufferPopWritePos fx.rb, retained := fx.retained }
  | .raised e fx => .raised e { q with rb := fx.rb, retained := fx.retained }
  | .popped _ => .timeout
  | .undefined => .undefined
  | .diverges => .diverges
  | .timeout => .timeout

/-- The queue's loop over one argument needs a round more, to see that there is no
other. -/
theorem writeLoop_single (lua : Lua P) (upval : Bool) (inc : ℕ) (v : Value P) (index fuel height : ℕ) (q : Queue) :
    (writeLoop lua upval inc fuel [v] index height q = .timeout ∨ writeLoop lua upval inc fuel [v] index height q =
      (growthLoop lua (fun _ top => some top) upval inc v index fuel height q.toEffects).onQueue q) ∧
    (growthLoop lua (fun _ top => some top) upval inc v index fuel height q.toEffects ≠ .timeout →
      writeLoop lua upval inc (fuel + 1) [v] index height q =
        (growthLoop lua (fun _ top => some top) upval inc v index fuel height q.toEffects).onQueue q) := by
  induction fuel generalizing height q with
  | zero => exact ⟨Or.inl rfl, fun h => absurd rfl h⟩
  | succ fuel ih =>
    rw [writeLoop, growthLoop, writeLoop]
    cases rbSave lua false upval v index { q.toEffects with rb := ringbufferPushWritePos q.rb } height with
    | ret code fx top =>
      by_cases hmem : code = -Errno.ENOMEM.toInt
      · simp only [if_pos hmem]
        cases ringbufferGrowBy (ringbufferPopWritePos fx.rb) inc with
        | none => exact ⟨Or.inr rfl, fun _ => rfl⟩
        | some rb => exact ih top { q with rb := rb, retained := fx.retained }
      · simp only [if_neg hmem]
        by_cases hzero : code = 0
        · simp only [hzero, ne_eq, not_true_eq_false, if_false, GrowthOutcome.onQueue, if_true]
          refine ⟨?_, fun _ => rfl⟩
          cases fuel with
          | zero => exact Or.inl rfl
          | succ fuel => exact Or.inr rfl
        · simp only [ne_eq, hzero, not_false_eq_true, if_true, GrowthOutcome.onQueue, if_false]
          exact ⟨Or.inr trivial, fun _ => trivial⟩
    | raise e fx => exact ⟨Or.inr rfl, fun _ => rfl⟩
    | undefined => exact ⟨Or.inr rfl, fun _ => rfl⟩
    | diverges => exact ⟨Or.inr rfl, fun _ => rfl⟩

theorem onQueue_result {o : GrowthOutcome} (h : ∀ fx, o ≠ .popped fx) (q : Queue) :
    (o.onQueue q).result = o.result := by
  cases o with
  | ret code fx top =>
    rw [GrowthOutcome.onQueue, GrowthOutcome.result]
    by_cases hzero : code = 0 <;> simp [hzero, WriteOutcome.result]
  | popped fx => exact absurd rfl (h fx)
  | _ => rfl

theorem growthLoop_ne_popped (lua : Lua P) (upval : Bool) (inc : ℕ) (v : Value P)
    (index fuel height : ℕ) (fx fx' : Effects) :
    growthLoop lua (fun _ top => some top) upval inc v index fuel height fx ≠ .popped fx' := by
  induction fuel generalizing height fx with
  | zero => exact nofun
  | succ fuel ih =>
    rw [growthLoop]
    cases rbSave lua false upval v index { fx with rb := ringbufferPushWritePos fx.rb } height with
    | ret code fx top =>
      by_cases hmem : code = -Errno.ENOMEM.toInt
      · simp only [if_pos hmem]
        cases ringbufferGrowBy (ringbufferPopWritePos fx.rb) inc with
        | none => exact nofun
        | some rb => exact ih top _
      · simp only [if_neg hmem]
        exact nofun
    | _ => exact nofun

theorem writeLoop_result (lua : Lua P) (upval : Bool) (inc : ℕ) (v : Value P) (index : ℕ) (r : Bool × List UInt64)
    (fuel height : ℕ) (q : Queue) :
    ((writeLoop lua upval inc fuel [v] index height q).result = some r →
      (growthLoop lua (fun _ top => some top) upval inc v index fuel height q.toEffects).result =
        some r) ∧
    ((growthLoop lua (fun _ top => some top) upval inc v index fuel height q.toEffects).result = some r →
      (writeLoop lua upval inc (fuel + 1) [v] index height q).result = some r) := by
  obtain ⟨hsame, hmore⟩ := writeLoop_single lua upval inc v index fuel height q
  have hresult := onQueue_result (growthLoop_ne_popped lua upval inc v index fuel height q.toEffects) q
  constructor
  · intro h
    rcases hsame with htimeout | heq
    · rw [htimeout] at h
      cases h
    · rwa [heq, hresult] at h
  · intro h
    rwa [hmore (fun htimeout => by rw [htimeout] at h; cases h), hresult]

/-- Each of the four ends as the common loop does. -/
theorem GrowthLoop.ends_iff (lua : Lua P) (loop : GrowthLoop) (v : Value P) (fx : Effects)
    {index top : ℕ} (hi : index ≤ top) :
    ∃ settle index' top', index' ≤ top' ∧ (∀ a b : ℕ, a ≤ b → ∃ c, settle a b = some c ∧ a ≤ c) ∧
      ∀ ok after, loop.Ends lua v index top fx ok after ↔ ∃ fuel,
        (growthLoop lua settle loop.upval loop.increment v index' fuel top' fx).result =
          some (ok, after) := by
  have hkeep : ∀ a b : ℕ, a ≤ b → ∃ c, (fun _ top : ℕ => some top) a b = some c ∧ a ≤ c :=
    fun a b hab => ⟨b, rfl, hab⟩
  cases loop with
  | queue upval inc numItems locks =>
    refine ⟨fun _ top => some top, 2, 2, le_rfl, hkeep, fun ok after => ?_⟩
    have hiff := fun fuel => writeLoop_result lua upval inc v 2 (ok, after) fuel 2
      (pthreadMutexLock { fx with numItems := numItems, locks := locks })
    constructor
    · rintro ⟨fuel, h⟩
      exact ⟨fuel, (hiff fuel).1 ((queueWrite_result ..).symm.trans h)⟩
    · rintro ⟨fuel, h⟩
      exact ⟨fuel + 1, (queueWrite_result ..).trans ((hiff fuel).2 h)⟩
  | marshal upval inc =>
    refine ⟨fun _ top => some top, index, top, hi, hkeep, fun ok after => ?_⟩
    apply exists_congr
    intro fuel
    rw [GrowthLoop.run, marshalWrite_result]
    rfl
  | sharedtable size => exact ⟨_, index, top, hi, hkeep, fun ok after => Iff.rfl⟩
  | map =>
    refine ⟨_, index, top, hi, fun a b hab => ⟨a, if_neg (Nat.not_lt.mpr hab), le_rfl⟩,
      fun ok after => Iff.rfl⟩

/-! ### One reference for each occurrence -/

/-- How many bytes are written before the first object is retained. -/
def bytesBefore : List Item → Option ℕ
  | [] => none
  | .put bs _ :: items => (bytesBefore items).map (bs.length + ·)
  | .retain _ :: _ => some 0

theorem retainsIn_eq_nil {items : List Item} {n : ℕ} :
    retainsIn items n = [] ↔ ∀ m, bytesBefore items = some m → n < m := by
  induction items generalizing n with
  | nil => simp [retainsIn, bytesBefore]
  | cons x xs ih =>
    cases x with
    | retain ptr => simp [retainsIn, bytesBefore]
    | put bs place =>
      simp only [retainsIn, bytesBefore, Option.map_eq_some_iff, forall_exists_index, and_imp,
        forall_apply_eq_imp_iff₂]
      split_ifs with hfit
      · rw [ih]
        exact forall₂_congr fun m hm => by omega
      · exact iff_of_true rfl fun m hm => by omega

/-- No attempt gets past the first object, except one that stores the value: with
`k` increments, either the bytes before the object do not fit or all of them do. -/
def Script.OnceOnly (s : Script) (room inc : ℕ) : Prop :=
  ∀ K, s.LastAttempt room inc K → ∀ k ≤ K, ∀ m, bytesBefore s.items = some m →
    m ≤ roomAt room inc k → k = K ∧ s.StoredIn (roomAt room inc K)

theorem Script.onceOnly_iff {s : Script} {room inc : ℕ} :
    s.OnceOnly room inc ↔ ∀ K, s.LastAttempt room inc K → ∀ k ≤ K,
      (k = K ∧ s.StoredIn (roomAt room inc K)) ∨ retainsIn s.items (roomAt room inc k) = [] := by
  refine forall₂_congr fun K hK => forall₂_congr fun k hk => ?_
  rw [retainsIn_eq_nil]
  constructor
  · intro h
    by_cases hlast : k = K ∧ s.StoredIn (roomAt room inc K)
    · exact Or.inl hlast
    · exact Or.inr fun m hm => not_le.mp fun hle => hlast (h m hm hle)
  · intro h m hm hle
    exact h.resolve_right fun hlt => absurd (hlt m hm) (not_lt.mpr hle)

/-- An object at the very end of a value is safe. -/
theorem Script.onceOnly_of_end {s : Script} (hfin : s.fin = .ok)
    (hend : bytesBefore s.items = some (itemBytes s.items).length) (room inc : ℕ) :
    s.OnceOnly room inc := by
  intro K hK k hk m hm hle
  obtain rfl := Option.some.inj (hend.symm.trans hm)
  have hfits := overflow_eq_none.mpr hle
  rcases Nat.eq_or_lt_of_le hk with rfl | hlt
  · exact ⟨rfl, hfits, hfin⟩
  · obtain ⟨place, hover, -⟩ := hK.retried k hlt
    cases hfits.symm.trans hover

theorem retainedBy_eq_nil {s : Script} {room inc K : ℕ} :
    s.retainedBy room inc K = [] ↔ ∀ k ≤ K, retainsIn s.items (roomAt room inc k) = [] := by
  simp [Script.retainedBy, List.flatMap_eq_nil_iff]

/-- The attempts before the last one, and the last one. -/
theorem retainedBy_last (s : Script) (room inc K : ℕ) :
    s.retainedBy room inc K = ((List.range K).flatMap fun k => retainsIn s.items (roomAt room inc k)) ++
      retainsIn s.items (roomAt room inc K) := by
  rw [Script.retainedBy, List.range_succ, List.flatMap_append, List.flatMap_singleton]

theorem eq_nil_of_count {xs : List UInt64} (h : ∀ ptr, xs.count ptr = 0) : xs = [] :=
  List.eq_nil_iff_forall_not_mem.mpr fun ptr => List.count_eq_zero.mp (h ptr)

/-- What a stored value retains at last is its objects. -/
theorem retainsIn_stored {upval : Bool} {v : Value P} {n : ℕ}
    (h : (script lua false upval v).StoredIn n) :
    retainsIn (script lua false upval v).items n = userdataOf lua v :=
  (retainsIn_of_fits h.1).trans (script_retains false upval v h.2)

/-- If the attempts add up to one reference for each occurrence, or none, then none of
them gets past the first object in vain. -/
theorem inVain_of_counts {upval : Bool} {v : Value P} {room inc K : ℕ} {ok : Bool}
    (hok : ok = true ↔ (script lua false upval v).StoredIn (roomAt room inc K))
    (h : ∀ ptr, ((script lua false upval v).retainedBy room inc K).count ptr =
      if ok then (userdataOf lua v).count ptr else 0) :
    ∀ k ≤ K, (k = K ∧ (script lua false upval v).StoredIn (roomAt room inc K)) ∨
      retainsIn (script lua false upval v).items (roomAt room inc k) = [] := by
  cases ok with
  | false => exact fun k hk => Or.inr (retainedBy_eq_nil.mp (eq_nil_of_count h) k hk)
  | true =>
    have hstored := hok.mp rfl
    rw [retainedBy_last, retainsIn_stored hstored] at h
    simp only [List.count_append, if_true, Nat.add_eq_right] at h
    intro k hk
    rcases Nat.eq_or_lt_of_le hk with heq | hlt
    · exact Or.inl ⟨heq, hstored⟩
    · exact Or.inr (List.flatMap_eq_nil_iff.mp (eq_nil_of_count h) k (List.mem_range.mpr hlt))

/-- And when none of them does, this is what they add up to. -/
theorem Script.OnceOnly.retainedBy {s : Script} {room inc K : ℕ} {ok : Bool}
    (h : s.OnceOnly room inc) (hK : s.LastAttempt room inc K)
    (hok : ok = true ↔ s.StoredIn (roomAt room inc K)) :
    s.retainedBy room inc K = if ok then s.retains else [] := by
  have honce := Script.onceOnly_iff.mp h K hK
  cases ok with
  | false =>
    have hnot : ¬ s.StoredIn (roomAt room inc K) := fun h => Bool.noConfusion (hok.mpr h)
    exact retainedBy_eq_nil.mpr fun k hk => (honce k hk).resolve_left fun h => hnot h.2
  | true =>
    rw [retainedBy_last, retainsIn_of_fits (hok.mp rfl).1, List.flatMap_eq_nil_iff.mpr]
    · rfl
    · intro k hk
      have hlt := List.mem_range.mp hk
      exact (honce k hlt.le).resolve_left fun h => hlt.ne h.1

/-! ### Some of the objects -/

def Item.kept (keep : UInt64 → Bool) : Item → Bool
  | .put _ _ => true
  | .retain ptr => keep ptr

/-- The script without the objects that are not in `keep`. -/
def Script.only (keep : UInt64 → Bool) (s : Script) : Script :=
  ⟨s.items.filter (Item.kept keep), s.fin⟩

theorem Script.only_eq_self {keep : UInt64 → Bool} {s : Script} (h : ∀ ptr ∈ s.retains, keep ptr = true) :
    s.only keep = s := by
  obtain ⟨items, fin⟩ := s
  change ∀ ptr ∈ TorchIpc.retains items, keep ptr = true at h
  have hall : ∀ x ∈ items, Item.kept keep x = true := by
    induction items with
    | nil => nofun
    | cons x xs ih =>
      cases x with
      | put bs place => exact List.forall_mem_cons.mpr ⟨rfl, ih h⟩
      | retain ptr => exact List.forall_mem_cons.mpr ⟨(List.forall_mem_cons.mp h).1,
          ih (List.forall_mem_cons.mp h).2⟩
  rw [Script.only, List.filter_eq_self.mpr hall]

theorem overflow_only (keep : UInt64 → Bool) (items : List Item) (n : ℕ) :
    overflow (items.filter (Item.kept keep)) n = overflow items n := by
  induction items generalizing n with
  | nil => rfl
  | cons x xs ih =>
    cases x with
    | put bs place =>
      rw [List.filter_cons_of_pos rfl, overflow, overflow, ih]
    | retain ptr =>
      rw [List.filter_cons]
      split_ifs
      · exact ih n
      · exact ih n

theorem retainsIn_only (keep : UInt64 → Bool) (items : List Item) (n : ℕ) :
    retainsIn (items.filter (Item.kept keep)) n = (retainsIn items n).filter keep := by
  induction items generalizing n with
  | nil => rfl
  | cons x xs ih =>
    cases x with
    | put bs place =>
      rw [List.filter_cons_of_pos rfl, retainsIn, retainsIn, ih]
      split_ifs <;> rfl
    | retain ptr =>
      rw [retainsIn, List.filter_cons, List.filter_cons, ← ih]
      change retainsIn (if keep ptr = true then _ else _) n = _
      split_ifs <;> rfl

theorem Script.only_retains (keep : UInt64 → Bool) (s : Script) :
    (s.only keep).retains = s.retains.filter keep := by
  obtain ⟨items, fin⟩ := s
  change TorchIpc.retains (items.filter (Item.kept keep)) = (TorchIpc.retains items).filter keep
  induction items with
  | nil => rfl
  | cons x xs ih =>
    cases x with
    | put bs place =>
      rw [List.filter_cons_of_pos rfl]
      exact ih
    | retain ptr =>
      rw [TorchIpc.retains, List.filter_cons, List.filter_cons, ← ih]
      change TorchIpc.retains (if keep ptr = true then _ else _) = _
      split_ifs <;> rfl

theorem Script.only_lastAttempt {keep : UInt64 → Bool} {s : Script} {room inc K : ℕ} :
    (s.only keep).LastAttempt room inc K ↔ s.LastAttempt room inc K := by
  have hover : ∀ n, overflow (s.only keep).items n = overflow s.items n :=
    overflow_only keep s.items
  constructor
  · intro h
    refine ⟨fun k hk => ?_, ?_⟩
    · rw [← hover]
      exact h.retried k hk
    · rw [← hover]
      exact h.ends
  · intro h
    refine ⟨fun k hk => ?_, ?_⟩
    · rw [hover]
      exact h.retried k hk
    · rw [hover]
      exact h.ends

theorem Script.only_storedIn {keep : UInt64 → Bool} {s : Script} {n : ℕ} :
    (s.only keep).StoredIn n ↔ s.StoredIn n :=
  and_congr_left' (by rw [Script.only, overflow_only])

theorem Script.only_retainedBy (keep : UInt64 → Bool) (s : Script) (room inc K : ℕ) :
    (s.only keep).retainedBy room inc K = (s.retainedBy room inc K).filter keep := by
  rw [Script.retainedBy, Script.retainedBy, List.filter_flatMap]
  congr 1
  funext k
  exact retainsIn_only keep s.items _

/-- What a loop adds when no attempt gets past the first of these objects in vain. -/
theorem GrowthLoop.Ends.filter {loop : GrowthLoop} {v : Value P} {index top : ℕ} {fx : Effects}
    (hrb : fx.rb.Sound) (hi : index ≤ top) (keep : UInt64 → Bool)
    (honce : fx.rb.cb = 0 ∨
      ((script lua false loop.upval v).only keep).OnceOnly fx.rb.room loop.increment)
    {ok : Bool} {after : List UInt64} (hend : loop.Ends lua v index top fx ok after) :
    after.filter keep =
      fx.retained.filter keep ++ if ok then (userdataOf lua v).filter keep else [] := by
  obtain ⟨settle, index', top', hi', hsettle, hends⟩ := loop.ends_iff lua v fx hi
  obtain ⟨fuel, hresult⟩ := (hends ok after).mp hend
  rcases hrb with hv | hzero
  · have hcb : fx.rb.cb ≠ 0 := fun h0 => by
      have := hv.rp_lt
      omega
    rw [or_iff_right hcb] at honce
    obtain ⟨K, hK, hok, rfl⟩ := growthLoop_result hsettle hv hi' hresult
    have hby := honce.retainedBy (Script.only_lastAttempt.mpr hK) (hok.trans Script.only_storedIn.symm)
    rw [List.filter_append, ← Script.only_retainedBy, hby]
    cases ok with
    | false => rfl
    | true => rw [if_pos rfl, if_pos rfl, Script.only_retains, script_retains false _ v (hok.mp rfl).2]
  · have hcb : fx.rb.cb = 0 := by rw [hzero]; rfl
    obtain ⟨rfl, -, hnil⟩ := growthLoop_zero hcb hi' hresult
    cases ok with
    | false => exact (List.append_nil _).symm
    | true => rw [if_pos rfl, hnil rfl, List.filter_nil, List.append_nil]

/-- Whatever happens, a loop retains nothing but objects of the value. -/
theorem GrowthLoop.Ends.mem {loop : GrowthLoop} {v : Value P} {index top : ℕ} {fx : Effects}
    (hrb : fx.rb.Sound) (hi : index ≤ top) {ok : Bool}
    {after : List UInt64} (hend : loop.Ends lua v index top fx ok after) {ptr : UInt64}
    (hptr : ptr ∈ after) : ptr ∈ fx.retained ∨ ptr ∈ userdataOf lua v := by
  obtain ⟨settle, index', top', hi', hsettle, hends⟩ := loop.ends_iff lua v fx hi
  obtain ⟨fuel, hresult⟩ := (hends ok after).mp hend
  rcases hrb with hv | hzero
  · obtain ⟨K, -, -, rfl⟩ := growthLoop_result hsettle hv hi' hresult
    refine (List.mem_append.mp hptr).imp_right fun hby => ?_
    obtain ⟨k, -, hk⟩ := List.mem_flatMap.mp hby
    exact mem_script_retains false loop.upval v (mem_retains_of_mem_retainsIn hk)
  · have hcb : fx.rb.cb = 0 := by rw [hzero]; rfl
    obtain ⟨rfl, -⟩ := growthLoop_zero hcb hi' hresult
    exact Or.inl hptr

/-- A value that is stored has been accepted; in a buffer without a capacity it is none
that takes objects along. -/
theorem GrowthLoop.Ends.stored {loop : GrowthLoop} {v : Value P} {index top : ℕ} {fx : Effects}
    (hrb : fx.rb.Sound) (hi : index ≤ top) {after : List UInt64}
    (hend : loop.Ends lua v index top fx true after) :
    (script lua false loop.upval v).fin = .ok ∧ (fx.rb.cb = 0 → userdataOf lua v = []) := by
  obtain ⟨settle, index', top', hi', hsettle, hends⟩ := loop.ends_iff lua v fx hi
  obtain ⟨fuel, hresult⟩ := (hends true after).mp hend
  rcases hrb with hv | hzero
  · obtain ⟨K, -, hok, -⟩ := growthLoop_result hsettle hv hi' hresult
    refine ⟨(hok.mp rfl).2, fun h0 => ?_⟩
    have := hv.rp_lt
    omega
  · have hcb : fx.rb.cb = 0 := by rw [hzero]; rfl
    obtain ⟨-, hok, hnil⟩ := growthLoop_zero hcb hi' hresult
    exact ⟨hok.mp rfl, fun _ => hnil rfl⟩

theorem put_mem_of_overflow {items : List Item} {n : ℕ} {place : Place}
    (h : overflow items n = some place) : ∃ bs, .put bs place ∈ items := by
  induction items generalizing n with
  | nil => cases h
  | cons x xs ih =>
    cases x with
    | retain ptr =>
      obtain ⟨bs, hbs⟩ := ih h
      exact ⟨bs, List.mem_cons_of_mem _ hbs⟩
    | put bs place' =>
      rw [overflow] at h
      split_ifs at h
      · obtain ⟨bs', hbs⟩ := ih h
        exact ⟨bs', List.mem_cons_of_mem _ hbs⟩
      · cases h
        exact ⟨bs, List.mem_cons_self⟩

/-- The value can be serialised, and has no function with an upvalue table among the
keys of its tables, which a short write would refuse. -/
def Serialisable (lua : Lua P) (upval : Bool) (v : Value P) : Prop :=
  (script lua false upval v).fin = .ok ∧ ∀ bs, .put bs .key ∉ (script lua false upval v).items

/-- The item writes nothing at the place of a key. -/
def Item.keyless : Item → Bool
  | .put _ .key => false
  | _ => true

theorem serialisable_of_keyless {upval : Bool} {v : Value P} (hfin : (script lua false upval v).fin = .ok)
    (hkeys : (script lua false upval v).items.all Item.keyless = true) :
    Serialisable lua upval v := by
  refine ⟨hfin, fun bs hbs => ?_⟩
  have hkey := List.all_eq_true.mp hkeys _ hbs
  cases hkey

theorem GrowthLoop.Ends.ok_of_serialisable {loop : GrowthLoop} {v : Value P} {index top : ℕ}
    {fx : Effects} (hrb : fx.rb.Sound) (hi : index ≤ top) {ok : Bool} {after : List UInt64}
    (hend : loop.Ends lua v index top fx ok after) (hv : Serialisable lua loop.upval v) :
    ok = true := by
  obtain ⟨settle, index', top', hi', hsettle, hends⟩ := loop.ends_iff lua v fx hi
  obtain ⟨fuel, hresult⟩ := (hends ok after).mp hend
  rcases hrb with hvalid | hzero
  · obtain ⟨K, hK, hok, -⟩ := growthLoop_result hsettle hvalid hi' hresult
    rcases hK.ends with hkey | ⟨hfits, -⟩
    · obtain ⟨bs, hbs⟩ := put_mem_of_overflow hkey
      exact absurd hbs (hv.2 bs)
    · exact hok.mpr ⟨hfits, hv.1⟩
  · have hcb : fx.rb.cb = 0 := by rw [hzero]; rfl
    obtain ⟨-, hok, -⟩ := growthLoop_zero hcb hi' hresult
    exact hok.mpr hv.1

end

end TorchIpc
