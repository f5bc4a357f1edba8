import TorchIpc.Serialize.Save

/-! What `rb_save` does, as a script that does not mention the buffer: the writes
it attempts in order, the calls of `retain` between them, and how it ends when
all of them fit. The Lua stack is gone as well; what is left of it is where a
short write happens, because on one path the copy of a function that `rb_save`
pushed stays behind. -/

namespace TorchIpc

open Words

inductive Place where
  /-- A failure here leaves the stack as it was. -/
  | plain
  /-- In the upvalue table of the function being saved: its pushed copy stays. -/
  | upvals
  /-- In the upvalue table of a function that is a table key: the copy that stays
  trips the stack check of the table. -/
  | key
  deriving Repr, DecidableEq

inductive Item where
  | put (bs : List UInt8) (place : Place)
  | retain (ptr : UInt64)

inductive End where
  | ok
  | code (e : Errno) (place : Place)
  | raise (e : LuaError)
  | diverges

structure Script where
  items : List Item
  fin : End

/-! ### Running a script -/

/-- A failure at a place, where `pushed` values stay after one among the upvalues. -/
def failAt (pushed : ℕ) (place : Place) (e : Errno) (fx : Effects) (top : ℕ) : SaveOutcome :=
  match place with
  | .plain => .ret (-e.toInt) fx top
  | .upvals => .ret (-e.toInt) fx (top + pushed)
  | .key => .raise (.stackCheck "write table key") fx

def End.outcome (pushed : ℕ) (fx : Effects) (top : ℕ) : End → SaveOutcome
  | .ok => .ret 0 fx top
  | .code e place => failAt pushed place e fx top
  | .raise e => .raise e fx
  | .diverges => .diverges

def runItems (pushed : ℕ) (top : ℕ) (k : Effects → SaveOutcome) :
    List Item → Effects → SaveOutcome
  | [], fx => k fx
  | .put bs place :: items, fx =>
    if fx.rb.cb = 0 then .undefined else
    let (i, rb) := ringbufferWrite fx.rb (some bs) bs.length
    if i ≠ bs.length then failAt pushed place .ENOMEM { fx with rb := rb } top
    else runItems pushed top k items { fx with rb := rb }
  | .retain ptr :: items, fx =>
    runItems pushed top k items { fx with retained := fx.retained ++ [ptr] }

def Script.run (pushed : ℕ) (s : Script) (fx : Effects) (top : ℕ) : SaveOutcome :=
  runItems pushed top (fun fx => s.fin.outcome pushed fx top) s.items fx

/-! ### Composing scripts -/

/-- One script after the other, unless the first ends badly. -/
def Script.seq (s t : Script) : Script :=
  match s.fin with
  | .ok => ⟨s.items ++ t.items, t.fin⟩
  | _ => s

def Item.mapPlace (f : Place → Place) : Item → Item
  | .put bs place => .put bs (f place)
  | .retain ptr => .retain ptr

def End.mapPlace (f : Place → Place) : End → End
  | .code e place => .code e (f place)
  | e => e

def Script.mapPlace (f : Place → Place) (s : Script) : Script :=
  ⟨s.items.map (Item.mapPlace f), s.fin.mapPlace f⟩

def puts (bss : List (List UInt8)) : Script := ⟨bss.map (Item.put · .plain), .ok⟩

def stop (e : End) : Script := ⟨[], e⟩

theorem puts_mapPlace {f : Place → Place} (hf : f .plain = .plain) (bss : List (List UInt8)) :
    (puts bss).mapPlace f = puts bss := by
  simp [puts, Script.mapPlace, Item.mapPlace, End.mapPlace, hf]

theorem runItems_append (pushed top : ℕ) (k : Effects → SaveOutcome) (xs ys : List Item)
    (fx : Effects) :
    runItems pushed top k (xs ++ ys) fx = runItems pushed top (runItems pushed top k ys) xs fx := by
  induction xs generalizing fx with
  | nil => rfl
  | cons x xs ih =>
    cases x with
    | put bs place =>
      simp only [List.cons_append, runItems]
      split_ifs
      · rfl
      · rfl
      · exact ih _
    | retain ptr => exact ih _

theorem seq_run (pushed : ℕ) (s t : Script) (fx : Effects) (top : ℕ) :
    (s.seq t).run pushed fx top = runItems pushed top (fun fx =>
      match s.fin with
      | .ok => t.run pushed fx top
      | e => e.outcome pushed fx top) s.items fx := by
  obtain ⟨items, fin⟩ := s
  cases fin with
  | ok => exact runItems_append pushed top _ items t.items fx
  | code e place => rfl
  | raise e => rfl
  | diverges => rfl

theorem runItems_andThen {pushed pushed' top top' : ℕ} {f : Place → Place}
    {k : ℤ → Effects → ℕ → SaveOutcome}
    (hfail : ∀ place e fx,
      (failAt pushed place e fx top).andThen k = failAt pushed' (f place) e fx top')
    {k₁ k₂ : Effects → SaveOutcome} (hk : ∀ fx, (k₁ fx).andThen k = k₂ fx) (items : List Item)
    (fx : Effects) :
    (runItems pushed top k₁ items fx).andThen k =
      runItems pushed' top' k₂ (items.map (Item.mapPlace f)) fx := by
  induction items generalizing fx with
  | nil => exact hk fx
  | cons x xs ih =>
    cases x with
    | put bs place =>
      simp only [List.map_cons, Item.mapPlace, runItems]
      split_ifs
      · rfl
      · exact hfail _ _ _
      · exact ih _
    | retain ptr => exact ih _

/-- The rule for a caller: if what it does after a failure amounts to a failure at
another place, its script is the callee's with the places renamed, followed by its
own. -/
theorem run_andThen {pushed pushed' top top' : ℕ} {f : Place → Place}
    {k : ℤ → Effects → ℕ → SaveOutcome} (s t : Script)
    (hfail : ∀ place e fx,
      (failAt pushed place e fx top).andThen k = failAt pushed' (f place) e fx top')
    (hok : ∀ fx, k 0 fx top = t.run pushed' fx top') (fx : Effects) :
    (s.run pushed fx top).andThen k = ((s.mapPlace f).seq t).run pushed' fx top' := by
  rw [seq_run]
  refine runItems_andThen hfail (fun fx => ?_) _ _
  obtain ⟨items, fin⟩ := s
  cases fin with
  | ok => exact hok fx
  | code e place => exact hfail place e fx
  | raise e => rfl
  | diverges => rfl

theorem rbWritePop_eq {n top top' pushed : ℕ} {k : Effects → SaveOutcome} (bs : List UInt8)
    (t : Script) (htop : top - n = top') (hk : ∀ fx, k fx = t.run pushed fx top') (fx : Effects) :
    rbWritePop bs n fx top k = ((puts [bs]).seq t).run pushed fx top' := by
  rw [seq_run]
  simp only [rbWritePop, puts, List.map_cons, List.map_nil, runItems, failAt, htop, hk]

theorem rbWrite_eq {top pushed : ℕ} {k : Effects → SaveOutcome} (bs : List UInt8)
    (t : Script) (hk : ∀ fx, k fx = t.run pushed fx top) (fx : Effects) :
    rbWrite bs fx top k = ((puts [bs]).seq t).run pushed fx top :=
  rbWritePop_eq bs t rfl hk fx

/-! ### The script of a value -/

def chunkPuts : ℕ → List UInt8 → List (List UInt8)
  | 0, _ => []
  | fuel + 1, input =>
    if 0 < input.length then
      let ccb := min CHUNK_SIZE input.length
      leBytes 8 ccb :: input.take ccb :: chunkPuts fuel (input.drop ccb)
    else []

/-- The writes of `lua_dump`: each block in chunks, each chunk after its length. -/
def dumpPuts (blocks : List (List UInt8)) : List (List UInt8) :=
  blocks.flatMap fun block => chunkPuts block.length block

def keyPlace : Place → Place
  | .plain => .plain
  | _ => .key

def valuePlace : Place → Place
  | .key => .key
  | _ => .plain

def upvalPlace : Place → Place
  | .key => .key
  | _ => .upvals

def tableScript (body : Script) (typename : TypeName) : Script :=
  (puts [[LUA_TTABLE]]).seq <| (body.mapPlace valuePlace).seq <|
    puts [[LUA_TNIL], leBytes 8 typename.str.length, typename.str]

def numberScript (bits : UInt64) : Script := puts [[LUA_TNUMBER], wordBytes bits]

def integerScript (n : UInt64) : Script := puts [[EXTRA_LUA_TINTEGER], wordBytes n]

def upvalKeyScript (versionNum i : ℕ) : Script :=
  if 503 ≤ versionNum then integerScript (UInt64.ofNat i) else numberScript (numberOfInteger (UInt64.ofNat i))

def entryScript (k v rest : Script) : Script :=
  (k.mapPlace keyPlace).seq ((v.mapPlace valuePlace).seq rest)

section
variable {P : Type} (lua : Lua P)

def upvalFlag (upval : Bool) (p : P) : ℤ := if upval || envOnly lua upval p then 1 else 0

def upvalsTail (upval : Bool) (p : P) (table : Script) : Script :=
  if upval || envOnly lua upval p then
    (puts [intBytes (envIdx 1 (lua.upvalueNames p))]).seq ((table.mapPlace upvalPlace).seq (stop .ok))
  else if 0 < (lua.upvalueNames p).length then
    stop (.raise (.closure (lua.shortSrc p) (lua.lineDefined p) (lua.upvalueNames p).length
      ((lua.upvalueNames p).headD "")))
  else stop .ok

def functionScript (upval : Bool) (p : P) (table : Script) : Script :=
  (puts [[LUA_TFUNCTION]]).seq <|
  if !whatIsL lua p then stop (.raise .persistCFunction) else
  (puts (dumpPuts (lua.dump p))).seq <|
  (puts [leBytes 8 0]).seq <|
  (puts [intBytes (upvalFlag lua upval p)]).seq (upvalsTail lua upval p table)

def userdataScript (oop : Bool) (typename : TypeName) (ptr : UInt64) : Script :=
  if oop then stop (.code .EPERM .plain) else
  let write (type : UInt8) (str : List UInt8) : Script :=
    (puts [[type], leBytes 8 str.length, str, wordBytes ptr]).seq
    (match lua.retain typename ptr with
    | .called => ⟨[.retain ptr], .ok⟩
    | .missing => stop (.code .EINVAL .plain)
    | .raises => stop (.raise .retain))
  match typename with
  | .torch name => write LUA_TUSERDATA (cstr name)
  | .metatable name => write (-LUA_TUSERDATA) (cstr name)
  | .none => stop (.code .EINVAL .plain)

mutual

def script (oop upval : Bool) : Value P → Script
  | .nil => puts [[LUA_TNIL]]
  | .boolean b => puts [[LUA_TBOOLEAN], [if b then 1 else 0]]
  | .number bits => numberScript bits
  | .integer n => integerScript n
  | .string str => puts [[LUA_TSTRING], leBytes 8 str.length, str]
  | .table es typename => tableScript (entriesScript oop upval es) typename
  | .function p ups =>
    functionScript lua upval p
      (tableScript (upvalsScript oop upval 1 (lua.upvalueNames p) ups) .none)
  | .cfunction => (puts [[LUA_TFUNCTION]]).seq (stop (.raise .persistCFunction))
  | .userdata typename ptr => userdataScript lua oop typename ptr
  | .lightuserdata => stop (.code .EPERM .plain)
  | .thread => stop (.code .EPERM .plain)

def entriesScript (oop upval : Bool) : List (Value P × Value P) → Script
  | [] => stop .ok
  | (k, v) :: es =>
    entryScript (script oop upval k) (script oop upval v) (entriesScript oop upval es)

def upvalsScript (oop upval : Bool) : ℕ → List String → List (Option (Value P)) → Script
  | i, name :: names, u :: us =>
    if name = "_ENV" then upvalsScript oop upval (i + 1) names us
    else match u with
      | none => stop .diverges
      | some v =>
        if v.isNil then upvalsScript oop upval (i + 1) names us
        else
          entryScript (upvalKeyScript lua.versionNum i) (script oop upval v)
            (upvalsScript oop upval (i + 1) names us)
  | _, _, [] => stop .ok
  | _, [], _ :: _ => stop .ok

end

/-! ### `rb_save` runs the script -/

theorem rbLuaWriterLoop_eq (fuel : ℕ) (input : List UInt8) (fx : Effects) (top : ℕ) :
    rbLuaWriterLoop fuel input fx top = (puts (chunkPuts fuel input)).run 0 fx top := by
  induction fuel generalizing input fx with
  | zero => rfl
  | succ fuel ih =>
    simp only [rbLuaWriterLoop, chunkPuts]
    split_ifs
    · exact rbWrite_eq _ _ (rbWrite_eq _ _ (ih _)) fx
    · rfl

theorem luaDump_eq (blocks : List (List UInt8)) (fx : Effects) (top : ℕ) :
    luaDump blocks fx top = (puts (dumpPuts blocks)).run 0 fx top := by
  induction blocks generalizing fx with
  | nil => rfl
  | cons block blocks ih =>
    have hput : puts (dumpPuts (block :: blocks)) =
        ((puts (chunkPuts block.length block)).mapPlace id).seq (puts (dumpPuts blocks)) := by
      rw [puts_mapPlace rfl]
      simp [puts, dumpPuts, Script.seq]
    rw [hput, luaDump, rbLuaWriter, rbLuaWriterLoop_eq]
    refine run_andThen _ _ (fun place e fx => ?_) (fun fx => ih fx) fx
    cases place <;> cases e <;> rfl

theorem saveUpvalKey_eq (versionNum i index : ℕ) (pushed : ℕ) (fx : Effects) (top : ℕ) :
    saveUpvalKey versionNum i index fx top = (upvalKeyScript versionNum i).run pushed fx top := by
  simp only [saveUpvalKey, upvalKeyScript]
  split_ifs <;> exact rbWrite_eq _ _ (rbWrite_eq _ (stop .ok) fun _ => rfl) fx

theorem saveTable_eq {loop : ℕ → Effects → ℕ → SaveOutcome} {body : Script} {top : ℕ}
    (hloop : ∀ fx, loop top fx (top + 1) = body.run 0 fx top) (typename : TypeName) (pushed : ℕ)
    (fx : Effects) :
    saveTable loop typename fx top = (tableScript body typename).run pushed fx top := by
  refine rbWrite_eq _ _ (fun fx => ?_) fx
  rw [hloop]
  refine run_andThen _ _ (fun place e fx => ?_) (fun fx => ?_) fx
  · cases place <;> cases e <;> rfl
  · refine rbWrite_eq _ _ (rbWrite_eq _ _ (rbWrite_eq _ (stop .ok) fun fx => ?_)) fx
    simp [rbStackCheck, stop, Script.run, runItems, End.outcome]

theorem saveEntry_eq {saveKey saveValue : ℕ → Effects → ℕ → SaveOutcome}
    {next : Effects → ℕ → SaveOutcome} {start : ℕ} {k v rest : Script}
    (hk : ∀ fx, saveKey (start + 1) fx (start + 2) = k.run 1 fx (start + 2))
    (hv : ∀ fx, saveValue (start + 2) fx (start + 2) = v.run 0 fx (start + 2))
    (hnext : ∀ fx, next fx (start + 1) = rest.run 0 fx start) (fx : Effects) :
    saveEntry saveKey saveValue start fx (start + 1) next =
      (entryScript k v rest).run 0 fx start := by
  rw [saveEntry, hk]
  refine run_andThen _ _ (fun place e fx => ?_) (fun fx => ?_) fx
  · cases place <;> cases e <;> simp [failAt, keyPlace, SaveOutcome.andThen, rbStackCheck, Errno.toInt]
  · rw [if_neg (by simp), hv]
    refine run_andThen _ _ (fun place e fx => ?_) (fun fx => hnext fx) fx
    cases place <;> cases e <;>
      simp [failAt, valuePlace, SaveOutcome.andThen, rbStackCheck, Errno.toInt]

theorem upvalFlag_eq (upval : Bool) (p : P) :
    (if !upval && (lua.upvalueNames p).length == 1 then (if envOnly lua upval p then 1 else 0)
      else (if upval then 1 else 0) : ℤ) = upvalFlag lua upval p := by
  cases upval with
  | true => simp [upvalFlag]
  | false =>
    by_cases h : (lua.upvalueNames p).length = 1
    · simp [upvalFlag, envOnly, h]
    · simp [upvalFlag, envOnly, h]

theorem saveFunctionReturn_eq {startsize index pushed : ℕ}
    (hp : pushed = if index = startsize then 0 else 1) (hi : index ≤ startsize) (fx : Effects) :
    saveFunctionReturn startsize index fx (startsize + pushed) = .ret 0 fx startsize := by
  have htop : (if index ≠ startsize + pushed then startsize + pushed - 1
      else startsize + pushed) = startsize := by
    split_ifs at hp ⊢ <;> omega
  simp only [saveFunctionReturn, htop, rbStackCheck, ne_eq, not_true_eq_false, if_false]

theorem saveFunctionUpvals_eq {saveTable : Effects → ℕ → SaveOutcome} {table : Script}
    (htable : ∀ fx top, saveTable fx top = table.run 0 fx top) (upval : Bool) (p : P)
    {startsize index pushed : ℕ} (hp : pushed = if index = startsize then 0 else 1)
    (hi : index ≤ startsize) (fx : Effects) :
    saveFunctionUpvals lua upval p saveTable startsize pushed index fx (startsize + pushed) =
      (upvalsTail lua upval p table).run pushed fx startsize := by
  rw [saveFunctionUpvals, upvalsTail]
  split_ifs with henv hups
  · refine rbWritePop_eq _ _ (by omega) (fun fx => ?_) fx
    rw [htable]
    refine run_andThen _ _ (fun place e fx => ?_) (fun fx => ?_) fx
    · cases place <;> cases e <;>
        simp [failAt, upvalPlace, SaveOutcome.andThen, rbStackCheck, Errno.toInt]
    · exact saveFunctionReturn_eq hp hi fx
  · rfl
  · exact saveFunctionReturn_eq hp hi fx

theorem saveFunction_eq {saveTable : Effects → ℕ → SaveOutcome} {table : Script}
    (htable : ∀ fx top, saveTable fx top = table.run 0 fx top) (upval : Bool) (p : P)
    {index top : ℕ} (hi : index ≤ top) (fx : Effects) :
    saveFunction lua upval p saveTable index fx top =
      (functionScript lua upval p table).run (if index = top then 0 else 1) fx top := by
  refine rbWrite_eq _ _ (fun fx => ?_) fx
  have hpushed : (if index ≠ top then 1 else 0) = if index = top then 0 else 1 := by
    split_ifs <;> simp_all
  rw [hpushed, upvalFlag_eq]
  generalize hp : (if index = top then 0 else 1) = pushed
  by_cases hL : whatIsL lua p
  · simp only [hL, Bool.not_true, Bool.false_eq_true, if_false, rbStackCheck, ne_eq,
      not_true_eq_false]
    rw [luaDump_eq]
    nth_rewrite 2 [← puts_mapPlace (f := valuePlace) rfl (dumpPuts (lua.dump p))]
    refine run_andThen _ _ (fun place e fx => ?_) (fun fx => ?_) fx
    · cases place <;> cases e <;> simp [failAt, valuePlace, SaveOutcome.andThen, Errno.toInt]
    · refine rbWritePop_eq _ _ (by omega) (rbWritePop_eq _ _ (by omega) fun fx => ?_) fx
      exact saveFunctionUpvals_eq lua htable upval p hp.symm hi fx
  · simp only [hL, Bool.not_false, if_true]
    rfl

theorem saveUserdata_eq (oop : Bool) (typename : TypeName) (ptr : UInt64) (pushed : ℕ)
    (fx : Effects) (top : ℕ) :
    saveUserdata lua oop typename ptr fx top =
      (userdataScript lua oop typename ptr).run pushed fx top := by
  rw [saveUserdata, userdataScript]
  split_ifs
  · rfl
  have hwrite : ∀ (t : Script) (type : UInt8) (str : List UInt8) (k : Effects → SaveOutcome),
      (∀ fx, k fx = t.run pushed fx top) →
      (rbWrite [type] fx top fun fx => rbWrite (leBytes 8 str.length) fx top fun fx =>
        rbWrite str fx top fun fx => rbWrite (wordBytes ptr) fx top k) =
      ((puts [[type], leBytes 8 str.length, str, wordBytes ptr]).seq t).run pushed fx top :=
    fun t type str k hk =>
      rbWrite_eq _ _ (rbWrite_eq _ _ (rbWrite_eq _ _ (rbWrite_eq _ t hk))) fx
  cases typename with
  | none => rfl
  | torch name =>
    refine hwrite _ _ _ _ fun fx => ?_
    cases lua.retain (.torch name) ptr <;> rfl
  | metatable name =>
    refine hwrite _ _ _ _ fun fx => ?_
    cases lua.retain (.metatable name) ptr <;> rfl

mutual

/-- `rb_save` runs the script of its value; a function is copied to the top of the
stack unless it is there. -/
theorem rbSave_eq (oop upval : Bool) (v : Value P) {index top : ℕ} (hi : index ≤ top)
    (fx : Effects) :
    rbSave lua oop upval v index fx top =
      (script lua oop upval v).run (if index = top then 0 else 1) fx top := by
  cases v with
  | nil => exact rbWrite_eq _ (stop .ok) (fun _ => rfl) fx
  | boolean b => exact rbWrite_eq _ _ (rbWrite_eq _ (stop .ok) fun _ => rfl) fx
  | number bits => exact rbWrite_eq _ _ (rbWrite_eq _ (stop .ok) fun _ => rfl) fx
  | integer n => exact rbWrite_eq _ _ (rbWrite_eq _ (stop .ok) fun _ => rfl) fx
  | string str =>
    exact rbWrite_eq _ _ (rbWrite_eq _ _ (rbWrite_eq _ (stop .ok) fun _ => rfl)) fx
  | table es typename =>
    rw [rbSave, script]
    exact saveTable_eq (saveEntries_eq oop upval es top) typename _ fx
  | function p ups =>
    rw [rbSave, script]
    exact saveFunction_eq lua
      (fun fx top => saveTable_eq (saveUpvals_eq oop upval 1 (lua.upvalueNames p) ups top) _ 0 fx)
      upval p hi fx
  | cfunction => exact rbWrite_eq _ (stop (.raise .persistCFunction)) (fun _ => rfl) fx
  | userdata typename ptr =>
    rw [rbSave, script]
    exact saveUserdata_eq lua oop typename ptr _ fx top
  | lightuserdata => rfl
  | thread => rfl

theorem saveEntries_eq (oop upval : Bool) (es : List (Value P × Value P)) (start : ℕ)
    (fx : Effects) :
    saveEntries lua oop upval es start fx (start + 1) =
      (entriesScript lua oop upval es).run 0 fx start := by
  match es with
  | [] => rfl
  | (k, v) :: es =>
    rw [saveEntries, entriesScript]
    refine saveEntry_eq (fun fx => ?_) (fun fx => ?_)
      (fun fx => saveEntries_eq oop upval es start fx) fx
    · have hk := rbSave_eq oop upval k (show start + 1 ≤ start + 2 by omega) fx
      rwa [if_neg (by omega)] at hk
    · have hv := rbSave_eq oop upval v (le_refl (start + 2)) fx
      rwa [if_pos rfl] at hv

theorem saveUpvals_eq (oop upval : Bool) (i : ℕ) (names : List String)
    (ups : List (Option (Value P))) (start : ℕ) (fx : Effects) :
    saveUpvals lua oop upval i names ups start fx (start + 1) =
      (upvalsScript lua oop upval i names ups).run 0 fx start := by
  match names, ups with
  | name :: names, u :: us =>
    have ih := saveUpvals_eq oop upval (i + 1) names us start
    rw [saveUpvals.eq_def, upvalsScript.eq_def]
    simp only
    split_ifs with hname
    · exact ih fx
    match u with
    | none => rfl
    | some v =>
      simp only
      split_ifs with hnil
      · exact ih fx
      · refine saveEntry_eq (fun fx => saveUpvalKey_eq _ i _ 1 fx _) (fun fx => ?_) ih fx
        have hv := rbSave_eq oop upval v (le_refl (start + 2)) fx
        rwa [if_pos rfl] at hv
  | _, [] => simp [saveUpvals, upvalsScript, stop, Script.run, runItems, End.outcome]
  | [], _ :: _ => rfl

end

end

/-! ### What a script leaves in the buffer -/

def Item.bytes : Item → List UInt8
  | .put bs _ => bs
  | .retain _ => []

def itemBytes (items : List Item) : List UInt8 := items.flatMap Item.bytes

def Script.bytes (s : Script) : List UInt8 := itemBytes s.items

/-- The place of the first write that does not fit into `n` bytes. -/
def overflow : List Item → ℕ → Option Place
  | [], _ => none
  | .put bs place :: items, n =>
    if bs.length ≤ n then overflow items (n - bs.length) else some place
  | .retain _ :: items, n => overflow items n

theorem overflow_eq_none {items : List Item} {n : ℕ} :
    overflow items n = none ↔ (itemBytes items).length ≤ n := by
  induction items generalizing n with
  | nil => simp [overflow, itemBytes]
  | cons x xs ih =>
    cases x with
    | retain ptr => exact ih
    | put bs place =>
      have hlen : (itemBytes (.put bs place :: xs)).length = bs.length + (itemBytes xs).length := by
        simp [itemBytes, Item.bytes]
      rw [overflow, hlen]
      split_ifs with hfit
      · rw [ih]
        omega
      · simp only [false_iff]
        omega

/-- The buffer got the bytes `bs` behind its content, and nothing else of it that
a reader or a rollback can see has changed. -/
structure Appended (rb : Ringbuffer) (bs : List UInt8) (rb' : Ringbuffer) : Prop where
  valid : rb'.Valid
  cb_eq : rb'.cb = rb.cb
  rp_eq : rb'.rp = rb.rp
  content_eq : rb'.content = rb.content ++ bs
  marked : ∀ m, rb.Marked m → rb'.Marked m

theorem Appended.refl {rb : Ringbuffer} (h : rb.Valid) : Appended rb [] rb :=
  ⟨h, rfl, rfl, (List.append_nil _).symm, fun _ hm => hm⟩

/-- The mark behind which bytes were appended rolls them back. -/
theorem Appended.rolledBack {rb rb' : Ringbuffer} {bs : List UInt8} (hv : rb.Valid)
    (h : Appended (ringbufferPushWritePos rb) bs rb') :
    (ringbufferPopWritePos rb').Valid ∧ (ringbufferPopWritePos rb').content = rb.content ∧
      (ringbufferPopWritePos rb').room = rb.room := by
  have hmarked := h.marked _ (Ringbuffer.pushWritePos_marked hv)
  have hpop := Ringbuffer.popWritePos_valid h.valid hmarked
  have hcontent : (ringbufferPopWritePos rb').content = rb.content := by
    rw [Ringbuffer.popWritePos_content hmarked, h.content_eq, Ringbuffer.pushWritePos_content, List.take_left]
  refine ⟨hpop, hcontent, ?_⟩
  have hbefore := hv.length_add_room
  have hafter := hpop.length_add_room
  have hcb : (ringbufferPopWritePos rb').cb = rb.cb := h.cb_eq
  rw [hcontent, hcb] at hafter
  omega

theorem Appended.trans {rb₁ rb₂ rb₃ : Ringbuffer} {bs cs : List UInt8} (h₁ : Appended rb₁ bs rb₂)
    (h₂ : Appended rb₂ cs rb₃) : Appended rb₁ (bs ++ cs) rb₃ :=
  ⟨h₂.valid, h₂.cb_eq.trans h₁.cb_eq, h₂.rp_eq.trans h₁.rp_eq,
    by rw [h₂.content_eq, h₁.content_eq, List.append_assoc], fun m hm => h₂.marked m (h₁.marked m hm)⟩

theorem write_appended {rb : Ringbuffer} (h : rb.Valid) (bs : List UInt8) :
    Appended rb (bs.take rb.room) (ringbufferWrite rb (some bs) bs.length).2 :=
  ⟨Ringbuffer.write_valid h bs, Ringbuffer.write_cb _ _, Ringbuffer.write_rp _ _,
    Ringbuffer.write_content h bs, fun _ hm => Ringbuffer.write_marked hm _ _⟩

theorem Appended.room_eq {rb rb' : Ringbuffer} {bs : List UInt8} (h : rb.Valid)
    (ha : Appended rb bs rb') : rb'.room = rb.room - bs.length := by
  have h1 := h.length_add_room
  have h2 := ha.valid.length_add_room
  rw [ha.content_eq, ha.cb_eq, List.length_append] at h2
  omega

/-- The objects that are retained before a write does not fit into `n` bytes. -/
def retainsIn : List Item → ℕ → List UInt64
  | [], _ => []
  | .put bs _ :: items, n => if bs.length ≤ n then retainsIn items (n - bs.length) else []
  | .retain ptr :: items, n => ptr :: retainsIn items n

/-- A script writes the longest prefix of its bytes that fits; it ends where the
first write was short, else as it says. -/
theorem runItems_retained (pushed top : ℕ) (k : Effects → SaveOutcome) (items : List Item)
    (fx : Effects) (h : fx.rb.Valid) :
    ∃ fx', Appended fx.rb ((itemBytes items).take fx.rb.room) fx'.rb ∧
      fx'.retained = fx.retained ++ retainsIn items fx.rb.room ∧
      runItems pushed top k items fx =
        match overflow items fx.rb.room with
        | none => k fx'
        | some place => failAt pushed place .ENOMEM fx' top := by
  induction items generalizing fx with
  | nil => exact ⟨fx, by simpa [itemBytes] using Appended.refl h, by simp [retainsIn], rfl⟩
  | cons x xs ih =>
    cases x with
    | retain ptr =>
      obtain ⟨fx', ha, hret, hrun⟩ := ih { fx with retained := fx.retained ++ [ptr] } h
      exact ⟨fx', ha, by rw [hret, List.append_assoc]; rfl, hrun⟩
    | put bs place =>
      have hw := write_appended h bs
      have hcons : itemBytes (.put bs place :: xs) = bs ++ itemBytes xs := rfl
      rw [hcons, List.take_append]
      have hcb : fx.rb.cb ≠ 0 := fun h0 => by
        have := h.rp_lt
        omega
      simp only [runItems, overflow, retainsIn, Ringbuffer.write_fst, if_neg hcb]
      by_cases hfit : bs.length ≤ fx.rb.room
      · rw [if_pos hfit, if_neg (by omega), if_pos hfit]
        rw [List.take_of_length_le hfit] at hw ⊢
        obtain ⟨fx', ha, hret, hrun⟩ := ih ⟨_, fx.retained⟩ hw.valid
        rw [hw.room_eq h] at ha hret hrun
        exact ⟨fx', hw.trans ha, hret, hrun⟩
      · rw [if_neg hfit, if_pos (by omega), if_neg hfit, Nat.sub_eq_zero_of_le (by omega),
          List.take_zero, List.append_nil]
        exact ⟨⟨_, fx.retained⟩, hw, (List.append_nil _).symm, rfl⟩

theorem runItems_spec (pushed top : ℕ) (k : Effects → SaveOutcome) (items : List Item)
    (fx : Effects) (h : fx.rb.Valid) :
    ∃ fx', Appended fx.rb ((itemBytes items).take fx.rb.room) fx'.rb ∧
      runItems pushed top k items fx =
        match overflow items fx.rb.room with
        | none => k fx'
        | some place => failAt pushed place .ENOMEM fx' top := by
  obtain ⟨fx', ha, _, hrun⟩ := runItems_retained pushed top k items fx h
  exact ⟨fx', ha, hrun⟩

/-- With enough room a script leaves all its bytes. -/
theorem run_of_fits (pushed : ℕ) (s : Script) (fx : Effects) (top : ℕ) (h : fx.rb.Valid)
    (hfit : s.bytes.length ≤ fx.rb.room) :
    ∃ fx', Appended fx.rb s.bytes fx'.rb ∧ s.run pushed fx top = s.fin.outcome pushed fx' top := by
  obtain ⟨fx', ha, hrun⟩ := runItems_spec pushed top (fun fx => s.fin.outcome pushed fx top)
    s.items fx h
  rw [overflow_eq_none.mpr hfit] at hrun
  have hall : (itemBytes s.items).take fx.rb.room = s.bytes := List.take_of_length_le hfit
  exact ⟨fx', hall ▸ ha, hrun⟩

@[simp] theorem puts_bytes (bss : List (List UInt8)) : (puts bss).bytes = bss.flatten := by
  induction bss with
  | nil => rfl
  | cons bs bss ih => exact congrArg (bs ++ ·) ih

@[simp] theorem puts_fin (bss : List (List UInt8)) : (puts bss).fin = .ok := rfl

@[simp] theorem stop_bytes (e : End) : (stop e).bytes = [] := rfl

@[simp] theorem stop_fin (e : End) : (stop e).fin = e := rfl

@[simp] theorem mapPlace_bytes (f : Place → Place) (s : Script) :
    (s.mapPlace f).bytes = s.bytes := by
  have hitem : ∀ x : Item, (x.mapPlace f).bytes = x.bytes := fun x => by cases x <;> rfl
  simp [Script.mapPlace, Script.bytes, itemBytes, List.flatMap_map, hitem]

@[simp] theorem mapPlace_fin (f : Place → Place) (s : Script) :
    (s.mapPlace f).fin = s.fin.mapPlace f := rfl

theorem seq_bytes {s : Script} (hs : s.fin = .ok) (t : Script) :
    (s.seq t).bytes = s.bytes ++ t.bytes := by
  simp [Script.seq, hs, Script.bytes, itemBytes]

theorem seq_fin {s : Script} (hs : s.fin = .ok) (t : Script) : (s.seq t).fin = t.fin := by
  simp [Script.seq, hs]

theorem seq_fin_ok {s t : Script} : (s.seq t).fin = .ok ↔ s.fin = .ok ∧ t.fin = .ok := by
  obtain ⟨items, fin⟩ := s
  cases fin <;> simp [Script.seq]

theorem seq_of_not_ok {s : Script} (hs : s.fin ≠ .ok) (t : Script) : s.seq t = s := by
  obtain ⟨items, fin⟩ := s
  cases fin with
  | ok => exact absurd rfl hs
  | code e place => rfl
  | raise e => rfl
  | diverges => rfl

theorem End.mapPlace_ok {f : Place → Place} {e : End} : e.mapPlace f = .ok ↔ e = .ok := by
  cases e <;> simp [End.mapPlace]

/-! ### Refusals -/

/-- A refusal that is told by a code has another code than a short write. -/
def End.NotShort : End → Prop
  | .code e _ => e ≠ .ENOMEM
  | _ => True

/-- Nor does a refusal raise the error of a stack check. -/
def End.Regular : End → Prop
  | .code e _ => e ≠ .ENOMEM
  | .raise e => ∀ loc, e ≠ .stackCheck loc
  | _ => True

theorem End.Regular.notShort {e : End} (h : e.Regular) : e.NotShort := by
  cases e with
  | code e place => exact h
  | _ => trivial

/-- What holds of the ends of both parts holds of the end of a sequence. -/
theorem seq_fin_of {Q : End → Prop} {s t : Script} (hs : Q s.fin) (ht : Q t.fin) :
    Q (s.seq t).fin := by
  by_cases hok : s.fin = .ok
  · rwa [seq_fin hok]
  · rwa [seq_of_not_ok hok]

theorem seq_regular {s t : Script} (hs : s.fin.Regular) (ht : t.fin.Regular) :
    (s.seq t).fin.Regular :=
  seq_fin_of hs ht

theorem puts_seq_regular (bss : List (List UInt8)) {t : Script} (ht : t.fin.Regular) :
    ((puts bss).seq t).fin.Regular :=
  seq_regular trivial ht

theorem mapPlace_regular {s : Script} (hs : s.fin.Regular) (f : Place → Place) :
    (s.mapPlace f).fin.Regular := by
  rw [mapPlace_fin]
  cases hfin : s.fin with
  | code e place => rwa [hfin] at hs
  | ok => trivial
  | raise e => rwa [hfin] at hs
  | diverges => trivial

theorem tableScript_regular {body : Script} (h : body.fin.Regular) (typename : TypeName) :
    (tableScript body typename).fin.Regular :=
  seq_regular trivial (seq_regular (mapPlace_regular h _) trivial)

theorem entryScript_regular {k v rest : Script} (hk : k.fin.Regular) (hv : v.fin.Regular)
    (hrest : rest.fin.Regular) : (entryScript k v rest).fin.Regular :=
  seq_regular (mapPlace_regular hk _) (seq_regular (mapPlace_regular hv _) hrest)

section
variable {P : Type} (lua : Lua P)

theorem functionScript_regular (upval : Bool) (p : P) {table : Script}
    (h : table.fin.Regular) : (functionScript lua upval p table).fin.Regular := by
  apply puts_seq_regular
  split_ifs
  · exact fun _ => nofun
  · apply puts_seq_regular
    apply puts_seq_regular
    apply puts_seq_regular
    rw [upvalsTail]
    split_ifs
    · exact seq_regular trivial (seq_regular (mapPlace_regular h _) trivial)
    · exact fun _ => nofun
    · trivial

theorem userdataScript_regular (oop : Bool) (typename : TypeName) (ptr : UInt64) :
    (userdataScript lua oop typename ptr).fin.Regular := by
  rw [userdataScript]
  split_ifs
  · simp [End.Regular]
  cases typename with
  | none => simp [End.Regular]
  | torch name =>
    apply puts_seq_regular
    cases lua.retain (.torch name) ptr <;> simp [End.Regular]
  | metatable name =>
    apply puts_seq_regular
    cases lua.retain (.metatable name) ptr <;> simp [End.Regular]

mutual

theorem script_regular (oop upval : Bool) (v : Value P) :
    (script lua oop upval v).fin.Regular := by
  cases v with
  | nil => trivial
  | boolean b => trivial
  | number bits => trivial
  | integer n => trivial
  | string bytes => trivial
  | table es typename =>
    rw [script]
    exact tableScript_regular (entriesScript_regular oop upval es) typename
  | function p ups =>
    rw [script]
    exact functionScript_regular lua upval p
      (tableScript_regular (upvalsScript_regular oop upval 1 (lua.upvalueNames p) ups) _)
  | cfunction => exact fun _ => nofun
  | userdata typename ptr =>
    rw [script]
    exact userdataScript_regular lua oop typename ptr
  | lightuserdata => simp [script, End.Regular]
  | thread => simp [script, End.Regular]

theorem entriesScript_regular (oop upval : Bool) (es : List (Value P × Value P)) :
    (entriesScript lua oop upval es).fin.Regular := by
  match es with
  | [] => trivial
  | (k, v) :: es =>
    rw [entriesScript]
    exact entryScript_regular (script_regular oop upval k) (script_regular oop upval v)
      (entriesScript_regular oop upval es)

theorem upvalsScript_regular (oop upval : Bool) (i : ℕ) (names : List String)
    (ups : List (Option (Value P))) : (upvalsScript lua oop upval i names ups).fin.Regular := by
  match names, ups with
  | name :: names, u :: us =>
    have ih := upvalsScript_regular oop upval (i + 1) names us
    rw [upvalsScript.eq_def]
    simp only
    split_ifs with hname
    · exact ih
    match u with
    | none => trivial
    | some v =>
      simp only
      split_ifs with hnil
      · exact ih
      · refine entryScript_regular ?_ (script_regular oop upval v) ih
        rw [upvalKeyScript]
        split_ifs <;> trivial
  | _, [] =>
    rw [upvalsScript.eq_def]
    simp [End.Regular]
  | [], _ :: _ => trivial

end

/-! ### Termination -/

theorem seq_finite {s t : Script} (hs : s.fin ≠ .diverges) (ht : t.fin ≠ .diverges) :
    (s.seq t).fin ≠ .diverges :=
  seq_fin_of (Q := (· ≠ .diverges)) hs ht

theorem puts_seq_finite (bss : List (List UInt8)) {t : Script} (ht : t.fin ≠ .diverges) :
    ((puts bss).seq t).fin ≠ .diverges := by
  rw [seq_fin rfl]
  exact ht

theorem mapPlace_finite {s : Script} (hs : s.fin ≠ .diverges) (f : Place → Place) :
    (s.mapPlace f).fin ≠ .diverges := by
  rw [mapPlace_fin]
  cases hfin : s.fin with
  | diverges => exact absurd hfin hs
  | _ => exact nofun

theorem tableScript_finite {body : Script} (h : body.fin ≠ .diverges) (typename : TypeName) :
    (tableScript body typename).fin ≠ .diverges :=
  puts_seq_finite _ (seq_finite (mapPlace_finite h _) nofun)

theorem envOnly_names {p : P} (h : (false || envOnly lua false p) = true) : lua.upvalueNames p = ["_ENV"] := by
  simp only [envOnly, Bool.false_or, Bool.not_false, Bool.true_and, Bool.and_eq_true, beq_iff_eq] at h
  obtain ⟨name, hname⟩ := List.length_eq_one_iff.mp h.1
  rw [hname, List.head?_cons, Option.some_inj] at h
  rw [hname, h.2]

mutual

/-- Without the upvalues no value goes on for ever. -/
theorem script_finite (oop : Bool) (v : Value P) : (script lua oop false v).fin ≠ .diverges := by
  cases v with
  | table es typename =>
    rw [script]
    exact tableScript_finite (entriesScript_finite oop es) typename
  | function p ups =>
    rw [script]
    apply puts_seq_finite
    split_ifs
    · exact nofun
    apply puts_seq_finite
    apply puts_seq_finite
    apply puts_seq_finite
    rw [upvalsTail]
    split_ifs with henv
    · refine puts_seq_finite _ (seq_finite (mapPlace_finite (tableScript_finite ?_ _) _) nofun)
      rw [envOnly_names lua henv]
      cases ups with
      | nil => exact nofun
      | cons u us =>
        rw [upvalsScript.eq_def]
        simp only [if_true]
        cases us <;> exact nofun
    · exact nofun
    · exact nofun
  | userdata typename ptr =>
    rw [script, userdataScript]
    split_ifs
    · exact nofun
    cases typename with
    | none => exact nofun
    | torch name =>
      apply puts_seq_finite
      cases lua.retain (.torch name) ptr <;> exact nofun
    | metatable name =>
      apply puts_seq_finite
      cases lua.retain (.metatable name) ptr <;> exact nofun
  | _ => exact nofun

theorem entriesScript_finite (oop : Bool) (es : List (Value P × Value P)) :
    (entriesScript lua oop false es).fin ≠ .diverges := by
  match es with
  | [] => exact nofun
  | (k, v) :: es =>
    rw [entriesScript]
    exact seq_finite (mapPlace_finite (script_finite oop k) _)
      (seq_finite (mapPlace_finite (script_finite oop v) _) (entriesScript_finite oop es))

end

theorem script_notShort (oop upval : Bool) (v : Value P) : (script lua oop upval v).fin.NotShort :=
  (script_regular lua oop upval v).notShort

/-! ### The stack -/

variable {lua}

theorem runItems_top {pushed top : ℕ} {k : Effects → SaveOutcome} {code : ℤ} {fx' : Effects}
    {top' : ℕ} (hk : ∀ fx, k fx = .ret code fx' top' → top' = top ∨ code ≠ 0 ∧ top' = top + pushed)
    (items : List Item) {fx : Effects} (h : runItems pushed top k items fx = .ret code fx' top') :
    top' = top ∨ code ≠ 0 ∧ top' = top + pushed := by
  induction items generalizing fx with
  | nil => exact hk fx h
  | cons x xs ih =>
    cases x with
    | retain ptr => exact ih h
    | put bs place =>
      simp only [runItems] at h
      split_ifs at h
      · cases place with
        | plain =>
          cases h
          exact Or.inl rfl
        | upvals =>
          cases h
          exact Or.inr ⟨by decide, rfl⟩
        | key => cases h
      · exact ih h

/-- Only a failure leaves something on the stack, and only if the value is not on top. -/
theorem rbSave_top {oop upval : Bool} {v : Value P} {index top : ℕ} (hi : index ≤ top)
    {fx fx' : Effects} {code : ℤ} {top' : ℕ} (h : rbSave lua oop upval v index fx top = .ret code fx' top') :
    top' = top ∨ code ≠ 0 ∧ top' = top + if index = top then 0 else 1 := by
  rw [rbSave_eq lua oop upval v hi] at h
  refine runItems_top (fun fx hfx => ?_) _ h
  cases hfin : (script lua oop upval v).fin with
  | ok =>
    rw [hfin] at hfx
    cases hfx
    exact Or.inl rfl
  | code e place =>
    rw [hfin] at hfx
    cases place with
    | plain =>
      cases hfx
      exact Or.inl rfl
    | upvals =>
      cases hfx
      exact Or.inr ⟨by cases e <;> decide, rfl⟩
    | key => cases hfx
  | raise e => rw [hfin] at hfx; cases hfx
  | diverges => rw [hfin] at hfx; cases hfx

end

end TorchIpc
