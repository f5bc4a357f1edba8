import TorchIpc.Serialize.Sizes
import TorchIpc.Sharedtable.Iteration

/-! `ipc.sharedtable(tbl, move)` as the calling state sees it. `init_table` goes through `tbl`
with `lua_next`, whose key is what `copy_entry_to_table` has left on top of the stack, and
with `move` an entry is taken out of `tbl` as soon as it has been copied. When a later entry
is refused, the shared table is destroyed with all that has been moved into it. -/

namespace TorchIpc.Sharedtable

open Runs

/-! ### The calling state -/

/-- A value of the calling state. Two of them are equal to Lua if they have the same `id`. -/
structure Object (P : Type) where
  id : ℕ
  value : Value P

/-- A table with its entries in the order of `lua_next`. A key whose value has been set to nil
keeps its place. -/
abbrev Nodes (P : Type) : Type := List (Object P × Option (Object P))

section
variable {P : Type}

def live (nodes : Nodes P) : List (Object P × Object P) := nodes.filterMap fun n => n.2.map (n.1, ·)

def nodeAfter (k : Object P) : Nodes P → Option (Option (Object P × Object P))
  | [] => none
  | n :: nodes => if n.1.id = k.id then some (live nodes).head? else nodeAfter k nodes

/-- `lua_next(L, 1)`: the next entry, or the end, or an error for what is no key. -/
def luaNext (k : Object P) (nodes : Nodes P) : Option (Option (Object P × Object P)) :=
  if k.value.isNil then some (live nodes).head? else nodeAfter k nodes

/-- `lua_settable(L, 1)` with nil. -/
def removeEntry (k : Object P) (nodes : Nodes P) : Nodes P :=
  nodes.map fun n => if n.1.id = k.id then (n.1, none) else n

/-- The table at index one, and the stack above the arguments. -/
structure Caller (P : Type) where
  nodes : Nodes P
  stack : List (Object P)

/-- How `sharedtable_create` ends: with the shared table; or with an error in the calling
state, after which there is none; each time with what is in the table at index one. -/
inductive Created (P : Type) where
  | created (s : SharedTable P) (nodes : Nodes P)
  | raised (nodes : Nodes P)
  | panicked
  | undefined
  | diverges
  | timeout

def Created.failed (nodes : Nodes P) : TableOutcome P → Created P
  | .returns _ _ => .undefined
  | .error _ _ => .raised nodes
  | .raised _ => .raised nodes
  | .panicked => .panicked
  | .undefined => .undefined
  | .diverges => .diverges
  | .timeout => .timeout

namespace Caller

variable (lua : Lua P)

/-- `copy_entry_to_table`, above the arguments `L`. A function that did not fit at once stays
on the stack once more. -/
def copyEntryToTable (s : SharedTable P) (L : List (Value P)) (c : Caller P) (move : Bool) (fuel : ℕ) :
    Except (TableOutcome P) (Caller P × SharedTable P) :=
  match c.stack with
  | v :: k :: rest => do
    let L₀ := (v :: k :: rest).map Object.value ++ L
    let (L₁, s) ← s.take lua L₀ (L₀.length - 1) 0 fuel
    let (L₂, s) ← s.take lua L₁ L₀.length 0 fuel
    let s ← s.apply (luaSettableAt lua)
    let stack := List.replicate (L₂.length - L₁.length) v ++ List.replicate (L₁.length - L₀.length) k ++ v :: k :: rest
    return (⟨if move then removeEntry k c.nodes else c.nodes, stack⟩, s)
  | _ => .error .undefined

def initTable (L : List (Value P)) (move : Bool) : ℕ → SharedTable P → Caller P → Created P
  | 0, _, _ => .timeout
  | fuel + 1, s, c =>
    match c.stack with
    | [] => .undefined
    | k :: rest =>
      match luaNext k c.nodes with
      | none => .raised c.nodes
      | some none => .created s c.nodes
      | some (some (k, v)) =>
        match copyEntryToTable lua s L ⟨c.nodes, v :: k :: rest⟩ move fuel with
        | .ok (c, s) => initTable L move fuel s ⟨c.nodes, c.stack.tail⟩
        | .error o => Created.failed c.nodes o

/-- `sharedtable_create` with a table, when the shared state has been set up. -/
def sharedtableCreate (size sizeIncrement : ℕ) (L : List (Value P)) (move : Bool) (tbl : List (Object P × Object P))
    (fuel : ℕ) : Created P :=
  initTable lua L move fuel ⟨⟨ringbufferCreate size, []⟩, [.table [] .none], sizeIncrement⟩
    ⟨tbl.map fun e => (e.1, some e.2), [⟨0, .nil⟩]⟩

end Caller

/-! ### Tables that are passed -/

def values (es : List (Object P × Object P)) : List (Value P × Value P) :=
  es.map fun e => (e.1.value, e.2.value)

/-- The table is one, and its keys are different objects. -/
structure Passed (lua : Lua P) (tbl : List (Object P × Object P)) : Prop where
  wf : (Value.table (values tbl) .none).Wf lua
  ids : (tbl.map fun e => e.1.id).Nodup

/-- The entries are copied one after the other, from one capacity of the buffer to the other. -/
inductive Copied (lua : Lua P) (inc : ℕ) : List (Object P × Object P) → ℕ → ℕ → Prop where
  | nil {cb} : Copied lua inc [] cb cb
  | cons {e es cb cb₁ cb₂ cb₃} : Sends lua inc e.1.value cb cb₁ → Sends lua inc e.2.value cb₁ cb₂ →
      Copied lua inc es cb₂ cb₃ → Copied lua inc (e :: es) cb cb₃

/-- No key that is copied is left on the stack once more, as a function is whose upvalues do
not fit. -/
def Steady (lua : Lua P) (inc cb : ℕ) (tbl : List (Object P × Object P)) : Prop :=
  ∀ before e after cb₁ cb₂, tbl = before ++ e :: after → Copied lua inc before cb cb₁ →
    Copied lua inc [e] cb₁ cb₂ →
    ∀ n, (script lua false false e.1.value).Attempted cb₁ inc n →
      overflow (script lua false false e.1.value).items (roomAt cb₁ inc n) ≠ some .upvals

/-- The shared table has the entries of `tbl`, which has none of them any more if they were
moved; or there was an error, and `tbl` has all of its entries. -/
def Keeps (tbl : List (Object P × Object P)) (move : Bool) : Created P → Prop
  | .created s nodes => s.stack = [.table (receivedEntries (values tbl)) .none] ∧
      live nodes = if move then [] else tbl
  | .raised nodes => live nodes = tbl
  | _ => False

variable {lua : Lua P}

/-! ### The table at index one -/

/-- What has been done with the entries so far. -/
def processed (move : Bool) (es : List (Object P × Object P)) : Nodes P :=
  es.map fun e => (e.1, if move then none else some e.2)

theorem processed_cons (move : Bool) (e : Object P × Object P) (es : List (Object P × Object P)) :
    processed move (e :: es) = (e.1, if move then none else some e.2) :: processed move es := rfl

theorem processed_append (move : Bool) (es es' : List (Object P × Object P)) :
    processed move (es ++ es') = processed move es ++ processed move es' := List.map_append

theorem live_append (xs ys : Nodes P) : live (xs ++ ys) = live xs ++ live ys :=
  List.filterMap_append

theorem live_processed (move : Bool) (es : List (Object P × Object P)) :
    live (processed move es) = if move then [] else es := by
  rw [live, processed, List.filterMap_map]
  cases move with
  | true => simp
  | false => simp

theorem live_fresh (es : List (Object P × Object P)) : live (processed false es) = es :=
  live_processed false es

/-- Behind the last entry that was processed comes the first that was not. -/
theorem nodeAfter_processed {move : Bool} {before after : List (Object P × Object P)} {e : Object P × Object P}
    (hids : ((before ++ e :: after).map fun e => e.1.id).Nodup) :
    nodeAfter e.1 (processed move (before ++ [e]) ++ processed false after) = some after.head? := by
  induction before with
  | nil =>
    rw [List.nil_append, processed_cons, List.cons_append, nodeAfter, if_pos rfl]
    exact congrArg (some ·.head?) (live_fresh after)
  | cons e' before ih =>
    rw [List.cons_append, List.map_cons, List.nodup_cons] at hids
    have hne : e'.1.id ≠ e.1.id := fun heq => hids.1 (List.mem_map.mpr ⟨e, by simp, heq.symm⟩)
    rw [List.cons_append, processed_cons, List.cons_append, nodeAfter, if_neg hne]
    exact ih hids.2

theorem removeEntry_processed {before after : List (Object P × Object P)} {e : Object P × Object P}
    (hids : ((before ++ e :: after).map fun e => e.1.id).Nodup) :
    removeEntry e.1 (processed true before ++ processed false (e :: after)) =
      processed true (before ++ [e]) ++ processed false after := by
  have hother : ∀ es : List (Object P × Object P), (∀ e' ∈ es, e'.1.id ≠ e.1.id) → ∀ move,
      removeEntry e.1 (processed move es) = processed move es := by
    intro es hes move
    rw [removeEntry, processed, List.map_map]
    exact List.map_congr_left fun e' he' => if_neg (hes e' he')
  rw [List.map_append, List.map_cons, List.nodup_append, List.nodup_cons] at hids
  obtain ⟨-, ⟨hafter, -⟩, hdisjoint⟩ := hids
  have hb := hother before (fun e' he' heq =>
    hdisjoint e'.1.id (List.mem_map_of_mem (f := fun e => e.1.id) he') e.1.id List.mem_cons_self heq) true
  have ha := hother after (fun e' he' heq => hafter (heq ▸ List.mem_map_of_mem (f := fun e => e.1.id) he')) false
  rw [removeEntry] at hb ha ⊢
  rw [List.map_append, hb, processed_append, List.append_assoc, processed_cons, processed_cons,
    List.map_cons, ha, if_pos rfl]
  rfl

/-! ### One entry -/

theorem Sends.unique {v : Value P} {inc cb cb₁ cb₂ : ℕ} (h₁ : Sends lua inc v cb cb₁) (h₂ : Sends lua inc v cb cb₂) :
    cb₁ = cb₂ := by
  obtain ⟨-, K₁, hK₁, -, rfl⟩ := h₁
  obtain ⟨-, K₂, hK₂, -, rfl⟩ := h₂
  have hnot : ∀ {K K' : ℕ}, (script lua false false v).LastAttempt cb inc K →
      (script lua false false v).LastAttempt cb inc K' → ¬ K < K' := by
    intro K K' hK hK' hlt
    obtain ⟨place, hover, hplace⟩ := hK'.retried K hlt
    rcases hK.ends with hkey | ⟨hnone, -⟩
    · exact hplace (Option.some.inj (hover.symm.trans hkey))
    · cases hover.symm.trans hnone
  rw [le_antisymm (not_lt.mp (hnot hK₂ hK₁)) (not_lt.mp (hnot hK₁ hK₂))]

def Raises (o : TableOutcome P) : Prop := (∃ code s, o = .error code s) ∨ ∃ s, o = .raised s

/-- What cannot be sent raises an error in the calling state, at last. -/
theorem take_fails {v : Value P} {s : SharedTable P} (hinc : 1 ≤ s.sizeIncrement) (hlt : s.sizeIncrement < 2 ^ 63)
    (h : Empty s.fx) (hcb : 1 ≤ s.fx.rb.cb)
    (hnot : ¬ ∃ cb, Sends lua s.sizeIncrement v s.fx.rb.cb cb) {L : List (Value P)} {index : ℕ}
    (pop : ℕ) (hi : index ≤ L.length) (hget : L[L.length - index]? = some v) :
    ∃ o, Yields (s.take lua L index pop) (.error o) ∧ Raises o := by
  by_cases hv : Unsendable v
  · obtain ⟨code, fx, -, hy⟩ := take_refused lua hv h pop hi hget
    exact ⟨_, hy, Or.inl ⟨code, _, rfl⟩⟩
  obtain ⟨n, r, hr⟩ := growthLoop_terminates settles_id hinc hlt (h.clean hcb).valid hi (script_finite lua false v)
  have hmore : ∀ fuel ≥ n, rbSaveWithGrowth lua s.sizeIncrement v index L.length s.fx fuel =
      rbSaveWithGrowth lua s.sizeIncrement v index L.length s.fx n :=
        fun fuel hf => growthLoop_more hr hf
  have hzero : ∀ fx top, rbSaveWithGrowth lua s.sizeIncrement v index L.length s.fx n ≠
      .ret 0 fx top :=
    fun fx top hret => hnot (sends_of_stored (encode_ne_nil_of_sendable lua hv) h hi hret)
  have hpopped : ∀ fx, rbSaveWithGrowth lua s.sizeIncrement v index L.length s.fx n ≠ .popped fx :=
    growthLoop_ne_popped lua false s.sizeIncrement v index n L.length s.fx
  rw [← rbSaveWithGrowth] at hr
  generalize rbSaveWithGrowth lua s.sizeIncrement v index L.length s.fx n =
    o at hr hmore hzero hpopped
  cases o with
  | ret code fx top =>
    have hcode : ¬ code = 0 := by
      rintro rfl
      exact hzero fx top rfl
    refine ⟨.error code ⟨fx, s.stack.drop pop, s.sizeIncrement⟩, ⟨n, fun fuel hf => ?_⟩, Or.inl ⟨code, _, rfl⟩⟩
    simp only [SharedTable.take, moveValue, hget, hmore fuel hf, if_neg hcode]
  | raised e fx =>
    refine ⟨.raised ⟨fx, s.stack, s.sizeIncrement⟩, ⟨n, fun fuel hf => ?_⟩, Or.inr ⟨_, rfl⟩⟩
    simp only [SharedTable.take, moveValue, hget, hmore fuel hf]
  | popped fx => exact absurd rfl (hpopped fx)
  | _ => cases hr

section
variable {s : SharedTable P} {es : List (Value P × Value P)} {k v : Object P} {cb cb₁ cb₂ : ℕ}
  (L : List (Value P)) (nodes : Nodes P) (move : Bool) (rest : List (Object P))

/-- What a value leaves on the stack that it was taken from. -/
theorem take_pushes {s s' : SharedTable P} {w : Value P} {L L' : List (Value P)} {index pop fuel : ℕ}
    (hget : L[L.length - index]? = some w) (h : s.take lua L index pop fuel = .ok (L', s')) :
    ∃ m, L' = List.replicate m w ++ L := by
  rw [SharedTable.take] at h
  simp only [moveValue, hget] at h
  cases hsave : rbSaveWithGrowth lua s.sizeIncrement w index L.length s.fx fuel with
  | ret code fx top =>
    rw [hsave] at h
    simp only at h
    split_ifs at h
    · cases hload : rbLoad lua fuel fx.rb s.stack with
      | ret code rb stack =>
        rw [hload] at h
        cases h
        exact ⟨_, rfl⟩
      | _ =>
        rw [hload] at h
        cases h
  | _ =>
    rw [hsave] at h
    cases h

/-- The shared state gets the entry as it does when the table at index one is not looked at. -/
theorem copyEntryToTable_values (fuel : ℕ) :
    (Caller.copyEntryToTable lua s L ⟨nodes, v :: k :: rest⟩ move fuel).map
        (fun p => (p.1.stack.map Object.value ++ L, p.2)) =
      copyEntryToTable lua s (v.value :: k.value :: (rest.map Object.value ++ L)) fuel := by
  have hargs := copyEntry_args k.value v.value (rest.map Object.value ++ L)
  simp only [Caller.copyEntryToTable, copyEntryToTable, List.map_cons, List.cons_append]
  cases hkey : s.take lua (v.value :: k.value :: (rest.map Object.value ++ L))
      ((v.value :: k.value :: (rest.map Object.value ++ L)).length - 1) 0 fuel with
  | error o => rfl
  | ok p =>
    obtain ⟨L₁, s₁⟩ := p
    obtain ⟨m, rfl⟩ := take_pushes (hargs 0).1 hkey
    simp only [bind, Except.bind]
    cases hvalue : s₁.take lua (List.replicate m k.value ++ v.value :: k.value :: (rest.map Object.value ++ L))
        (v.value :: k.value :: (rest.map Object.value ++ L)).length 0 fuel with
    | error o => rfl
    | ok p =>
      obtain ⟨L₂, s₂⟩ := p
      obtain ⟨m', rfl⟩ := take_pushes (hargs m).2 hvalue
      simp only
      cases s₂.apply (luaSettableAt lua) with
      | error o => rfl
      | ok s₃ =>
        have hmap : ∀ n n', (List.replicate n v ++ List.replicate n' k ++ v :: k :: rest).map Object.value ++ L =
            List.replicate n v.value ++ (List.replicate n' k.value ++ v.value :: k.value ::
              (rest.map Object.value ++ L)) := by
          intro n n'
          simp
        refine congrArg (fun L => Except.ok (L, s₃)) ((hmap _ _).trans ?_)
        rw [List.length_append, Nat.add_sub_cancel, List.length_replicate, List.length_append, Nat.add_sub_cancel,
          List.length_replicate]

/-- Nothing of the entry is left on the stack but what was there before. -/
theorem copyEntry_copies (hl : lua.Rebuilds) (h : Empty s.fx) (hstack : s.stack = [.table es .none])
    (hk : k.value.Wf lua) (hv : v.value.Wf lua) (hbad : k.value.badKey = false)
    (hsk : Sends lua s.sizeIncrement k.value s.fx.rb.cb cb₁) (hsv : Sends lua s.sizeIncrement v.value cb₁ cb₂)
    (hsteady : ∀ n, (script lua false false k.value).Attempted s.fx.rb.cb s.sizeIncrement n →
      overflow (script lua false false k.value).items (roomAt s.fx.rb.cb s.sizeIncrement n) ≠
        some .upvals) :
    ∃ fx, Empty fx ∧ fx.rb.cb = cb₂ ∧
      Yields (fun fuel => Caller.copyEntryToTable lua s L ⟨nodes, v :: k :: rest⟩ move fuel)
      (.ok (⟨if move then removeEntry k nodes else nodes, v :: k :: rest⟩,
        ⟨fx, [.table (setEntry (k.value.received.normKey lua.versionNum) v.value.received es)
          .none], s.sizeIncrement⟩)) := by
  have hargs := copyEntry_args k.value v.value (rest.map Object.value ++ L)
  obtain ⟨fx, hempty, hcb, n, hn⟩ :=
    moveValue_quiet hl hk s.stack h hsk (Or.inr hsteady) (Nat.sub_le _ _) (hargs 0).1
  obtain ⟨fx', hempty', hcb', n', hn'⟩ :=
    moveValue_quiet hl hv (k.value.received :: s.stack) hempty (hcb.symm ▸ hsv)
    (Or.inl rfl) le_rfl (hargs 0).2
  have hset : luaSettableAt lua (v.value.received :: k.value.received :: s.stack) =
      .stack [.table (setEntry (k.value.received.normKey lua.versionNum) v.value.received es) .none] := by
    rw [hstack, ← List.nil_append [Value.table es .none], luaSettableAt_above, received_badKey,
      hbad, if_neg Bool.false_ne_true]
    rfl
  refine ⟨fx', hempty', hcb', max n n', fun fuel hf => ?_⟩
  have hkey := hn fuel (by omega)
  have hvalue := hn' fuel (by omega)
  simp only [List.replicate_zero, List.nil_append] at hvalue
  simp only [Caller.copyEntryToTable, List.map_cons, List.cons_append, SharedTable.take, hkey, bind,
    Except.bind, hvalue, SharedTable.apply, hset, Nat.sub_self, List.replicate_zero,
      List.nil_append]
  rfl

/-- An entry that is not copied raises an error in the calling state. -/
theorem copyEntry_fails (hl : lua.Rebuilds) (hinc : 1 ≤ s.sizeIncrement)
    (hlt : s.sizeIncrement < 2 ^ 63) (h : Empty s.fx) (hcb : 1 ≤ s.fx.rb.cb)
    (hk : k.value.Wf lua) (hnot : ¬ ∃ cb₁ cb₂, Sends lua s.sizeIncrement k.value s.fx.rb.cb cb₁ ∧
      Sends lua s.sizeIncrement v.value cb₁ cb₂) :
    ∃ o, Yields (fun fuel => Caller.copyEntryToTable lua s L ⟨nodes, v :: k :: rest⟩ move fuel)
      (.error o) ∧ Raises o := by
  have hargs := copyEntry_args k.value v.value (rest.map Object.value ++ L)
  by_cases hsk : ∃ cb₁, Sends lua s.sizeIncrement k.value s.fx.rb.cb cb₁
  · obtain ⟨cb₁, hsk⟩ := hsk
    obtain ⟨m, fx, hempty, hcb₁, n, hn⟩ := take_sends hl hk h hsk 0 (Nat.sub_le _ _) (hargs 0).1
    have hle : (v.value :: k.value :: (rest.map Object.value ++ L)).length ≤
        (List.replicate m k.value ++ v.value :: k.value :: (rest.map Object.value ++ L)).length := by
      rw [List.length_append]
      exact Nat.le_add_left _ _
    have hpos : 1 ≤ fx.rb.cb := by
      rw [hcb₁]
      exact hcb.trans hsk.le
    obtain ⟨o, ⟨n', hn'⟩, ho⟩ :=
      take_fails (s := ⟨fx, k.value.received :: s.stack, s.sizeIncrement⟩) hinc hlt hempty hpos
      (fun ⟨cb₂, hsv⟩ => hnot ⟨cb₁, cb₂, hsk, hcb₁ ▸ hsv⟩) 0 hle (hargs m).2
    refine ⟨o, ⟨max n n', fun fuel hf => ?_⟩, ho⟩
    have hkey := hn fuel (by omega)
    have hvalue := hn' fuel (by omega)
    simp only [Caller.copyEntryToTable, List.map_cons, List.cons_append, hkey, bind, Except.bind, hvalue]
  · obtain ⟨o, ⟨n, hn⟩, ho⟩ := take_fails hinc hlt h hcb hsk 0 (Nat.sub_le _ _) (hargs 0).1
    refine ⟨o, ⟨n, fun fuel hf => ?_⟩, ho⟩
    have hkey := hn fuel hf
    simp only [Caller.copyEntryToTable, List.map_cons, List.cons_append, hkey, bind, Except.bind]

end

/-! ### All entries -/

theorem forall_entriesParts {p : Value P → Prop} {es : List (Value P × Value P)} (h : ∀ w ∈ entriesParts es, p w) :
    ∀ e ∈ es, (∀ w ∈ e.1.parts, p w) ∧ ∀ w ∈ e.2.parts, p w := by
  induction es with
  | nil => exact nofun
  | cons e es ih =>
    obtain ⟨hk, hv, hes⟩ := forall_parts_cons.mp h
    exact List.forall_mem_cons.mpr ⟨⟨hk, hv⟩, ih hes⟩

section
variable {before after : List (Object P × Object P)} {e : Object P × Object P}

theorem Passed.entry_wf (h : Passed lua (before ++ e :: after)) :
    e.1.value.Wf lua ∧ e.2.value.Wf lua ∧ e.1.value.badKey = false := by
  obtain ⟨⟨-, hentries, -⟩, hparts⟩ := forall_parts_table.mp h.wf
  have hmem : (e.1.value, e.2.value) ∈ values (before ++ e :: after) :=
    List.mem_map.mpr ⟨e, by simp, rfl⟩
  obtain ⟨hk, hv⟩ := forall_entriesParts hparts _ hmem
  exact ⟨hk, hv, (hentries _ hmem).1⟩

/-- The next entry comes behind those that have been received. -/
theorem Passed.setEntry_received (h : Passed lua (before ++ e :: after)) :
    setEntry (e.1.value.received.normKey lua.versionNum) e.2.value.received (receivedEntries (values before)) =
      receivedEntries (values (before ++ [e])) := by
  obtain ⟨⟨-, hentries, hkeys⟩, -⟩ := forall_parts_table.mp h.wf
  have hmem : (e.1.value, e.2.value) ∈ values (before ++ e :: after) :=
    List.mem_map.mpr ⟨e, by simp, rfl⟩
  obtain ⟨-, hnorm, hnil⟩ := hentries _ hmem
  have hnew : NewKey e.1.value.received (receivedEntries (values before)) := by
    intro e' he'
    rw [receivedEntries_eq, values, List.map_map] at he'
    obtain ⟨e'', he'', rfl⟩ := List.mem_map.mp he'
    rw [values, List.map_append, List.map_append, List.map_cons, List.pairwise_append] at hkeys
    refine (received_sameKey _ _).trans (hkeys.2.2 e''.1.value ?_ e.1.value List.mem_cons_self)
    exact List.mem_map_of_mem (f := Prod.fst) (List.mem_map_of_mem (f := fun e => (e.1.value, e.2.value)) he'')
  rw [received_normKey hnorm, setEntry_new ((received_isNil _).trans hnil) hnew, receivedEntries_eq, receivedEntries_eq,
    values, values, List.map_append, List.map_append]
  rfl

theorem copied_rest_iff {inc cb cb₁ cb₂ : ℕ} (hk : Sends lua inc e.1.value cb cb₁)
    (hv : Sends lua inc e.2.value cb₁ cb₂) : (∃ cb', Copied lua inc (e :: after) cb cb') ↔
    ∃ cb', Copied lua inc after cb₂ cb' := by
  constructor
  · rintro ⟨cb', h⟩
    cases h with
    | cons hk' hv' hes =>
      obtain rfl := hk.unique hk'
      obtain rfl := hv.unique hv'
      exact ⟨cb', hes⟩
  · exact fun ⟨cb', hes⟩ => ⟨cb', .cons hk hv hes⟩

theorem Steady.tail {inc cb cb₁ cb₂ : ℕ} (h : Steady lua inc cb (e :: after)) (hk : Sends lua inc e.1.value cb cb₁)
    (hv : Sends lua inc e.2.value cb₁ cb₂) : Steady lua inc cb₂ after := by
  intro before' e' after' cb cb' hafter hbefore he'
  exact h (e :: before') e' after' cb cb' (by rw [hafter, List.cons_append]) (.cons hk hv hbefore) he'

end

theorem processed_step {before after : List (Object P × Object P)} {e : Object P × Object P}
    (hids : ((before ++ e :: after).map fun e => e.1.id).Nodup) (move : Bool) :
    (if move then removeEntry e.1 (processed move before ++ processed false (e :: after))
      else processed move before ++ processed false (e :: after)) =
        processed move (before ++ [e]) ++ processed false after := by
  cases move with
  | true => exact (if_pos rfl).trans (removeEntry_processed hids)
  | false => rw [if_neg Bool.false_ne_true, ← processed_append, ← processed_append,
      List.append_assoc, List.singleton_append]

section
variable {L : List (Value P)} {move : Bool} {nodes nodes' : Nodes P} {s s' : SharedTable P}
  {k : Object P} {e : Object P × Object P} {rest : List (Object P)}

/-- A round of the loop that copies an entry, and the rounds behind it. -/
theorem initTable_round {o : Created P} (hentry : luaNext k nodes = some (some e))
    (hcopy : Yields (fun fuel => Caller.copyEntryToTable lua s L ⟨nodes, e.2 :: e.1 :: rest⟩ move fuel)
      (.ok (⟨nodes', e.2 :: e.1 :: rest⟩, s')))
    (hrest : Yields (fun fuel => Caller.initTable lua L move fuel s' ⟨nodes', e.1 :: rest⟩) o) :
    Yields (fun fuel => Caller.initTable lua L move fuel s ⟨nodes, k :: rest⟩) o := by
  obtain ⟨n, hn⟩ := hcopy
  obtain ⟨n', hn'⟩ := hrest
  refine ⟨max n n' + 1, fun fuel hf => ?_⟩
  obtain ⟨fuel, rfl⟩ : ∃ m, fuel = m + 1 := ⟨fuel - 1, by omega⟩
  have hfirst := hn fuel (by omega)
  have hlater := hn' fuel (by omega)
  simp only at hfirst hlater
  simp only [Caller.initTable, hentry, hfirst, List.tail_cons, hlater]

theorem initTable_stops {o : TableOutcome P} (hentry : luaNext k nodes = some (some e))
    (hcopy : Yields (fun fuel => Caller.copyEntryToTable lua s L ⟨nodes, e.2 :: e.1 :: rest⟩ move fuel) (.error o)) :
    Yields (fun fuel => Caller.initTable lua L move fuel s ⟨nodes, k :: rest⟩) (Created.failed nodes o) := by
  obtain ⟨n, hn⟩ := hcopy
  refine ⟨n + 1, fun fuel hf => ?_⟩
  obtain ⟨fuel, rfl⟩ : ∃ m, fuel = m + 1 := ⟨fuel - 1, by omega⟩
  have hfirst := hn fuel (by omega)
  simp only at hfirst
  simp only [Caller.initTable, hentry, hfirst]

end

/-- The end of the loop over the entries that are left: all have been copied, or there was an
error at the first that could not be. -/
theorem initTable_fate (hl : lua.Rebuilds) (move : Bool) (L : List (Value P))
    {before after : List (Object P × Object P)} (hpassed : Passed lua (before ++ after))
    {s : SharedTable P} (hinc : 1 ≤ s.sizeIncrement) (hlt : s.sizeIncrement < 2 ^ 63)
    (h : Empty s.fx) (hcb : 1 ≤ s.fx.rb.cb)
    (hstack : s.stack = [.table (receivedEntries (values before)) .none])
    (hsteady : Steady lua s.sizeIncrement s.fx.rb.cb after) {k : Object P} (rest : List (Object P))
    (hnext : luaNext k (processed move before ++ processed false after) = some after.head?) :
    ((∃ cb, Copied lua s.sizeIncrement after s.fx.rb.cb cb) →
      ∃ s', s'.stack = [.table (receivedEntries (values (before ++ after))) .none] ∧
        Yields (fun fuel => Caller.initTable lua L move fuel s
          ⟨processed move before ++ processed false after, k :: rest⟩)
          (.created s' (processed move (before ++ after)))) ∧
    ((¬ ∃ cb, Copied lua s.sizeIncrement after s.fx.rb.cb cb) → ∃ copied e es, after = copied ++ e :: es ∧
      (∃ cb, Copied lua s.sizeIncrement copied s.fx.rb.cb cb) ∧
      (¬ ∃ cb, Copied lua s.sizeIncrement (copied ++ [e]) s.fx.rb.cb cb) ∧
      Yields (fun fuel => Caller.initTable lua L move fuel s
        ⟨processed move before ++ processed false after, k :: rest⟩)
        (.raised (processed move (before ++ copied) ++ processed false (e :: es)))) := by
  induction after generalizing before s k rest with
  | nil =>
    have hnil : processed move before ++ processed false [] = processed move before :=
      List.append_nil _
    rw [hnil] at hnext ⊢
    rw [List.append_nil]
    refine ⟨fun _ => ⟨s, hstack, 1, fun fuel hf => ?_⟩, fun hnot => absurd ⟨_, .nil⟩ hnot⟩
    obtain ⟨fuel, rfl⟩ : ∃ m, fuel = m + 1 := ⟨fuel - 1, by omega⟩
    simp only [Caller.initTable, hnext, List.head?_nil]
  | cons e after ih =>
    obtain ⟨hk, hv, hbad⟩ := hpassed.entry_wf
    have hentry : luaNext k (processed move before ++ processed false (e :: after)) =
      some (some e) := hnext
    by_cases hsends : ∃ cb₁ cb₂, Sends lua s.sizeIncrement e.1.value s.fx.rb.cb cb₁ ∧
      Sends lua s.sizeIncrement e.2.value cb₁ cb₂
    · obtain ⟨cb₁, cb₂, hsk, hsv⟩ := hsends
      obtain ⟨fx, hempty, hcb₂, hcopy⟩ :=
        copyEntry_copies L (processed move before ++ processed false (e :: after)) move rest
        hl h hstack hk hv hbad hsk hsv (hsteady [] e after _ cb₂ rfl .nil (.cons hsk hsv .nil))
      have hassoc : before ++ e :: after = (before ++ [e]) ++ after := by
        rw [List.append_assoc, List.singleton_append]
      have hnext₁ : luaNext e.1 (processed move (before ++ [e]) ++ processed false after) =
          some after.head? := by
        rw [luaNext, isNil_of_not_badKey hbad, if_neg Bool.false_ne_true]
        exact nodeAfter_processed hpassed.ids
      have hpos : 1 ≤ fx.rb.cb := by
        rw [hcb₂]
        exact hcb.trans (hsk.le.trans hsv.le)
      rw [processed_step hpassed.ids, hpassed.setEntry_received] at hcopy
      rw [hassoc] at hpassed ⊢
      obtain ⟨hall, herror⟩ := ih hpassed
        (s := ⟨fx, [.table (receivedEntries (values (before ++ [e]))) .none], s.sizeIncrement⟩)
        hinc hlt hempty hpos rfl (hcb₂.symm ▸ hsteady.tail hsk hsv) rest hnext₁
      rw [hcb₂] at hall herror
      refine ⟨fun hcopied => ?_, fun hnot => ?_⟩
      · obtain ⟨s', hs', hy⟩ := hall ((copied_rest_iff hsk hsv).mp hcopied)
        exact ⟨s', hs', initTable_round hentry hcopy hy⟩
      · obtain ⟨copied, e', es, rfl, hcopied, hstop, hy⟩ :=
          herror fun hrest => hnot ((copied_rest_iff hsk hsv).mpr hrest)
        refine ⟨e :: copied, e', es, rfl, (copied_rest_iff hsk hsv).mpr hcopied,
          fun hcopied => hstop ((copied_rest_iff hsk hsv).mp hcopied), ?_⟩
        rw [List.append_assoc, List.singleton_append] at hy
        exact initTable_round hentry hcopy hy
    · obtain ⟨o, hcopy, ho⟩ :=
        copyEntry_fails L (processed move before ++ processed false (e :: after)) move rest hl hinc
        hlt h
        hcb hk hsends
      have hfailed : Created.failed (processed move before ++ processed false (e :: after)) o =
          .raised (processed move before ++ processed false (e :: after)) := by
        rcases ho with ⟨code, s', rfl⟩ | ⟨s', rfl⟩ <;> rfl
      have hfirst : ∀ es, ¬ ∃ cb, Copied lua s.sizeIncrement (e :: es) s.fx.rb.cb cb := by
        rintro es ⟨cb, hcopied⟩
        cases hcopied with
        | cons hsk hsv _ => exact hsends ⟨_, _, hsk, hsv⟩
      have hstops := initTable_stops hentry hcopy
      rw [hfailed] at hstops
      refine ⟨fun hcopied => absurd hcopied (hfirst after), fun _ => ⟨[], e, after, rfl, ⟨_, .nil⟩, hfirst [], ?_⟩⟩
      rwa [List.append_nil]

theorem mem_seq_items {s t : Script} {x : Item} (h : x ∈ (s.seq t).items) : x ∈ s.items ∨
    x ∈ t.items := by
  by_cases hok : s.fin = .ok
  · rw [Script.seq, hok] at h
    exact List.mem_append.mp h
  · rw [seq_of_not_ok hok] at h
    exact Or.inl h

/-- Only a function is left on the stack once more. -/
theorem function_of_upvals {v : Value P} {n : ℕ} (h : overflow (script lua false false v).items n = some .upvals) :
    ∃ p ups, v = .function p ups := by
  obtain ⟨bs, hmem⟩ := put_mem_of_overflow h
  have hputs : ∀ bss, Item.put bs .upvals ∉ (puts bss).items := fun bss hput => by
    simp [puts] at hput
  cases v with
  | function p ups => exact ⟨p, ups, rfl⟩
  | table es typename =>
    rw [script] at hmem
    rcases mem_seq_items hmem with hput | hmem
    · exact absurd hput (hputs _)
    rcases mem_seq_items hmem with hbody | hput
    · obtain ⟨x, -, hx⟩ := List.mem_map.mp hbody
      cases x with
      | retain ptr => cases hx
      | put bs place => cases place <;> cases hx
    · exact absurd hput (hputs _)
  | userdata typename ptr =>
    -- what follows the writes depends on the object, but is no write
    have hwrite : ∀ bss t, Item.put bs .upvals ∈ ((puts bss).seq t).items →
        Item.put bs .upvals ∈ t.items :=
      fun bss t hput => (mem_seq_items hput).resolve_left (hputs _)
    cases typename with
    | none => cases hmem
    | torch name =>
      have hput := hwrite _ _ hmem
      cases hretain : lua.retain (.torch name) ptr <;> simp [hretain, stop] at hput
    | metatable name =>
      have hput := hwrite _ _ hmem
      cases hretain : lua.retain (.metatable name) ptr <;> simp [hretain, stop] at hput
  | cfunction =>
    rcases mem_seq_items hmem with hput | hstop
    · exact absurd hput (hputs _)
    · cases hstop
  | lightuserdata => cases hmem
  | thread => cases hmem
  | nil => exact absurd hmem (hputs _)
  | boolean b => exact absurd hmem (hputs _)
  | number bits => exact absurd hmem (hputs _)
  | integer n => exact absurd hmem (hputs _)
  | string bytes => exact absurd hmem (hputs _)

/-- So a table is steady when no key is a function. -/
theorem steady_of_keys {inc cb : ℕ} {tbl : List (Object P × Object P)}
    (h : ∀ e ∈ tbl, ∀ p ups, e.1.value ≠ .function p ups) :
    Steady lua inc cb tbl := by
  rintro before e after cb₁ cb₂ rfl - - n - hover
  obtain ⟨p, ups, hfunction⟩ := function_of_upvals hover
  exact h e (by simp) p ups hfunction

/-- Whatever is passed, the entries are in the shared table or still in `tbl`, exactly if they
are not to be moved, or can all be copied, or the first cannot be; where no key is left on the
stack once more. -/
theorem create_keeps_iff (hl : lua.Rebuilds) {size inc : ℕ} (hsize : 1 ≤ size) (hinc : 1 ≤ inc)
    (hlt : inc < 2 ^ 63) (L : List (Value P)) (move : Bool) {tbl : List (Object P × Object P)}
    (hpassed : Passed lua tbl) (hsteady : Steady lua inc size tbl) :
    (∃ o, Yields (Caller.sharedtableCreate lua size inc L move tbl) o ∧ Keeps tbl move o) ↔
      move = false ∨ (∃ cb, Copied lua inc tbl size cb) ∨
        ¬ ∃ cb, Copied lua inc (tbl.take 1) size cb := by
  have hnext : luaNext ⟨0, .nil⟩ (processed move [] ++ processed false tbl) = some tbl.head? :=
    congrArg (fun es : List (Object P × Object P) => some es.head?) (live_fresh tbl)
  obtain ⟨hall, herror⟩ := initTable_fate hl move L (show Passed lua ([] ++ tbl) from hpassed)
    (s := ⟨⟨ringbufferCreate size, []⟩, [.table [] .none], inc⟩) hinc hlt
    ⟨Or.inl (Ringbuffer.create_valid hsize), Ringbuffer.create_content size⟩ hsize rfl hsteady
      [] hnext
  by_cases hcopied : ∃ cb, Copied lua inc tbl size cb
  · obtain ⟨s', hs', hy⟩ := hall hcopied
    exact iff_of_true ⟨_, hy, hs', live_processed move tbl⟩ (Or.inr (Or.inl hcopied))
  · obtain ⟨copied, e, es, rfl, hfirst, hstop, hy⟩ := herror hcopied
    have hlive : live (processed move copied ++ processed false (e :: es)) =
        (if move then [] else copied) ++ e :: es := by
      rw [live_append, live_processed, live_fresh]
    have hkeeps : (∃ o, Yields (Caller.sharedtableCreate lua size inc L move (copied ++ e :: es)) o ∧
        Keeps (copied ++ e :: es) move o) ↔
          (if move then [] else copied) ++ e :: es = copied ++ e :: es := by
      rw [← hlive]
      constructor
      · rintro ⟨o, ho, hkeeps⟩
        obtain rfl := ho.unique hy
        exact hkeeps
      · exact fun heq => ⟨_, hy, heq⟩
    rw [hkeeps, or_iff_right hcopied, List.append_left_inj]
    cases copied with
    | nil => exact iff_of_true (ite_self _) (Or.inr hstop)
    | cons c copied =>
      have hone : ∃ cb, Copied lua inc [c] size cb := by
        obtain ⟨cb, h⟩ := hfirst
        cases h with
        | cons hk hv _ => exact ⟨_, .cons hk hv .nil⟩
      rw [List.cons_append, List.take_succ_cons, List.take_zero, or_iff_left (not_not.mpr hone)]
      cases move with
      | true => exact iff_of_false nofun nofun
      | false => exact iff_of_true rfl rfl

end

def sampleEntry : Object UInt8 × Object UInt8 := (⟨1, .boolean false⟩, ⟨2, .boolean true⟩)

def refusedEntry : Object UInt8 × Object UInt8 := (⟨2, .boolean true⟩, ⟨3, .thread⟩)

theorem sampleEntry_copied {cb : ℕ} (hcb : 2 ≤ cb) : Copied sampleLua cb [sampleEntry] cb cb :=
  have hpos : 1 ≤ cb := Nat.le_of_succ_le hcb
  .cons (sends_of_fits hpos rfl hcb) (sends_of_fits hpos rfl hcb) .nil

theorem passed_of_parts {tbl : List (Object UInt8 × Object UInt8)}
    (hnode : (Value.table (values tbl) .none).WfNode sampleLua)
    (hparts : ∀ w ∈ entriesParts (values tbl), w.WfNode sampleLua)
    (hids : (tbl.map fun e => e.1.id).Nodup) :
    Passed sampleLua tbl := ⟨forall_parts_table.mpr ⟨hnode, hparts⟩, hids⟩

/-- One entry is moved. -/
theorem create_keeps_iff_one : ∃ o,
    Yields (Caller.sharedtableCreate sampleLua Constructor.BUFFER_SIZE Constructor.BUFFER_SIZE []
    true [sampleEntry]) o ∧ Keeps [sampleEntry] true o := by
  have hpassed : Passed sampleLua [sampleEntry] := by
    refine passed_of_parts ⟨Or.inl rfl, ?_, ?_⟩ ?_ (by decide)
    · simp [values, sampleEntry, Value.badKey, Value.normKey, Value.isNil]
    · simp [values]
    · simp [values, sampleEntry, entriesParts, Value.parts, Value.WfNode]
  have hsteady : Steady sampleLua Constructor.BUFFER_SIZE Constructor.BUFFER_SIZE [sampleEntry] := by
    refine steady_of_keys fun e he p ups hfunction => ?_
    rw [List.mem_singleton.mp he] at hfunction
    cases hfunction
  exact (create_keeps_iff sampleLua_rebuilds (by decide) (by decide) (by decide) [] true hpassed hsteady).mpr
    (Or.inr (Or.inl ⟨_, sampleEntry_copied (by decide)⟩))

/-- The coroutine is refused, and the entry in front of it is in no table any more. -/
theorem moved_entry_lost : Passed sampleLua [sampleEntry, refusedEntry] ∧
    ∃ nodes, Yields (Caller.sharedtableCreate sampleLua Constructor.BUFFER_SIZE Constructor.BUFFER_SIZE []
      true [sampleEntry, refusedEntry]) (.raised nodes) ∧ live nodes = [refusedEntry] ∧
      ¬ Keeps [sampleEntry, refusedEntry] true (.raised nodes) := by
  have hpassed : Passed sampleLua [sampleEntry, refusedEntry] := by
    refine passed_of_parts ⟨Or.inl rfl, ?_, ?_⟩ ?_ (by decide)
    · simp [values, sampleEntry, refusedEntry, Value.badKey, Value.normKey, Value.isNil]
    · simp [values, sampleEntry, refusedEntry, Value.sameKey]
    · simp [values, sampleEntry, refusedEntry, entriesParts, Value.parts, Value.WfNode]
  have hsteady : Steady sampleLua Constructor.BUFFER_SIZE Constructor.BUFFER_SIZE [sampleEntry, refusedEntry] := by
    refine steady_of_keys fun e he p ups hfunction => ?_
    rcases List.mem_pair.mp he with rfl | rfl <;> cases hfunction
  have hrefused : ∀ cb, ¬ ∃ cb',
      Copied sampleLua Constructor.BUFFER_SIZE [refusedEntry] cb cb' := by
    rintro cb ⟨cb', hcopied⟩
    cases hcopied with
    | cons _ hv _ =>
      obtain ⟨-, K, -, hstored, -⟩ := hv
      exact absurd hstored.2 (by rintro ⟨⟩)
  have hfirst := sampleEntry_copied (show 2 ≤ Constructor.BUFFER_SIZE by decide)
  obtain ⟨-, herror⟩ := initTable_fate sampleLua_rebuilds true [] (show Passed sampleLua ([] ++ _) from hpassed)
    (s := ⟨⟨ringbufferCreate Constructor.BUFFER_SIZE, []⟩, [.table [] .none],
    Constructor.BUFFER_SIZE⟩) (by decide) (by decide)
    ⟨Or.inl (Ringbuffer.create_valid (by decide)), Ringbuffer.create_content _⟩ (by decide) rfl hsteady []
    (show luaNext ⟨0, .nil⟩ _ = some (some sampleEntry) from rfl)
  have hnot : ¬ ∃ cb, Copied sampleLua Constructor.BUFFER_SIZE
      [sampleEntry, refusedEntry] Constructor.BUFFER_SIZE cb := by
    rintro ⟨cb, hcopied⟩
    cases hcopied with
    | cons _ _ hrest => exact hrefused _ ⟨_, hrest⟩
  obtain ⟨copied, e, es, htbl, -, hstop, hy⟩ := herror hnot
  rcases copied with _ | ⟨c, _ | ⟨d, copied⟩⟩
  · cases htbl
    exact absurd ⟨_, hfirst⟩ hstop
  · cases htbl
    exact ⟨hpassed, _, hy, rfl, by rintro ⟨⟩⟩
  · simp at htbl

end TorchIpc.Sharedtable
