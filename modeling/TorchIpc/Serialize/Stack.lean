import TorchIpc.Base.Slots
import TorchIpc.Serialize.Accepted

/-! The slots of the Lua stack that `rb_save` and `rb_load` use. A C function may use
`LUA_MINSTACK` slots besides its arguments, and what it asks for with `lua_checkstack`.
`rb_save` never asks, and holds two slots for each table that it is in. `rb_load` asks for one
slot in each call, which is enough except for a userdata whose metatable it looks up by name. -/

namespace TorchIpc

open Slots

abbrev LUA_MINSTACK : ℕ := 20

/-! ### Saving -/

/-- `luaL_callmeta`, and the result is popped. -/
def callmeta : List Op := [.push, .pop 1]

/-- The name of a type that only its metatable knows is asked for. -/
def metatablenameOps : TypeName → List Op
  | .metatable _ => callmeta
  | _ => []

/-- `LUA_TTABLE`: the nil, the loop, in which each `lua_next` puts key and value in the place of a
key, and the last one. -/
def saveTableOps (loop : List Op) (typename : TypeName) : List Op :=
  .push :: (loop ++ [.pop 1]) ++ metatablenameOps typename

/-- `lua_next`, the key and the value, and the value is popped. -/
def saveEntryOps (key value : List Op) : List Op :=
  .pop 1 :: .push :: .push :: ((key ++ value) ++ [.pop 1])

def saveUserdataOps (typename : TypeName) : List Op := metatablenameOps typename ++ callmeta

section
variable {P : Type} (lua : Lua P)

/-- The upvalues go into a new table, one after the other, or are popped. -/
def saveFunctionUpvalsOps (upval : Bool) (p : P) (table : List Op) : List Op :=
  if upval || envOnly lua upval p then
    .push :: (((lua.upvalueNames p).flatMap fun _ => [.push, .pop 1]) ++ table ++ [.pop 1])
  else []

/-- `LUA_TFUNCTION`: the function for `lua_getinfo`, its only upvalue for the name, and its
upvalues; all that above a copy of the function, unless it lies on top. -/
def saveFunctionOps (upval : Bool) (p : P) (table : List Op) (onTop : Bool) : List Op :=
  let ops := [.push, .pop 1] ++ (if !upval && (lua.upvalueNames p).length == 1 then [.push, .pop 1] else []) ++
    saveFunctionUpvalsOps lua upval p table
  if onTop then ops else .push :: (ops ++ [.pop 1])

mutual

/-- What `rb_save` does to the stack while it stores the value. -/
def saveOps (upval : Bool) : Value P → (onTop : Bool) → List Op
  | .table es typename, _ => saveTableOps (saveEntriesOps upval es) typename
  | .function p ups, onTop =>
    saveFunctionOps lua upval p (saveTableOps (saveUpvalsOps upval (lua.upvalueNames p) ups) .none) onTop
  | .userdata typename _, _ => saveUserdataOps typename
  | .nil, _ => []
  | .boolean _, _ => []
  | .lightuserdata, _ => []
  | .number _, _ => []
  | .integer _, _ => []
  | .string _, _ => []
  | .cfunction, _ => []
  | .thread, _ => []

/-- A key lies below its value, and is not on top. -/
def saveEntriesOps (upval : Bool) : List (Value P × Value P) → List Op
  | [] => []
  | (k, v) :: es => saveEntryOps (saveOps upval k false) (saveOps upval v true) ++ saveEntriesOps upval es

def saveUpvalsOps (upval : Bool) : List String → List (Option (Value P)) → List Op
  | name :: names, u :: us =>
    if name = "_ENV" then saveUpvalsOps upval names us
    else match u with
      | none => saveUpvalsOps upval names us
      | some v =>
        if v.isNil then saveUpvalsOps upval names us
        else saveEntryOps [] (saveOps upval v true) ++ saveUpvalsOps upval names us
  | _, [] => []
  | [], _ :: _ => []

end

mutual

/-- The slots that `rb_save` needs for a value. -/
def saveSlots (upval : Bool) : Value P → (onTop : Bool) → ℕ
  | .table es _, _ => saveEntriesSlots upval es + 1
  | .function p ups, onTop =>
    (if upval || envOnly lua upval p then saveUpvalsSlots upval (lua.upvalueNames p) ups + 2 else 1) +
      if onTop then 0 else 1
  | .userdata _ _, _ => 1
  | .nil, _ => 0
  | .boolean _, _ => 0
  | .lightuserdata, _ => 0
  | .number _, _ => 0
  | .integer _, _ => 0
  | .string _, _ => 0
  | .cfunction, _ => 0
  | .thread, _ => 0

def saveEntriesSlots (upval : Bool) : List (Value P × Value P) → ℕ
  | [] => 0
  | (k, v) :: es => max (max (saveSlots upval k false) (saveSlots upval v true) + 1) (saveEntriesSlots upval es)

def saveUpvalsSlots (upval : Bool) : List String → List (Option (Value P)) → ℕ
  | name :: names, u :: us =>
    if name = "_ENV" then saveUpvalsSlots upval names us
    else match u with
      | none => saveUpvalsSlots upval names us
      | some v =>
        if v.isNil then saveUpvalsSlots upval names us
        else max (saveSlots upval v true + 1) (saveUpvalsSlots upval names us)
  | _, [] => 0
  | [], _ :: _ => 0

end

variable {lua}

theorem takes_metatablename (typename : TypeName) :
    ∃ n ≤ 1, Takes 0 (metatablenameOps typename) n := by
  cases typename with
  | metatable name => exact ⟨1, le_rfl, takes_once 0⟩
  | torch name => exact ⟨0, Nat.zero_le 1, .nil 0⟩
  | none => exact ⟨0, Nat.zero_le 1, .nil 0⟩

theorem takes_table {loop : List Op} {n : ℕ} (h : Takes 1 loop n) (typename : TypeName) :
    Takes 0 (saveTableOps loop typename) (n + 1) := by
  obtain ⟨m, hm, hname⟩ := takes_metatablename typename
  have htable := h.wrap.append hname
  rwa [max_eq_left (hm.trans (Nat.le_add_left 1 n))] at htable

theorem takes_entry {key value : List Op} {m n : ℕ} (hk : Takes 0 key m) (hv : Takes 0 value n) :
    Takes 1 (saveEntryOps key value) (max m n + 1) := (hk.append hv).next

theorem takes_userdata (typename : TypeName) : Takes 0 (saveUserdataOps typename) 1 := by
  obtain ⟨m, hm, hname⟩ := takes_metatablename typename
  have huserdata := hname.append (takes_once 0)
  rwa [max_eq_right hm] at huserdata

theorem takes_each {α : Type} (d : ℕ) (xs : List α) :
    ∃ n ≤ 1, Takes d (xs.flatMap fun _ => [.push, .pop 1]) n := by
  induction xs with
  | nil => exact ⟨0, Nat.zero_le 1, .nil d⟩
  | cons x xs ih =>
    obtain ⟨n, hn, hxs⟩ := ih
    exact ⟨max 1 n, max_le le_rfl hn, (takes_once d).append hxs⟩

theorem takes_functionUpvals (lua : Lua P) (upval : Bool) (p : P) {table : List Op} {n : ℕ}
    (h : Takes 0 table (n + 1)) :
    Takes 0 (saveFunctionUpvalsOps lua upval p table) (if upval || envOnly lua upval p then n + 2 else 0) := by
  rw [saveFunctionUpvalsOps]
  split_ifs
  · obtain ⟨m, hm, heach⟩ := takes_each 0 (lua.upvalueNames p)
    have htable := ((heach.append h).mono 1).wrap
    rwa [max_eq_right (hm.trans (Nat.le_add_left 1 n))] at htable
  · exact .nil 0

theorem takes_function (lua : Lua P) (upval : Bool) (p : P) {table : List Op} {n : ℕ}
    (h : Takes 0 table (n + 1)) (onTop : Bool) :
    Takes 0 (saveFunctionOps lua upval p table onTop)
      ((if upval || envOnly lua upval p then n + 2 else 1) + if onTop then 0 else 1) := by
  have hname : ∃ m ≤ 1, Takes 0 (if !upval && (lua.upvalueNames p).length == 1 then [.push, .pop 1] else []) m := by
    split_ifs
    · exact ⟨1, le_rfl, takes_once 0⟩
    · exact ⟨0, Nat.zero_le 1, .nil 0⟩
  obtain ⟨m, hm, hname⟩ := hname
  have hops := ((takes_once 0).append hname).append (takes_functionUpvals lua upval p h)
  have hneed : max (max 1 m) (if upval || envOnly lua upval p then n + 2 else 0) =
      if upval || envOnly lua upval p then n + 2 else 1 := by
    rw [max_eq_left hm]
    split_ifs
    · exact max_eq_right (by omega)
    · rfl
  rw [hneed] at hops
  cases onTop with
  | true => exact hops
  | false => exact (hops.mono 1).wrap

mutual

/-- A save needs as many free slots as the value says, and no fewer. -/
theorem takes_save (lua : Lua P) (upval : Bool) (v : Value P) (onTop : Bool) :
    Takes 0 (saveOps lua upval v onTop) (saveSlots lua upval v onTop) := by
  cases v with
  | table es typename =>
    rw [saveOps, saveSlots]
    exact takes_table (takes_entries lua upval es) typename
  | function p ups =>
    rw [saveOps, saveSlots]
    exact takes_function lua upval p (takes_table (takes_upvals lua upval (lua.upvalueNames p) ups) .none) onTop
  | userdata typename ptr =>
    rw [saveOps, saveSlots]
    exact takes_userdata typename
  | nil => rw [saveOps, saveSlots]; exact .nil 0
  | boolean b => rw [saveOps, saveSlots]; exact .nil 0
  | lightuserdata => rw [saveOps, saveSlots]; exact .nil 0
  | number bits => rw [saveOps, saveSlots]; exact .nil 0
  | integer n => rw [saveOps, saveSlots]; exact .nil 0
  | string bytes => rw [saveOps, saveSlots]; exact .nil 0
  | cfunction => rw [saveOps, saveSlots]; exact .nil 0
  | thread => rw [saveOps, saveSlots]; exact .nil 0

theorem takes_entries (lua : Lua P) (upval : Bool) (es : List (Value P × Value P)) :
    Takes 1 (saveEntriesOps lua upval es) (saveEntriesSlots lua upval es) := by
  match es with
  | [] =>
    rw [saveEntriesOps, saveEntriesSlots]
    exact .nil 1
  | (k, v) :: es =>
    rw [saveEntriesOps, saveEntriesSlots]
    exact (takes_entry (takes_save lua upval k false) (takes_save lua upval v true)).append (takes_entries lua upval es)

theorem takes_upvals (lua : Lua P) (upval : Bool) (names : List String) (ups : List (Option (Value P))) :
    Takes 1 (saveUpvalsOps lua upval names ups) (saveUpvalsSlots lua upval names ups) := by
  match names, ups with
  | name :: names, u :: us =>
    have ih := takes_upvals lua upval names us
    rw [saveUpvalsOps.eq_def, saveUpvalsSlots.eq_def]
    simp only
    split_ifs with hname
    · exact ih
    match u with
    | none => exact ih
    | some v =>
      simp only
      split_ifs with hnil
      · exact ih
      · have hentry := takes_entry (Takes.nil 0) (takes_save lua upval v true)
        rw [Nat.zero_max] at hentry
        exact hentry.append ih
  | [], [] => exact .nil 1
  | _ :: _, [] => exact .nil 1
  | [], _ :: _ => exact .nil 1

end

end

/-! ### Loading -/

/-- `luaL_getmetatable` and `lua_setmetatable`. -/
def setmetatableOps : List Op := [.push, .pop 1]

/-- `LUA_TTABLE`: the table, its loop up to the nil key, and the metatable. -/
def loadTableOps (loop : List Op) (typename : TypeName) : List Op :=
  [.ensure 1, .push] ++ loop ++ [.ensure 1] ++ if typename.str = [] then [] else setmetatableOps

def loadEntryOps (key value : List Op) : List Op := key ++ value ++ [.pop 2]

/-- A userdata that is named by its metatable is `lua_newuserdata` and `luaL_getmetatable`. -/
def loadUserdataOps : TypeName → List Op
  | .metatable _ => [.ensure 1, .push] ++ setmetatableOps
  | _ => [.ensure 1, .push]

def sentUpvals {P : Type} : List String → List (Option (Value P)) → ℕ
  | name :: names, some v :: us => (if name = "_ENV" || v.isNil then 0 else 1) + sentUpvals names us
  | _ :: names, none :: us => sentUpvals names us
  | _, [] => 0
  | [], _ :: _ => 0

/-- The loop over the upvalue table: `lua_next`, and `lua_setupvalue` pops the value. -/
def setUpvalsOps (n : ℕ) : List Op :=
  .push :: (((List.range n).flatMap fun _ => [.pop 1, .push, .push, .pop 1]) ++ [.pop 1])

section
variable {P : Type} (lua : Lua P)

/-- The upvalue table, the table of the globals, the upvalues, and the table is popped. -/
def loadUpvalsOps (p : P) (table : List Op) (n : ℕ) : List Op :=
  table ++ (if 0 < envIdx 1 (lua.upvalueNames p) then [.push, .pop 1] else []) ++ setUpvalsOps n ++ [.pop 1]

def loadFunctionOps (upval : Bool) (p : P) (table : List Op) (n : ℕ) : List Op :=
  [.ensure 1, .push] ++ if upval || envOnly lua upval p then loadUpvalsOps lua p table n else []

mutual

/-- What `rb_load` does to the stack when it loads the value. -/
def loadOps (upval : Bool) : Value P → List Op
  | .table es typename => loadTableOps (loadEntriesOps upval es) typename
  | .function p ups =>
    loadFunctionOps lua upval p (loadTableOps (loadSentOps upval (lua.upvalueNames p) ups) .none)
      (sentUpvals (lua.upvalueNames p) ups)
  | .userdata typename _ => loadUserdataOps typename
  | .nil => [.ensure 1, .push]
  | .boolean _ => [.ensure 1, .push]
  | .lightuserdata => [.ensure 1, .push]
  | .number _ => [.ensure 1, .push]
  | .integer _ => [.ensure 1, .push]
  | .string _ => [.ensure 1, .push]
  | .cfunction => [.ensure 1, .push]
  | .thread => [.ensure 1, .push]

def loadEntriesOps (upval : Bool) : List (Value P × Value P) → List Op
  | [] => []
  | (k, v) :: es => loadEntryOps (loadOps upval k) (loadOps upval v) ++ loadEntriesOps upval es

def loadSentOps (upval : Bool) : List String → List (Option (Value P)) → List Op
  | name :: names, some v :: us =>
    (if name = "_ENV" || v.isNil then [] else loadEntryOps [.ensure 1, .push] (loadOps upval v)) ++
      loadSentOps upval names us
  | _ :: names, none :: us => loadSentOps upval names us
  | _, [] => []
  | [], _ :: _ => []

end

/-- The visits of a table: itself, its entries above it, and the nil key. -/
def tableVisits (vs : List Visit) : List Visit := ⟨0, false⟩ :: above 1 (vs ++ [⟨0, false⟩])

mutual

/-- The calls of `rb_load_rcsv`, and the heights of the stack they are made at. The userdata are
marked that are named by their metatable. -/
def visits (upval : Bool) : Value P → List Visit
  | .table es _ => tableVisits (entriesVisits upval es)
  | .function p ups =>
    ⟨0, false⟩ :: if upval || envOnly lua upval p then above 1
      (tableVisits (sentVisits upval (lua.upvalueNames p) ups)) else []
  | .userdata (.metatable _) _ => [⟨0, true⟩]
  | .userdata _ _ => [⟨0, false⟩]
  | .nil => [⟨0, false⟩]
  | .boolean _ => [⟨0, false⟩]
  | .lightuserdata => [⟨0, false⟩]
  | .number _ => [⟨0, false⟩]
  | .integer _ => [⟨0, false⟩]
  | .string _ => [⟨0, false⟩]
  | .cfunction => [⟨0, false⟩]
  | .thread => [⟨0, false⟩]

def entriesVisits (upval : Bool) : List (Value P × Value P) → List Visit
  | [] => []
  | (k, v) :: es => visits upval k ++ above 1 (visits upval v) ++ entriesVisits upval es

def sentVisits (upval : Bool) : List String → List (Option (Value P)) → List Visit
  | name :: names, some v :: us =>
    (if name = "_ENV" || v.isNil then [] else ⟨0, false⟩ :: above 1 (visits upval v)) ++ sentVisits upval names us
  | _ :: names, none :: us => sentVisits upval names us
  | _, [] => []
  | [], _ :: _ => []

end

variable {lua}

theorem visits_entry {key value : List Op} {vs ws : List Visit} (hk : Visits key 1 vs) (hv : Visits value 1 ws) :
    Visits (loadEntryOps key value) 0 (vs ++ above 1 ws) := Visits.drop (n := 2) (hk.append hv)

/-- The metatable finds the slot that the nil key has asked for. -/
theorem visits_table {loop : List Op} {vs : List Visit} (h : Visits loop 0 vs) (typename : TypeName) :
    Visits (loadTableOps loop typename) 1 (tableVisits vs) := by
  have hname : ∃ n ≤ 1, Takes 0 (if typename.str = [] then [] else setmetatableOps) n := by
    split_ifs
    · exact ⟨0, Nat.zero_le 1, .nil 0⟩
    · exact ⟨1, le_rfl, takes_once 0⟩
  obtain ⟨n, hn, hname⟩ := hname
  have hloop := visits_push.append (h.chain visits_ensure)
  rw [loadTableOps, List.append_assoc [Op.ensure 1, Op.push]]
  exact Visits.takes (e := 1) hloop hname ⟨⟨1, false⟩, by simp [above], Nat.add_le_add_left hn 1⟩

theorem takes_setUpvals (n : ℕ) : Takes 0 (setUpvalsOps n) (min n 1 + 1) := by
  have heach : Takes 1 ((List.range n).flatMap fun _ => [.pop 1, .push, .push, .pop 1]) (min n 1) := by
    induction n with
    | zero => exact .nil 1
    | succ n ih =>
      rw [List.range_succ, List.flatMap_append]
      have hnext := ih.append (Takes.nil 0).next
      rwa [show max (min n 1) (0 + 1) = min (n + 1) 1 by omega] at hnext
  exact heach.wrap

theorem exists_mem_visits (lua : Lua P) (upval : Bool) (v : Value P) :
    ∃ w, w ∈ visits lua upval v := by
  cases v with
  | userdata typename ptr =>
    cases typename with
    | metatable name => exact ⟨_, List.mem_cons_self⟩
    | torch name => exact ⟨_, List.mem_cons_self⟩
    | none => exact ⟨_, List.mem_cons_self⟩
  | table es typename =>
    rw [visits]
    exact ⟨_, List.mem_cons_self⟩
  | function p ups =>
    rw [visits]
    exact ⟨_, List.mem_cons_self⟩
  | _ => exact ⟨_, List.mem_cons_self⟩

/-- There are visits above the keys of the upvalues, if there are any. -/
theorem exists_sentVisit {upval : Bool} {names : List String} {ups : List (Option (Value P))}
    (h : 0 < sentUpvals names ups) :
    ∃ v ∈ sentVisits lua upval names ups, 1 ≤ v.depth := by
  induction names generalizing ups with
  | nil => cases ups <;> cases h
  | cons name names ih =>
    cases ups with
    | nil => cases h
    | cons u us =>
      cases u with
      | none => exact ih h
      | some v =>
        rw [sentVisits]
        rw [sentUpvals] at h
        split_ifs at h ⊢ with hsent
        · exact ih (by omega)
        · obtain ⟨w, hw⟩ := exists_mem_visits lua upval v
          exact ⟨⟨1 + w.depth, w.twice⟩,
            List.mem_append_left _ (List.mem_cons_of_mem _ (mem_above hw 1)), Nat.le_add_right 1 _⟩

/-- The upvalues find the slots that the upvalue table has asked for. -/
theorem visits_function {upval : Bool} (p : P) {table : List Op} {vs : List Visit} {n : ℕ}
    (h : Visits table 1 (tableVisits vs)) (hn : 0 < n → ∃ v ∈ vs, 1 ≤ v.depth) :
    Visits (loadFunctionOps lua upval p table n) 1
      (⟨0, false⟩ :: if upval || envOnly lua upval p then above 1 (tableVisits vs) else []) := by
  rw [loadFunctionOps]
  split_ifs
  swap
  · rw [List.append_nil]
    exact visits_push
  have hinner : ∀ v ∈ vs ++ [⟨0, false⟩], ∃ w ∈ (⟨0, false⟩ : Visit) :: above 1 (tableVisits vs),
      w.depth = v.depth + 2 := by
    intro v hv
    refine ⟨_, List.mem_cons_of_mem _ (mem_above (List.mem_cons_of_mem _ (mem_above hv 1)) 1), ?_⟩
    change 1 + (1 + v.depth) = v.depth + 2
    omega
  have hglobals : ∃ m ≤ 1, Takes 0 (if 0 < envIdx 1 (lua.upvalueNames p) then [.push, .pop 1] else []) m := by
    split_ifs
    · exact ⟨1, le_rfl, takes_once 0⟩
    · exact ⟨0, Nat.zero_le 1, .nil 0⟩
  obtain ⟨m, hm, hglobals⟩ := hglobals
  have hclosing : ∃ w ∈ (⟨0, false⟩ : Visit) :: above 1 (tableVisits vs),
      2 + 0 + m ≤ w.depth + 1 := by
    obtain ⟨w, hw, hdepth⟩ := hinner ⟨0, false⟩ (List.mem_append_right vs List.mem_cons_self)
    exact ⟨w, hw, by rw [hdepth]; omega⟩
  have hset : ∃ w ∈ (⟨0, false⟩ : Visit) :: above 1 (tableVisits vs),
      2 + 0 + (min n 1 + 1) ≤ w.depth + 1 := by
    rcases Nat.eq_zero_or_pos n with hzero | hpos
    · obtain ⟨w, hw, hdepth⟩ := hinner ⟨0, false⟩ (List.mem_append_right vs List.mem_cons_self)
      exact ⟨w, hw, by rw [hdepth]; omega⟩
    · obtain ⟨v, hv, hone⟩ := hn hpos
      obtain ⟨w, hw, hdepth⟩ := hinner v (List.mem_append_left _ hv)
      exact ⟨w, hw, by rw [hdepth]; omega⟩
  have htable := Visits.takes (d := 0) (e := 2) (visits_push.append h) hglobals hclosing
  have hops := Visits.drop (e := 1) (n := 1) (Visits.takes (d := 0) (e := 2) htable (takes_setUpvals n) hset)
  rw [List.singleton_append] at hops
  simpa only [loadUpvalsOps, List.append_assoc] using hops

mutual

/-- A load makes the visits of the value, and leaves one slot more in use. -/
theorem visits_load (lua : Lua P) (upval : Bool) (v : Value P) :
    Visits (loadOps lua upval v) 1 (visits lua upval v) := by
  cases v with
  | table es typename =>
    rw [loadOps, visits]
    exact visits_table (visits_entries lua upval es) typename
  | function p ups =>
    rw [loadOps, visits]
    exact visits_function p (visits_table (visits_sent lua upval (lua.upvalueNames p) ups) .none) exists_sentVisit
  | userdata typename ptr =>
    cases typename with
    | metatable name => exact visits_twice
    | torch name => exact visits_push
    | none => exact visits_push
  | nil => exact visits_push
  | boolean b => exact visits_push
  | lightuserdata => exact visits_push
  | number bits => exact visits_push
  | integer n => exact visits_push
  | string bytes => exact visits_push
  | cfunction => exact visits_push
  | thread => exact visits_push

theorem visits_entries (lua : Lua P) (upval : Bool) (es : List (Value P × Value P)) :
    Visits (loadEntriesOps lua upval es) 0 (entriesVisits lua upval es) := by
  match es with
  | [] =>
    rw [loadEntriesOps, entriesVisits]
    exact .nil
  | (k, v) :: es =>
    rw [loadEntriesOps, entriesVisits]
    exact (visits_entry (visits_load lua upval k) (visits_load lua upval v)).chain (visits_entries lua upval es)

theorem visits_sent (lua : Lua P) (upval : Bool) (names : List String) (ups : List (Option (Value P))) :
    Visits (loadSentOps lua upval names ups) 0 (sentVisits lua upval names ups) := by
  match names, ups with
  | name :: names, some v :: us =>
    have ih := visits_sent lua upval names us
    rw [loadSentOps, sentVisits]
    split_ifs
    · exact ih
    · exact (visits_entry visits_push (visits_load lua upval v)).chain ih
  | _ :: names, none :: us =>
    rw [loadSentOps, sentVisits]
    exact visits_sent lua upval names us
  | [], [] => exact .nil
  | _ :: _, [] => exact .nil
  | [], _ :: _ => exact .nil

end

/-! ### The stack of the model -/

/-- A value that has been stored has left the stack as it was. -/
theorem run_saveOps {oop upval : Bool} {v : Value P} {index top top' : ℕ} (hi : index ≤ top)
    {fx fx' : Effects} (h : rbSave lua oop upval v index fx top = .ret 0 fx' top') (c : ℕ) :
    run (saveOps lua upval v (index = top)) ⟨top, c⟩ = ⟨top', c⟩ := by
  have htop : top' = top := (rbSave_top hi h).resolve_right fun hne => hne.1 rfl
  rw [htop]
  exact (takes_save lua upval v (index = top)).run_eq top c

/-- A value that has been loaded lies on the stack. -/
theorem run_loadOps {fuel : ℕ} {rb rb' : Ringbuffer} {bs : List UInt8} {stack stack' : List (Value P)} {code : ℤ}
    (h : Holds rb bs) (hload : rbLoad lua fuel rb stack = .ret code rb' stack') (hcode : 0 ≤ code)
    (upval : Bool) (v : Value P) (c : ℕ) : (run (loadOps lua upval v) ⟨stack.length, c⟩).height =
      stack'.length := by
  obtain ⟨-, w, rest, rfl, -⟩ := Format.rbLoad_encodes lua h hload hcode
  rw [(visits_load lua upval v).run_eq]
  rfl

/-! ### The capacity -/

/-- Every push finds a free slot: of the save, in a C function that has pushed `used` values, and of
the load, in one that has pushed `used'`. -/
theorem stack_within_iff (upval : Bool) (v : Value P) (onTop : Bool) {used used' : ℕ} (hu : used ≤ LUA_MINSTACK)
    (hu' : used' ≤ LUA_MINSTACK) :
    (Within (saveOps lua upval v onTop) ⟨used, LUA_MINSTACK⟩ ∧ Within (loadOps lua upval v) ⟨used', LUA_MINSTACK⟩) ↔
      used + saveSlots lua upval v onTop ≤ LUA_MINSTACK ∧
        ∀ before w after, visits lua upval v = before ++ w :: after → w.twice = true →
          used' + w.depth + 2 ≤ LUA_MINSTACK ∨ ∃ w' ∈ before, w.depth < w'.depth := by
  have hsave := (takes_save lua upval v onTop).within_iff used LUA_MINSTACK hu
  have hload := (visits_load lua upval v).within_iff used' LUA_MINSTACK hu'
  rw [← fits_iff, ← hload]
  exact and_congr_left fun _ => hsave

end

/-! ### Tables in tables -/

def nested (v : Value UInt8) : ℕ → Value UInt8
  | 0 => v
  | n + 1 => .table [(.boolean true, nested v n)] .none

def nestedTables (n : ℕ) : Value UInt8 := nested (.table [] .none) n

theorem stack_within_iff_nine :
    Within (saveOps sampleLua false (nestedTables 9) true) ⟨0, LUA_MINSTACK⟩ ∧
    Within (loadOps sampleLua false (nestedTables 9)) ⟨0, LUA_MINSTACK⟩ := by
  refine (stack_within_iff false (nestedTables 9) true (Nat.zero_le _) (Nat.zero_le _)).mpr
    ⟨by decide, fun before w after heq htwice => ?_⟩
  have hplain : ∀ w ∈ visits sampleLua false (nestedTables 9), w.twice = false := by decide
  have hw := hplain w (by rw [heq]; simp)
  rw [hw] at htwice
  cases htwice

/-- A closure over a userdata in eight tables is saved, but its metatable is one value too many for
`rb_load`. -/
example :
    let closure : Value UInt8 := .function 1 [some (nested (.userdata (.metatable [84]) 0) 8)]
    let lua := { sampleLua with upvalueNames := fun _ => ["state"] }
    Within (saveOps lua true closure true) ⟨0, LUA_MINSTACK⟩ ∧
      ¬ Within (loadOps lua true closure) ⟨0, LUA_MINSTACK⟩ := by
  decide

/-- The eleventh table is one too many for `rb_save`. -/
theorem eleven_tables_overflow : (script sampleLua false false (nestedTables 10)).fin = .ok ∧
    ¬ (Within (saveOps sampleLua false (nestedTables 10) true) ⟨0, LUA_MINSTACK⟩ ∧
      Within (loadOps sampleLua false (nestedTables 10)) ⟨0, LUA_MINSTACK⟩) :=
  ⟨rfl, by decide⟩

end TorchIpc
