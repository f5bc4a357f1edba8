import TorchIpc.Base.Assoc
import TorchIpc.Serialize.Saving

/-! A shared table (`sharedtable.c`): a table in a Lua state of its own, a buffer that takes
the keys and values from the calling state to that state and back, and a mutex. The stacks
of both states are explicit. Nobody catches an error in the shared state, and nobody
unlocks the mutex on the way of an error in the calling one. -/

namespace TorchIpc.Sharedtable

section
variable {P : Type} (lua : Lua P)

/-! ### From one state to the other -/

/-- A value of one stack has come to the other; or it was refused with a code; or an error
was raised in the state it came from, or in the one it went to. -/
inductive Moved (P : Type) where
  | moved (src dst : List (Value P)) (fx : Effects)
  | refused (code : ℤ) (src : List (Value P)) (fx : Effects)
  | srcRaised (fx : Effects)
  | dstRaised (fx : Effects)
  | undefined
  | diverges
  | timeout

/-- `rb_save_with_growth` on the value at an index of one state, and `rb_load`, whose code
nobody looks at, in the other. A function that did not fit stays on the stack once more. -/
def moveValue (sizeIncrement : ℕ) (src : List (Value P)) (index : ℕ) (dst : List (Value P)) (fx : Effects)
    (fuel : ℕ) : Moved P :=
  match src[src.length - index]? with
  | none => .undefined
  | some v =>
    match rbSaveWithGrowth lua sizeIncrement v index src.length fx fuel with
    | .ret code fx top =>
      if code = 0 then
        match rbLoad lua fuel fx.rb dst with
        | .ret _ rb dst => .moved (List.replicate (top - src.length) v ++ src) dst { fx with rb := rb }
        | .raise rb => .dstRaised { fx with rb := rb }
        | .undefined => .undefined
        | .timeout => .timeout
      else .refused code (List.replicate (top - src.length) v ++ src) fx
    | .raised _ fx => .srcRaised fx
    | .popped _ => .undefined
    | .undefined => .undefined
    | .diverges => .diverges
    | .timeout => .timeout

/-! ### The table at index one -/

/-- What `lua_gettable`, `lua_settable` and `lua_next` make of a stack. Metamethods are not
modelled: they do not occur at this index. -/
inductive Indexed (P : Type) where
  | stack (s : List (Value P))
  | raised
  | undefined

def luaGettable (stack : List (Value P)) : Indexed P :=
  match stack, stack.getLast? with
  | k :: rest, some (.table es .none) =>
    .stack (Assoc.lookup Value.sameKey .nil (k.normKey lua.versionNum) es :: rest)
  | _, some (.table _ _) => .undefined
  | _, some (.userdata _ _) => .undefined
  | _, some (.string _) => .undefined
  | _, some _ => .raised
  | _, none => .undefined

/-- The stack with other entries in the table at index one. -/
def setBottom (es : List (Value P × Value P)) : List (Value P) → List (Value P)
  | [] => []
  | [_] => [.table es .none]
  | v :: stack => v :: setBottom es stack

def luaSettableAt (stack : List (Value P)) : Indexed P :=
  match stack, stack.getLast? with
  | v :: k :: rest, some (.table es .none) =>
    if k.badKey then .raised else .stack (setBottom (setEntry (k.normKey lua.versionNum) v es) rest)
  | _, some (.table _ _) => .undefined
  | _, some (.userdata _ _) => .undefined
  | _, some (.string _) => .undefined
  | _, some _ => .raised
  | _, none => .undefined

/-- The entry behind a key; none if the key is in no entry. -/
def entryAfter (k : Value P) : List (Value P × Value P) → Option (Option (Value P × Value P))
  | [] => none
  | (k', _) :: es => if k'.sameKey k then some es.head? else entryAfter k es

/-- `lua_next(L, 1)`, and whether it has pushed an entry. -/
def luaNextAt (stack : List (Value P)) : Indexed P × Bool :=
  match stack, stack.getLast? with
  | k :: rest, some (.table es _) =>
    match if k.isNil then some es.head? else entryAfter (k.normKey lua.versionNum) es with
    | some (some (k', v)) => (.stack (v :: k' :: rest), true)
    | some none => (.stack rest, false)
    | none => (.raised, false)
  | _, _ => (.undefined, false)

/-! ### Operations -/

/-- The fields of a `sharedtable_t` but for the mutex and the references. -/
structure SharedTable (P : Type) where
  fx : Effects
  stack : List (Value P)
  sizeIncrement : ℕ

/-- How an operation ends. It returns the values on top of the caller's stack, with the
mutex unlocked; or raises an error in the calling state, with the mutex unlocked or still
locked; or an error in the shared state ends the process. -/
inductive TableOutcome (P : Type) where
  | returns (results : List (Value P)) (s : SharedTable P)
  | error (code : ℤ) (s : SharedTable P)
  | raised (s : SharedTable P)
  | panicked
  | undefined
  | diverges
  | timeout

/-- From the calling state to the shared one. After a refusal the operation pops so many
values of the shared stack. -/
def SharedTable.take (s : SharedTable P) (L : List (Value P)) (index pop fuel : ℕ) :
    Except (TableOutcome P) (List (Value P) × SharedTable P) :=
  match moveValue lua s.sizeIncrement L index s.stack s.fx fuel with
  | .moved L stack fx => .ok (L, ⟨fx, stack, s.sizeIncrement⟩)
  | .refused code _ fx => .error (.error code ⟨fx, s.stack.drop pop, s.sizeIncrement⟩)
  | .srcRaised fx => .error (.raised ⟨fx, s.stack, s.sizeIncrement⟩)
  | .dstRaised _ => .error .panicked
  | .undefined => .error .undefined
  | .diverges => .error .diverges
  | .timeout => .error .timeout

def SharedTable.give (s : SharedTable P) (L : List (Value P)) (index pop fuel : ℕ) :
    Except (TableOutcome P) (List (Value P) × SharedTable P) :=
  match moveValue lua s.sizeIncrement s.stack index L s.fx fuel with
  | .moved stack L fx => .ok (L, ⟨fx, stack, s.sizeIncrement⟩)
  | .refused code stack fx => .error (.error code ⟨fx, stack.drop pop, s.sizeIncrement⟩)
  | .srcRaised _ => .error .panicked
  | .dstRaised fx => .error (.raised ⟨fx, s.stack, s.sizeIncrement⟩)
  | .undefined => .error .undefined
  | .diverges => .error .diverges
  | .timeout => .error .timeout

def SharedTable.apply (s : SharedTable P) (f : List (Value P) → Indexed P) :
    Except (TableOutcome P) (SharedTable P) :=
  match f s.stack with
  | .stack stack => .ok { s with stack := stack }
  | .raised => .error .panicked
  | .undefined => .error .undefined

def readKey (s : SharedTable P) (L : List (Value P)) (fuel : ℕ) :
    Except (TableOutcome P) (List (Value P) × SharedTable P) := do
  let (L, s) ← s.take lua L 2 0 fuel
  let s ← s.apply (luaGettable lua)
  return (L, s)

/-- The rest of it: the result is on top of the caller's stack. -/
def readValue (s : SharedTable P) (L : List (Value P)) (fuel : ℕ) :
    Except (TableOutcome P) (List (Value P) × SharedTable P) := do
  let (L, s) ← s.give lua L 2 1 fuel
  return (L.take 1, { s with stack := s.stack.drop 1 })

def writeKey (s : SharedTable P) (L : List (Value P)) (fuel : ℕ) :
    Except (TableOutcome P) (List (Value P) × SharedTable P) :=
  s.take lua L 2 0 fuel

def writeValue (s : SharedTable P) (L : List (Value P)) (fuel : ℕ) :
    Except (TableOutcome P) (List (Value P) × SharedTable P) := do
  let (_, s) ← s.take lua L 3 1 fuel
  let s ← s.apply (luaSettableAt lua)
  return ([], s)

/-- The loop of `sharedtable_len` goes through all entries. -/
def countEntries (s : SharedTable P) : Except (TableOutcome P) (List (Value P) × SharedTable P) :=
  match s.stack.getLast? with
  | some (.table es _) => .ok ([.ofInteger lua.versionNum (UInt64.ofNat es.length)], s)
  | _ => .error .undefined

def outcome : Except (TableOutcome P) (List (Value P) × SharedTable P) → TableOutcome P
  | .ok (results, s) => .returns results s
  | .error o => o

/-- The operations, on the caller's stack: the shared table, the key, and the value. -/
def sharedtableRead (s : SharedTable P) (L : List (Value P)) (fuel : ℕ) : TableOutcome P :=
  outcome do
    let (L, s) ← readKey lua s L fuel
    readValue lua s L fuel

def sharedtableWrite (s : SharedTable P) (L : List (Value P)) (fuel : ℕ) : TableOutcome P :=
  outcome do
    let (L, s) ← writeKey lua s L fuel
    writeValue lua s L fuel

def sharedtableLen (s : SharedTable P) : TableOutcome P := outcome (countEntries lua s)

/-- `sharedtable_next`. At the end of the table only nil is returned. -/
def sharedtableNext (s : SharedTable P) (L : List (Value P)) (fuel : ℕ) : TableOutcome P :=
  outcome do
    let (L, s) ← s.take lua L 2 0 fuel
    let s' ← s.apply fun stack => (luaNextAt lua stack).1
    if (luaNextAt lua s.stack).2 then
      let (L, s') ← s'.give lua L 2 2 fuel
      let (L, s') ← s'.give lua L 3 2 fuel
      return ((L.take 2).reverse, { s' with stack := s'.stack.drop 2 })
    else return ([.nil], s')

/-! ### Creation -/

/-- `copy_entry_to_table`, with the key and the value on top of the caller's stack. -/
def copyEntryToTable (s : SharedTable P) (L : List (Value P)) (fuel : ℕ) :
    Except (TableOutcome P) (List (Value P) × SharedTable P) := do
  let (L', s) ← s.take lua L (L.length - 1) 0 fuel
  let (L', s) ← s.take lua L' L.length 0 fuel
  let s ← s.apply (luaSettableAt lua)
  return (L', s)

/-- `init_table`: the entries of the table at index one of the caller's stack. -/
def initTable (L : List (Value P)) (fuel : ℕ) :
    List (Value P × Value P) → SharedTable P → Except (TableOutcome P) (SharedTable P)
  | [], s => .ok s
  | (k, v) :: es, s => do
    let (_, s) ← copyEntryToTable lua s (v :: k :: L) fuel
    initTable L fuel es s

/-- `sharedtable_create`, when the shared state has been set up. -/
def sharedtableCreate (size sizeIncrement : ℕ) (L : List (Value P)) (es : List (Value P × Value P))
    (fuel : ℕ) :
    Except (TableOutcome P) (SharedTable P) :=
  initTable lua L fuel es ⟨⟨ringbufferCreate size, []⟩, [.table [] .none], sizeIncrement⟩

end

end TorchIpc.Sharedtable
