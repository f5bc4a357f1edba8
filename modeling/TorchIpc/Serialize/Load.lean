import TorchIpc.Serialize.Save

/-! `rb_load` of `serialize.c`. Here the Lua stack is explicit (a list, top
first), because the loader works on it by relative indices and goes on after a
nested failure. Nothing bounds the loop over a table, so the loader takes fuel
and may run out of it. `lua_checkstack` fails on a stack that is full, if there is
a bound at all. `alloca` is taken to succeed for a field that is there; for a field
that is cut off it may not. -/

namespace TorchIpc

open Words

/-- A return code; an error raised by Lua; a read or write outside the objects of
the call, whose effect C leaves open; or no end within the fuel. -/
inductive LoadOutcome (P : Type) where
  | ret (code : ℤ) (rb : Ringbuffer) (stack : List (Value P))
  | raise (rb : Ringbuffer)
  | undefined
  | timeout

section
variable {P : Type}

def LoadOutcome.andThen (o : LoadOutcome P)
    (k : ℤ → Ringbuffer → List (Value P) → LoadOutcome P) : LoadOutcome P :=
  match o with
  | .ret code rb stack => k code rb stack
  | .raise rb => .raise rb
  | .undefined => .undefined
  | .timeout => .timeout

/-- `lua_checkstack(L, 1)`, when so many values may lie on the stack. -/
def luaCheckstack (room : Option ℕ) (stack : List (Value P)) : Bool :=
  match room with
  | none => true
  | some n => stack.length < n

def rbRead (n : ℕ) (rb : Ringbuffer) (stack : List (Value P))
    (k : List UInt8 → Ringbuffer → LoadOutcome P) : LoadOutcome P :=
  let (i, out, rb) := ringbufferRead rb n
  if i ≠ n then .ret (-Errno.ENOMEM.toInt) rb stack else k out rb

/-- The size that `alloca(n + extra)` is called with. -/
def blockSize (n extra : ℕ) : ℕ := (n + extra) % 2 ^ 64

/-- `alloca(n + extra)` and `RB_READ` of `n` bytes into the block. The bytes that are
there are copied before the read is found to come up short. -/
def rbReadBlock (lua : Lua P) (n extra : ℕ) (rb : Ringbuffer) (stack : List (Value P))
    (k : List UInt8 → Ringbuffer → LoadOutcome P) : LoadOutcome P :=
  let (i, out, rb) := ringbufferRead rb n
  if i = n then k out rb
  else if blockSize n extra ≤ lua.allocaRoom ∧
    i ≤ blockSize n extra then .ret (-Errno.ENOMEM.toInt) rb stack
  else .undefined

/-! ### Tables -/

def luaSettable (versionNum : ℕ) (rb : Ringbuffer) :
    List (Value P) → (List (Value P) → LoadOutcome P) → LoadOutcome P
  | v :: k :: .table es .none :: stack, next =>
    if k.badKey then .raise rb
    else next (.table (setEntry (k.normKey versionNum) v es) .none :: stack)
  | _ :: _ :: .table _ _ :: _, _ => .undefined
  | _ :: _ :: .userdata _ _ :: _, _ => .undefined
  | _ :: _ :: _ :: _, _ => .raise rb
  | _, _ => .undefined

/-- `luaL_getmetatable` and `lua_setmetatable(L, -2)`. -/
def setTypename (typename : TypeName) :
    List (Value P) → (List (Value P) → LoadOutcome P) → LoadOutcome P
  | .table es _ :: stack, next => next (.table es typename :: stack)
  | _, _ => .undefined

def loadTypename (lua : Lua P) (startsize : ℕ) (rb : Ringbuffer) (stack : List (Value P)) :
    LoadOutcome P :=
  rbRead 8 rb stack fun strLen rb =>
  rbReadBlock lua (leVal strLen) 1 rb stack fun str rb =>
  let check (stack : List (Value P)) : LoadOutcome P :=
    if stack.length ≠ startsize + 1 then .raise rb else .ret 1 rb stack
  if 0 < leVal strLen then setTypename (lua.getmetatable (cstr str)) stack check
  else check stack

/-! ### Functions -/

inductive Chunk where
  | data (bs : List UInt8)
  | last
  | short
  | overrun

/-- `rb_lua_reader`; a chunk longer than its buffer runs over it. -/
def rbLuaReader (rb : Ringbuffer) : Chunk × Ringbuffer :=
  let (i, size, rb) := ringbufferRead rb 8
  if i ≠ 8 then (.short, rb)
  else if leVal size = 0 then (.last, rb)
  else
    let (i, out, rb) := ringbufferRead rb (leVal size)
    if CHUNK_SIZE < i then (.overrun, rb)
    else if i ≠ leVal size then (.short, rb)
    else (.data out, rb)

/-- `lua_load`: the code or the error message, the buffer, and `read_last`. -/
inductive Loaded (P : Type) where
  | proto (p : P) (rb : Ringbuffer) (readLast : Bool)
  | error (msg : List UInt8) (rb : Ringbuffer)
  | undefined
  | timeout

/-- The loader has all the code; some loaders ask for one piece more. -/
def loadedProto (lua : Lua P) (p : P) (rb : Ringbuffer) : Loaded P :=
  if lua.readsEnd then
    match rbLuaReader rb with
    | (.last, rb) => .proto p rb true
    | (.overrun, _) => .undefined
    | (_, rb) => .proto p rb false
  else .proto p rb false

def luaLoad (lua : Lua P) : ℕ → List UInt8 → Ringbuffer → Loaded P
  | 0, _, _ => .timeout
  | fuel + 1, read, rb =>
    match rbLuaReader rb with
    | (.data bs, rb) =>
      match lua.undump (read ++ bs) with
      | .more => luaLoad lua fuel (read ++ bs) rb
      | .done p => loadedProto lua p rb
      | .error msg => .error msg rb
    | (.last, rb) =>
      match lua.undumpEnd read with
      | .ok p => .proto p rb true
      | .error msg => .error msg rb
    | (.short, rb) =>
      match lua.undumpEnd read with
      | .ok p => .proto p rb false
      | .error msg => .error msg rb
    | (.overrun, _) => .undefined

/-- The upvalues of a function `lua_load` has just made. They are nil, but for the
globals: Lua 5.2 puts them into a single upvalue, Lua 5.3 into the first one. -/
def freshUpvals (versionNum n : ℕ) : List (Option (Value P)) :=
  let ups := List.replicate n (some .nil)
  if 503 ≤ versionNum then ups.set 0 none
  else if 502 ≤ versionNum ∧ n = 1 then ups.set 0 none
  else ups

/-- `lua_tointeger`, where it does not answer 0 for what is no number. -/
def luaTointeger (lua : Lua P) : Value P → Option UInt64
  | .integer n => some n
  | .number bits => (numberToInteger bits).or (lua.fractionInteger bits)
  | .string s => lua.stringInteger s
  | _ => none

/-- The key of an upvalue, cut to the width of an index. -/
def upvalIndex (lua : Lua P) (k : Value P) : Option ℕ :=
  (luaTointeger lua k).map fun n => n.toNat % 2 ^ 32

/-- The loop over the upvalue table. A key that is no index of an upvalue leaves
its value on the stack, in place of the next key. -/
def setUpvals (lua : Lua P) : List (Value P × Value P) → List (Option (Value P)) →
    Option (List (Option (Value P)))
  | [], ups => some ups
  | (k, v) :: es, ups =>
    match upvalIndex lua k with
    | some (i + 1) => if i < ups.length then setUpvals lua es (ups.set i (some v)) else none
    | _ => none

/-- `_ENV` and the other upvalues, with the upvalue table on top of the function. -/
def loadUpvals (lua : Lua P) (startsize : ℕ) (env : ℤ) (rb : Ringbuffer) : List (Value P) →
    LoadOutcome P
  | .table es _ :: .function p ups :: stack =>
    if (ups.length : ℤ) < env then .undefined else
    let ups := if 0 < env then ups.set (env - 1).toNat none else ups
    match setUpvals lua (lua.next es) ups with
    | some ups =>
      if stack.length ≠ startsize then .raise rb else .ret 1 rb (.function p ups :: stack)
    | none => .undefined
  | _ => .undefined

/-- What follows the code of a function, with the function on the stack. -/
def loadClosure (lua : Lua P) (loadTable : Ringbuffer → List (Value P) → LoadOutcome P)
    (startsize : ℕ) (rb : Ringbuffer) (stack : List (Value P)) : LoadOutcome P :=
  rbRead 4 rb stack fun upval rb =>
  if intVal upval = 1 then
    rbRead 4 rb stack fun env rb =>
    (loadTable rb stack).andThen fun _ rb stack => loadUpvals lua startsize (intVal env) rb stack
  else .ret 1 rb stack

/-- The case `LUA_TFUNCTION`. The marker behind the code is skipped unless the
loader has read it. -/
def loadFunction (lua : Lua P) (loadTable : Ringbuffer → List (Value P) → LoadOutcome P) (fuel : ℕ)
    (rb : Ringbuffer) (stack : List (Value P)) : LoadOutcome P :=
  match luaLoad lua fuel [] rb with
  | .timeout => .timeout
  | .undefined => .undefined
  | .error msg rb => .ret (-Errno.EINVAL.toInt) rb (.string msg :: stack)
  | .proto p rb readLast =>
    let startsize := stack.length
    let stack := .function p (freshUpvals lua.versionNum (lua.upvalueNames p).length) :: stack
    if readLast then loadClosure lua loadTable startsize rb stack
    else rbRead 8 rb stack fun _ rb => loadClosure lua loadTable startsize rb stack

/-! ### The loader -/

/-- `luaT_pushudata` of torch: NULL is nil, whatever the class; else the class has to be known. -/
def luaTPushudata (typename : TypeName) (ptr : UInt64) (rb : Ringbuffer) (stack : List (Value P)) :
    LoadOutcome P :=
  if ptr = 0 then .ret 1 rb (.nil :: stack)
  else if typename = .none then .raise rb
  else .ret 1 rb (.userdata typename ptr :: stack)

def loadUserdata (lua : Lua P) (negative : Bool) (rb : Ringbuffer) (stack : List (Value P)) :
    LoadOutcome P :=
  rbRead 8 rb stack fun strLen rb =>
  rbReadBlock lua (leVal strLen) 1 rb stack fun str rb =>
  rbRead 8 rb stack fun ptr rb =>
  let typename := lua.getmetatable (cstr str)
  if negative then .ret 1 rb (.userdata typename (wordVal ptr) :: stack)
  else luaTPushudata typename (wordVal ptr) rb stack

mutual

/-- `rb_load_rcsv`, on a stack with this room. -/
def rbLoadRcsvIn (lua : Lua P) (room : Option ℕ) :
    ℕ → (isKey : Bool) → Ringbuffer → List (Value P) → LoadOutcome P
  | 0, _, _, _ => .timeout
  | fuel + 1, isKey, rb, stack =>
    if luaCheckstack room stack = false then .ret (-Errno.ENOMEM.toInt) rb stack else
    rbRead 1 rb stack fun type rb =>
    match type.headD 0 with
    | 0 => if isKey then .ret 0 rb stack else .ret 1 rb (.nil :: stack)
    | 1 => rbRead 1 rb stack fun b rb => .ret 1 rb (.boolean (b.headD 0 ≠ 0) :: stack)
    | 3 => rbRead 8 rb stack fun n rb => .ret 1 rb (.number (wordVal n) :: stack)
    | 127 => rbRead 8 rb stack fun n rb =>
        .ret 1 rb (.ofInteger lua.versionNum (wordVal n) :: stack)
    | 4 =>
      rbRead 8 rb stack fun strLen rb =>
      rbReadBlock lua (leVal strLen) 0 rb stack fun str rb => .ret 1 rb (.string str :: stack)
    | 5 => loadTableIn lua room fuel stack.length rb (.table [] .none :: stack)
    | 6 => loadFunction lua (rbLoadRcsvIn lua room fuel false) fuel rb stack
    | 7 => loadUserdata lua false rb stack
    | 249 => loadUserdata lua true rb stack
    | _ => .ret (-Errno.EINVAL.toInt) rb stack

/-- The loop over the entries of a table: only a zero code ends it, and the code
of the value is not looked at. -/
def loadTableIn (lua : Lua P) (room : Option ℕ) :
    ℕ → (startsize : ℕ) → Ringbuffer → List (Value P) → LoadOutcome P
  | 0, _, _, _ => .timeout
  | fuel + 1, startsize, rb, stack =>
    (rbLoadRcsvIn lua room fuel true rb stack).andThen fun ret rb stack =>
    if ret = 0 then loadTypename lua startsize rb stack
    else
      (rbLoadRcsvIn lua room fuel false rb stack).andThen fun _ rb stack =>
      luaSettable lua.versionNum rb stack fun stack => loadTableIn lua room fuel startsize rb stack

end

/-- `rb_load_rcsv`, on a stack without a bound. -/
def rbLoadRcsv (lua : Lua P) : ℕ → (isKey : Bool) → Ringbuffer → List (Value P) → LoadOutcome P :=
  rbLoadRcsvIn lua none

def loadTable (lua : Lua P) : ℕ → (startsize : ℕ) → Ringbuffer → List (Value P) → LoadOutcome P :=
  loadTableIn lua none

theorem rbLoadRcsv_succ (lua : Lua P) (fuel : ℕ) (isKey : Bool) (rb : Ringbuffer) (stack : List (Value P)) :
    rbLoadRcsv lua (fuel + 1) isKey rb stack = rbRead 1 rb stack fun type rb =>
      match type.headD 0 with
      | 0 => if isKey then .ret 0 rb stack else .ret 1 rb (.nil :: stack)
      | 1 => rbRead 1 rb stack fun b rb => .ret 1 rb (.boolean (b.headD 0 ≠ 0) :: stack)
      | 3 => rbRead 8 rb stack fun n rb => .ret 1 rb (.number (wordVal n) :: stack)
      | 127 => rbRead 8 rb stack fun n rb =>
          .ret 1 rb (.ofInteger lua.versionNum (wordVal n) :: stack)
      | 4 =>
        rbRead 8 rb stack fun strLen rb =>
        rbReadBlock lua (leVal strLen) 0 rb stack fun str rb => .ret 1 rb (.string str :: stack)
      | 5 => loadTable lua fuel stack.length rb (.table [] .none :: stack)
      | 6 => loadFunction lua (rbLoadRcsv lua fuel false) fuel rb stack
      | 7 => loadUserdata lua false rb stack
      | 249 => loadUserdata lua true rb stack
      | _ => .ret (-Errno.EINVAL.toInt) rb stack := rfl

theorem loadTable_succ (lua : Lua P) (fuel startsize : ℕ) (rb : Ringbuffer) (stack : List (Value P)) :
    loadTable lua (fuel + 1) startsize rb stack =
      (rbLoadRcsv lua fuel true rb stack).andThen fun ret rb stack =>
        if ret = 0 then loadTypename lua startsize rb stack
        else
          (rbLoadRcsv lua fuel false rb stack).andThen fun _ rb stack =>
          luaSettable lua.versionNum rb stack fun stack => loadTable lua fuel startsize rb stack :=
            rfl

def rbLoad (lua : Lua P) (fuel : ℕ) (rb : Ringbuffer) (stack : List (Value P)) : LoadOutcome P :=
  rbLoadRcsv lua fuel false rb stack

/-- `rb_load`, where `lua_checkstack` may fail. -/
def rbLoadIn (lua : Lua P) (fuel : ℕ) (rb : Ringbuffer) (stack : List (Value P)) : LoadOutcome P :=
  rbLoadRcsvIn lua (some lua.stackRoom) fuel false rb stack

end

end TorchIpc
