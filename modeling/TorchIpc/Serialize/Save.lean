import TorchIpc.Ringbuffer.Buffer
import TorchIpc.Serialize.Value

/-! `rb_save` of `serialize.c`. The Lua stack enters through its height only: the
value at `index` is the argument, and `top` is what `lua_gettop` answers. A call
ends by returning a code or by `luaL_error`, which unwinds past every caller;
either way the ring buffer keeps what was written, and `retain` may have been
called. -/

namespace TorchIpc

open Words

/-! ### Constants -/

abbrev LUA_TNIL : UInt8 := 0
abbrev LUA_TBOOLEAN : UInt8 := 1
abbrev LUA_TNUMBER : UInt8 := 3
abbrev LUA_TSTRING : UInt8 := 4
abbrev LUA_TTABLE : UInt8 := 5
abbrev LUA_TFUNCTION : UInt8 := 6
abbrev LUA_TUSERDATA : UInt8 := 7
abbrev EXTRA_LUA_TINTEGER : UInt8 := 127
abbrev CHUNK_SIZE : ℕ := 8192

/-- The error numbers that the serialiser answers with. -/
inductive Errno where
  | EPERM
  | ENOMEM
  | EINVAL
  deriving Repr, DecidableEq

def Errno.toInt : Errno → ℤ
  | .EPERM => 1
  | .ENOMEM => 12
  | .EINVAL => 22

theorem errno_ne {e : Errno} (he : e ≠ .ENOMEM) : ¬ -e.toInt = -Errno.ENOMEM.toInt := by
  cases e with
  | ENOMEM => exact absurd rfl he
  | EPERM => decide
  | EINVAL => decide

/-- The errors raised by `luaL_error` below `rb_save`. -/
inductive LuaError where
  | persistCFunction
  | closure (shortSrc : String) (lineDefined nups : ℕ) (first : String)
  | stackCheck (loc : String)
  | retain
  deriving Repr, DecidableEq

/-- The text of an error. `lua_getinfo` on a function taken from the stack leaves
its name null; the message of `retain` is its own. -/
def LuaError.message : LuaError → String
  | .persistCFunction => "attempt to persist a C function '(null)'"
  | .closure src line nups first =>
    "Attempt to serialize closure '" ++ src ++ ":" ++ toString line ++ "' with " ++ toString nups ++
      " upvalues; first is: '" ++ first ++
      "'.\nConsider using ipc.workqueue.writeup() instead."
  | .stackCheck loc => "Stack wasn't correctly reset in " ++ loc ++ "\n"
  | .retain => ""

/-! ### Outcomes -/

/-- What a call leaves behind besides its answer: the buffer, and the objects
whose `retain` was called, in order. -/
structure Effects where
  rb : Ringbuffer
  retained : List UInt64

/-- A return code with the stack height, an error on its way to the enclosing
`lua_pcall`, a walk through the cyclic global table that never ends, or a division
by a zero capacity in `ringbuffer_write`. -/
inductive SaveOutcome where
  | ret (code : ℤ) (fx : Effects) (top : ℕ)
  | raise (e : LuaError) (fx : Effects)
  | diverges
  | undefined

def SaveOutcome.andThen (o : SaveOutcome) (k : ℤ → Effects → ℕ → SaveOutcome) : SaveOutcome :=
  match o with
  | .ret code fx top => k code fx top
  | .raise e fx => .raise e fx
  | .diverges => .diverges
  | .undefined => .undefined

def rbWritePop (bs : List UInt8) (n : ℕ) (fx : Effects) (top : ℕ)
    (k : Effects → SaveOutcome) : SaveOutcome :=
  if fx.rb.cb = 0 then .undefined else
  let (i, rb) := ringbufferWrite fx.rb (some bs) bs.length
  if i ≠ bs.length then .ret (-Errno.ENOMEM.toInt) { fx with rb := rb } (top - n)
  else k { fx with rb := rb }

def rbWrite (bs : List UInt8) (fx : Effects) (top : ℕ) (k : Effects → SaveOutcome) : SaveOutcome :=
  rbWritePop bs 0 fx top k

def rbStackCheck (startsize : ℕ) (loc : String) (fx : Effects) (top : ℕ) (k : SaveOutcome) :
    SaveOutcome :=
  if top ≠ startsize then .raise (.stackCheck loc) fx else k

/-! ### Functions -/

def rbLuaWriterLoop : ℕ → List UInt8 → Effects → ℕ → SaveOutcome
  | 0, _, fx, top => .ret 0 fx top
  | fuel + 1, input, fx, top =>
    if 0 < input.length then
      let ccb := min CHUNK_SIZE input.length
      rbWrite (leBytes 8 ccb) fx top fun fx =>
      rbWrite (input.take ccb) fx top fun fx =>
      rbLuaWriterLoop fuel (input.drop ccb) fx top
    else .ret 0 fx top

/-- `rb_lua_writer`; every round of the loop consumes a byte. -/
def rbLuaWriter (input : List UInt8) (fx : Effects) (top : ℕ) : SaveOutcome :=
  rbLuaWriterLoop input.length input fx top

/-- `lua_dump`: the writer is called on each block until it fails. -/
def luaDump : List (List UInt8) → Effects → ℕ → SaveOutcome
  | [], fx, top => .ret 0 fx top
  | block :: blocks, fx, top =>
    (rbLuaWriter block fx top).andThen fun ret fx top =>
      if ret ≠ 0 then .ret ret fx top else luaDump blocks fx top

def cstr (str : List UInt8) : List UInt8 := str.takeWhile (· ≠ 0)

def TypeName.str : TypeName → List UInt8
  | .torch name => cstr name
  | .metatable name => cstr name
  | .none => []

def saveNumber (bits : UInt64) (fx : Effects) (top : ℕ) : SaveOutcome :=
  rbWrite [LUA_TNUMBER] fx top fun fx =>
  rbWrite (wordBytes bits) fx top fun fx => .ret 0 fx top

/-- The case `LUA_TNUMBER` for an integer, from Lua 5.3 on. -/
def saveInteger (n : UInt64) (fx : Effects) (top : ℕ) : SaveOutcome :=
  rbWrite [EXTRA_LUA_TINTEGER] fx top fun fx =>
  rbWrite (wordBytes n) fx top fun fx => .ret 0 fx top

/-- `rb_save` on the key `lua_rawseti` stores an upvalue under. -/
def saveUpvalKey (versionNum i : ℕ) (_index : ℕ) (fx : Effects) (top : ℕ) : SaveOutcome :=
  if 503 ≤ versionNum then saveInteger (UInt64.ofNat i) fx top
  else saveNumber (numberOfInteger (UInt64.ofNat i)) fx top

/-- The index of the last upvalue named `_ENV`, else `-1`. -/
def envIdx : (i : ℕ) → List String → ℤ
  | _, [] => -1
  | i, name :: names =>
    let rest := envIdx (i + 1) names
    if rest = -1 ∧ name = "_ENV" then i else rest

section
variable {P : Type} (lua : Lua P)

/-- `ar.what` starts with an `L`: neither a C function nor the main part of a
chunk, which is the one whose `linedefined` is zero. -/
def whatIsL (p : P) : Bool := lua.lineDefined p ≠ 0

/-- `env` of the source: upvalues are not asked for, and the only one is `_ENV`. -/
def envOnly (upval : Bool) (p : P) : Bool :=
  !upval && (lua.upvalueNames p).length == 1 && (lua.upvalueNames p).head? == some "_ENV"

def saveFunctionReturn (startsize index : ℕ) (fx : Effects) (top : ℕ) : SaveOutcome :=
  let top := if index ≠ top then top - 1 else top
  rbStackCheck startsize "write function return" fx top (.ret 0 fx top)

/-- The upvalues of a function. The argument `saveTable` saves their table, which
lies on top of the stack. -/
def saveFunctionUpvals (upval : Bool) (p : P) (saveTable : Effects → ℕ → SaveOutcome)
    (startsize pushed index : ℕ) (fx : Effects) (top : ℕ) : SaveOutcome :=
  let names := lua.upvalueNames p
  if upval || envOnly lua upval p then
    let top := top + 1
    rbWritePop (intBytes (envIdx 1 names)) (1 + pushed) fx top fun fx =>
    (saveTable fx top).andThen fun ret fx top =>
    let top := top - 1
    if ret ≠ 0 then
      rbStackCheck (startsize + pushed) "write function upvalue" fx top (.ret ret fx top)
    else saveFunctionReturn startsize index fx top
  else if 0 < names.length then
    .raise (.closure (lua.shortSrc p) (lua.lineDefined p) names.length (names.headD "")) fx
  else saveFunctionReturn startsize index fx top

/-- The case `LUA_TFUNCTION` for a function that is not a C function. -/
def saveFunction (upval : Bool) (p : P) (saveTable : Effects → ℕ → SaveOutcome)
    (index : ℕ) (fx : Effects) (top : ℕ) : SaveOutcome :=
  let startsize := top
  rbWrite [LUA_TFUNCTION] fx top fun fx =>
  let pushed := if index ≠ startsize then 1 else 0
  let top := top + pushed
  if !whatIsL lua p then .raise .persistCFunction fx else
  rbStackCheck (startsize + pushed) "get debug" fx top <|
  (luaDump (lua.dump p) fx top).andThen fun ret fx top =>
  if ret ≠ 0 then
    let top := top - pushed
    rbStackCheck startsize "lua_dump write" fx top (.ret ret fx top)
  else
  rbWritePop (leBytes 8 0) pushed fx top fun fx =>
  let flag : ℤ :=
    if !upval && (lua.upvalueNames p).length == 1 then (if envOnly lua upval p then 1 else 0)
    else (if upval then 1 else 0)
  rbWritePop (intBytes flag) pushed fx top fun fx =>
  saveFunctionUpvals lua upval p saveTable startsize pushed index fx top

/-- The case `LUA_TUSERDATA`. A name found by `metatablename` is marked by the
negated type. -/
def saveUserdata (oop : Bool) (typename : TypeName) (ptr : UInt64) (fx : Effects) (top : ℕ) :
    SaveOutcome :=
  if oop then .ret (-Errno.EPERM.toInt) fx top else
  let write (type : UInt8) (str : List UInt8) : SaveOutcome :=
    rbWrite [type] fx top fun fx =>
    rbWrite (leBytes 8 str.length) fx top fun fx =>
    rbWrite str fx top fun fx =>
    rbWrite (wordBytes ptr) fx top fun fx =>
    match lua.retain typename ptr with
    | .called => .ret 0 { fx with retained := fx.retained ++ [ptr] } top
    | .missing => .ret (-Errno.EINVAL.toInt) fx top
    | .raises => .raise .retain fx
  match typename with
  | .torch name => write LUA_TUSERDATA (cstr name)
  | .metatable name => write (-LUA_TUSERDATA) (cstr name)
  | .none => .ret (-Errno.EINVAL.toInt) fx top

/-- The case `LUA_TTABLE`, with its loop as an argument. -/
def saveTable (loop : (start : ℕ) → Effects → ℕ → SaveOutcome) (typename : TypeName)
    (fx : Effects) (top : ℕ) : SaveOutcome :=
  let startsize := top
  rbWrite [LUA_TTABLE] fx top fun fx =>
  (loop startsize fx (top + 1)).andThen fun ret fx top =>
  if ret ≠ 0 then .ret ret fx top else
  rbWrite [LUA_TNIL] fx top fun fx =>
  let str := typename.str
  rbWrite (leBytes 8 str.length) fx top fun fx =>
  rbWrite str fx top fun fx =>
  rbStackCheck startsize "write table return" fx top (.ret 0 fx top)

/-- One round of the loop over a table: key and value lie on top of the stack. -/
def saveEntry (saveKey saveValue : (index : ℕ) → Effects → ℕ → SaveOutcome) (start : ℕ)
    (fx : Effects) (top : ℕ) (next : Effects → ℕ → SaveOutcome) : SaveOutcome :=
  (saveKey (start + 1) fx (top + 1)).andThen fun ret fx top =>
  if ret ≠ 0 then
    rbStackCheck start "write table key" fx (top - 2) (.ret ret fx (top - 2))
  else
  (saveValue (start + 2) fx top).andThen fun ret fx top =>
  if ret ≠ 0 then
    rbStackCheck start "write table value" fx (top - 2) (.ret ret fx (top - 2))
  else next fx (top - 1)

mutual

def rbSave (oop upval : Bool) : Value P → (index : ℕ) → Effects → ℕ → SaveOutcome
  | .nil, _, fx, top => rbWrite [LUA_TNIL] fx top fun fx => .ret 0 fx top
  | .boolean b, _, fx, top =>
    rbWrite [LUA_TBOOLEAN] fx top fun fx =>
    rbWrite [if b then 1 else 0] fx top fun fx => .ret 0 fx top
  | .number bits, _, fx, top => saveNumber bits fx top
  | .integer n, _, fx, top => saveInteger n fx top
  | .string str, _, fx, top =>
    rbWrite [LUA_TSTRING] fx top fun fx =>
    rbWrite (leBytes 8 str.length) fx top fun fx =>
    rbWrite str fx top fun fx => .ret 0 fx top
  | .table es typename, _, fx, top => saveTable (saveEntries oop upval es) typename fx top
  | .function p ups, index, fx, top =>
    saveFunction lua upval p
      (saveTable (saveUpvals oop upval 1 (lua.upvalueNames p) ups) .none) index fx top
  | .cfunction, _, fx, top => rbWrite [LUA_TFUNCTION] fx top fun fx => .raise .persistCFunction fx
  | .userdata typename ptr, _, fx, top => saveUserdata lua oop typename ptr fx top
  | .lightuserdata, _, fx, top => .ret (-Errno.EPERM.toInt) fx top
  | .thread, _, fx, top => .ret (-Errno.EPERM.toInt) fx top

/-- The loop of `LUA_TTABLE`; at its head the stack holds the previous key. -/
def saveEntries (oop upval : Bool) :
    List (Value P × Value P) → (start : ℕ) → Effects → ℕ → SaveOutcome
  | [], _, fx, top => .ret 0 fx (top - 1)
  | (k, v) :: es, start, fx, top =>
    saveEntry (rbSave oop upval k) (rbSave oop upval v) start fx top
      (saveEntries oop upval es start)

/-- The same loop over the table of upvalues: neither `_ENV` nor a nil upvalue is
in it. -/
def saveUpvals (oop upval : Bool) : (i : ℕ) → List String → List (Option (Value P)) →
    (start : ℕ) → Effects → ℕ → SaveOutcome
  | i, name :: names, u :: us, start, fx, top =>
    if name = "_ENV" then saveUpvals oop upval (i + 1) names us start fx top
    else match u with
      | none => .diverges
      | some v =>
        if v.isNil then saveUpvals oop upval (i + 1) names us start fx top
        else
          saveEntry (saveUpvalKey lua.versionNum i) (rbSave oop upval v) start fx top
            (saveUpvals oop upval (i + 1) names us start)
  | _, _, [], _, fx, top => .ret 0 fx (top - 1)
  | _, [], _ :: _, _, fx, top => .ret 0 fx (top - 1)

end
end

end TorchIpc
