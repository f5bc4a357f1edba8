import TorchIpc.Base.Words

/-! Lua values as the serialiser sees them, and the part of the Lua API it relies
on. A value is a finite tree: a table is the list of its entries in the order
`lua_next` gives them, a Lua function is its prototype with its upvalues, and
numbers are bit patterns. What Lua itself decides (the code of a prototype, how
the loader reads it back, which metatables a state knows) is the parameter
`Lua`. -/

namespace TorchIpc

/-- How a table or userdata names its metatable: `luaT_typename` answers for a
class registered with torch, else the metamethod `metatablename` may. -/
inductive TypeName where
  | torch (name : List UInt8)
  | metatable (name : List UInt8)
  | none
  deriving Repr, DecidableEq

/-- A Lua value over prototypes `P`. An upvalue `none` is the global table of the
state that holds the function. -/
inductive Value (P : Type) where
  | nil
  | boolean (b : Bool)
  | lightuserdata
  | number (bits : UInt64)
  | integer (n : UInt64)
  | string (bytes : List UInt8)
  | table (entries : List (Value P × Value P)) (typename : TypeName)
  | function (proto : P) (upvals : List (Option (Value P)))
  | cfunction
  | userdata (typename : TypeName) (ptr : UInt64)
  | thread
  deriving Repr

/-- What the loader makes of the bytes it has been handed so far. -/
inductive Undump (P : Type) where
  | more
  | done (proto : P)
  | error (msg : List UInt8)

/-- The answer of `luaL_callmeta(L, index, "retain")`. -/
inductive Retain where
  | missing
  | called
  | raises
  deriving Repr, DecidableEq

/-- The Lua that writer and reader run on, as far as the serialiser asks it. -/
structure Lua (P : Type) where
  /-- `LUA_VERSION_NUM`. -/
  versionNum : ℕ
  /-- The blocks `lua_dump` hands to its writer. -/
  dump : P → List (List UInt8)
  /-- The loader's answer to the bytes read so far. -/
  undump : List UInt8 → Undump P
  /-- The loader's answer when the reader has no more bytes. -/
  undumpEnd : List UInt8 → Except (List UInt8) P
  /-- Whether the loader asks for one more piece after the last byte, as LuaJIT does. -/
  readsEnd : Bool
  upvalueNames : P → List String
  shortSrc : P → String
  lineDefined : P → ℕ
  /-- The type of the metatable that `luaL_getmetatable` finds under a name. -/
  getmetatable : List UInt8 → TypeName
  retain : TypeName → UInt64 → Retain
  /-- The integer that `lua_tointeger` makes of a string, if any. -/
  stringInteger : List UInt8 → Option UInt64
  /-- The integer that `lua_tointeger` makes of a double that is equal to none, if any. -/
  fractionInteger : UInt64 → Option UInt64
  /-- The order in which `lua_next` visits entries that were stored in this order. -/
  next : List (Value P × Value P) → List (Value P × Value P)
  next_perm : ∀ es, (next es).Perm es
  /-- The largest block for which `alloca` finds room on the C stack. -/
  allocaRoom : ℕ
  /-- How many values `lua_checkstack` lets a C function have on its stack (`LUAI_MAXCSTACK`). -/
  stackRoom : ℕ

@[simp] theorem Lua.next_nil {P : Type} (lua : Lua P) : lua.next [] = [] :=
  (lua.next_perm []).eq_nil

/-! ### Number keys -/

/-- The double with this pattern is not a number. -/
def isNaN (bits : UInt64) : Bool :=
  bits.toNat / 2 ^ 52 % 2 ^ 11 = 2047 && bits.toNat % 2 ^ 52 ≠ 0

def numberEq (a b : UInt64) : Bool :=
  !isNaN a && (a == b || (a.toNat % 2 ^ 63 = 0 && b.toNat % 2 ^ 63 = 0))

/-- The 64-bit integer a double is exactly equal to, if there is one. -/
def numberToInteger (bits : UInt64) : Option UInt64 :=
  let negative := bits.toNat / 2 ^ 63 = 1
  let e := bits.toNat / 2 ^ 52 % 2 ^ 11
  let m := bits.toNat % 2 ^ 52
  if bits.toNat % 2 ^ 63 = 0 then some 0
  else if e = 0 ∨ e = 2047 then none
  else
    let man := 2 ^ 52 + m
    let magnitude : Option ℕ :=
      if 1075 ≤ e then some (man * 2 ^ (e - 1075))
      else if man % 2 ^ (1075 - e) = 0 then some (man / 2 ^ (1075 - e))
      else none
    magnitude.bind fun n =>
      if negative then if n ≤ 2 ^ 63 then some (UInt64.ofNat (2 ^ 64 - n)) else none
      else if n < 2 ^ 63 then some (UInt64.ofNat n) else none

/-- The double nearest to a 64-bit integer, ties to even. A mantissa that rounds up
to the next power of two carries into the exponent. -/
def numberOfInteger (n : UInt64) : UInt64 :=
  let negative := 2 ^ 63 ≤ n.toNat
  let m := if negative then 2 ^ 64 - n.toNat else n.toNat
  if m = 0 then 0
  else
    let e := Nat.log2 m
    let man :=
      if e ≤ 52 then m * 2 ^ (52 - e)
      else
        let q := m / 2 ^ (e - 52)
        let r := m % 2 ^ (e - 52)
        if 2 ^ (e - 53) < r ∨ (r = 2 ^ (e - 53) ∧ q % 2 = 1) then q + 1 else q
    UInt64.ofNat ((if negative then 2 ^ 63 else 0) + (1022 + e) * 2 ^ 52 + man)

namespace Value

variable {P : Type}

/-- Raw equality of keys. Tables, functions and userdata are compared by
identity, and the ones a reader makes are new. -/
def sameKey : Value P → Value P → Bool
  | .boolean a, .boolean b => a == b
  | .number a, .number b => numberEq a b
  | .integer a, .integer b => a == b
  | .string a, .string b => a == b
  | _, _ => false

/-- A float key with an integer value becomes that integer, from Lua 5.3 on. -/
def normKey (versionNum : ℕ) : Value P → Value P
  | .number bits =>
    if 503 ≤ versionNum then
      match numberToInteger bits with
      | some n => .integer n
      | none => .number bits
    else .number bits
  | v => v

/-- `lua_pushinteger`: before Lua 5.3 there are only doubles. -/
def ofInteger (versionNum : ℕ) (n : UInt64) : Value P :=
  if 503 ≤ versionNum then .integer n else .number (numberOfInteger n)

def isNil : Value P → Bool
  | .nil => true
  | _ => false

def badKey : Value P → Bool
  | .nil => true
  | .number bits => isNaN bits
  | _ => false

end Value

/-- `t[k] = v` on the entries of a table without metamethods. -/
def setEntry {P : Type} (k v : Value P) : List (Value P × Value P) → List (Value P × Value P)
  | [] => if v.isNil then [] else [(k, v)]
  | (k', v') :: es =>
    if k'.sameKey k then if v.isNil then es else (k', v) :: es
    else (k', v') :: setEntry k v es

end TorchIpc
