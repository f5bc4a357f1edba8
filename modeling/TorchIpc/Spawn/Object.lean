import TorchIpc.Base.Calls
import Mathlib.Algebra.GroupWithZero.Nat
import Mathlib.Data.Fin.Basic

/-! `spawn.c`: a child process with a pipe to its standard input and one from its
standard output. Every function is a program over the system calls it makes; any of
these may fail. The object keeps four descriptors, and one that it has closed is
stored as 0. Allocations succeed, and the message that `spawn_gc` prints is left out. -/

namespace TorchIpc.Spawn

open Calls

/-- There are two pipes, with two ends each. -/
scoped instance neZero_two : NeZero 2 := ⟨by decide⟩

/-! ### System calls -/

/-- What `posix_spawn_file_actions_adddup2` and `_addclose` record. -/
inductive FileAction where
  | dup2 (fildes newfildes : ℕ)
  | close (fildes : ℕ)
  deriving Repr, DecidableEq

inductive Signal where
  | SIGKILL
  | SIGTERM
  deriving Repr, DecidableEq

/-- The calls of `spawn.c`. `close` says whether its result is looked at, and `read`
has the place in the buffer where it stores and the size of that buffer. -/
inductive Sys where
  | fileActionsInit
  | pipe
  | addAction (action : FileAction)
  | attrInit
  | spawnp (file : String) (actions : List FileAction) (argv : List (Option String))
      (envp : Option (List (Option String)))
  | close (fd : ℕ) (checked : Bool)
  | read (fd off len size : ℕ)
  | write (fd : ℕ) (bs : List UInt8)
  | kill (pid : ℕ) (sig : Signal)
  | waitpid (pid : ℕ)
  deriving Repr, DecidableEq

/-- A `close` that fails may have released the descriptor or not. -/
inductive Closing where
  | closed
  | failed (released : Bool)
  deriving Repr, DecidableEq

def Closing.releases : Closing → Bool
  | closed => true
  | failed released => released

inductive ExitStatus where
  | exited (code : UInt8)
  | signaled (sig : ℕ)
  | stopped
  | continued
  deriving Repr, DecidableEq

/-- `WEXITSTATUS`; the bits it takes are zero for a child that a signal has ended. -/
def ExitStatus.WEXITSTATUS : ExitStatus → ℕ
  | exited code => code.toNat
  | _ => 0

/-- The answers; `none` and `false` are failures. -/
abbrev Sys.Answer : Sys → Type
  | pipe => Option (ℕ × ℕ)
  | spawnp .. => Option ℕ
  | close .. => Closing
  | read .. => Option (List UInt8)
  | write .. => Option ℕ
  | waitpid _ => Option ExitStatus
  | _ => Bool

/-! ### The object -/

/-- `spawn_t`. `calloc` leaves everything zero. -/
structure SpawnT where
  pid : ℕ := 0
  fd : Fin 2 → Fin 2 → ℕ := fun _ _ => 0
  fileActions : List FileAction := []

namespace SpawnT

def setFd (s : SpawnT) (i j : Fin 2) (d : ℕ) : SpawnT :=
  { s with fd := fun i' j' => if i' = i ∧ j' = j then d else s.fd i' j' }

@[simp] theorem setFd_fd (s : SpawnT) (i j i' j' : Fin 2) (d : ℕ) :
    (s.setFd i j d).fd i' j' = if i' = i ∧ j' = j then d else s.fd i' j' := rfl

@[simp] theorem setFd_pid (s : SpawnT) (i j : Fin 2) (d : ℕ) : (s.setFd i j d).pid = s.pid := rfl

@[simp] theorem setFd_fileActions (s : SpawnT) (i j : Fin 2) (d : ℕ) :
    (s.setFd i j d).fileActions = s.fileActions := rfl

end SpawnT

inductive SpawnError where
  /-- `LUA_HANDLE_ERROR(L, errno)`. -/
  | errno
  | str (msg : String)
  /-- `luaL_optstring` got a value that is no string. -/
  | argument (arg : ℕ)
  deriving Repr, DecidableEq

inductive Result where
  | nothing
  | string (bs : List UInt8)
  | number (n : ℕ)
  deriving Repr, DecidableEq

/-- A function of `spawn.c` at work on an object. -/
abbrev SpawnM := Proc Sys Sys.Answer SpawnT SpawnError

def sys (c : Sys) : SpawnM c.Answer := Proc.ask c

/-- `if (ret) return LUA_HANDLE_ERROR(L, errno)`. -/
def checkRet (ok : Bool) : SpawnM Unit := if ok then pure () else throw .errno

/-- `close` with a check of its result, then 0 for the descriptor. -/
def closeFd (i j : Fin 2) (fail : SpawnM Unit) : SpawnM Unit := do
  let spawn ← get
  match ← sys (.close (spawn.fd i j) true) with
  | .closed => set (spawn.setFd i j 0)
  | .failed _ => fail

/-- The two loops of `spawn_destroy`, which ignore the result of `close`. -/
def destroyLoop : List (Fin 2 × Fin 2) → SpawnM Unit
  | [] => pure ()
  | (i, j) :: rest => do
    let spawn ← get
    if spawn.fd i j ≠ 0 then
      let _ ← sys (.close (spawn.fd i j) false)
      set (spawn.setFd i j 0)
    destroyLoop rest

/-- `spawn_destroy`, with the object as it is when it is freed. -/
def spawnDestroy : SpawnM Unit := destroyLoop [(0, 0), (0, 1), (1, 0), (1, 1)]

/-! ### `spawn_open` -/

/-- A Lua value as `spawn_open` looks at it; the elements of a table are what
`lua_tostring` gives for them. -/
inductive LuaArg where
  | nil
  | string (s : String)
  | table (elems : List (Option String))
  | other
  deriving Repr, DecidableEq

/-- The argument table. `env` is no table where it is `none`. -/
structure Options where
  file : LuaArg
  args : LuaArg
  env : Option (List (Option String))

/-- A failure after `calloc`: the object goes. -/
def orDestroy (ok : Bool) : SpawnM Unit := do
  if ok then pure ()
  else
    spawnDestroy
    throw .errno

/-- `posix_spawn_file_actions_adddup2` or `_addclose`. -/
def addAction (action : FileAction) : SpawnM Unit := do
  orDestroy (← sys (.addAction action))
  modify fun spawn => { spawn with fileActions := spawn.fileActions ++ [action] }

/-- One round of the loop over the pipes. The child gets the read end of the first and
the write end of the second. -/
def openPipe (i : Fin 2) : SpawnM Unit := do
  match ← sys .pipe with
  | none => orDestroy false
  | some (r, w) =>
    modify fun spawn => (spawn.setFd i 0 r).setFd i 1 w
    let rw : Fin 2 := if i = 0 then 0 else 1
    let notRw : Fin 2 := if rw = 0 then 1 else 0
    let spawn ← get
    addAction (.dup2 (spawn.fd i rw) i)
    addAction (.close (spawn.fd i rw))
    addAction (.close (spawn.fd i notRw))

def openChild (file : String) (argv : List (Option String)) (envp : Option (List (Option String))) :
    SpawnM Unit := do
  orDestroy (← sys .fileActionsInit)
  openPipe 0
  openPipe 1
  orDestroy (← sys .attrInit)
  let spawn ← get
  match ← sys (.spawnp file spawn.fileActions argv envp) with
  | none => orDestroy false
  | some pid =>
    modify fun spawn => { spawn with pid := pid }
    closeFd 0 0 (orDestroy false)
    closeFd 1 1 (orDestroy false)

/-- `spawn_open`; without its one table argument it gets `none`. -/
def spawnOpen : Option Options → SpawnM Unit
  | none => throw (.str "expected a single table argument")
  | some options =>
    match options.file, options.args with
    | .string file, .nil => openChild file [some file] (envp options.env)
    | .string file, .table args => openChild file (some file :: args) (envp options.env)
    | .string _, _ => throw (.str "args: expected a table, or nil")
    | _, _ => throw (.str "file: expected a string")
where
  /-- `environ` unless there is something in `env`. -/
  envp (env : Option (List (Option String))) : Option (List (Option String)) :=
    env.bind fun elems => if 0 < elems.length then some elems else none

/-! ### `spawn_wait` -/

def killChild (which : Signal) : SpawnM Unit := do
  let spawn ← get
  checkRet (← sys (.kill spawn.pid which))

/-- The optional signal to the child, by its name up to the first zero byte. -/
def sendSignal : Option String → SpawnM Unit
  | none => pure ()
  | some signame =>
    if signame = "KILL" then killChild .SIGKILL
    else if signame = "TERM" then killChild .SIGTERM
    else throw (.str "unknown signal")

/-- Closes stdin, unless it is closed already. -/
def closeStdin : SpawnM Unit := do
  let spawn ← get
  if spawn.fd 0 1 ≠ 0 then closeFd 0 1 (throw .errno) else pure ()

def drainLoop (fd : ℕ) : ℕ → SpawnM Unit
  | 0 => Proc.exhausted
  | fuel + 1 => do
    match ← sys (.read fd 0 1024 1024) with
    | none => throw .errno
    | some [] => pure ()
    | some (_ :: _) => drainLoop fd fuel

def leaveStdout (signame : Option String) (fuel : ℕ) : SpawnM Unit := do
  let spawn ← get
  if signame.isSome then
    let _ ← sys (.close (spawn.fd 1 0) false)
    set (spawn.setFd 1 0 0)
  else drainLoop (spawn.fd 1 0) fuel

/-- Waits until the child has exited or a signal has ended it. -/
def waitLoop (pid : ℕ) : ℕ → SpawnM ExitStatus
  | 0 => Proc.exhausted
  | fuel + 1 => do
    match ← sys (.waitpid pid) with
    | none => throw .errno
    | some (.exited code) => pure (.exited code)
    | some (.signaled sig) => pure (.signaled sig)
    | some .stopped => waitLoop pid fuel
    | some .continued => waitLoop pid fuel

/-- `spawn_wait` on an object that is not closed. -/
def spawnWait (signame : Option String) (fuel : ℕ) : SpawnM Result := do
  sendSignal signame
  closeStdin
  leaveStdout signame fuel
  let spawn ← get
  let status ← waitLoop spawn.pid fuel
  spawnDestroy
  return .number status.WEXITSTATUS

/-! ### `spawn_stdin` and `spawn_stdout` -/

def writeLoop (fd : ℕ) (str : List UInt8) : ℕ → ℕ → SpawnM Unit
  | 0, _ => Proc.exhausted
  | fuel + 1, cb => do
    if cb < str.length then
      match ← sys (.write fd (str.drop cb)) with
      | none => throw .errno
      | some x => writeLoop fd str fuel (cb + x)

/-- `spawn_stdin` on an object that is not closed. The string is what `lua_tolstring`
gives, empty for a value that is no string; there is none if there is no argument. -/
def spawnStdin : Option (List UInt8) → ℕ → SpawnM Result
  | none, _ => do
    closeFd 0 1 (throw .errno)
    return .nothing
  | some str, fuel => do
    let spawn ← get
    writeLoop (spawn.fd 0 1) str fuel 0
    return .nothing

/-- A Lua number as a `size_t`. A double below `2 ^ 64` is below `2 ^ 64 - 1`; for other
numbers the conversion is undefined. -/
structure ByteCount where
  val : ℕ
  val_lt : val + 1 < 2 ^ 64

inductive StdoutArg where
  | none
  | number (n : ByteCount)
  | string (s : String)
  | other

/-- The string that a call returns, or nothing for the empty one. -/
def pushBuff (buff : List UInt8) : Result := if 0 < buff.length then .string buff else .nothing

def readSome (fd : ℕ) (n : ByteCount) : SpawnM Result := do
  match ← sys (.read fd 0 n.val ((n.val + 1) % 2 ^ 64)) with
  | none => throw .errno
  | some bs => return pushBuff bs

/-- The size of the buffer when `cb` bytes are in it. -/
def grow (cb maxCb : ℕ) : ℕ := if cb + 1 = maxCb then maxCb + 1024 else maxCb

/-- Reads until the end of the line; `buff` is what is stored so far. -/
def readLine (fd : ℕ) : ℕ → List UInt8 → ℕ → SpawnM Result
  | 0, _, _ => Proc.exhausted
  | fuel + 1, buff, maxCb => do
    match ← sys (.read fd buff.length 1 maxCb) with
    | none => throw .errno
    | some [] => return pushBuff buff
    | some (b :: _) =>
      if b = 10 then return .string buff
      readLine fd fuel (buff ++ [b]) (grow (buff.length + 1) maxCb)

def readAll (fd : ℕ) : ℕ → List UInt8 → ℕ → SpawnM Result
  | 0, _, _ => Proc.exhausted
  | fuel + 1, buff, maxCb => do
    match ← sys (.read fd buff.length (maxCb - buff.length - 1) maxCb) with
    | none => throw .errno
    | some [] => return pushBuff buff
    | some (b :: bs) =>
      readAll fd fuel (buff ++ b :: bs) (grow (buff.length + (b :: bs).length) maxCb)

/-- `spawn_stdout` on an object that is not closed. -/
def spawnStdout (arg : StdoutArg) (fuel : ℕ) : SpawnM Result := do
  let spawn ← get
  match arg with
  | .number n => readSome (spawn.fd 1 0) n
  | .none => readLine (spawn.fd 1 0) fuel [] 1024
  | .string s =>
    if s.toList.take 2 = ['*', 'l'] then readLine (spawn.fd 1 0) fuel [] 1024
    else readAll (spawn.fd 1 0) fuel [] 1024
  | .other => throw (.argument 2)

/-- `spawn_gc` on an object that is not closed. -/
def spawnGc (fuel : ℕ) : SpawnM Result := do
  killChild .SIGTERM
  let _ ← spawnWait none fuel
  return .nothing

/-! ### The methods -/

inductive Request where
  | stdin (str : Option (List UInt8))
  | stdout (arg : StdoutArg)
  | wait (signame : Option String)
  | gc

/-- A method runs on the object at `*uspawn`, unless it is `NULL`. Only a `spawn_wait`
that succeeds sets it to `NULL`. -/
def serve : Request → ℕ → Option SpawnT →
    Prog Sys Sys.Answer (Except SpawnError Result × Option SpawnT)
  | .gc, _, none => .done (.ok .nothing, none)
  | _, _, none => .done (.error (.str "spawn was already closed"), none)
  | request, fuel, some spawn => do
    let (result, spawn) ← (body request fuel).run.run spawn
    return (result, if destroys request ∧ result.isOk then none else some spawn)
where
  body : Request → ℕ → SpawnM Result
    | .stdin str, fuel => spawnStdin str fuel
    | .stdout arg, fuel => spawnStdout arg fuel
    | .wait signame, fuel => spawnWait signame fuel
    | .gc, fuel => spawnGc fuel
  /-- The methods that end in `spawn_destroy`. -/
  destroys : Request → Bool
    | .wait _ => true
    | .gc => true
    | _ => false

theorem serve_some (r : Request) (fuel : ℕ) (s : SpawnT) : serve r fuel (some s) =
    (serve.body r fuel).run.run s >>= fun out =>
      .done (out.1, if serve.destroys r ∧ out.1.isOk then none else some out.2) := by
  cases r <;> rfl

abbrev Call := Served Request (Except SpawnError Result) Sys Sys.Answer

end TorchIpc.Spawn
