import Luaxx.Call.Arguments

/-!
# Coroutines (`ldo.c`, `lapi.c`, `lbaselib.c`)

A coroutine is a thread with a status, which is kept only in part: a coroutine that has not begun,
one that runs and one that has returned differ by their frames and by what is on their stacks.
`lua_resume` and `auxresume` are each divided where the body of the coroutine runs.

Where the stack of a coroutine that does not run cannot be enlarged for want of memory, the program
ends: the error is not raised in the thread that runs.
-/

namespace Luaxx.Coro

open Luaxx.Call

def LUAI_MAXCSTACK : Nat := 8000
def LUAI_MAXCCALLS : Nat := 200
def BASIC_CI_SIZE : Nat := 8
def BASIC_STACK_SIZE : Nat := 2 * LUA_MINSTACK

def LUA_YIELD : Nat := 1
def LUA_ERRRUN : Nat := 2
def LUA_ERRMEM : Nat := 4
def LUA_ERRERR : Nat := 5

structure LuaState (V : Type) extends Thread V where
  status : Nat
  nCcalls : Nat
  baseCcalls : Nat

/-- What the library makes and knows of values. -/
structure Host (V : Type) extends Env V where
  luaS_new : String → V
  boolean : Bool → V
  thread : Nat → V
  lua_tothread : V → Option Nat
  /-- A message with its position before it; other error values are left as they are. -/
  located : V → V
  /-- What is on the stack where an error is raised. -/
  message : Error → V
  /-- `precheck`: the registers of a function hold its parameters. -/
  numparams_le : ∀ v p, callee v = some (.lua p) → p.numparams.toNat ≤ p.maxstacksize.toNat

variable {V : Type} (env : Host V)

/-! ## Values on the stack -/

def LuaState.push (L : LuaState V) (v : V) : LuaState V :=
  { L with toThread := L.toThread.push v }

def lua_gettop (L : LuaState V) : Nat := L.top - L.base

def lua_checkstack (L : LuaState V) (size : Nat) : Except Error (Bool × LuaState V) :=
  if size > LUAI_MAXCSTACK ∨ L.top - L.base + size > LUAI_MAXCSTACK then .ok (false, L)
  else if size > 0 then do
    let T ← luaD_checkstack env.toEnv L.toThread size
    let T := if T.ci.top < T.top + size then { T with ci := { T.ci with top := T.top + size } } else T
    .ok (true, { L with toThread := T })
  else .ok (true, L)

/-- `for (i = 0; i < n; i++) setobj2s(to, to->top++, from->top + i)`. -/
def xmoveLoop (source : Thread V) : Nat → Nat → Thread V → Thread V
  | 0, _, dest => dest
  | n + 1, i, dest => xmoveLoop source n (i + 1) (dest.push (source.stack (source.top + i)))

/-- `lua_xmove`, between two threads. -/
def lua_xmove (source dest : LuaState V) (n : Nat) : LuaState V × LuaState V :=
  let source := { source with top := source.top - n }
  (source, { dest with toThread := xmoveLoop source.toThread n 0 dest.toThread })

def lua_insert (L : Thread V) (p : Nat) : Thread V :=
  let L := shiftUp (L.top - p) L.top L
  L.set p (L.stack L.top)

def luaL_error (L : LuaState V) (msg : String) : LuaState V :=
  L.push (env.located (env.luaS_new msg))

/-! ## The status -/

inductive CoStatus where
  | CO_RUN
  | CO_SUS
  | CO_NOR
  | CO_DEAD
  deriving DecidableEq, Repr

def statnames : CoStatus → String
  | .CO_RUN => "running"
  | .CO_SUS => "suspended"
  | .CO_NOR => "normal"
  | .CO_DEAD => "dead"

/-- `lua_getstack(L, 0, &ar)`: there is a frame above the first one. -/
def lua_getstack_zero (L : LuaState V) : Bool := !L.callers.isEmpty

/-- `costatus`, where `self` is `L == co`. -/
def costatus (self : Bool) (co : LuaState V) : CoStatus :=
  if self then .CO_RUN
  else if co.status = LUA_YIELD then .CO_SUS
  else if co.status = 0 then
    if lua_getstack_zero co then .CO_NOR
    else if lua_gettop co = 0 then .CO_DEAD
    else .CO_SUS
  else .CO_DEAD

/-! ## Errors -/

def errorStatus : Error → Nat
  | .errmem => LUA_ERRMEM
  | .errerr => LUA_ERRERR
  | .runerror _ => LUA_ERRRUN
  | .typeerror _ => LUA_ERRRUN

def luaD_seterrorobj (L : Thread V) (errcode oldtop : Nat) : Thread V :=
  let v := if errcode = LUA_ERRMEM then env.luaS_new "not enough memory"
    else if errcode = LUA_ERRERR then env.luaS_new "error in error handling"
    else L.stack (L.top - 1)
  { L.set oldtop v with top := oldtop + 1 }

/-! ## `lua_resume` -/

/-- `f_isLua(ci)`. -/
def f_isLua (L : Thread V) : Bool :=
  match env.callee (L.stack L.ci.func) with
  | some (.lua _) => true
  | _ => false

/-- `resume`, up to the execution of the body. -/
def resume (L : LuaState V) (firstArg : Nat) : Except Error (PCR × LuaState V) :=
  if L.status = 0 then do
    -- start coroutine
    let (r, T) ← luaD_precall env.toEnv L.toThread (firstArg - 1) LUA_MULTRET
    .ok (r, { L with toThread := T })
  else
    let L := { L with status := 0 }
    if f_isLua env L.toThread then
      -- yielded inside a hook: just continue its execution
      .ok (.PCRLUA, { L with base := L.ci.base })
    else
      -- finish interrupted execution of `OP_CALL`
      let wanted := L.ci.nresults
      let T := luaD_poscall env.toEnv L.toThread firstArg
      let T := if wanted = LUA_MULTRET then T else { T with top := T.ci.top }
      .ok (.PCRLUA, { L with toThread := T })

def resume_error (L : LuaState V) (msg : String) : LuaState V :=
  LuaState.push { L with top := L.ci.base } (env.luaS_new msg)

/-- What `lua_resume` does behind the body. -/
def lua_resume_end (L : LuaState V) : LuaState V := { L with nCcalls := L.nCcalls - 1 }

/-- What `lua_resume` does with an error of the body. -/
def lua_resume_catch (L : LuaState V) (status : Nat) : LuaState V :=
  let T := luaD_seterrorobj env L.toThread status L.top
  lua_resume_end
    { L with toThread := { T with ci := { T.ci with top := T.top } }, status := status }

/-- What becomes of a coroutine that is resumed. -/
inductive Resumed (V : Type) where
  | refused (co : LuaState V)
  | failed (status : Nat) (co : LuaState V)
  /-- The body is a C function, and has come to its end. -/
  | ended (co : LuaState V)
  | running (co : LuaState V)

/-- `lua_resume`, up to the execution of the body. -/
def lua_resume (L : LuaState V) (nargs : Nat) : Resumed V :=
  if L.status ≠ LUA_YIELD ∧ (L.status ≠ 0 ∨ lua_getstack_zero L) then
    .refused (resume_error env L "cannot resume non-suspended coroutine")
  else if L.nCcalls ≥ LUAI_MAXCCALLS then .refused (resume_error env L "C stack overflow")
  else
    let L := { L with nCcalls := L.nCcalls + 1, baseCcalls := L.nCcalls + 1 }
    match resume env L (L.top - nargs) with
    | .ok (.PCRLUA, L) => .running L
    | .ok (_, L) => .ended (lua_resume_end L)
    | .error e =>
      .failed (errorStatus e)
        (lua_resume_catch env (L.push (env.message e)) (errorStatus e))

/-- `lua_yield`; it fails across a metamethod or a C call. -/
def lua_yield (L : LuaState V) (nresults : Nat) : Option (LuaState V) :=
  if L.nCcalls > L.baseCcalls then none
  else some { L with base := L.top - nresults, status := LUA_YIELD }

/-! ## `auxresume` -/

inductive Begun (V : Type) where
  /-- An error is raised in the thread that resumes. -/
  | raised (L : LuaState V)
  /-- The coroutine is not suspended. -/
  | refused (L co : LuaState V)
  | resumed (L : LuaState V) (r : Resumed V)

/-- `auxresume`, up to the execution of the body. -/
def auxresume (self : Bool) (L co : LuaState V) (narg : Nat) : Except Error (Begun V) := do
  let status := costatus self co
  let (room, co) ← lua_checkstack env co narg
  let L := if self then co else L
  if !room then .ok (.raised (luaL_error env L "too many arguments to resume"))
  else if status ≠ .CO_SUS then
    let L := L.push (env.luaS_new ("cannot resume " ++ statnames status ++ " coroutine"))
    .ok (.refused L (if self then L else co))
  else
    let (L, co) := lua_xmove L co narg
    -- `lua_setlevel`
    let co := { co with nCcalls := L.nCcalls }
    .ok (.resumed L (lua_resume env co narg))

/-- What `auxresume` returns: a number of results, its error flag, or an error. -/
inductive Aux where
  | results (n : Nat)
  | flag
  | raised
  deriving DecidableEq, Repr

/-- `auxresume`, from the end of the body on. -/
def auxresume_end (L co : LuaState V) (status : Nat) :
    Except Error (Aux × LuaState V × LuaState V) :=
  if status = 0 ∨ status = LUA_YIELD then do
    let nres := lua_gettop co
    let (room, L) ← lua_checkstack env L (nres + 1)
    if !room then .ok (.raised, luaL_error env L "too many results to resume", co)
    else
      -- move yielded values
      let (co, L) := lua_xmove co L nres
      .ok (.results nres, L, co)
  else
    -- move error message
    let (co, L) := lua_xmove co L 1
    .ok (.flag, L, co)

/-- The functions that call `auxresume`. -/
inductive Kind where
  | coresume
  | auxwrap
  deriving DecidableEq, Repr

/-- `luaB_coresume` and `luaB_auxwrap`, from `auxresume` on. -/
def finish (kind : Kind) (r : Aux) (L : LuaState V) : LuaState V :=
  match kind, r with
  | _, .raised => L
  | .coresume, .flag =>
    let L := L.push (env.boolean false)
    { L with toThread := lua_insert L.toThread (L.top - 2) }
  | .coresume, .results n =>
    let L := L.push (env.boolean true)
    { L with toThread := lua_insert L.toThread (L.top - (n + 1)) }
  | .auxwrap, .flag => { L with toThread := L.set (L.top - 1) (env.located (L.stack (L.top - 1))) }
  | .auxwrap, .results _ => L

/-! ## `luaB_cocreate` -/

/-- `stack_init` and the other fields of a new thread. -/
def luaE_newthread (L : LuaState V) : LuaState V where
  stack _ := env.nil
  stacksize := BASIC_STACK_SIZE + EXTRA_STACK
  stack_last := BASIC_STACK_SIZE - 1
  top := 1
  base := 1
  ci := ⟨1, 0, 1 + LUA_MINSTACK, 0, 0, 0⟩
  callers := []
  size_ci := BASIC_CI_SIZE
  savedpc := 0
  hookcall := L.hookcall
  trace := []
  status := 0
  nCcalls := 0
  baseCcalls := 0

/-- The new thread is the one with the number `id`. -/
def luaB_cocreate (L : LuaState V) (id : Nat) : LuaState V × LuaState V :=
  let L := { L with toThread := env.luaC_checkGC L.toThread }
  let NL := luaE_newthread env L
  let L := L.push (env.thread id)
  -- move function from L to NL
  lua_xmove (L.push (L.stack L.base)) NL 1

end Luaxx.Coro
