import Mathlib.Logic.Function.Basic
import Luaxx.Coro.Coroutine
import Luaxx.Control.Entry

/-!
# A thread and its C stack (`ldo.c`, `lvm.c`, `lfunc.c`)

The calls of a thread are run by functions that call each other in C: `luaV_execute` goes on with the
callee of an `OP_CALL` itself, and is entered again for every other call of a Lua function. `Ctl` is
what such a function keeps in its C frame, and `State.ctl` what the C stack of a thread holds, the
code that runs first.

What an instruction or a C function does apart from calls is left open: it stores at or above its
base. It reaches the slots below through the upvalues that are open there, or as `debug.setlocal`. The
collector is further steps of the code that has called it: it frees upvalues and calls finalizers. A
coroutine that yields goes on in the same step, with the values that it is resumed with; what other
threads do to it before comes before that step.
-/

namespace Luaxx.Control

open Luaxx.Call
open Luaxx.Coro (Host luaD_seterrorobj LUA_YIELD LUA_ERRERR LUAI_MAXCCALLS)

/-- An open upvalue: the slot that it points to. -/
structure OpenUpval where
  v : Nat
  id : Nat
  deriving DecidableEq, Repr

/-- What `luaD_pcall` keeps. -/
structure OldState where
  oldnCcalls : Nat
  old_ci : Nat
  old_allowhooks : Bool
  old_errfunc : Nat
  old_top : Nat
  deriving DecidableEq, Repr

inductive Ctl where
  | luaV_execute (nexeccalls : Nat)
  /-- `luaV_execute` waits for a C function, in `OP_CALL` or, for all results, in `OP_TAILCALL`. -/
  | op_call (nresults : Int)
  | cfunction
  | luaD_call
  | luaD_pcall (old : OldState)
  deriving DecidableEq, Repr

structure State (V : Type) extends Thread V where
  nCcalls : Nat
  baseCcalls : Nat
  allowhook : Bool
  errfunc : Nat
  openupval : List OpenUpval
  /-- The values of the closed upvalues. -/
  closed : Nat → Option V
  ctl : List Ctl

variable {V : Type} (env : Host V)

/-! ## Upvalues -/

/-- `luaF_findupval`: where the list has no upvalue for the slot, `new` is put in its place. -/
def luaF_findupval (level new : Nat) : List OpenUpval → List OpenUpval
  | [] => [⟨level, new⟩]
  | p :: rest =>
    if p.v ≥ level then
      if p.v = level then p :: rest
      else p :: luaF_findupval level new rest
    else ⟨level, new⟩ :: p :: rest

def closeLoop (isdead : Nat → Bool) (stack : Nat → V) (level : Nat) :
    List OpenUpval → (Nat → Option V) → List OpenUpval × (Nat → Option V)
  | [], closed => ([], closed)
  | uv :: rest, closed =>
    if uv.v ≥ level then
      -- a dead upvalue is freed
      let closed := if isdead uv.id then closed else Function.update closed uv.id (some (stack uv.v))
      closeLoop isdead stack level rest closed
    else (uv :: rest, closed)

/-- `luaF_close`; `isdead` are the upvalues that the collector has not reached. -/
def luaF_close (isdead : Nat → Bool) (level : Nat) (s : State V) : State V :=
  let (openupval, closed) := closeLoop isdead s.stack level s.openupval s.closed
  { s with openupval := openupval, closed := closed }

/-! ## Calls -/

/-- `if (++L->nCcalls >= LUAI_MAXCCALLS)`: the call is not refused. -/
def callsOk (nCcalls : Nat) : Bool :=
  nCcalls < LUAI_MAXCCALLS ||
    LUAI_MAXCCALLS < nCcalls && nCcalls < LUAI_MAXCCALLS + LUAI_MAXCCALLS / 8

/-- `if (b != 0) L->top = ra+b; L->savedpc = pc`. -/
def atCall (L : Thread V) (ra b pc : Nat) : Thread V :=
  { L with top := if b ≠ 0 then ra + b else L.top, savedpc := pc }

/-- What the C function goes on with that has called a function. -/
def returned (s : State V) : State V :=
  match s.ctl with
  | .op_call nresults :: rest =>
    { s with
      toThread := if nresults ≥ 0 then { s.toThread with top := s.ci.top } else s.toThread
      ctl := rest }
  | .luaD_call :: rest => { s with nCcalls := s.nCcalls - 1, ctl := rest }
  | _ => s

/-- `if (b != 0) L->top = ra+b-1`. -/
def atReturn (s : State V) (ra b : Nat) : State V :=
  { s with toThread := { s.toThread with top := if b ≠ 0 then ra + b - 1 else s.top } }

/-- `OP_RETURN`, from the closing of the upvalues on. -/
def op_return (isdead : Nat → Bool) (s : State V) (ra : Nat) : State V :=
  let s := luaF_close isdead s.base s
  let wanted := s.ci.nresults
  let L := luaD_poscall env.toEnv s.toThread ra
  match s.ctl with
  | .luaV_execute nexeccalls :: rest =>
    -- was previous function running `here'?
    if nexeccalls - 1 = 0 then returned { s with toThread := L, ctl := rest }
    else
      { s with
        toThread := if wanted ≠ LUA_MULTRET then { L with top := L.ci.top } else L
        ctl := .luaV_execute (nexeccalls - 1) :: rest }
  | _ => s

/-- `OP_TAILCALL`, from the entry of a Lua function on. -/
def op_tailcall (isdead : Nat → Bool) (s : State V) (L : Thread V) : State V :=
  let s := luaF_close isdead (L.callers.headD L.ci).base { s with toThread := L }
  { s with toThread := tailcall L }

/-! ## Errors -/

/-- Where `luaD_throw` jumps to. -/
def errorJmp : List Ctl → Option (OldState × List Ctl)
  | [] => none
  | .luaD_pcall old :: rest => some (old, rest)
  | _ :: rest => errorJmp rest

/-- `restoreci(L, n)`: the frame with the number `n` and the frames below it. -/
def restoreci (frames : List CallInfo) (n : Nat) : List CallInfo :=
  frames.drop (frames.length - (n + 1))

def restore_stack_limit (L : Thread V) : Except Error (Thread V) :=
  if L.size_ci > LUAI_MAXCALLS ∧ L.callers.length + 1 < LUAI_MAXCALLS then
    luaD_reallocCI env.toEnv L LUAI_MAXCALLS
  else .ok L

/-- `luaD_pcall`, from an error of its function on. -/
def luaD_pcall_catch (isdead : Nat → Bool) (s : State V) (status : Nat) (old : OldState)
    (ctl : List Ctl) : Except Error (State V) := do
  let s := luaF_close isdead old.old_top s
  let L := luaD_seterrorobj env s.toThread status old.old_top
  let frames := restoreci (L.ci :: L.callers) old.old_ci
  let ci := frames.headD L.ci
  let L ← restore_stack_limit env
    { L with ci := ci, callers := frames.tail, base := ci.base, savedpc := ci.savedpc }
  .ok { s with
    toThread := L
    nCcalls := old.oldnCcalls
    allowhook := old.old_allowhooks
    errfunc := old.old_errfunc
    ctl := ctl }

/-! ## Steps -/

inductive Kind where
  | op_call
  | luaD_call
  | lua_resume
  deriving DecidableEq, Repr

inductive Event (V : Type) where
  | work
  /-- An assignment to a variable of a function. -/
  | assign (slot : Nat) (v : V)
  /-- The collector frees dead upvalues. -/
  | sweep (dead : Nat → Bool)
  | call (kind : Kind) (func : Nat) (nresults : Int) (pc : Nat) (args : List V)
  | tailcall (args : List V)
  | returns (values : List V)
  | protect (old_top : Nat)
  | unprotect
  | throw (status : Nat) (isdead : Nat → Bool) (v : V)

/-- The number of the frames that the functions on the C stack run. -/
def weight : List Ctl → Nat
  | [] => 0
  | .luaV_execute nexeccalls :: rest => nexeccalls + weight rest
  | .cfunction :: rest => 1 + weight rest
  | _ :: rest => weight rest

/-- The calls that `nCcalls` counts. -/
def calls : List Ctl → Nat
  | [] => 0
  | .luaD_call :: rest => 1 + calls rest
  | _ :: rest => calls rest

/-- The code that runs stores in no slot below this one. A function that `luaD_pcall` calls runs in
the frame of its caller, and begins at the old top. -/
def State.floor (s : State V) : Nat :=
  match s.ctl with
  | .luaD_pcall old :: _ => old.old_top
  | _ => s.base

/-- The code that runs keeps its frame and what is below. The parser counts its levels as C calls as
well, and gives them back. -/
structure Works (s s' : State V) : Prop where
  base : s'.base = s.base
  func : s'.ci.func = s.ci.func
  ci_base : s'.ci.base = s.ci.base
  nresults : s'.ci.nresults = s.ci.nresults
  callers : s'.callers = s.callers
  below : ∀ j < s.floor, s'.stack j = s.stack j
  openupval : s'.openupval = s.openupval
  baseCcalls : s'.baseCcalls = s.baseCcalls
  ctl : s'.ctl = s.ctl
  nCcalls : s.baseCcalls + calls s.ctl ≤ s'.nCcalls

inductive Step : State V → Event V → State V → Prop
  | work {s s' : State V} (h : Works s s') : Step s .work s'
  | assign {s : State V} {uv : OpenUpval} {v : V} (h : uv ∈ s.openupval) :
    Step s (.assign uv.v v) { s with toThread := s.set uv.v v }
  | lua_setlocal {s : State V} {ci : CallInfo} {n : Nat} {v : V} (hci : ci ∈ s.ci :: s.callers) :
    Step s (.assign (ci.base + n) v) { s with toThread := s.set (ci.base + n) v }
  | sweep {s : State V} {dead : Nat → Bool} :
    Step s (.sweep dead) { s with openupval := s.openupval.filter fun uv => !dead uv.id }
  | findupval {s : State V} {level new : Nat} (hlevel : s.floor ≤ level)
      (hnew : ∀ uv ∈ s.openupval, uv.id ≠ new) :
    Step s .work { s with openupval := luaF_findupval level new s.openupval }
  | close {s : State V} {isdead : Nat → Bool} {level : Nat} (hlevel : s.floor ≤ level) :
    Step s .work (luaF_close isdead level s)
  | op_call {s : State V} {nexeccalls ra b c pc : Nat} {rest : List Ctl} {lua : Bool} {L : Thread V}
      (hctl : s.ctl = .luaV_execute nexeccalls :: rest) (hra : s.base ≤ ra)
      (hlt : ra < (atCall s.toThread ra b pc).top)
      (h : enter env.toEnv (atCall s.toThread ra b pc) ra ((c : Int) - 1) = .ok (lua, L)) :
    Step s (.call .op_call ra ((c : Int) - 1) pc (callArgs env.toEnv (atCall s.toThread ra b pc) ra))
      { s with
        toThread := L
        ctl := if lua then .luaV_execute (nexeccalls + 1) :: rest
          else .cfunction :: .op_call ((c : Int) - 1) :: s.ctl }
  | op_tailcall {s : State V} {nexeccalls ra b pc : Nat} {rest : List Ctl} {isdead : Nat → Bool}
      {L : Thread V} (hctl : s.ctl = .luaV_execute nexeccalls :: rest) (hra : s.base ≤ ra)
      (hlt : ra < (atCall s.toThread ra b pc).top)
      (h : enter env.toEnv (atCall s.toThread ra b pc) ra LUA_MULTRET = .ok (true, L)) :
    Step s (.tailcall (callArgs env.toEnv (atCall s.toThread ra b pc) ra)) (op_tailcall isdead s L)
  | op_return {s : State V} {nexeccalls ra b : Nat} {rest : List Ctl} {isdead : Nat → Bool}
      (hctl : s.ctl = .luaV_execute nexeccalls :: rest) (hra : s.base ≤ ra) :
    Step s (.returns ((atReturn s ra b).valuesFrom ra)) (op_return env isdead (atReturn s ra b) ra)
  | c_return {s : State V} {n : Nat} {rest : List Ctl} (hctl : s.ctl = .cfunction :: rest)
      (hn : s.base + n ≤ s.top) :
    Step s (.returns (s.valuesFrom (s.top - n))) (returned
      { s with toThread := luaD_poscall env.toEnv s.toThread (s.top - n), ctl := rest })
  | luaD_call {s : State V} {func : Nat} {nresults : Int} {lua : Bool} {L : Thread V}
      (hfunc : s.floor ≤ func) (hlt : func < s.top) (hcalls : callsOk (s.nCcalls + 1) = true)
      (h : enter env.toEnv s.toThread func nresults = .ok (lua, L)) :
    Step s (.call .luaD_call func nresults s.savedpc (callArgs env.toEnv s.toThread func))
      { s with
        toThread := L
        nCcalls := s.nCcalls + 1
        ctl := (if lua then .luaV_execute 1 else .cfunction) :: .luaD_call :: s.ctl }
  | start {s : State V} {func : Nat} {L : Thread V} (hctl : s.ctl = []) (hfunc : s.floor ≤ func)
      (hlt : func < s.top) (h : enter env.toEnv s.toThread func LUA_MULTRET = .ok (true, L)) :
    Step s (.call .lua_resume func LUA_MULTRET s.savedpc (callArgs env.toEnv s.toThread func))
      { s with toThread := L, ctl := [.luaV_execute 1] }
  | luaD_pcall {s : State V} {old_top ef : Nat} (hfloor : s.floor ≤ old_top) (htop : old_top ≤ s.top)
      (hc : ∀ nexeccalls rest, s.ctl ≠ .luaV_execute nexeccalls :: rest) :
    Step s (.protect old_top)
      { s with
        errfunc := ef
        ctl := .luaD_pcall ⟨s.nCcalls, s.callers.length, s.allowhook, s.errfunc, old_top⟩ :: s.ctl }
  | unprotect {s : State V} {old : OldState} {rest : List Ctl}
      (hctl : s.ctl = .luaD_pcall old :: rest) :
    Step s .unprotect { s with errfunc := old.old_errfunc, ctl := rest }
  | throw {s s' : State V} {status : Nat} {old : OldState} {ctl : List Ctl} {isdead : Nat → Bool}
      (hstatus : LUA_YIELD < status ∧ status ≤ LUA_ERRERR) (hjmp : errorJmp s.ctl = some (old, ctl))
      (hcatch : luaD_pcall_catch env isdead s status old ctl = .ok s') :
    Step s (.throw status isdead (s.stack (s.top - 1))) s'
  /-- A C function yields, which `lua_yield` allows across no other C call, and its coroutine is
  resumed with the values from its base on. -/
  | yield {s s' : State V} {rest : List Ctl} (hctl : s.ctl = .cfunction :: rest)
      (hcalls : ¬ s.nCcalls > s.baseCcalls) (hci : s'.ci = s.ci) (hcallers : s'.callers = s.callers)
      (hbelow : ∀ j < s.base, s'.stack j = s.stack j) (hopen : s'.openupval = s.openupval)
      (hlevel : s'.baseCcalls = s'.nCcalls) :
    Step s (.returns (s'.valuesFrom s.base))
      { s' with
        toThread :=
          let L := luaD_poscall env.toEnv s'.toThread s.base
          if s.ci.nresults = LUA_MULTRET then L else { L with top := L.ci.top }
        ctl := [.luaV_execute (luaD_poscall env.toEnv s'.toThread s.base).callers.length] }

end Luaxx.Control
