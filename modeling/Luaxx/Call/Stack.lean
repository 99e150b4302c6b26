import Luaxx.Core.Object

/-!
# The stack of a thread and the entry of a call (`ldo.c`)

A `StkId` is its index from `L->stack`, as `savestack` computes it, so moving the stack changes no
`StkId`. The slots are a total function; which of them exist is what `stacksize` says, and every
write the modelled functions make is kept in `trace` with the bound that held when it was made.
Return hooks are left out.

What `ldo.c` calls outside itself is an `Env`: the collector, the hooks, C functions, the
metamethods of a value. Its fields say what the callers here rely on.
-/

namespace Luaxx.Call

def EXTRA_STACK : Nat := 5
def LUA_MINSTACK : Nat := 20
def LUAI_MAXCALLS : Nat := 20000
def LUA_MULTRET : Int := -1

inductive Error where
  | errmem
  | errerr
  | runerror (msg : String)
  | typeerror (op : String)
  deriving DecidableEq, Repr

structure CallInfo where
  base : Nat
  func : Nat
  top : Nat
  savedpc : Nat
  nresults : Int
  tailcalls : Nat
  deriving DecidableEq, Repr

/-- What a function of `ldo.c` did to the stack. `write slot limit` is a store while
`L->stack_last + EXTRA_STACK` was `limit`; `enter` are the three values of
`lua_assert(ci->top <= L->stack_last)` with the base of the new frame. -/
inductive Event where
  | write (slot limit : Nat)
  | enter (base top stack_last : Nat)
  deriving DecidableEq, Repr

structure Thread (V : Type) where
  stack : Nat → V
  stacksize : Nat
  stack_last : Nat
  top : Nat
  base : Nat
  /-- `L->ci` and then the frames below it. -/
  ci : CallInfo
  callers : List CallInfo
  size_ci : Nat
  savedpc : Nat
  hookcall : Bool
  trace : List Event

/-- The kinds of callable value. -/
inductive Callee where
  | lua (p : Proto)
  | c

/-- What `correctstack` and the collector keep of a thread: everything but the size of the stack
and the slots from `top` on. -/
structure Keeps {V : Type} (L L' : Thread V) : Prop where
  top : L'.top = L.top
  base : L'.base = L.base
  ci : L'.ci = L.ci
  callers : L'.callers = L.callers
  savedpc : L'.savedpc = L.savedpc
  trace : L'.trace = L.trace
  slots : ∀ i < L.top, L'.stack i = L.stack i

/-- The assertion of `luaD_reallocstack`, and room for the slots in use: `EXTRA_STACK` is there
for the few values that are pushed without a check. -/
structure Thread.Ok {V : Type} (L : Thread V) : Prop where
  stack_last : L.stack_last + EXTRA_STACK + 1 = L.stacksize
  top : L.top < L.stack_last + EXTRA_STACK

structure Env (V : Type) where
  nil : V
  /-- `ttisfunction` and what is called then. -/
  callee : V → Option Callee
  /-- `luaT_gettmbyobj(L, o, TM_CALL)`. -/
  gettm : V → V
  /-- The `arg` table with these extra arguments. -/
  argTable : List V → V
  /-- Whether `realloc` to this many elements succeeds. -/
  canAlloc : Nat → Bool
  luaC_checkGC : Thread V → Thread V
  luaD_callhook : Thread V → Thread V
  /-- `(*curr_func(L)->c.f)(L)`: the number of results, or a negative number. -/
  cfunction : Thread V → Except Error (Thread V × Int)
  checkGC_keeps : ∀ L, Keeps L (luaC_checkGC L)
  checkGC_ok : ∀ L, L.Ok → (luaC_checkGC L).Ok
  callhook_keeps : ∀ L, Keeps L (luaD_callhook L)

variable {V : Type} (env : Env V)

/-! ## Stack sizes -/

def luaD_reallocstack (L : Thread V) (newsize : Nat) : Except Error (Thread V) :=
  let realsize := newsize + 1 + EXTRA_STACK
  if env.canAlloc realsize then
    .ok { L with stacksize := realsize, stack_last := newsize }
  else .error .errmem

def luaD_growstack (L : Thread V) (n : Nat) : Except Error (Thread V) :=
  if n ≤ L.stacksize then luaD_reallocstack env L (2 * L.stacksize)
  else luaD_reallocstack env L (L.stacksize + n)

/-- The macro `luaD_checkstack`; the difference of the pointers may be negative. -/
def luaD_checkstack (L : Thread V) (n : Nat) : Except Error (Thread V) :=
  if L.stack_last ≤ L.top + n then luaD_growstack env L n else .ok L

def luaD_reallocCI (L : Thread V) (newsize : Nat) : Except Error (Thread V) :=
  if env.canAlloc newsize then .ok { L with size_ci := newsize } else .error .errmem

def growCI (L : Thread V) : Except Error (Thread V) :=
  if L.size_ci > LUAI_MAXCALLS then .error .errerr
  else do
    let L ← luaD_reallocCI env L (2 * L.size_ci)
    if L.size_ci > LUAI_MAXCALLS then .error (.runerror "stack overflow") else .ok L

/-- `L->ci == L->end_ci`: the array of `CallInfo`s is used up. -/
def ensureCI (L : Thread V) : Except Error (Thread V) :=
  if L.callers.length + 1 = L.size_ci then growCI env L else .ok L

/-- `inc_ci`, with the fields of the new frame as the caller fills them in. -/
def inc_ci (L : Thread V) (ci : CallInfo) : Except Error (Thread V) := do
  let L ← ensureCI env L
  .ok { L with ci := ci, callers := L.ci :: L.callers }

/-! ## Stores -/

/-- `setobj2s` and its variants. -/
def Thread.set (L : Thread V) (i : Nat) (v : V) : Thread V :=
  { L with
    stack := fun j => if j = i then v else L.stack j
    trace := .write i (L.stack_last + EXTRA_STACK) :: L.trace }

/-- A store at `L->top++`. -/
def Thread.push (L : Thread V) (v : V) : Thread V :=
  { L.set L.top v with top := L.top + 1 }

/-- `setnilvalue(L->top++)`, `n` times. -/
def pushNils : Nat → Thread V → Thread V
  | 0, L => L
  | n + 1, L => pushNils n (L.push env.nil)

/-- `for (st = from; …; st++) setnilvalue(st)` over `n` slots. -/
def clearSlots : Nat → Nat → Thread V → Thread V
  | 0, _, L => L
  | n + 1, st, L => clearSlots n (st + 1) (L.set st env.nil)

/-- Move `n` fixed parameters from `fixed` on to the top. -/
def moveFixed : Nat → Nat → Thread V → Thread V
  | 0, _, L => L
  | n + 1, fixed, L => moveFixed n (fixed + 1) ((L.push (L.stack fixed)).set fixed env.nil)

/-- `for (p = L->top; p > func; p--) setobjs2s(L, p, p-1)` over `n` slots. -/
def shiftUp : Nat → Nat → Thread V → Thread V
  | 0, _, L => L
  | n + 1, p, L => shiftUp n (p - 1) (L.set p (L.stack (p - 1)))

/-! ## `luaD_precall` -/

/-- The `LUA_COMPAT_VARARG` block: the values of the `arg` table, when the function needs it. -/
def makeArg (L : Thread V) (p : Proto) (actual : Nat) : Except Error (Thread V × Option V) := do
  if p.is_vararg &&& VARARG_NEEDSARG ≠ 0 then
    let nvar := actual - p.numparams.toNat
    let L := env.luaC_checkGC L
    let L ← luaD_checkstack env L p.maxstacksize.toNat
    let extra := (List.range nvar).map fun i => L.stack (L.top - nvar + i)
    .ok (L, some (env.argTable extra))
  else .ok (L, none)

def adjust_varargs (L : Thread V) (p : Proto) (actual : Nat) : Except Error (Thread V × Nat) := do
  let nfixargs := p.numparams.toNat
  let L := pushNils env (nfixargs - actual) L
  let actual := max actual nfixargs
  let (L, htab) ← makeArg env L p actual
  -- move fixed parameters to final position
  let fixed := L.top - actual
  let base := L.top
  let L := moveFixed env nfixargs fixed L
  let L := match htab with
    | some h => L.push h
    | none => L
  .ok (L, base)

/-- Open a hole inside the stack at `func` for the tag method. -/
def tryfuncTM (L : Thread V) (func : Nat) : Except Error (Thread V) := do
  let tm := env.gettm (L.stack func)
  if (env.callee tm).isNone then .error (.typeerror "call")
  else
    let L := shiftUp (L.top - func) L.top L
    let L ← luaD_checkstack env L 1
    .ok ({ L with top := L.top + 1 }.set func tm)

def moveResults : Nat → Nat → Nat → Thread V → Thread V
  | 0, _, _, L => L
  | n + 1, res, first, L => moveResults n (res + 1) (first + 1) (L.set res (L.stack first))

def luaD_poscall (L : Thread V) (firstResult : Nat) : Thread V :=
  let ci := L.ci
  let caller := L.callers.headD ci
  let given := L.top - firstResult
  let moved := if ci.nresults = LUA_MULTRET then given else min ci.nresults.toNat given
  let L := moveResults moved ci.func firstResult L
  let L := clearSlots env (ci.nresults.toNat - moved) (ci.func + moved) L
  { L with
    ci := caller
    callers := L.callers.tail
    base := caller.base
    savedpc := caller.savedpc
    top := ci.func + moved + (ci.nresults.toNat - moved) }

inductive PCR where
  | PCRLUA
  | PCRC
  | PCRYIELD
  deriving DecidableEq, Repr

/-- Where the new frame of a Lua function begins, its arguments in place. -/
def luaBase (L : Thread V) (func : Nat) (p : Proto) : Except Error (Thread V × Nat) :=
  if p.is_vararg = 0 then
    let base := func + 1
    .ok (if L.top > base + p.numparams.toNat then { L with top := base + p.numparams.toNat } else L,
      base)
  else adjust_varargs env L p (L.top - func - 1)

/-- `if (L->hookmask & LUA_MASKCALL) luaD_callhook(…)`. -/
def hookCall (L : Thread V) : Thread V := if L.hookcall then env.luaD_callhook L else L

/-- The new frame after `inc_ci`: the assertion is made, and what the arguments leave of the frame
is cleared. -/
def fillFrame (L : Thread V) (base top : Nat) : Thread V :=
  let L := { L with base := base, savedpc := 0, trace := .enter base top L.stack_last :: L.trace }
  { clearSlots env (top - L.top) L.top L with top := top }

/-- The branch of `luaD_precall` for a Lua function. -/
def precallLua (L : Thread V) (func : Nat) (p : Proto) (nresults : Int) :
    Except Error (PCR × Thread V) := do
  let L ← luaD_checkstack env L p.maxstacksize.toNat
  let (L, base) ← luaBase env L func p
  let top := base + p.maxstacksize.toNat
  let L ← inc_ci env L ⟨base, func, top, 0, nresults, 0⟩
  .ok (.PCRLUA, hookCall env (fillFrame env L base top))

/-- The branch of `luaD_precall` for a C function. -/
def precallC (L : Thread V) (func : Nat) (nresults : Int) : Except Error (PCR × Thread V) := do
  let L ← luaD_checkstack env L LUA_MINSTACK
  let top := L.top + LUA_MINSTACK
  let L ← inc_ci env L ⟨func + 1, func, top, 0, nresults, 0⟩
  let L := { L with base := func + 1, trace := .enter (func + 1) top L.stack_last :: L.trace }
  let (L, n) ← env.cfunction (hookCall env L)
  if n < 0 then .ok (.PCRYIELD, L)
  else .ok (.PCRC, luaD_poscall env L (L.top - n.toNat))

/-- The value at `func` made callable: the `__call` metamethod of a value that is no function. -/
def callable (L : Thread V) (func : Nat) : Except Error (Thread V) :=
  if (env.callee (L.stack func)).isNone then tryfuncTM env L func else .ok L

def luaD_precall (L : Thread V) (func : Nat) (nresults : Int) : Except Error (PCR × Thread V) := do
  let L ← callable env L func
  let L := { L with ci := { L.ci with savedpc := L.savedpc } }
  match env.callee (L.stack func) with
  | some (.lua p) => precallLua env L func p nresults
  | some .c => precallC env L func nresults
  | none => .error (.typeerror "call")

end Luaxx.Call
