import Luaxx.Lib.Result

/-!
# Local variables in the parser (`lparser.c`, `lfunc.c`)

How the statements of one function register, activate and close its local variables. A statement
is given by the locals that it declares, the blocks inside it, and the number of instructions that
its expressions add to the code: a function in an expression has a state of its own. `LocVar`s that
are not registered yet have any contents. The levels of syntax and the registers are left out.
-/

namespace Luaxx.Parser.Locals

/-- `LUAI_MAXVARS`. -/
def LUAI_MAXVARS : Nat := 200

def SHRT_MAX : Nat := 32767

def MAX_INT : Nat := 2 ^ 31 - 3

structure LocVar where
  varname : String
  startpc : Nat
  endpc : Nat
  deriving DecidableEq, Repr

structure FuncState where
  linedefined : Nat
  pc : Nat
  nlocvars : Nat
  locvars : Nat → LocVar
  nactvar : Nat
  actvar : Nat → Nat
  /-- For each registered variable its register: where in `actvar` it went. The source has no such
  field. -/
  registers : List Nat

def open_func (linedefined : Nat) (locvars : Nat → LocVar) (actvar : Nat → Nat) : FuncState where
  linedefined := linedefined
  pc := 0
  nlocvars := 0
  locvars := locvars
  nactvar := 0
  actvar := actvar
  registers := []

def errorlimit (fs : FuncState) (limit : Nat) (what : String) : String :=
  if fs.linedefined = 0 then s!"main function has more than {limit} {what}"
  else s!"function at line {fs.linedefined} has more than {limit} {what}"

/-- `luaK_code`, `n` times. -/
def luaK_code (n : Nat) (fs : FuncState) : Except String FuncState :=
  if fs.pc + n ≤ MAX_INT then .ok { fs with pc := fs.pc + n } else .error "code size overflow"

def registerlocalvar (varname : String) (fs : FuncState) : Except String (Nat × FuncState) :=
  if fs.nlocvars < SHRT_MAX then
    .ok (fs.nlocvars, { fs with
      nlocvars := fs.nlocvars + 1
      locvars := Function.update fs.locvars fs.nlocvars
        { fs.locvars fs.nlocvars with varname := varname } })
  else .error "too many local variables"

def new_localvar (name : String) (n : Nat) (fs : FuncState) : Except String FuncState :=
  if fs.nactvar + n + 1 ≤ LUAI_MAXVARS then do
    let (v, fs) ← registerlocalvar name fs
    .ok { fs with
      actvar := Function.update fs.actvar (fs.nactvar + n) (v % 2 ^ 16)
      registers := fs.registers ++ [fs.nactvar + n] }
  else .error (errorlimit fs LUAI_MAXVARS "local variables")

/-- `new_localvar` for each of the names, from `n` on. -/
def new_localvars : List String → Nat → FuncState → Except String FuncState
  | [], _, fs => .ok fs
  | name :: names, n, fs => do
    let fs ← new_localvar name n fs
    new_localvars names (n + 1) fs

def getlocvar (fs : FuncState) (i : Nat) : LocVar := fs.locvars (fs.actvar i)

def setlocvar (fs : FuncState) (i : Nat) (v : LocVar) : FuncState :=
  { fs with locvars := Function.update fs.locvars (fs.actvar i) v }

def setstartpc (fs : FuncState) (i : Nat) : FuncState :=
  setlocvar fs i { getlocvar fs i with startpc := fs.pc }

def setendpc (fs : FuncState) (i : Nat) : FuncState :=
  setlocvar fs i { getlocvar fs i with endpc := fs.pc }

/-- The loop of `adjustlocalvars`. -/
def adjustLoop : Nat → FuncState → FuncState
  | 0, fs => fs
  | nvars + 1, fs => adjustLoop nvars (setstartpc fs (fs.nactvar - (nvars + 1)))

def adjustlocalvars (nvars : Nat) (fs : FuncState) : FuncState :=
  adjustLoop nvars { fs with nactvar := (fs.nactvar + nvars) % 2 ^ 8 }

/-- The loop of `removevars`, for so many variables. -/
def removeLoop : Nat → FuncState → FuncState
  | 0, fs => fs
  | n + 1, fs => removeLoop n (setendpc { fs with nactvar := fs.nactvar - 1 } (fs.nactvar - 1))

def removevars (tolevel : Nat) (fs : FuncState) : FuncState :=
  removeLoop (fs.nactvar - tolevel) fs

/-- `leaveblock` for a block that was entered at level `nactvar`. -/
def leaveblock (nactvar : Nat) (upval : Bool) (fs : FuncState) : Except String FuncState :=
  luaK_code upval.toNat (removevars nactvar fs)

section

-- the statements of the block
variable (upval : Bool) (chunk : FuncState → Except String FuncState)

def block (fs : FuncState) : Except String FuncState := do
  let level := fs.nactvar
  let fs ← chunk fs
  leaveblock level upval fs

/-- The end of `forbody`: `OP_FORLOOP`, or `OP_TFORLOOP` and a jump. -/
def forloop (isnum : Bool) : Nat := if isnum then 1 else 2

/-- `scope` is `upval` of the block for the declared variables. -/
def forbody (nvars : Nat) (isnum scope : Bool) (fs : FuncState) : Except String FuncState := do
  let fs := adjustlocalvars 3 fs
  let fs ← luaK_code 1 fs
  let level := fs.nactvar
  let fs := adjustlocalvars nvars fs
  let fs ← block upval chunk fs
  let fs ← leaveblock level scope fs
  luaK_code (forloop isnum) fs

end

/-! ## Statements -/

mutual

/-- The statements, with the number of instructions of their expressions. A block has its `upval`
next to it: whether a function inside uses one of its locals. -/
inductive Statement where
  /-- An assignment, a call, `function`, `return` or `break`. -/
  | exprstat (code : Nat)
  | dostat (body : Chunk) (upval : Bool)
  | ifstat (cond : Nat) (body : Chunk) (upval : Bool) (more : Clauses)
  | whilestat (cond : Nat) (body : Chunk) (upval : Bool)
  /-- `scope` is `upval` of the block for the declared variable. -/
  | fornum (varname : String) (exps : Nat) (body : Chunk) (upval scope : Bool)
  | forlist (indexname : String) (names : List String) (exps : Nat) (body : Chunk)
    (upval scope : Bool)
  | repeatstat (body : Chunk) (cond : Nat) (upval : Bool)
  | localstat (name : String) (names : List String) (exps : Nat)
  /-- With the instructions that make the function and store it. -/
  | localfunc (name : String) (body : Nat)

inductive Chunk where
  | done
  | next (stat : Statement) (chunk : Chunk)

/-- What follows the first `then` block. -/
inductive Clauses where
  | done
  | elseblock (body : Chunk) (upval : Bool)
  | elseif (cond : Nat) (body : Chunk) (upval : Bool) (more : Clauses)

end

mutual

def statement : Statement → FuncState → Except String FuncState
  | .exprstat code, fs => luaK_code code fs
  | .dostat body upval, fs => block upval (chunk body) fs
  | .ifstat cond body upval more, fs => do
    let fs ← luaK_code cond fs
    let fs ← block upval (chunk body) fs
    clauses more fs
  | .whilestat cond body upval, fs => do
    let fs ← luaK_code cond fs
    let level := fs.nactvar
    let fs ← block upval (chunk body) fs
    let fs ← luaK_code 1 fs
    leaveblock level false fs
  | .fornum varname exps body upval scope, fs => do
    let level := fs.nactvar
    let fs ← new_localvar "(for index)" 0 fs
    let fs ← new_localvar "(for limit)" 1 fs
    let fs ← new_localvar "(for step)" 2 fs
    let fs ← new_localvar varname 3 fs
    let fs ← luaK_code exps fs
    let fs ← forbody upval (chunk body) 1 true scope fs
    leaveblock level false fs
  | .forlist indexname names exps body upval scope, fs => do
    let level := fs.nactvar
    let fs ← new_localvar "(for generator)" 0 fs
    let fs ← new_localvar "(for state)" 1 fs
    let fs ← new_localvar "(for control)" 2 fs
    let fs ← new_localvar indexname 3 fs
    let fs ← new_localvars names 4 fs
    let fs ← luaK_code exps fs
    let fs ← forbody upval (chunk body) (names.length + 1) false scope fs
    leaveblock level false fs
  | .repeatstat body cond upval, fs => do
    let loop := fs.nactvar
    let level := fs.nactvar
    let fs ← chunk body fs
    let fs ← luaK_code cond fs
    -- with upvalues the condition is followed by a `break`, which closes them
    let fs ← luaK_code (if upval then 2 else 0) fs
    let fs ← leaveblock level upval fs
    let fs ← luaK_code upval.toNat fs
    leaveblock loop false fs
  | .localstat name names exps, fs => do
    let fs ← new_localvar name 0 fs
    let fs ← new_localvars names 1 fs
    let fs ← luaK_code exps fs
    .ok (adjustlocalvars (names.length + 1) fs)
  | .localfunc name body, fs => do
    let fs ← new_localvar name 0 fs
    let fs := adjustlocalvars 1 fs
    let fs ← luaK_code body fs
    -- debug information will only see the variable after this point
    .ok (setstartpc fs (fs.nactvar - 1))

def chunk : Chunk → FuncState → Except String FuncState
  | .done, fs => .ok fs
  | .next stat rest, fs => do
    let fs ← statement stat fs
    chunk rest fs

/-- The rest of `ifstat`. Each part follows a jump over it. -/
def clauses : Clauses → FuncState → Except String FuncState
  | .done, fs => .ok fs
  | .elseblock body upval, fs => do
    let fs ← luaK_code 1 fs
    block upval (chunk body) fs
  | .elseif cond body upval more, fs => do
    let fs ← luaK_code 1 fs
    let fs ← luaK_code cond fs
    let fs ← block upval (chunk body) fs
    clauses more fs

end

/-! ## Functions -/

/-- A function with its parameters: `hasarg` is for `...`, which declares `arg` too. The main
function has no parameters. -/
structure Function where
  linedefined : Nat
  needself : Bool
  params : List String
  hasarg : Bool
  chunk : Chunk

namespace Function

variable (f : Function)

/-- The names that `parlist` declares. -/
def parlist : List String := f.params ++ if f.hasarg then ["arg"] else []

def self : List String := if f.needself then ["self"] else []

/-- What `body` does between `open_func` and `pushclosure`: at the end stands `close_func`. -/
def body (locvars : Nat → LocVar) (actvar : Nat → Nat) : Except String FuncState := do
  let fs := open_func f.linedefined locvars actvar
  let fs ← new_localvars f.self 0 fs
  let fs := adjustlocalvars f.self.length fs
  let fs ← new_localvars f.parlist 0 fs
  let fs := adjustlocalvars f.parlist.length fs
  let fs ← Locals.chunk f.chunk fs
  luaK_code 1 (removevars 0 fs)

end Function

/-- The vector `locvars` of the finished function, which has no room to spare. -/
def FuncState.vector (fs : FuncState) : List LocVar := (List.range fs.nlocvars).map fs.locvars

/-- `luaF_getlocalname`, from an index on. -/
def luaF_getlocalname : List LocVar → (local_number pc : Int) → Option String
  | [], _, _ => none
  | v :: locvars, local_number, pc =>
    if v.startpc ≤ pc then
      if pc < v.endpc then
        if local_number - 1 = 0 then some v.varname
        else luaF_getlocalname locvars (local_number - 1) pc
      else luaF_getlocalname locvars local_number pc
    else none

end Luaxx.Parser.Locals
