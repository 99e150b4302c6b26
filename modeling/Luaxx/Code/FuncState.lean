import Luaxx.Code.Values
import Luaxx.Lib.Result

/-!
# The code generator (`lcode.c`): instructions, jumps and constants

The state of a function that is being compiled, and what puts words into its code, threads lists
of jumps through them and enters constants. Line numbers and the messages' positions are left out.

`pc` is the length of `code`, `nk` that of `k`. A function of the source that changes the state
returns the changed one.
-/

namespace Luaxx.Code

/-- Why there is no result. -/
inductive Failure where
  /-- An error is raised. -/
  | error (msg : String)
  /-- A list of jumps has no end. -/
  | loop
  deriving DecidableEq, Repr

abbrev Gen (α : Type) : Type := Except Failure α

structure FuncState (ν : Type) where
  code : List Instruction
  k : List (TValue ν)
  /-- What `h` maps to a number. -/
  h : List (TValue ν × Nat)
  /-- The address of `h`. -/
  hp : Nat
  maxstacksize : Nat
  lasttarget : Int
  jpc : Int
  freereg : Nat
  nactvar : Nat
  deriving DecidableEq, Repr

def NO_JUMP : Int := -1

def MAX_INT : Nat := 2147483645

namespace FuncState

variable {ν : Type}

/-- `open_func`. -/
def open_func (hp : Nat) : FuncState ν where
  code := []
  k := []
  h := []
  hp := hp
  maxstacksize := 2
  lasttarget := -1
  jpc := NO_JUMP
  freereg := 0
  nactvar := 0

def pc (fs : FuncState ν) : Int := fs.code.length

def codeAt (fs : FuncState ν) (pc : Int) : Instruction := fs.code.getD pc.toNat 0

def setCode (fs : FuncState ν) (pc : Int) (i : Instruction) : FuncState ν :=
  { fs with code := fs.code.set pc.toNat i }

end FuncState

section Jumps

variable {ν : Type} (fs : FuncState ν)

/-- `testTMode(GET_OPCODE(i))`. -/
def isTest (i : Instruction) : Bool := (GET_OPCODE i).any testTMode

def fixjump (pc dest : Int) : Gen (FuncState ν) :=
  let offset := dest - (pc + 1)
  if offset.natAbs > MAXARG_sBx then .error (.error "control structure too long")
  else .ok (fs.setCode pc (SETARG_sBx (fs.codeAt pc) offset))

def luaK_getlabel : Int × FuncState ν := (fs.pc, { fs with lasttarget := fs.pc })

def getjump (pc : Int) : Int :=
  let offset := GETARG_sBx (fs.codeAt pc)
  if offset = NO_JUMP then NO_JUMP else pc + 1 + offset

/-- The position of the instruction that controls the jump at `pc`. -/
def getjumpcontrol (pc : Int) : Int :=
  if 1 ≤ pc ∧ isTest (fs.codeAt (pc - 1)) then pc - 1 else pc

/-- A traversal that visits more words than there are does not end. -/
def fuel : Nat := fs.code.length + 1

def need_value : Nat → Int → Gen Bool
  | 0, _ => .error .loop
  | fuel + 1, list =>
    if list = NO_JUMP then .ok false
    else if hasOp (fs.codeAt (getjumpcontrol fs list)) .TESTSET then
      need_value fuel (getjump fs list)
    else .ok true

def patchtestreg (node : Int) (reg : Nat) : Bool × FuncState ν :=
  let p := getjumpcontrol fs node
  let i := fs.codeAt p
  if hasOp i .TESTSET then
    if reg ≠ NO_REG ∧ reg ≠ GETARG_B i then (true, fs.setCode p (SETARG_A i reg))
    else (true, fs.setCode p (CREATE_ABC .TEST (GETARG_B i) 0 (GETARG_C i)))
  else (false, fs)

def removevalues : Nat → FuncState ν → Int → Gen (FuncState ν)
  | 0, _, _ => .error .loop
  | fuel + 1, fs, list =>
    if list = NO_JUMP then .ok fs
    else
      let fs := (patchtestreg fs list NO_REG).2
      removevalues fuel fs (getjump fs list)

def patchlistaux (vtarget : Int) (reg : Nat) (dtarget : Int) :
    Nat → FuncState ν → Int → Gen (FuncState ν)
  | 0, _, _ => .error .loop
  | fuel + 1, fs, list =>
    if list = NO_JUMP then .ok fs
    else do
      let next := getjump fs list
      let (patched, fs) := patchtestreg fs list reg
      let fs ← fixjump fs list (if patched then vtarget else dtarget)
      patchlistaux vtarget reg dtarget fuel fs next

def dischargejpc : Gen (FuncState ν) := do
  let fs ← patchlistaux fs.pc NO_REG fs.pc (fuel fs) fs fs.jpc
  .ok { fs with jpc := NO_JUMP }

/-- The last element of a list of jumps. -/
def lastjump : Nat → Int → Gen Int
  | 0, _ => .error .loop
  | fuel + 1, list =>
    if getjump fs list = NO_JUMP then .ok list else lastjump fuel (getjump fs list)

def luaK_concat (l1 l2 : Int) : Gen (Int × FuncState ν) :=
  if l2 = NO_JUMP then .ok (l1, fs)
  else if l1 = NO_JUMP then .ok (l2, fs)
  else do
    let list ← lastjump fs (fuel fs) l1
    let fs ← fixjump fs list l2
    .ok (l1, fs)

def luaK_patchtohere (list : Int) : Gen (FuncState ν) := do
  let fs := (luaK_getlabel fs).2
  let (jpc, fs) ← luaK_concat fs fs.jpc list
  .ok { fs with jpc := jpc }

def luaK_patchlist (list target : Int) : Gen (FuncState ν) :=
  if target = fs.pc then luaK_patchtohere fs list
  else patchlistaux target NO_REG target (fuel fs) fs list

end Jumps

section Words

variable {ν : Type} (fs : FuncState ν)

def luaK_code (i : Instruction) : Gen (Nat × FuncState ν) := do
  let fs ← dischargejpc fs
  if fs.code.length ≥ MAX_INT then .error (.error "code size overflow")
  else .ok (fs.code.length, { fs with code := fs.code ++ [i] })

def luaK_codeABC (o : OpCode) (a b c : Nat) : Gen (Nat × FuncState ν) :=
  luaK_code fs (CREATE_ABC o a b c)

def luaK_codeABx (o : OpCode) (a bc : Nat) : Gen (Nat × FuncState ν) :=
  luaK_code fs (CREATE_ABx o a bc)

def luaK_codeAsBx (o : OpCode) (a : Nat) (sBx : Int) : Gen (Nat × FuncState ν) :=
  luaK_codeABx fs o a (sBx + MAXARG_sBx).toNat

def luaK_nil (src n : Nat) : Gen (FuncState ν) :=
  let separate := do
    let (_, fs) ← luaK_codeABC fs .LOADNIL src (src + n - 1) 0
    .ok fs
  if fs.pc > fs.lasttarget then
    if fs.pc = 0 then
      if src ≥ fs.nactvar then .ok fs else separate
    else
      let previous := fs.codeAt (fs.pc - 1)
      if hasOp previous .LOADNIL then
        let pfrom := GETARG_A previous
        let pto := GETARG_B previous
        if pfrom ≤ src ∧ src ≤ pto + 1 then
          if src + n - 1 > pto then .ok (fs.setCode (fs.pc - 1) (SETARG_B previous (src + n - 1)))
          else .ok fs
        else separate
      else separate
  else separate

def luaK_jump : Gen (Int × FuncState ν) := do
  let jpc := fs.jpc
  let (j, fs) ← luaK_codeAsBx { fs with jpc := NO_JUMP } .JMP 0 NO_JUMP
  luaK_concat fs j jpc

def condjump (op : OpCode) (a b c : Nat) : Gen (Int × FuncState ν) := do
  let (_, fs) ← luaK_codeABC fs op a b c
  luaK_jump fs

def luaK_ret (first nret : Nat) : Gen (FuncState ν) := do
  let (_, fs) ← luaK_codeABC fs .RETURN first (nret + 1) 0
  .ok fs

/-- `tostore` is `none` for `LUA_MULTRET`. -/
def luaK_setlist (base nelems : Nat) (tostore : Option Nat) : Gen (FuncState ν) := do
  let c := (nelems - 1) / LFIELDS_PER_FLUSH + 1
  let b := tostore.getD 0
  let fs ←
    if c ≤ MAXARG_C then do
      let (_, fs) ← luaK_codeABC fs .SETLIST base b c
      .ok fs
    else do
      let (_, fs) ← luaK_codeABC fs .SETLIST base b 0
      let (_, fs) ← luaK_code fs (UInt32.ofNat c)
      .ok fs
  .ok { fs with freereg := base + 1 }

end Words

section Registers

variable {ν : Type} (fs : FuncState ν)

def luaK_checkstack (n : Nat) : Gen (FuncState ν) :=
  let newstack := fs.freereg + n
  if newstack > fs.maxstacksize then
    if newstack ≥ MAXSTACK then .error (.error "function or expression too complex")
    else .ok { fs with maxstacksize := newstack }
  else .ok fs

def luaK_reserveregs (n : Nat) : Gen (FuncState ν) := do
  let fs ← luaK_checkstack fs n
  .ok { fs with freereg := fs.freereg + n }

def freereg (reg : Nat) : FuncState ν :=
  if !ISK reg && fs.nactvar ≤ reg then { fs with freereg := fs.freereg - 1 } else fs

end Registers

/-! ## Constants -/

section Constants

variable {ν : Type} [LuaNumber ν] (fs : FuncState ν)

/-- The value of a key in `h`, if it has one. -/
def luaH_get (h : List (TValue ν × Nat)) (key : TValue ν) : Option Nat :=
  (h.find? fun entry => entry.1.rawequal key).map (·.2)

/-- The errors of `luaH_set` for a new key. -/
def luaH_newkey (h : List (TValue ν × Nat)) (key : TValue ν) (idx : Nat) :
    Gen (List (TValue ν × Nat)) :=
  match key with
  | .nil => .error (.error "table index is nil")
  | .number n =>
    if luai_numisnan n then .error (.error "table index is NaN") else .ok ((key, idx) :: h)
  | _ => .ok ((key, idx) :: h)

def addk (k v : TValue ν) : Gen (Nat × FuncState ν) :=
  match luaH_get fs.h k with
  | some idx => .ok (idx, fs)
  | none => do
    let h ← luaH_newkey fs.h k fs.k.length
    if fs.k.length ≥ MAXARG_Bx then .error (.error "constant table overflow")
    else .ok (fs.k.length, { fs with h := h, k := fs.k ++ [v] })

def luaK_stringK (s : Nat) : Gen (Nat × FuncState ν) := addk fs (.string s) (.string s)

def luaK_numberK (r : ν) : Gen (Nat × FuncState ν) := addk fs (.number r) (.number r)

def boolK (b : Bool) : Gen (Nat × FuncState ν) := addk fs (.boolean b) (.boolean b)

/-- The table itself stands for nil, which cannot be a key. -/
def nilK : Gen (Nat × FuncState ν) := addk fs (.object fs.hp) .nil

end Constants

end Luaxx.Code
