import Luaxx.Bytecode.Checkcode

/-!
# The main loop of the interpreter (`lvm.c`)

`luaV_execute` for one activation of a function, as far as it decides which words of code,
registers, constants, upvalues and nested functions are used. What it finds in registers, and what
metamethods and called functions do, is an `Outcome`: nothing is assumed of it. Registers are
counted from `base`, and so is `L->top`.

An instruction is a list of accesses and the next state. A function that has returned, or that a
tail call has replaced, has no next state.
-/

namespace Luaxx.Vm

open Luaxx.Bytecode

inductive Access where
  /-- The word at `pc` is read. -/
  | code (pc : Int)
  | reg (r : Int)
  /-- A register that is used because it is below `L->top`. -/
  | openReg (r : Int)
  | const (i : Nat)
  | upval (i : Nat)
  | proto (i : Nat)
  /-- A result of an open instruction, which sets `L->top` to `top`. -/
  | openResult (r top : Int)
  deriving DecidableEq, Repr

structure State where
  pc : Int
  /-- `L->top`. -/
  top : Int
  /-- `L->top` was set by the instruction before, for open results. -/
  isOpen : Bool
  deriving DecidableEq, Repr

/-- What an instruction finds. -/
structure Outcome where
  /-- The condition of the instruction holds. -/
  cond : Bool
  /-- The number of results of a call, or of extra arguments. -/
  n : Nat
  /-- The called function is a C function. -/
  isC : Bool
  deriving DecidableEq, Repr

abbrev Step : Type := List Access × Option State

/-- The registers from `lo` on, below `hi`. -/
def regs (lo hi : Int) : List Access :=
  (List.range (hi - lo).toNat).map fun (j : Nat) => .reg (lo + j)

def openResults (lo hi : Int) : List Access :=
  (List.range (hi - lo).toNat).map fun (j : Nat) => .openResult (lo + j) hi

/-- `RKB` and `RKC`. -/
def RK (x : Nat) : Access := if ISK x then .const (INDEXK x) else .reg x

section Instructions

variable (pt : Proto)

/-- `L->ci->top`. -/
def ciTop : Int := pt.maxstacksize.toNat

def entry : State := ⟨0, ciTop pt, false⟩

/-- The instruction is done, with `L->top` as it was. -/
def goto (st : State) (pc : Int) : Option State := some ⟨pc, st.top, false⟩

/-- `dojump` by the word at `pc`, if the condition holds, and `pc++`. -/
def testJump (st : State) (cond : Bool) : Step :=
  let pc := st.pc + 1
  if cond then ([.code pc], goto st (pc + GETARG_sBx (pt.codeAt pc.toNat) + 1))
  else ([], goto st (pc + 1))

/-- The operands from `lo` on: below `hi`, or up to `L->top` if `b` is 0. -/
def operands (st : State) (b : Nat) (lo hi : Int) : List Access :=
  if b ≠ 0 then regs lo hi
  else (List.range (st.top - lo).toNat).map fun (j : Nat) => .openReg (lo + j)

/-- The results of a call, with `nresults = c - 1`. -/
def callResults (st : State) (a c n : Nat) : Step :=
  if c = 0 then (openResults a (a + n), some ⟨st.pc + 1, a + n, true⟩)
  else (regs a (a + c - 1), some ⟨st.pc + 1, ciTop pt, false⟩)

/-- `OP_CLOSURE`: the pseudo-instructions. -/
def pseudoAccesses (pc : Int) (nup : Nat) : List Access :=
  (List.range nup).flatMap fun (j : Nat) =>
    let i := pt.codeAt (pc + j).toNat
    [.code (pc + j), if hasOp i .GETUPVAL then .upval (GETARG_B i) else .reg (GETARG_B i)]

/-- An instruction, after it has been fetched. -/
def execute (st : State) (o : Outcome) (i : Instruction) : Step :=
  let pc := st.pc + 1
  let a := GETARG_A i
  let b := GETARG_B i
  let c := GETARG_C i
  let bx := GETARG_Bx i
  match GET_OPCODE i with
  | none => ([], goto st pc)
  | some .MOVE => ([.reg b, .reg a], goto st pc)
  | some .LOADK => ([.const bx, .reg a], goto st pc)
  | some .LOADBOOL => ([.reg a], goto st (if c ≠ 0 then pc + 1 else pc))
  | some .LOADNIL => (.reg b :: regs a b, goto st pc)
  | some .GETUPVAL => ([.upval b, .reg a], goto st pc)
  | some .GETGLOBAL => ([.const bx, .reg a], goto st pc)
  | some .GETTABLE => ([.reg b, RK c, .reg a], goto st pc)
  | some .SETGLOBAL => ([.const bx, .reg a], goto st pc)
  | some .SETUPVAL => ([.upval b, .reg a], goto st pc)
  | some .SETTABLE => ([.reg a, RK b, RK c], goto st pc)
  | some .NEWTABLE => ([.reg a], goto st pc)
  | some .SELF => ([.reg b, .reg (a + 1), RK c, .reg a], goto st pc)
  | some .ADD | some .SUB | some .MUL | some .DIV | some .MOD | some .POW =>
    ([RK b, RK c, .reg a], goto st pc)
  | some .UNM | some .NOT | some .LEN => ([.reg b, .reg a], goto st pc)
  -- at least the last two operands are looked at
  | some .CONCAT => (.reg (c - 1) :: regs b (c + 1) ++ [.reg b, .reg a], goto st pc)
  | some .JMP => ([], goto st (pc + GETARG_sBx i))
  | some .EQ | some .LT | some .LE =>
    let (accesses, next) := testJump pt st o.cond
    (RK b :: RK c :: accesses, next)
  | some .TEST =>
    let (accesses, next) := testJump pt st o.cond
    (.reg a :: accesses, next)
  | some .TESTSET =>
    let (accesses, next) := testJump pt st o.cond
    (.reg b :: (if o.cond then [.reg a] else []) ++ accesses, next)
  | some .CALL =>
    let (accesses, next) := callResults pt st a c o.n
    (.reg a :: operands st b a (a + b) ++ accesses, next)
  | some .TAILCALL =>
    let args := .reg a :: operands st b a (a + b)
    if o.isC then (args ++ openResults a (a + o.n), some ⟨pc, a + o.n, true⟩)
    else (args, none)
  | some .RETURN => (operands st b a (a + b - 1), none)
  | some .FORLOOP =>
    if o.cond then
      ([.reg (a + 2), .reg a, .reg (a + 1), .reg (a + 3)], goto st (pc + GETARG_sBx i))
    else ([.reg (a + 2), .reg a, .reg (a + 1)], goto st pc)
  | some .FORPREP =>
    ([.reg a, .reg (a + 1), .reg (a + 2)], goto st (pc + GETARG_sBx i))
  | some .TFORLOOP =>
    let (accesses, next) := testJump pt { st with top := ciTop pt } o.cond
    (regs a (a + 6) ++ regs (a + 3) (a + 3 + c) ++ accesses, next)
  | some .SETLIST =>
    -- nothing is read if the value is no table
    (.reg a :: (if c = 0 then [.code pc] else []) ++
        (if o.cond then operands st b (a + 1) (a + b + 1) else []),
      some ⟨if c = 0 then pc + 1 else pc, if b ≠ 0 then st.top else ciTop pt, false⟩)
  | some .CLOSE => ([.reg a], goto st pc)
  | some .CLOSURE =>
    let nup := pt.nupsAt bx
    (.proto bx :: pseudoAccesses pt pc nup ++ [.reg a], goto st (pc + nup))
  | some .VARARG =>
    if b = 0 then (openResults a (a + o.n), some ⟨pc, a + o.n, true⟩)
    else (regs a (a + b - 1), goto st pc)

/-- One iteration of the main loop. -/
def step (st : State) (o : Outcome) : Step :=
  let (accesses, next) := execute pt st o (pt.codeAt st.pc.toNat)
  (.code st.pc :: accesses, next)

end Instructions

end Luaxx.Vm
