import Luaxx.Core.Opcodes

/-!
# The code checker (`ldebug.c`)

`symbexec` with its two uses: with `reg = NO_REG` it is the bytecode verifier `luaG_checkcode`,
with a register it finds the instruction that last changed it. A failed `check` returns 0, which
is `none` here until `symbexec` itself.
-/

namespace Luaxx

/-- `pt->code[pc]`. -/
def Proto.codeAt (pt : Proto) (pc : Nat) : Instruction := pt.code.getD pc 0

/-- `pt->k[i]`. -/
def Proto.kAt (pt : Proto) (i : Nat) : Constant := pt.k.getD i .nil

/-- `pt->p[i]->nups`. -/
def Proto.nupsAt (pt : Proto) (i : Nat) : Nat := ((pt.p[i]?).map fun q => q.nups.toNat).getD 0

namespace Bytecode

def checkreg (pt : Proto) (reg : Int) : Bool := reg < pt.maxstacksize.toNat

def precheck (pt : Proto) : Bool :=
  pt.maxstacksize.toNat ≤ MAXSTACK &&
  pt.numparams.toNat + (pt.is_vararg &&& VARARG_HASARG).toNat ≤ pt.maxstacksize.toNat &&
  (pt.is_vararg &&& VARARG_NEEDSARG == 0 || pt.is_vararg &&& VARARG_HASARG != 0) &&
  pt.sizeupvalues ≤ pt.nups.toNat &&
  (pt.sizelineinfo == pt.sizecode || pt.sizelineinfo == 0) &&
  (pt.sizecode > 0 && hasOp (pt.codeAt (pt.sizecode.toNat - 1)) .RETURN)

/-- An open instruction is followed by one that uses `L->top`. -/
def luaG_checkopenop (i : Instruction) : Bool :=
  (hasOp i .CALL || hasOp i .TAILCALL || hasOp i .RETURN || hasOp i .SETLIST) && GETARG_B i == 0

def checkArgMode (pt : Proto) (r : Int) : OpArgMask → Bool
  | .OpArgN => r == 0
  | .OpArgU => true
  | .OpArgR => checkreg pt r
  | .OpArgK => if ISK r.toNat then INDEXK r.toNat < pt.sizek else r < pt.maxstacksize.toNat

/-- A SETLIST whose count is in the next word. -/
def isSetlist0 (d : Instruction) : Bool := hasOp d .SETLIST && GETARG_C d == 0

/-- The number of words before `dest` that look like that, back to the first that does not. -/
def setlistRun (pt : Proto) : Nat → Nat
  | 0 => 0
  | dest + 1 => if isSetlist0 (pt.codeAt dest) then setlistRun pt dest + 1 else 0

/-- The target of a jump: inside the code, and no setlist count. -/
def checkdest (pt : Proto) (dest : Int) : Bool :=
  0 ≤ dest && dest < pt.sizecode && setlistRun pt dest.toNat % 2 == 0

/-- The arguments `b` and `c` in the format of the opcode. -/
def argB (op : OpCode) (i : Instruction) : Int :=
  match getOpMode op with
  | .iABC => GETARG_B i
  | .iABx => GETARG_Bx i
  | .iAsBx => GETARG_sBx i

def argC (op : OpCode) (i : Instruction) : Int :=
  match getOpMode op with
  | .iABC => GETARG_C i
  | _ => 0

/-- The checks on the format. -/
def checkFormat (pt : Proto) (pc : Nat) (op : OpCode) (b c : Int) : Bool :=
  match getOpMode op with
  | .iABC => checkArgMode pt b (getBMode op) && checkArgMode pt c (getCMode op)
  | .iABx => getBMode op != .OpArgK || b < pt.sizek
  | .iAsBx => getBMode op != .OpArgR || checkdest pt (pc + 1 + b)

/-- The check on a test instruction. -/
def checkTest (pt : Proto) (pc : Nat) (op : OpCode) : Bool :=
  !testTMode op || (pc + 2 < pt.sizecode && hasOp (pt.codeAt (pc + 1)) .JMP)

/-- The pseudo-instructions after a CLOSURE. -/
def checkPseudo (pt : Proto) (pc nup : Nat) : Bool :=
  (List.range nup).all fun j =>
    hasOp (pt.codeAt (pc + (j + 1))) .GETUPVAL || hasOp (pt.codeAt (pc + (j + 1))) .MOVE

/-- The checks in the `switch` of `symbexec`. -/
def checkOp (pt : Proto) (pc : Nat) (op : OpCode) (a : Nat) (b c : Int) : Bool :=
  match op with
  | .LOADBOOL => c != 1 || (pc + 2 < pt.sizecode &&
      (!hasOp (pt.codeAt (pc + 1)) .SETLIST || GETARG_C (pt.codeAt (pc + 1)) != 0))
  | .GETUPVAL | .SETUPVAL => b < pt.nups.toNat
  | .GETGLOBAL | .SETGLOBAL => (pt.kAt b.toNat).ttisstring
  | .SELF => checkreg pt (a + 1)
  | .CONCAT => b < c
  | .TFORLOOP => c ≥ 1 && checkreg pt (a + 2 + c)
  | .FORLOOP | .FORPREP => checkreg pt (a + 3)
  | .CALL | .TAILCALL =>
    (b == 0 || checkreg pt (a + b - 1)) &&
    (if c - 1 = -1 then luaG_checkopenop (pt.codeAt (pc + 1))
     else c - 1 == 0 || checkreg pt (a + (c - 1) - 1))
  | .RETURN => b - 1 ≤ 0 || checkreg pt (a + (b - 1) - 1)
  | .SETLIST => (b ≤ 0 || checkreg pt (a + b)) && (c != 0 || pc + 1 < pt.sizecode - 1)
  | .CLOSURE =>
    b < pt.sizep && pc + pt.nupsAt b.toNat < pt.sizecode && checkPseudo pt pc (pt.nupsAt b.toNat)
  | .VARARG =>
    pt.is_vararg &&& VARARG_ISVARARG != 0 && pt.is_vararg &&& VARARG_NEEDSARG == 0 &&
    (b - 1 != -1 || luaG_checkopenop (pt.codeAt (pc + 1))) && checkreg pt (a + (b - 1) - 1)
  | _ => true

/-- All the checks on the instruction at `pc`. -/
def checkInstr (pt : Proto) (pc : Nat) (op : OpCode) (i : Instruction) : Bool :=
  checkreg pt (GETARG_A i) && checkFormat pt pc op (argB op i) (argC op i) && checkTest pt pc op &&
    checkOp pt pc op (GETARG_A i) (argB op i) (argC op i)

/-- `last` after the instruction at `pc`. -/
def lastAfter (op : OpCode) (pc last reg a : Nat) (b : Int) : Nat :=
  let last := if testAMode op && a == reg then pc else last
  match op with
  | .LOADNIL => if a ≤ reg && reg ≤ b then pc else last
  | .SELF => if reg == a + 1 then pc else last
  | .TFORLOOP => if reg ≥ a + 2 then pc else last
  | .CALL | .TAILCALL => if reg ≥ a then pc else last
  | _ => last

/-- How far `pc` goes beyond the next instruction. -/
def skip (pt : Proto) (lastpc reg pc : Nat) (op : OpCode) (b c : Int) : Nat :=
  match op with
  | .FORLOOP | .FORPREP | .JMP =>
    let dest := pc + 1 + b
    -- not full check and jump is forward and do not skip `lastpc'?
    if reg ≠ NO_REG ∧ pc < dest ∧ dest ≤ lastpc then b.toNat else 0
  | .SETLIST => if c = 0 then 1 else 0
  | .CLOSURE => if reg ≠ NO_REG then pt.nupsAt b.toNat else 0
  | _ => 0

/-- The loop of `symbexec`. Every iteration moves `pc`, so that `lastpc` iterations are enough. -/
def symbexecLoop (pt : Proto) (lastpc reg : Nat) : Nat → Nat → Nat → Option Nat
  | 0, _, last => some last
  | fuel + 1, pc, last =>
    if pc < lastpc then
      let i := pt.codeAt pc
      match GET_OPCODE i with
      | none => none
      | some op =>
        if checkInstr pt pc op i then
          symbexecLoop pt lastpc reg fuel
            (pc + skip pt lastpc reg pc op (argB op i) (argC op i) + 1)
            (lastAfter op pc last reg (GETARG_A i) (argB op i))
        else none
    else some last

def symbexec (pt : Proto) (lastpc reg : Nat) : Instruction :=
  if precheck pt then
    match symbexecLoop pt lastpc reg lastpc 0 (pt.sizecode.toNat - 1) with
    | some last => pt.codeAt last
    | none => 0
  else 0

def luaG_checkcode (pt : Proto) : Bool := symbexec pt pt.sizecode.toNat NO_REG != 0

end Bytecode

end Luaxx
