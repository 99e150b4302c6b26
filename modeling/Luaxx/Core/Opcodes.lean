import Luaxx.Core.Object

/-!
# Instructions (`lopcodes.h`, `lopcodes.c`)

A word of code and its fields. The macros that take a field out of a word are read as arithmetic
on the word's number: a shift to the right by `n` divides by `2 ^ n`, a mask of `n` bits is the
remainder modulo `2 ^ n`.
-/

namespace Luaxx

inductive OpCode where
  | MOVE | LOADK | LOADBOOL | LOADNIL | GETUPVAL
  | GETGLOBAL | GETTABLE
  | SETGLOBAL | SETUPVAL | SETTABLE
  | NEWTABLE
  | SELF
  | ADD | SUB | MUL | DIV | MOD | POW | UNM | NOT | LEN
  | CONCAT
  | JMP
  | EQ | LT | LE
  | TEST | TESTSET
  | CALL | TAILCALL | RETURN
  | FORLOOP | FORPREP
  | TFORLOOP
  | SETLIST
  | CLOSE | CLOSURE
  | VARARG
  deriving DecidableEq, Repr

namespace OpCode

/-- The opcodes in the order of the enumeration. -/
def all : List OpCode :=
  [MOVE, LOADK, LOADBOOL, LOADNIL, GETUPVAL, GETGLOBAL, GETTABLE, SETGLOBAL, SETUPVAL, SETTABLE,
   NEWTABLE, SELF, ADD, SUB, MUL, DIV, MOD, POW, UNM, NOT, LEN, CONCAT, JMP, EQ, LT, LE, TEST,
   TESTSET, CALL, TAILCALL, RETURN, FORLOOP, FORPREP, TFORLOOP, SETLIST, CLOSE, CLOSURE, VARARG]

/-- The number of an opcode, as the enumeration gives it. -/
def toNat (o : OpCode) : Nat := all.idxOf o

theorem toNat_lt (o : OpCode) : o.toNat < 38 := by cases o <;> decide

theorem getElem?_toNat (o : OpCode) : all[o.toNat]? = some o := by cases o <;> rfl

theorem all_nodup : all.Nodup := by decide

end OpCode

def NUM_OPCODES : Nat := 38

/-! ## Fields -/

def GETARG_A (i : Instruction) : Nat := i.toNat / 2 ^ 6 % 2 ^ 8
def GETARG_B (i : Instruction) : Nat := i.toNat / 2 ^ 23 % 2 ^ 9
def GETARG_C (i : Instruction) : Nat := i.toNat / 2 ^ 14 % 2 ^ 9
def GETARG_Bx (i : Instruction) : Nat := i.toNat / 2 ^ 14 % 2 ^ 18

def MAXARG_A : Nat := 2 ^ 8 - 1
def MAXARG_B : Nat := 2 ^ 9 - 1
def MAXARG_C : Nat := 2 ^ 9 - 1
def MAXARG_Bx : Nat := 2 ^ 18 - 1
def MAXARG_sBx : Nat := MAXARG_Bx / 2

def GETARG_sBx (i : Instruction) : Int := (GETARG_Bx i : Int) - MAXARG_sBx

/-- The six bits of the opcode; not every value of them is an opcode. -/
def opnum (i : Instruction) : Nat := i.toNat % 2 ^ 6

/-- `GET_OPCODE`, on the words that have one (`op < NUM_OPCODES`). -/
def GET_OPCODE (i : Instruction) : Option OpCode := OpCode.all[opnum i]?

/-- `GET_OPCODE(i) == o`. -/
def hasOp (i : Instruction) (o : OpCode) : Bool := opnum i == o.toNat

def CREATE_ABC (o : OpCode) (a b c : Nat) : Instruction :=
  UInt32.ofNat (o.toNat + a * 2 ^ 6 + c * 2 ^ 14 + b * 2 ^ 23)

def CREATE_ABx (o : OpCode) (a bc : Nat) : Instruction :=
  UInt32.ofNat (o.toNat + a * 2 ^ 6 + bc * 2 ^ 14)

/-! The macros that store a field put the low bits of the argument in its place. -/

def SETARG_A (i : Instruction) (u : Nat) : Instruction :=
  UInt32.ofNat (i.toNat - GETARG_A i * 2 ^ 6 + u % 2 ^ 8 * 2 ^ 6)

def SETARG_B (i : Instruction) (b : Nat) : Instruction :=
  UInt32.ofNat (i.toNat - GETARG_B i * 2 ^ 23 + b % 2 ^ 9 * 2 ^ 23)

def SETARG_C (i : Instruction) (b : Nat) : Instruction :=
  UInt32.ofNat (i.toNat - GETARG_C i * 2 ^ 14 + b % 2 ^ 9 * 2 ^ 14)

def SETARG_Bx (i : Instruction) (b : Nat) : Instruction :=
  UInt32.ofNat (i.toNat - GETARG_Bx i * 2 ^ 14 + b % 2 ^ 18 * 2 ^ 14)

def SETARG_sBx (i : Instruction) (b : Int) : Instruction := SETARG_Bx i (b + MAXARG_sBx).toNat

/-! ## Constants in `RK` arguments -/

def BITRK : Nat := 2 ^ 8

def ISK (x : Nat) : Bool := x / BITRK % 2 == 1

/-- `(int)(r) & ~BITRK`, for an argument of nine bits. -/
def INDEXK (r : Nat) : Nat := r % BITRK

def MAXINDEXRK : Nat := BITRK - 1

def RKASK (x : Nat) : Nat := x + BITRK

/-- `NO_REG`: invalid register that fits in 8 bits. -/
def NO_REG : Nat := MAXARG_A

/-! ## Properties of the opcodes -/

inductive OpMode where
  | iABC | iABx | iAsBx
  deriving DecidableEq, Repr

inductive OpArgMask where
  | OpArgN | OpArgU | OpArgR | OpArgK
  deriving DecidableEq, Repr

/-- A row of `luaP_opmodes`. -/
structure OpModes where
  t : Bool
  a : Bool
  b : OpArgMask
  c : OpArgMask
  mode : OpMode

open OpArgMask OpMode in
def luaP_opmodes : OpCode → OpModes
  | .MOVE => ⟨false, true, OpArgR, OpArgN, iABC⟩
  | .LOADK => ⟨false, true, OpArgK, OpArgN, iABx⟩
  | .LOADBOOL => ⟨false, true, OpArgU, OpArgU, iABC⟩
  | .LOADNIL => ⟨false, true, OpArgR, OpArgN, iABC⟩
  | .GETUPVAL => ⟨false, true, OpArgU, OpArgN, iABC⟩
  | .GETGLOBAL => ⟨false, true, OpArgK, OpArgN, iABx⟩
  | .GETTABLE => ⟨false, true, OpArgR, OpArgK, iABC⟩
  | .SETGLOBAL => ⟨false, false, OpArgK, OpArgN, iABx⟩
  | .SETUPVAL => ⟨false, false, OpArgU, OpArgN, iABC⟩
  | .SETTABLE => ⟨false, false, OpArgK, OpArgK, iABC⟩
  | .NEWTABLE => ⟨false, true, OpArgU, OpArgU, iABC⟩
  | .SELF => ⟨false, true, OpArgR, OpArgK, iABC⟩
  | .ADD => ⟨false, true, OpArgK, OpArgK, iABC⟩
  | .SUB => ⟨false, true, OpArgK, OpArgK, iABC⟩
  | .MUL => ⟨false, true, OpArgK, OpArgK, iABC⟩
  | .DIV => ⟨false, true, OpArgK, OpArgK, iABC⟩
  | .MOD => ⟨false, true, OpArgK, OpArgK, iABC⟩
  | .POW => ⟨false, true, OpArgK, OpArgK, iABC⟩
  | .UNM => ⟨false, true, OpArgR, OpArgN, iABC⟩
  | .NOT => ⟨false, true, OpArgR, OpArgN, iABC⟩
  | .LEN => ⟨false, true, OpArgR, OpArgN, iABC⟩
  | .CONCAT => ⟨false, true, OpArgR, OpArgR, iABC⟩
  | .JMP => ⟨false, false, OpArgR, OpArgN, iAsBx⟩
  | .EQ => ⟨true, false, OpArgK, OpArgK, iABC⟩
  | .LT => ⟨true, false, OpArgK, OpArgK, iABC⟩
  | .LE => ⟨true, false, OpArgK, OpArgK, iABC⟩
  | .TEST => ⟨true, true, OpArgR, OpArgU, iABC⟩
  | .TESTSET => ⟨true, true, OpArgR, OpArgU, iABC⟩
  | .CALL => ⟨false, true, OpArgU, OpArgU, iABC⟩
  | .TAILCALL => ⟨false, true, OpArgU, OpArgU, iABC⟩
  | .RETURN => ⟨false, false, OpArgU, OpArgN, iABC⟩
  | .FORLOOP => ⟨false, true, OpArgR, OpArgN, iAsBx⟩
  | .FORPREP => ⟨false, true, OpArgR, OpArgN, iAsBx⟩
  | .TFORLOOP => ⟨true, false, OpArgN, OpArgU, iABC⟩
  | .SETLIST => ⟨false, false, OpArgU, OpArgU, iABC⟩
  | .CLOSE => ⟨false, false, OpArgN, OpArgN, iABC⟩
  | .CLOSURE => ⟨false, true, OpArgU, OpArgN, iABx⟩
  | .VARARG => ⟨false, true, OpArgU, OpArgN, iABC⟩

def getOpMode (o : OpCode) : OpMode := (luaP_opmodes o).mode
def getBMode (o : OpCode) : OpArgMask := (luaP_opmodes o).b
def getCMode (o : OpCode) : OpArgMask := (luaP_opmodes o).c
def testAMode (o : OpCode) : Bool := (luaP_opmodes o).a
def testTMode (o : OpCode) : Bool := (luaP_opmodes o).t

/-- `LFIELDS_PER_FLUSH`: number of list items to accumulate before a SETLIST instruction. -/
def LFIELDS_PER_FLUSH : Nat := 50

/-! ## Lemmas -/

theorem GET_OPCODE_eq_some {i : Instruction} {o : OpCode} :
    GET_OPCODE i = some o ↔ hasOp i o = true := by
  unfold GET_OPCODE hasOp
  rw [beq_iff_eq]
  constructor
  · intro h
    have hlt : opnum i < OpCode.all.length := (List.getElem?_eq_some_iff.mp h).1
    exact (List.getElem?_inj hlt OpCode.all_nodup).mp (h.trans (OpCode.getElem?_toNat o).symm)
  · intro h
    rw [h, OpCode.getElem?_toNat]

section Create

variable {o : OpCode} {a b c bc : Nat}

theorem toNat_CREATE_ABC (ha : a < 256) (hb : b < 512) (hc : c < 512) :
    (CREATE_ABC o a b c).toNat = o.toNat + a * 2 ^ 6 + c * 2 ^ 14 + b * 2 ^ 23 := by
  have := o.toNat_lt
  rw [CREATE_ABC, UInt32.toNat_ofNat']
  omega

theorem toNat_CREATE_ABx (ha : a < 256) (hbc : bc < 2 ^ 18) :
    (CREATE_ABx o a bc).toNat = o.toNat + a * 2 ^ 6 + bc * 2 ^ 14 := by
  have := o.toNat_lt
  rw [CREATE_ABx, UInt32.toNat_ofNat']
  omega

theorem opnum_CREATE_ABC (ha : a < 256) (hb : b < 512) (hc : c < 512) :
    opnum (CREATE_ABC o a b c) = o.toNat := by
  have := o.toNat_lt
  rw [opnum, toNat_CREATE_ABC ha hb hc]
  omega

theorem GET_OPCODE_CREATE_ABC (ha : a < 256) (hb : b < 512) (hc : c < 512) :
    GET_OPCODE (CREATE_ABC o a b c) = some o := by
  rw [GET_OPCODE, opnum_CREATE_ABC ha hb hc, OpCode.getElem?_toNat]

theorem GETARG_A_CREATE_ABC (ha : a < 256) (hb : b < 512) (hc : c < 512) :
    GETARG_A (CREATE_ABC o a b c) = a := by
  have := o.toNat_lt
  rw [GETARG_A, toNat_CREATE_ABC ha hb hc]
  omega

theorem GETARG_B_CREATE_ABC (ha : a < 256) (hb : b < 512) (hc : c < 512) :
    GETARG_B (CREATE_ABC o a b c) = b := by
  have := o.toNat_lt
  rw [GETARG_B, toNat_CREATE_ABC ha hb hc]
  omega

theorem GETARG_C_CREATE_ABC (ha : a < 256) (hb : b < 512) (hc : c < 512) :
    GETARG_C (CREATE_ABC o a b c) = c := by
  have := o.toNat_lt
  rw [GETARG_C, toNat_CREATE_ABC ha hb hc]
  omega

theorem opnum_CREATE_ABx (ha : a < 256) (hbc : bc < 2 ^ 18) :
    opnum (CREATE_ABx o a bc) = o.toNat := by
  have := o.toNat_lt
  rw [opnum, toNat_CREATE_ABx ha hbc]
  omega

theorem GET_OPCODE_CREATE_ABx (ha : a < 256) (hbc : bc < 2 ^ 18) :
    GET_OPCODE (CREATE_ABx o a bc) = some o := by
  rw [GET_OPCODE, opnum_CREATE_ABx ha hbc, OpCode.getElem?_toNat]

theorem GETARG_A_CREATE_ABx (ha : a < 256) (hbc : bc < 2 ^ 18) :
    GETARG_A (CREATE_ABx o a bc) = a := by
  have := o.toNat_lt
  rw [GETARG_A, toNat_CREATE_ABx ha hbc]
  omega

theorem GETARG_Bx_CREATE_ABx (ha : a < 256) (hbc : bc < 2 ^ 18) :
    GETARG_Bx (CREATE_ABx o a bc) = bc := by
  have := o.toNat_lt
  rw [GETARG_Bx, toNat_CREATE_ABx ha hbc]
  omega

end Create

section Set

variable {i : Instruction} {u b : Nat}

theorem toNat_SETARG_A (i : Instruction) (u : Nat) :
    (SETARG_A i u).toNat = i.toNat - GETARG_A i * 2 ^ 6 + u % 2 ^ 8 * 2 ^ 6 := by
  have hi : i.toNat < 2 ^ 32 := i.toNat_lt
  rw [SETARG_A, UInt32.toNat_ofNat', GETARG_A]
  omega

theorem opnum_SETARG_A (i : Instruction) (u : Nat) : opnum (SETARG_A i u) = opnum i := by
  rw [opnum, opnum, toNat_SETARG_A, GETARG_A]
  omega

theorem GET_OPCODE_SETARG_A (i : Instruction) (u : Nat) :
    GET_OPCODE (SETARG_A i u) = GET_OPCODE i := by
  rw [GET_OPCODE, opnum_SETARG_A, GET_OPCODE]

theorem GETARG_A_SETARG_A (hu : u < 256) : GETARG_A (SETARG_A i u) = u := by
  rw [GETARG_A, toNat_SETARG_A, GETARG_A]
  omega

theorem GETARG_B_SETARG_A (i : Instruction) (u : Nat) :
    GETARG_B (SETARG_A i u) = GETARG_B i := by
  rw [GETARG_B, GETARG_B, toNat_SETARG_A, GETARG_A]
  omega

theorem GETARG_C_SETARG_A (i : Instruction) (u : Nat) :
    GETARG_C (SETARG_A i u) = GETARG_C i := by
  rw [GETARG_C, GETARG_C, toNat_SETARG_A, GETARG_A]
  omega

theorem GETARG_Bx_SETARG_A (i : Instruction) (u : Nat) :
    GETARG_Bx (SETARG_A i u) = GETARG_Bx i := by
  rw [GETARG_Bx, GETARG_Bx, toNat_SETARG_A, GETARG_A]
  omega

theorem toNat_SETARG_B (i : Instruction) (b : Nat) :
    (SETARG_B i b).toNat = i.toNat - GETARG_B i * 2 ^ 23 + b % 2 ^ 9 * 2 ^ 23 := by
  have hi : i.toNat < 2 ^ 32 := i.toNat_lt
  rw [SETARG_B, UInt32.toNat_ofNat', GETARG_B]
  omega

theorem opnum_SETARG_B (i : Instruction) (b : Nat) : opnum (SETARG_B i b) = opnum i := by
  rw [opnum, opnum, toNat_SETARG_B, GETARG_B]
  omega

theorem GET_OPCODE_SETARG_B (i : Instruction) (b : Nat) :
    GET_OPCODE (SETARG_B i b) = GET_OPCODE i := by
  rw [GET_OPCODE, opnum_SETARG_B, GET_OPCODE]

theorem GETARG_A_SETARG_B (i : Instruction) (b : Nat) :
    GETARG_A (SETARG_B i b) = GETARG_A i := by
  rw [GETARG_A, GETARG_A, toNat_SETARG_B, GETARG_B]
  omega

theorem GETARG_B_SETARG_B (hb : b < 512) : GETARG_B (SETARG_B i b) = b := by
  rw [GETARG_B, toNat_SETARG_B, GETARG_B]
  omega

theorem toNat_SETARG_C (i : Instruction) (b : Nat) :
    (SETARG_C i b).toNat = i.toNat - GETARG_C i * 2 ^ 14 + b % 2 ^ 9 * 2 ^ 14 := by
  have hi : i.toNat < 2 ^ 32 := i.toNat_lt
  rw [SETARG_C, UInt32.toNat_ofNat', GETARG_C]
  omega

theorem GETARG_B_SETARG_C (i : Instruction) (b : Nat) :
    GETARG_B (SETARG_C i b) = GETARG_B i := by
  rw [GETARG_B, GETARG_B, toNat_SETARG_C, GETARG_C]
  omega

theorem GETARG_C_SETARG_C (hb : b < 512) : GETARG_C (SETARG_C i b) = b := by
  rw [GETARG_C, toNat_SETARG_C, GETARG_C]
  omega

end Set

end Luaxx
