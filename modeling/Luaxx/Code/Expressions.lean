import Luaxx.Code.FuncState

/-!
# The code generator (`lcode.c`): expressions

What is known of an expression while its code is not complete, and the functions that complete
it. The functions of the source change an `expdesc` in place; here they return it.
-/

namespace Luaxx.Code

/-- `expkind`, with what is in the union for it. -/
inductive ExpKind (ν : Type) where
  | VVOID
  | VNIL
  | VTRUE
  | VFALSE
  | VK (info : Nat)
  | VKNUM (nval : ν)
  | VLOCAL (info : Nat)
  | VUPVAL (info : Nat)
  | VGLOBAL (info : Nat)
  | VINDEXED (info aux : Nat)
  | VJMP (info : Int)
  | VRELOCABLE (info : Nat)
  | VNONRELOC (info : Nat)
  | VCALL (info : Nat)
  | VVARARG (info : Nat)
  deriving DecidableEq, Repr

structure Expdesc (ν : Type) where
  k : ExpKind ν
  /-- Patch list of "exit when true". -/
  t : Int
  /-- Patch list of "exit when false". -/
  f : Int
  deriving DecidableEq, Repr

inductive BinOpr where
  | ADD | SUB | MUL | DIV | MOD | POW
  | CONCAT
  | NE | EQ
  | LT | LE | GT | GE
  | AND | OR
  deriving DecidableEq, Repr

inductive UnOpr where
  | MINUS | NOT | LEN
  deriving DecidableEq, Repr

variable {ν : Type}

def init_exp (k : ExpKind ν) : Expdesc ν := ⟨k, NO_JUMP, NO_JUMP⟩

namespace Expdesc

def hasjumps (e : Expdesc ν) : Bool := e.t != e.f

/-- `isnumeral`, with the numeral. -/
def numeral? (e : Expdesc ν) : Option ν :=
  match e with
  | ⟨.VKNUM n, t, f⟩ => if t = NO_JUMP ∧ f = NO_JUMP then some n else none
  | _ => none

def isnumeral (e : Expdesc ν) : Bool := e.numeral?.isSome

end Expdesc

section Discharge

variable (fs : FuncState ν)

def freeexp (e : Expdesc ν) : FuncState ν :=
  match e.k with
  | .VNONRELOC info => freereg fs info
  | _ => fs

/-- `nresults` is `none` for `LUA_MULTRET`. -/
def luaK_setreturns (e : Expdesc ν) (nresults : Option Nat) : Gen (FuncState ν) :=
  let n := nresults.elim 0 (· + 1)
  match e.k with
  | .VCALL info => .ok (fs.setCode info (SETARG_C (fs.codeAt info) n))
  | .VVARARG info =>
    luaK_reserveregs
      (fs.setCode info (SETARG_A (SETARG_B (fs.codeAt info) n) fs.freereg)) 1
  | _ => .ok fs

def luaK_setoneret (e : Expdesc ν) : Expdesc ν × FuncState ν :=
  match e.k with
  | .VCALL info => ({ e with k := .VNONRELOC (GETARG_A (fs.codeAt info)) }, fs)
  | .VVARARG info =>
    ({ e with k := .VRELOCABLE info }, fs.setCode info (SETARG_B (fs.codeAt info) 2))
  | _ => (e, fs)

def luaK_dischargevars (e : Expdesc ν) : Gen (Expdesc ν × FuncState ν) :=
  match e.k with
  | .VLOCAL info => .ok ({ e with k := .VNONRELOC info }, fs)
  | .VUPVAL info => do
    let (pc, fs) ← luaK_codeABC fs .GETUPVAL 0 info 0
    .ok ({ e with k := .VRELOCABLE pc }, fs)
  | .VGLOBAL info => do
    let (pc, fs) ← luaK_codeABx fs .GETGLOBAL 0 info
    .ok ({ e with k := .VRELOCABLE pc }, fs)
  | .VINDEXED info aux => do
    let fs := freereg (freereg fs aux) info
    let (pc, fs) ← luaK_codeABC fs .GETTABLE 0 info aux
    .ok ({ e with k := .VRELOCABLE pc }, fs)
  | .VVARARG _ | .VCALL _ => .ok (luaK_setoneret fs e)
  | _ => .ok (e, fs)

def code_label (a b jump : Nat) : Gen (Nat × FuncState ν) :=
  luaK_codeABC (luaK_getlabel fs).2 .LOADBOOL a b jump

variable [LuaNumber ν]

def discharge2reg (e : Expdesc ν) (reg : Nat) : Gen (Expdesc ν × FuncState ν) := do
  let (e, fs) ← luaK_dischargevars fs e
  let done (fs : FuncState ν) : Expdesc ν × FuncState ν := ({ e with k := .VNONRELOC reg }, fs)
  match e.k with
  | .VNIL => do
    let fs ← luaK_nil fs reg 1
    .ok (done fs)
  | .VFALSE => do
    let (_, fs) ← luaK_codeABC fs .LOADBOOL reg 0 0
    .ok (done fs)
  | .VTRUE => do
    let (_, fs) ← luaK_codeABC fs .LOADBOOL reg 1 0
    .ok (done fs)
  | .VK info => do
    let (_, fs) ← luaK_codeABx fs .LOADK reg info
    .ok (done fs)
  | .VKNUM nval => do
    let (info, fs) ← luaK_numberK fs nval
    let (_, fs) ← luaK_codeABx fs .LOADK reg info
    .ok (done fs)
  | .VRELOCABLE info => .ok (done (fs.setCode info (SETARG_A (fs.codeAt info) reg)))
  | .VNONRELOC info =>
    if reg ≠ info then do
      let (_, fs) ← luaK_codeABC fs .MOVE reg info 0
      .ok (done fs)
    else .ok (done fs)
  -- nothing to do for VVOID and VJMP
  | _ => .ok (e, fs)

def discharge2anyreg (e : Expdesc ν) : Gen (Expdesc ν × FuncState ν) :=
  match e.k with
  | .VNONRELOC _ => .ok (e, fs)
  | _ => do
    let fs ← luaK_reserveregs fs 1
    discharge2reg fs e (fs.freereg - 1)

/-- The part of `exp2reg` for an expression that has jumps. -/
def exp2regJumps (e : Expdesc ν) (reg : Nat) : Gen (FuncState ν) := do
  let needT ← need_value fs (fuel fs) e.t
  let needF ← if needT then .ok true else need_value fs (fuel fs) e.f
  let (p_f, p_t, fs) ←
    if needF then do
      let (fj, fs) ← match e.k with
        | .VJMP _ => .ok (NO_JUMP, fs)
        | _ => luaK_jump fs
      let (p_f, fs) ← code_label fs reg 0 1
      let (p_t, fs) ← code_label fs reg 1 0
      let fs ← luaK_patchtohere fs fj
      .ok ((p_f : Int), (p_t : Int), fs)
    else .ok (NO_JUMP, NO_JUMP, fs)
  let (final, fs) := luaK_getlabel fs
  let fs ← patchlistaux final reg p_f (fuel fs) fs e.f
  patchlistaux final reg p_t (fuel fs) fs e.t

def exp2reg (e : Expdesc ν) (reg : Nat) : Gen (Expdesc ν × FuncState ν) := do
  let (e, fs) ← discharge2reg fs e reg
  let (t, fs) ← match e.k with
    | .VJMP info => luaK_concat fs e.t info
    | _ => .ok (e.t, fs)
  let e := { e with t := t }
  let fs ← if e.hasjumps then exp2regJumps fs e reg else .ok fs
  .ok (init_exp (.VNONRELOC reg), fs)

def luaK_exp2nextreg (e : Expdesc ν) : Gen (Expdesc ν × FuncState ν) := do
  let (e, fs) ← luaK_dischargevars fs e
  let fs ← luaK_reserveregs (freeexp fs e) 1
  exp2reg fs e (fs.freereg - 1)

/-- The register of an expression that is in one. -/
def regOf (e : Expdesc ν) : Nat :=
  match e.k with
  | .VNONRELOC info => info
  | _ => 0

def luaK_exp2anyreg (e : Expdesc ν) : Gen (Nat × Expdesc ν × FuncState ν) := do
  let (e, fs) ← luaK_dischargevars fs e
  let nextreg := do
    let (e, fs) ← luaK_exp2nextreg fs e
    .ok (regOf e, e, fs)
  match e.k with
  | .VNONRELOC info =>
    if !e.hasjumps then .ok (info, e, fs)
    else if info ≥ fs.nactvar then do
      let (e, fs) ← exp2reg fs e info
      .ok (regOf e, e, fs)
    else nextreg
  | _ => nextreg

def luaK_exp2val (e : Expdesc ν) : Gen (Expdesc ν × FuncState ν) :=
  if e.hasjumps then do
    let (_, e, fs) ← luaK_exp2anyreg fs e
    .ok (e, fs)
  else luaK_dischargevars fs e

def luaK_exp2RK (e : Expdesc ν) : Gen (Nat × Expdesc ν × FuncState ν) := do
  let (e, fs) ← luaK_exp2val fs e
  -- a constant that fits in a RK operand
  let constant (x : Gen (Nat × FuncState ν)) := do
    if fs.k.length ≤ MAXINDEXRK then do
      let (info, fs) ← x
      .ok (RKASK info, { e with k := .VK info }, fs)
    else luaK_exp2anyreg fs e
  match e.k with
  | .VKNUM nval => constant (luaK_numberK fs nval)
  | .VTRUE => constant (boolK fs true)
  | .VFALSE => constant (boolK fs false)
  | .VNIL => constant (nilK fs)
  | .VK info => if info ≤ MAXINDEXRK then .ok (RKASK info, e, fs) else luaK_exp2anyreg fs e
  | _ => luaK_exp2anyreg fs e

end Discharge

section Operators

variable [LuaNumber ν] (fs : FuncState ν)

/-- `constfolding` for two numerals: `none` where it does not fold. -/
def foldNumerals (op : OpCode) (v1 v2 : ν) : Option ν :=
  let nonzero (r : ν) : Option ν :=
    if LuaNumber.luai_numeq v2 LuaNumber.zero then none else some r
  let r := match op with
    | .ADD => some (luai_numadd v1 v2)
    | .SUB => some (luai_numsub v1 v2)
    | .MUL => some (luai_nummul v1 v2)
    | .DIV => nonzero (luai_numdiv v1 v2)
    | .MOD => nonzero (luai_nummod v1 v2)
    | .POW => some (luai_numpow v1 v2)
    | .UNM => some (luai_numunm v1)
    | .LEN => none
    | _ => some LuaNumber.zero
  r.filter fun r => !luai_numisnan r

def constfolding (op : OpCode) (e1 e2 : Expdesc ν) : Option ν := do
  let v1 ← e1.numeral?
  let v2 ← e2.numeral?
  foldNumerals op v1 v2

def codearith (op : OpCode) (e1 e2 : Expdesc ν) : Gen (Expdesc ν × FuncState ν) :=
  match constfolding op e1 e2 with
  | some r => .ok ({ e1 with k := .VKNUM r }, fs)
  | none => do
    let (o2, e2, fs) ←
      if op ≠ .UNM ∧ op ≠ .LEN then luaK_exp2RK fs e2 else .ok (0, e2, fs)
    let (o1, e1, fs) ← luaK_exp2RK fs e1
    let fs := if o1 > o2 then freeexp (freeexp fs e1) e2 else freeexp (freeexp fs e2) e1
    let (pc, fs) ← luaK_codeABC fs op 0 o1 o2
    .ok ({ e1 with k := .VRELOCABLE pc }, fs)

def codecomp (op : OpCode) (cond : Bool) (e1 e2 : Expdesc ν) : Gen (Expdesc ν × FuncState ν) := do
  let (o1, e1, fs) ← luaK_exp2RK fs e1
  let (o2, e2, fs) ← luaK_exp2RK fs e2
  let fs := freeexp (freeexp fs e2) e1
  let (info, fs) ←
    -- the arguments are exchanged to replace by "<" or "<="
    if !cond && op != .EQ then condjump fs op 1 o2 o1
    else condjump fs op cond.toNat o1 o2
  .ok ({ e1 with k := .VJMP info }, fs)

def invertjump (info : Int) : FuncState ν :=
  let p := getjumpcontrol fs info
  let i := fs.codeAt p
  fs.setCode p (SETARG_A i (if GETARG_A i = 0 then 1 else 0))

def jumponcond (e : Expdesc ν) (cond : Bool) : Gen (Int × Expdesc ν × FuncState ν) := do
  let testset := do
    let (e, fs) ← discharge2anyreg fs e
    let (pc, fs) ← condjump (freeexp fs e) .TESTSET NO_REG (regOf e) cond.toNat
    .ok (pc, e, fs)
  match e.k with
  | .VRELOCABLE info =>
    let ie := fs.codeAt info
    if hasOp ie .NOT then do
      -- remove previous OP_NOT
      let (pc, fs) ←
        condjump { fs with code := fs.code.dropLast } .TEST (GETARG_B ie) 0 (!cond).toNat
      .ok (pc, e, fs)
    else testset
  | _ => testset

def luaK_goiftrue (e : Expdesc ν) : Gen (Expdesc ν × FuncState ν) := do
  let (e, fs) ← luaK_dischargevars fs e
  let (pc, e, fs) ← match e.k with
    | .VK _ | .VKNUM _ | .VTRUE => .ok (NO_JUMP, e, fs)
    | .VJMP info => .ok (info, e, invertjump fs info)
    | _ => jumponcond fs e false
  let (f, fs) ← luaK_concat fs e.f pc
  let fs ← luaK_patchtohere fs e.t
  .ok ({ e with f := f, t := NO_JUMP }, fs)

def luaK_goiffalse (e : Expdesc ν) : Gen (Expdesc ν × FuncState ν) := do
  let (e, fs) ← luaK_dischargevars fs e
  let (pc, e, fs) ← match e.k with
    | .VNIL | .VFALSE => .ok (NO_JUMP, e, fs)
    | .VJMP info => .ok (info, e, fs)
    | _ => jumponcond fs e true
  let (t, fs) ← luaK_concat fs e.t pc
  let fs ← luaK_patchtohere fs e.f
  .ok ({ e with t := t, f := NO_JUMP }, fs)

def codenot (e : Expdesc ν) : Gen (Expdesc ν × FuncState ν) := do
  let (e, fs) ← luaK_dischargevars fs e
  let (e, fs) ← match e.k with
    | .VNIL | .VFALSE => .ok ({ e with k := .VTRUE }, fs)
    | .VK _ | .VKNUM _ | .VTRUE => .ok ({ e with k := .VFALSE }, fs)
    | .VJMP info => .ok (e, invertjump fs info)
    | .VRELOCABLE _ | .VNONRELOC _ => do
      let (e, fs) ← discharge2anyreg fs e
      let (pc, fs) ← luaK_codeABC (freeexp fs e) .NOT 0 (regOf e) 0
      .ok ({ e with k := .VRELOCABLE pc }, fs)
    | _ => .ok (e, fs)
  let e := { e with f := e.t, t := e.f }
  let fs ← removevalues (fuel fs) fs e.f
  let fs ← removevalues (fuel fs) fs e.t
  .ok (e, fs)

def luaK_prefix (op : UnOpr) (e : Expdesc ν) : Gen (Expdesc ν × FuncState ν) := do
  let e2 := init_exp (.VKNUM LuaNumber.zero)
  match op with
  | .MINUS => do
    -- cannot operate on non-numeric constants
    let (e, fs) ←
      if !e.isnumeral then do
        let (_, e, fs) ← luaK_exp2anyreg fs e
        .ok (e, fs)
      else .ok (e, fs)
    codearith fs .UNM e e2
  | .NOT => codenot fs e
  | .LEN => do
    let (_, e, fs) ← luaK_exp2anyreg fs e
    codearith fs .LEN e e2

def luaK_infix (op : BinOpr) (v : Expdesc ν) : Gen (Expdesc ν × FuncState ν) :=
  let exp2RK := do
    let (_, v, fs) ← luaK_exp2RK fs v
    .ok (v, fs)
  match op with
  | .AND => luaK_goiftrue fs v
  | .OR => luaK_goiffalse fs v
  | .CONCAT => luaK_exp2nextreg fs v
  | .ADD | .SUB | .MUL | .DIV | .MOD | .POW => if !v.isnumeral then exp2RK else .ok (v, fs)
  | _ => exp2RK

def luaK_posfix (op : BinOpr) (e1 e2 : Expdesc ν) : Gen (Expdesc ν × FuncState ν) :=
  match op with
  | .AND => do
    let (e2, fs) ← luaK_dischargevars fs e2
    let (f, fs) ← luaK_concat fs e2.f e1.f
    .ok ({ e2 with f := f }, fs)
  | .OR => do
    let (e2, fs) ← luaK_dischargevars fs e2
    let (t, fs) ← luaK_concat fs e2.t e1.t
    .ok ({ e2 with t := t }, fs)
  | .CONCAT => do
    let (e2, fs) ← luaK_exp2val fs e2
    let concat := do
      let (e2, fs) ← luaK_exp2nextreg fs e2
      codearith fs .CONCAT e1 e2
    match e2.k with
    | .VRELOCABLE info =>
      if hasOp (fs.codeAt info) .CONCAT then
        let fs := freeexp fs e1
        .ok ({ e1 with k := .VRELOCABLE info },
          fs.setCode info (SETARG_B (fs.codeAt info) (regOf e1)))
      else concat
    | _ => concat
  | .ADD => codearith fs .ADD e1 e2
  | .SUB => codearith fs .SUB e1 e2
  | .MUL => codearith fs .MUL e1 e2
  | .DIV => codearith fs .DIV e1 e2
  | .MOD => codearith fs .MOD e1 e2
  | .POW => codearith fs .POW e1 e2
  | .EQ => codecomp fs .EQ true e1 e2
  | .NE => codecomp fs .EQ false e1 e2
  | .LT => codecomp fs .LT true e1 e2
  | .LE => codecomp fs .LE true e1 e2
  | .GT => codecomp fs .LT false e1 e2
  | .GE => codecomp fs .LE false e1 e2

/-- `var` is VLOCAL, VUPVAL, VGLOBAL or VINDEXED. -/
def luaK_storevar (var ex : Expdesc ν) : Gen (FuncState ν) :=
  match var.k with
  | .VLOCAL info => do
    let (_, fs) ← exp2reg (freeexp fs ex) ex info
    .ok fs
  | .VUPVAL info => do
    let (e, ex, fs) ← luaK_exp2anyreg fs ex
    let (_, fs) ← luaK_codeABC fs .SETUPVAL e info 0
    .ok (freeexp fs ex)
  | .VGLOBAL info => do
    let (e, ex, fs) ← luaK_exp2anyreg fs ex
    let (_, fs) ← luaK_codeABx fs .SETGLOBAL e info
    .ok (freeexp fs ex)
  | .VINDEXED info aux => do
    let (e, ex, fs) ← luaK_exp2RK fs ex
    let (_, fs) ← luaK_codeABC fs .SETTABLE info aux e
    .ok (freeexp fs ex)
  | _ => .ok (freeexp fs ex)

end Operators

end Luaxx.Code
