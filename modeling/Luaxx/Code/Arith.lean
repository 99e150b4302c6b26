import Luaxx.Code.Constants
import Luaxx.Code.Machine

/-!
# Arithmetic expressions (`lparser.c`, `subexpr`)

The calls that the parser makes for an expression, and what the expression means when nothing is
folded and no constant is shared.
-/

namespace Luaxx.Code

open Result

variable {ν : Type}

inductive ArithOpr where
  | ADD | SUB | MUL | DIV | MOD | POW
  deriving DecidableEq, Repr

namespace ArithOpr

def opr : ArithOpr → BinOpr
  | ADD => .ADD
  | SUB => .SUB
  | MUL => .MUL
  | DIV => .DIV
  | MOD => .MOD
  | POW => .POW

def op : ArithOpr → OpCode
  | ADD => .ADD
  | SUB => .SUB
  | MUL => .MUL
  | DIV => .DIV
  | MOD => .MOD
  | POW => .POW

def tm : ArithOpr → TMS
  | ADD => .ADD
  | SUB => .SUB
  | MUL => .MUL
  | DIV => .DIV
  | MOD => .MOD
  | POW => .POW

end ArithOpr

/-- An expression, with `n` active local variables. No numeral is read as NaN. -/
inductive Expr (ν : Type) [LuaNumber ν] (n : Nat) where
  | nil
  | true
  | false
  | number (r : ν) (h : luai_numisnan r = false)
  | string (s : Nat)
  | localvar (r : Fin n)
  | global (name : Nat)
  | paren (a : Expr ν n)
  | arith (op : ArithOpr) (a b : Expr ν n)
  | minus (a : Expr ν n)

variable [LuaNumber ν] {n : Nat}

/-- `subexpr`. -/
def genExpr (fs : FuncState ν) : Expr ν n → Gen (Expdesc ν × FuncState ν)
  | .nil => .ok (init_exp .VNIL, fs)
  | .true => .ok (init_exp .VTRUE, fs)
  | .false => .ok (init_exp .VFALSE, fs)
  | .number r _ => .ok (init_exp (.VKNUM r), fs)
  | .string s => do
    let (info, fs) ← luaK_stringK fs s
    .ok (init_exp (.VK info), fs)
  | .localvar r => .ok (init_exp (.VLOCAL r), fs)
  | .global name => do
    let (info, fs) ← luaK_stringK fs name
    .ok (init_exp (.VGLOBAL info), fs)
  | .paren a => do
    let (e, fs) ← genExpr fs a
    luaK_dischargevars fs e
  | .arith op a b => do
    let (v, fs) ← genExpr fs a
    let (v, fs) ← luaK_infix fs op.opr v
    let (v2, fs) ← genExpr fs b
    luaK_posfix fs op.opr v v2
  | .minus a => do
    let (e, fs) ← genExpr fs a
    luaK_prefix fs .MINUS e

/-- The expressions of `local x1, ..., xn = e1, ..., en`, one after the other. -/
def genExplist (fs : FuncState ν) : List (Expr ν n) → Gen (FuncState ν)
  | [] => .ok fs
  | a :: as => do
    let (e, fs) ← genExpr fs a
    let (_, fs) ← luaK_exp2nextreg fs e
    genExplist fs as

namespace Expr

/-- The value of an expression. -/
def eval (env : Env ν) (regs : Regs ν) : Expr ν n → Except String (TValue ν)
  | nil => .ok .nil
  | true => .ok (.boolean Bool.true)
  | false => .ok (.boolean Bool.false)
  | number r _ => .ok (.number r)
  | string s => .ok (.string s)
  | localvar r => .ok (regs r)
  | global name => env.getglobal (.string name)
  | paren a => eval env regs a
  | arith op a b => do
    let rb ← eval env regs a
    let rc ← eval env regs b
    arith_op env op.tm rb rc
  | minus a => do
    let rb ← eval env regs a
    arith_op env .UNM rb rb

/-- The numeral that an expression is folded to. -/
def numeral? : Expr ν n → Option ν
  | number r _ => some r
  | paren a => a.numeral?
  | arith op a b => do
    let v1 ← a.numeral?
    let v2 ← b.numeral?
    foldNumerals op.op v1 v2
  | minus a => do
    let v ← a.numeral?
    foldNumerals .UNM v LuaNumber.zero
  | _ => none

/-- The numerals that are left after folding: these become constants. -/
def numerals (a : Expr ν n) : List ν :=
  match a.numeral? with
  | some r => [r]
  | none =>
    match a with
    | arith _ a b => a.numerals ++ b.numerals
    | paren a | minus a => a.numerals
    | _ => []

end Expr

/-- The values of `local x1, ..., xn = e1, ..., en` go to the registers from `r` on. -/
def evalExplist (env : Env ν) (regs : Regs ν) (r : Nat) :
    List (Expr ν n) → Except String (Regs ν)
  | [] => .ok regs
  | a :: as => do
    let v ← a.eval env regs
    evalExplist env (setReg regs r v) (r + 1) as

theorem execute_of_arith {env : Env ν} {k : List (TValue ν)} {regs : Regs ν} {i : Instruction}
    (op : ArithOpr) (h : GET_OPCODE i = some op.op) :
    execute env k regs i =
      execArith env regs op.tm (GETARG_A i) (RK k regs (GETARG_B i))
        (RK k regs (GETARG_C i)) := by
  cases op <;> simp only [execute, h, ArithOpr.op, ArithOpr.tm]

theorem execute_arith {env : Env ν} {k : List (TValue ν)} {regs : Regs ν} {a b c : Nat}
    (op : ArithOpr) (ha : a < 256) (hb : b < 512) (hc : c < 512) :
    execute env k regs (SETARG_A (CREATE_ABC op.op 0 b c) a) =
      execArith env regs op.tm a (RK k regs b) (RK k regs c) := by
  have h0 : 0 < 256 := by decide
  have hop := (GET_OPCODE_SETARG_A _ a).trans (GET_OPCODE_CREATE_ABC (o := op.op) h0 hb hc)
  rw [execute_of_arith op hop, GETARG_A_SETARG_A ha, GETARG_B_SETARG_A, GETARG_C_SETARG_A,
    GETARG_B_CREATE_ABC h0 hb hc, GETARG_C_CREATE_ABC h0 hb hc]

/-! ## Folding -/

/-- The event of an operator that is folded. -/
def tmOf : OpCode → Option TMS
  | .ADD => some .ADD
  | .SUB => some .SUB
  | .MUL => some .MUL
  | .DIV => some .DIV
  | .MOD => some .MOD
  | .POW => some .POW
  | .UNM => some .UNM
  | _ => none

@[simp] theorem tmOf_op (op : ArithOpr) : tmOf op.op = some op.tm := by cases op <;> rfl

/-- A folded operation has the value that the machine computes. -/
theorem foldNumerals_eq {op : OpCode} {tm : TMS} {v1 v2 r : ν} (htm : tmOf op = some tm)
    (h : foldNumerals op v1 v2 = some r) : luai_num tm v1 v2 = r := by
  have hsome := (Option.filter_eq_some_iff.mp h).1
  cases op <;> cases htm
  case DIV => exact Option.some.inj (Option.ite_none_left_eq_some.mp hsome).2
  case MOD => exact Option.some.inj (Option.ite_none_left_eq_some.mp hsome).2
  all_goals exact Option.some.inj hsome

theorem arith_op_of_fold {op : OpCode} {tm : TMS} {v1 v2 r : ν} (env : Env ν)
    (htm : tmOf op = some tm) (h : foldNumerals op v1 v2 = some r) :
    arith_op env tm (.number v1) (.number v2) = .ok (.number r) := by
  rw [← foldNumerals_eq htm h]
  rfl

theorem Expr.eval_of_numeral? {a : Expr ν n} {r : ν} (env : Env ν) (regs : Regs ν)
    (h : a.numeral? = some r) : a.eval env regs = .ok (.number r) := by
  induction a generalizing r with
  | number r' _ =>
    cases h
    rfl
  | paren a ih => exact ih h
  | arith op a b iha ihb =>
    obtain ⟨v1, h1, h⟩ := Option.bind_eq_some_iff.mp h
    obtain ⟨v2, h2, h⟩ := Option.bind_eq_some_iff.mp h
    rw [eval, iha h1, ihb h2]
    exact arith_op_of_fold env (tmOf_op op) h
  | minus a ih =>
    obtain ⟨v, hv, h⟩ := Option.bind_eq_some_iff.mp h
    have hunm : tmOf .UNM = some .UNM := rfl
    rw [eval, ih hv, ok_bind, ← foldNumerals_eq hunm h]
    rfl
  | nil => cases h
  | true => cases h
  | false => cases h
  | string s => cases h
  | localvar r' => cases h
  | global name => cases h

theorem not_nan_of_foldNumerals {op : OpCode} {v1 v2 r : ν} (h : foldNumerals op v1 v2 = some r) :
    luai_numisnan r = false := by
  simpa using (Option.filter_eq_some_iff.mp h).2

theorem Expr.not_nan_of_numeral? {a : Expr ν n} {r : ν} (h : a.numeral? = some r) :
    luai_numisnan r = Bool.false := by
  induction a generalizing r with
  | number r' hr =>
    cases h
    exact hr
  | paren a ih => exact ih h
  | arith op a b iha ihb =>
    obtain ⟨v1, h1, h⟩ := Option.bind_eq_some_iff.mp h
    obtain ⟨v2, h2, h⟩ := Option.bind_eq_some_iff.mp h
    exact not_nan_of_foldNumerals h
  | minus a ih =>
    obtain ⟨v, hv, h⟩ := Option.bind_eq_some_iff.mp h
    exact not_nan_of_foldNumerals h
  | nil => cases h
  | true => cases h
  | false => cases h
  | string s => cases h
  | localvar r' => cases h
  | global name => cases h

/-- The negative of a numeral is always folded. -/
theorem foldNumerals_UNM {v w : ν} (h : luai_numisnan v = false) :
    foldNumerals .UNM v w = some (luai_numunm v) := by
  have heq : LuaNumber.luai_numeq v v = true := by simpa [luai_numisnan] using h
  simp [foldNumerals, luai_numisnan, LuaNumber.luai_numeq_unm v heq]

/-- The value depends on the active local variables alone. -/
theorem Expr.eval_congr {regs regs' : Regs ν} (env : Env ν) (h : ∀ i < n, regs i = regs' i)
    (a : Expr ν n) : a.eval env regs = a.eval env regs' := by
  induction a with
  | localvar r => exact congrArg Except.ok (h r r.isLt)
  | paren a ih => exact ih
  | arith op a b iha ihb => rw [eval, iha, ihb, eval]
  | minus a ih => rw [eval, ih, eval]
  | nil => rfl
  | true => rfl
  | false => rfl
  | number r h => rfl
  | string s => rfl
  | global name => rfl

end Luaxx.Code
