import Luaxx.Core.Number
import Luaxx.Core.Opcodes

/-!
# Values and arithmetic (`lobject.h`, `lvm.c`)

The type of numbers is any type with the operations that `luaconf.h` names. Of `==` it is known
that it is symmetric and transitive; it is not reflexive, and numbers that are `==` need not be
equal. The negative of a number that is not NaN is not NaN.
-/

namespace Luaxx.Code

class LuaNumber (ν : Type) where
  zero : ν
  luai_numadd : ν → ν → ν
  luai_numsub : ν → ν → ν
  luai_nummul : ν → ν → ν
  luai_numdiv : ν → ν → ν
  luai_numpow : ν → ν → ν
  floor : ν → ν
  luai_numunm : ν → ν
  luai_numeq : ν → ν → Bool
  luai_numeq_symm : ∀ a b, luai_numeq a b = true → luai_numeq b a = true
  luai_numeq_trans : ∀ a b c, luai_numeq a b = true → luai_numeq b c = true →
    luai_numeq a c = true
  luai_numeq_unm : ∀ a, luai_numeq a a = true → luai_numeq (luai_numunm a) (luai_numunm a) = true

export LuaNumber (luai_numadd luai_numsub luai_nummul luai_numdiv luai_numpow luai_numunm)

section Numbers

variable {ν : Type} [LuaNumber ν]

/-- `(a) - floor((a)/(b))*(b)` -/
def luai_nummod (a b : ν) : ν :=
  luai_numsub a (luai_nummul (LuaNumber.floor (luai_numdiv a b)) b)

def luai_numisnan (a : ν) : Bool := !LuaNumber.luai_numeq a a

end Numbers

/-- Strings are interned: a string is its address. -/
inductive TValue (ν : Type) where
  | nil
  | boolean (b : Bool)
  | number (n : ν)
  | string (p : Nat)
  | object (p : Nat)
  deriving DecidableEq, Repr

section Values

variable {ν : Type} [LuaNumber ν]

/-- `luaO_rawequalObj`. -/
def TValue.rawequal : TValue ν → TValue ν → Bool
  | nil, nil => true
  | boolean a, boolean b => a == b
  | number a, number b => LuaNumber.luai_numeq a b
  | string p, string q => p == q
  | object p, object q => p == q
  | _, _ => false

theorem TValue.rawequal_comm (a b : TValue ν) : a.rawequal b = b.rawequal a := by
  rw [Bool.eq_iff_iff]
  constructor <;> intro h <;> cases a <;> cases b <;>
    simp_all [TValue.rawequal, LuaNumber.luai_numeq_symm]

theorem TValue.rawequal_trans {a b c : TValue ν} (h : a.rawequal b = true)
    (h' : b.rawequal c = true) : a.rawequal c = true := by
  cases a <;> cases b <;> cases c <;> simp_all [TValue.rawequal]
  exact LuaNumber.luai_numeq_trans _ _ _ h h'

end Values

/-! ## Arithmetic -/

inductive TMS where
  | ADD | SUB | MUL | DIV | MOD | POW | UNM
  deriving DecidableEq, Repr

/-- The `switch` of `Arith`; the second operand of a unary operation is not looked at. -/
def luai_num {ν : Type} [LuaNumber ν] : TMS → ν → ν → ν
  | .ADD, nb, nc => luai_numadd nb nc
  | .SUB, nb, nc => luai_numsub nb nc
  | .MUL, nb, nc => luai_nummul nb nc
  | .DIV, nb, nc => luai_numdiv nb nc
  | .MOD, nb, nc => luai_nummod nb nc
  | .POW, nb, nc => luai_numpow nb nc
  | .UNM, nb, _ => luai_numunm nb

/-- What an operation finds outside the code: numerals in strings, metamethods and globals. -/
structure Env (ν : Type) where
  /-- `luaO_str2d`, on the string at an address. -/
  str2d : Nat → Option ν
  /-- `call_binTM`, or else the error of `luaG_aritherror`. -/
  call_binTM : TMS → TValue ν → TValue ν → Except String (TValue ν)
  /-- `luaV_gettable`, on the environment of the function. -/
  getglobal : TValue ν → Except String (TValue ν)

section Arith

variable {ν : Type} [LuaNumber ν] (env : Env ν)

def luaV_tonumber : TValue ν → Option ν
  | .number n => some n
  | .string p => env.str2d p
  | _ => none

def Arith (op : TMS) (rb rc : TValue ν) : Except String (TValue ν) :=
  match luaV_tonumber env rb, luaV_tonumber env rc with
  | some nb, some nc => .ok (.number (luai_num op nb nc))
  | _, _ => env.call_binTM op rb rc

/-- `arith_op`. -/
def arith_op (op : TMS) (rb rc : TValue ν) : Except String (TValue ν) :=
  match rb, rc with
  | .number nb, .number nc => .ok (.number (luai_num op nb nc))
  | _, _ => Arith env op rb rc

end Arith

/-! ## Doubles -/

/-- The operations of a processor on doubles. Comparison and negation are a matter of bits. -/
structure Binary64 where
  luai_numadd : Number → Number → Number
  luai_numsub : Number → Number → Number
  luai_nummul : Number → Number → Number
  luai_numdiv : Number → Number → Number
  luai_numpow : Number → Number → Number
  floor : Number → Number

/-- The highest bit, the sign, is changed; nothing is carried from it. -/
def Binary64.unm (a : Number) : Number := a + 0x8000000000000000

theorem Binary64.isNaN_unm (a : Number) : (Binary64.unm a).isNaN = a.isNaN := by
  have hnat : (Binary64.unm a).toNat = (a.toNat + 2 ^ 63) % 2 ^ 64 := UInt64.toNat_add _ _
  have hexp : (Binary64.unm a).exponent = a.exponent := by
    unfold Number.exponent
    rw [hnat]
    omega
  have hfrac : (Binary64.unm a).fraction = a.fraction := by
    unfold Number.fraction
    rw [hnat]
    omega
  rw [Number.isNaN, Number.isNaN, hexp, hfrac]

@[reducible] def Binary64.number (ops : Binary64) : LuaNumber Number where
  zero := 0
  luai_numadd := ops.luai_numadd
  luai_numsub := ops.luai_numsub
  luai_nummul := ops.luai_nummul
  luai_numdiv := ops.luai_numdiv
  luai_numpow := ops.luai_numpow
  floor := ops.floor
  luai_numunm := Binary64.unm
  luai_numeq := Luaxx.luai_numeq
  luai_numeq_symm a b h := by
    rw [luai_numeq_comm]
    exact h
  luai_numeq_trans _ _ _ h h' := Luaxx.luai_numeq_trans h h'
  luai_numeq_unm a h := by
    rw [luai_numeq_iff] at h ⊢
    exact ⟨(Binary64.isNaN_unm a).trans h.1, (Binary64.isNaN_unm a).trans h.1, .inl rfl⟩

end Luaxx.Code
