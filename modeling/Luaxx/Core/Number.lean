import Mathlib.Tactic.Common
import Mathlib.Tactic.Ring
import Mathlib.Data.Nat.Log

/-!
# Numbers (`luaconf.h`)

A `lua_Number` is the 64 bits of an IEEE double. What is defined of it is what the core does with
numbers as values: comparison, and conversion from and to `int`.
-/

namespace Luaxx

abbrev Number := UInt64

namespace Number

/-- The exponent field. -/
def exponent (n : Number) : Nat := n.toNat / 2 ^ 52 % 2 ^ 11

def fraction (n : Number) : Nat := n.toNat % 2 ^ 52

def negative (n : Number) : Bool := 2 ^ 63 ≤ n.toNat

/-- Either zero. -/
def isZero (n : Number) : Bool := n.toNat % 2 ^ 63 == 0

def isNaN (n : Number) : Bool := n.exponent == 2 ^ 11 - 1 && n.fraction != 0

def isInf (n : Number) : Bool := n.exponent == 2 ^ 11 - 1 && n.fraction == 0

/-- `floor(n) == n` -/
def isWhole (n : Number) : Bool :=
  if n.exponent < 1023 then n.isZero
  else if n.exponent ≤ 1023 + 52 then n.fraction % 2 ^ (1023 + 52 - n.exponent) == 0
  else !n.isNaN

/-- The magnitude, rounded towards zero. -/
def truncate (n : Number) : Nat :=
  if n.exponent < 1023 then 0
  else if n.exponent ≤ 1023 + 52 then (2 ^ 52 + n.fraction) / 2 ^ (1023 + 52 - n.exponent)
  else (2 ^ 52 + n.fraction) * 2 ^ (n.exponent - (1023 + 52))

end Number

/-- `luai_numeq`. -/
def luai_numeq (a b : Number) : Bool :=
  !a.isNaN && !b.isNaN && (a == b || (a.isZero && b.isZero))

/-- `luai_numlt`. Apart from the zeros, the bits after the sign are ordered like the magnitudes. -/
def luai_numlt (a b : Number) : Bool :=
  !a.isNaN && !b.isNaN && !(a.isZero && b.isZero) &&
    if a.negative then !b.negative || b.toNat < a.toNat else !b.negative && a.toNat < b.toNat

/-- `luai_numle`. -/
def luai_numle (a b : Number) : Bool := luai_numlt a b || luai_numeq a b

/-- `luai_numisnan`. -/
def luai_numisnan (a : Number) : Bool := !luai_numeq a a

/-- `cast_num` of an `int`. -/
def cast_num (k : Int) : Number :=
  if k = 0 then 0
  else
    let e := Nat.log 2 k.natAbs
    UInt64.ofNat ((if k < 0 then 2 ^ 63 else 0) + (e + 1023) * 2 ^ 52 +
      (k.natAbs - 2 ^ e) * 2 ^ (52 - e))

/-- `lua_number2int`: the processor gives the least `int` for what no `int` is. -/
def lua_number2int (n : Number) : Int :=
  let k : Int := if n.negative then -(n.truncate : Int) else n.truncate
  if -2 ^ 31 ≤ k ∧ k < 2 ^ 31 then k else -2 ^ 31

/-- `lua_number2integer`, for a `lua_Integer` of 64 bits. -/
def lua_number2integer (n : Number) : Int :=
  let k : Int := if n.negative then -(n.truncate : Int) else n.truncate
  if -2 ^ 63 ≤ k ∧ k < 2 ^ 63 then k else -2 ^ 63

/-! ## Lemmas -/

theorem luai_numeq_comm (a b : Number) : luai_numeq a b = luai_numeq b a := by
  rw [luai_numeq, luai_numeq, Bool.and_comm (!a.isNaN), Bool.and_comm a.isZero, Bool.beq_comm]

theorem luai_numeq_iff {a b : Number} :
    luai_numeq a b = true ↔
      a.isNaN = false ∧ b.isNaN = false ∧ (a = b ∨ (a.isZero = true ∧ b.isZero = true)) := by
  simp [luai_numeq, and_assoc]

theorem luai_numeq_trans {a b c : Number} (h : luai_numeq a b = true)
    (h' : luai_numeq b c = true) : luai_numeq a c = true := by
  rw [luai_numeq_iff] at h h' ⊢
  obtain ⟨ha, hb, hab⟩ := h
  obtain ⟨-, hc, hbc⟩ := h'
  refine ⟨ha, hc, ?_⟩
  rcases hab with rfl | ⟨ha, hb⟩ <;> rcases hbc with rfl | ⟨hb', hc⟩
  · exact .inl rfl
  · exact .inr ⟨hb', hc⟩
  · exact .inr ⟨ha, hb⟩
  · exact .inr ⟨ha, hc⟩

/-- Numbers that compare equal have the same bits, but for the zeros. -/
theorem eq_of_luai_numeq {a b : Number} (h : luai_numeq a b = true) (h0 : luai_numeq a 0 = false) :
    a = b := by
  obtain ⟨ha, hb, hab | ⟨hz, -⟩⟩ := luai_numeq_iff.mp h
  · exact hab
  · rw [Bool.eq_false_iff, ne_eq, luai_numeq_iff] at h0
    exact absurd ⟨ha, rfl, .inr ⟨hz, rfl⟩⟩ h0

/-- The fields of a converted `int`. -/
theorem toNat_cast_num {k : Int} (h0 : k ≠ 0) (hk : k.natAbs ≤ 2 ^ 31) :
    ∃ e f, e ≤ 31 ∧ f < 2 ^ 52 ∧ (2 ^ 52 + f) = k.natAbs * 2 ^ (52 - e) ∧
      (cast_num k).toNat = (if k < 0 then 2 ^ 63 else 0) + (e + 1023) * 2 ^ 52 + f := by
  have hpos : k.natAbs ≠ 0 := Int.natAbs_ne_zero.mpr h0
  have hle : 2 ^ Nat.log 2 k.natAbs ≤ k.natAbs := Nat.pow_log_le_self 2 hpos
  have hlt : k.natAbs < 2 ^ (Nat.log 2 k.natAbs + 1) := Nat.lt_pow_succ_log_self (by decide) _
  have he : Nat.log 2 k.natAbs ≤ 31 := by
    by_contra hgt
    have : 2 ^ 32 ≤ 2 ^ Nat.log 2 k.natAbs := Nat.pow_le_pow_right (by decide) (by omega)
    omega
  generalize hE : Nat.log 2 k.natAbs = e at hle hlt he
  have hsplit : 2 ^ e * 2 ^ (52 - e) = 2 ^ 52 := by
    rw [← Nat.pow_add]
    congr 1
    omega
  have hmul : (k.natAbs - 2 ^ e) * 2 ^ (52 - e) + 2 ^ 52 = k.natAbs * 2 ^ (52 - e) := by
    rw [← hsplit, ← Nat.add_mul, Nat.sub_add_cancel hle]
  have hf : (k.natAbs - 2 ^ e) * 2 ^ (52 - e) < 2 ^ 52 := by
    rw [← hsplit]
    refine Nat.mul_lt_mul_of_pos_right ?_ (Nat.pow_pos (by decide))
    rw [Nat.pow_succ] at hlt
    omega
  refine ⟨e, (k.natAbs - 2 ^ e) * 2 ^ (52 - e), he, hf, by omega, ?_⟩
  rw [cast_num, if_neg h0]
  simp only [hE]
  rw [UInt64.toNat_ofNat', Nat.mod_eq_of_lt]
  split_ifs <;> omega

/-- Conversion to a number and back. -/
theorem lua_number2int_cast_num {k : Int} (hk : -2 ^ 31 ≤ k ∧ k < 2 ^ 31) :
    lua_number2int (cast_num k) = k := by
  by_cases h0 : k = 0
  · subst h0
    decide
  obtain ⟨e, f, he, hf, hfields, hbits⟩ := toNat_cast_num h0 (by omega)
  have hexp : (cast_num k).exponent = e + 1023 := by
    rw [Number.exponent, hbits]
    split_ifs <;> omega
  have hfrac : (cast_num k).fraction = f := by
    rw [Number.fraction, hbits]
    split_ifs <;> omega
  have hneg : (cast_num k).negative = decide (k < 0) := by
    rw [Number.negative, hbits]
    split_ifs with h
    · simp [h]
      omega
    · simp [h]
      omega
  have htrunc : (cast_num k).truncate = k.natAbs := by
    rw [Number.truncate, hexp, hfrac, if_neg (by omega), if_pos (by omega), hfields]
    have : 1023 + 52 - (e + 1023) = 52 - e := by omega
    rw [this, Nat.mul_div_cancel _ (Nat.pow_pos (by decide))]
  rw [lua_number2int, hneg, htrunc]
  by_cases h : k < 0
  · simp only [h, decide_true, if_true]
    rw [if_pos (by omega)]
    omega
  · simp only [h, decide_false, Bool.false_eq_true, if_false]
    rw [if_pos (by omega)]
    omega

theorem lua_number2integer_cast_num {k : Int} (h0 : 0 ≤ k) (hk : k < 2 ^ 31) :
    lua_number2integer (cast_num k) = k := by
  have hint := lua_number2int_cast_num (k := k) (by omega)
  rw [lua_number2int] at hint
  rw [lua_number2integer]
  split_ifs at hint ⊢ <;> omega

theorem cast_num_not_nan {k : Int} (hk : -2 ^ 31 ≤ k ∧ k < 2 ^ 31) : (cast_num k).isNaN = false := by
  by_cases h0 : k = 0
  · subst h0
    decide
  obtain ⟨e, f, he, hf, hfields, hbits⟩ := toNat_cast_num h0 (by omega)
  have hexp : (cast_num k).exponent = e + 1023 := by
    rw [Number.exponent, hbits]
    split_ifs <;> omega
  simp only [Number.isNaN, hexp, Bool.and_eq_false_iff, beq_eq_false_iff_ne]
  exact .inl (by omega)

/-- A number that is zero is converted to 0. -/
theorem lua_number2int_zero {n : Number} (h : n.isZero = true) : lua_number2int n = 0 := by
  rw [Number.isZero, beq_iff_eq] at h
  have hexp : n.exponent = 0 := by
    rw [Number.exponent]
    omega
  have htrunc : n.truncate = 0 := by rw [Number.truncate, hexp, if_pos (by decide)]
  rw [lua_number2int, htrunc]
  split_ifs <;> simp_all

/-- Numbers that compare equal are converted to the same `int`. -/
theorem lua_number2int_congr {a b : Number} (h : luai_numeq a b = true) :
    lua_number2int a = lua_number2int b := by
  obtain ⟨-, -, rfl | ⟨ha, hb⟩⟩ := luai_numeq_iff.mp h
  · rfl
  · rw [lua_number2int_zero ha, lua_number2int_zero hb]

theorem lua_number2int_range (n : Number) :
    -2 ^ 31 ≤ lua_number2int n ∧ lua_number2int n < 2 ^ 31 := by
  unfold lua_number2int
  simp only
  split_ifs with h
  all_goals omega

end Luaxx
