import Luaxx.Core.Opcodes
import Luaxx.Lib.Int32
import Luaxx.Lib.SmallFloat

/-!
# Floating point bytes (`lobject.c`)

How the size hints of a table are packed into the operands of an instruction. An `int` that is not
negative is a natural number.
-/

namespace Luaxx.FloatByte

open Luaxx.Int32 Luaxx.SmallFloat

/-- The end of the range of `int`. -/
def INT_MAX : Nat := 2 ^ 31 - 1

theorem toNat_halve (x : UInt32) : ((x + 1) >>> 1).toNat = (x.toNat + 1) % 2 ^ 32 / 2 := by
  rw [UInt32.toNat_shiftRight, UInt32.toNat_add, Nat.shiftRight_eq_div_pow]
  rfl

/-- `while (x >= 16) …`, with the exponent. -/
def int2fbLoop (x : UInt32) (e : Nat) : UInt32 × Nat :=
  if 16 ≤ x then int2fbLoop ((x + 1) >>> 1) (e + 1) else (x, e)
termination_by x.toNat
decreasing_by
  rename_i h
  have hlarge : 16 ≤ x.toNat := h
  rw [toNat_halve]
  omega

def luaO_int2fb (x : UInt32) : Nat :=
  let (x, e) := int2fbLoop x 0
  if x < 8 then x.toNat else (e + 1) <<< 3 ||| (x.toNat - 8)

/-- `luaO_fb2int`; a shift into the sign bit wraps around. -/
def luaO_fb2int (x : Nat) : Int :=
  let e := (x >>> 3) &&& 31
  if e = 0 then x else wrap (((x &&& 7) + 8) <<< (e - 1) : Nat)

/-- The real value of `(eeeeexxx)`: `(1xxx) * 2 ^ (eeeee - 1)` if `eeeee` is not 0, and `(xxx)`
otherwise. -/
def realValue (x : Nat) : Nat := unpack 3 x

/-! ## Rounding -/

/-- The loop rounds up, with a significand of four bits in the end. -/
theorem int2fbLoop_rounded {x : Nat} (hx : x < 2 ^ 32 - 1) {m : UInt32} {e : Nat}
    (h : Halved 3 x m.toNat e) :
    Rounded 3 x (int2fbLoop m e).1.toNat (int2fbLoop m e).2 := by
  induction m, e using int2fbLoop.induct with
  | case1 m e hlarge ih =>
    rw [int2fbLoop, if_pos hlarge]
    refine ih ?_
    have hm : m.toNat ≤ x := by
      rw [h.eq, ceilDiv_le_iff]
      exact Nat.le_mul_of_pos_right x (Nat.two_pow_pos e)
    rw [toNat_halve, Nat.mod_eq_of_lt (by omega)]
    exact h.halve hlarge
  | case2 m e hsmall =>
    rw [int2fbLoop, if_neg hsmall]
    exact ⟨h, Nat.lt_of_not_le hsmall⟩

/-- The code is the exponent with the significand behind it. -/
theorem luaO_int2fb_eq {x : UInt32} (hx : x.toNat < 2 ^ 32 - 1) :
    ∃ m e, Rounded 3 x.toNat m e ∧ luaO_int2fb x = pack 3 m e := by
  have hround := int2fbLoop_rounded hx (halved_zero 3 x.toNat)
  refine ⟨_, _, hround, ?_⟩
  rw [luaO_int2fb]
  generalize int2fbLoop x 0 = r at hround ⊢
  obtain ⟨m, e⟩ := r
  by_cases hm : m < 8
  · have he : e = 0 := by
      by_contra he
      exact Nat.not_lt.2 (hround.lead he) hm
    show (if m < 8 then m.toNat else _) = pack 3 m.toNat e
    rw [if_pos hm, he, pack, Nat.zero_mul, Nat.zero_add]
  · have hfits : m.toNat < 2 ^ 4 := hround.fits
    show (if m < 8 then m.toNat else (e + 1) <<< 3 ||| (m.toNat - 8)) = pack 3 m.toNat e
    have hlead : 2 ^ 3 ≤ m.toNat := Nat.le_of_not_lt hm
    rw [if_neg hm, ← Nat.shiftLeft_add_eq_or_of_lt (by omega), Nat.shiftLeft_eq, pack_eq hlead]
    rfl

/-- The byte stands for its real value, as far as this is an `int`. -/
theorem luaO_fb2int_eq {x : Nat} (hx : x < 2 ^ 8) : luaO_fb2int x = wrap (realValue x) := by
  have he : (x >>> 3) &&& 31 = x / 2 ^ 3 := by
    rw [Nat.shiftRight_eq_div_pow, Nat.and_two_pow_sub_one_eq_mod _ 5, Nat.mod_eq_of_lt (by omega)]
  have hm : x &&& 7 = x % 2 ^ 3 := Nat.and_two_pow_sub_one_eq_mod _ 3
  rw [luaO_fb2int, he, hm, realValue, unpack]
  split_ifs with hzero
  · rw [wrap_eq (by omega) (by omega)]
    omega
  · rw [Nat.shiftLeft_eq, Nat.add_comm]
    rfl

/-! ## Codes of `int`s -/

variable {x y : UInt32}

theorem rounded_exponent {x m e : Nat} (h : Rounded 3 x m e) (hx : x ≤ INT_MAX) : e ≤ 28 :=
  h.exponent_le_iff.2 (Nat.le_trans hx (by decide))

/-- The code has eight bits. -/
theorem luaO_int2fb_lt (hx : x.toNat ≤ INT_MAX) : luaO_int2fb x < 2 ^ 8 := by
  obtain ⟨m, e, hround, heq⟩ := luaO_int2fb_eq (Nat.lt_of_le_of_lt hx (by decide))
  have he := rounded_exponent hround hx
  have hm : m < 2 ^ 4 := hround.fits
  rw [heq, pack]
  omega

theorem luaO_int2fb_mono (hy : y.toNat ≤ INT_MAX) (h : x ≤ y) : luaO_int2fb x ≤ luaO_int2fb y := by
  have hle : x.toNat ≤ y.toNat := h
  have hlt : INT_MAX < 2 ^ 32 - 1 := by decide
  obtain ⟨m, i, hx', hxeq⟩ := luaO_int2fb_eq (x := x) (by omega)
  obtain ⟨n, j, hy', hyeq⟩ := luaO_int2fb_eq (x := y) (by omega)
  rw [hxeq, hyeq]
  exact hx'.pack_mono hy' h

/-- The real value of the code is not less than the number, by less than one eighth of it. -/
theorem realValue_int2fb (hx : x.toNat ≤ INT_MAX) :
    x.toNat ≤ realValue (luaO_int2fb x) ∧
      8 * (realValue (luaO_int2fb x) - x.toNat) < x.toNat + 8 := by
  obtain ⟨m, e, hround, heq⟩ := luaO_int2fb_eq (Nat.lt_of_le_of_lt hx (by decide))
  rw [heq, realValue, hround.unpack_pack]
  refine ⟨hround.le, ?_⟩
  by_cases he : e = 0
  · have hm : m = x.toNat := by rw [hround.eq, he, Nat.pow_zero, ceilDiv_one]
    rw [he, hm, Nat.pow_zero, Nat.mul_one, Nat.sub_self]
    exact Nat.add_pos_right _ (by decide)
  · exact Nat.lt_of_lt_of_le (hround.error he) (Nat.le_add_right _ _)

/-- The largest number whose code can be converted back. -/
def MAXHINT : Nat := 15 * 2 ^ 27

theorem realValue_le_iff (hx : x.toNat ≤ INT_MAX) :
    realValue (luaO_int2fb x) ≤ INT_MAX ↔ x.toNat ≤ MAXHINT := by
  obtain ⟨m, e, hround, heq⟩ := luaO_int2fb_eq (Nat.lt_of_le_of_lt hx (by decide))
  rw [heq, realValue, hround.unpack_pack, MAXHINT]
  have hiff : e ≤ 27 ↔ x.toNat ≤ 15 * 2 ^ 27 := hround.exponent_le_iff
  rw [← hiff]
  constructor
  · intro hvalue
    by_contra he
    have hlead := hround.lead (Nat.ne_zero_of_lt (Nat.lt_of_not_le he))
    have hpow : 2 ^ 28 ≤ 2 ^ e := Nat.pow_le_pow_right Nat.zero_lt_two (Nat.lt_of_not_le he)
    exact Nat.not_lt.2 hvalue (Nat.lt_of_lt_of_le (by decide) (Nat.mul_le_mul hlead hpow))
  · intro he
    have hm : m ≤ 15 := Nat.le_of_lt_succ hround.fits
    have hpow : 2 ^ e ≤ 2 ^ 27 := Nat.pow_le_pow_right Nat.zero_lt_two he
    exact Nat.le_trans (Nat.mul_le_mul hm hpow) (by decide)

/-- A larger number is that of the sign bit. -/
theorem realValue_of_gt (hx : x.toNat ≤ INT_MAX) (hgt : MAXHINT < x.toNat) :
    realValue (luaO_int2fb x) = 2 ^ 31 := by
  obtain ⟨m, e, hround, heq⟩ := luaO_int2fb_eq (Nat.lt_of_le_of_lt hx (by decide))
  have he : e = 28 := by
    refine Nat.le_antisymm (rounded_exponent hround hx) ?_
    by_contra hlt
    have hle : e ≤ 27 := by omega
    exact Nat.not_le.2 hgt (hround.exponent_le_iff.1 hle)
  subst he
  have hm : m ≤ 8 := by
    rw [hround.eq, ceilDiv_le_iff]
    exact Nat.le_trans hx (by decide)
  have hlead : 2 ^ 3 ≤ m := hround.lead (by decide)
  have hm : m = 8 := Nat.le_antisymm hm hlead
  rw [heq, realValue, hround.unpack_pack, hm]
  rfl

theorem luaO_fb2int_int2fb (hx : x.toNat ≤ INT_MAX) :
    luaO_fb2int (luaO_int2fb x) =
      if x.toNat ≤ MAXHINT then (realValue (luaO_int2fb x) : Int) else -2 ^ 31 := by
  rw [luaO_fb2int_eq (luaO_int2fb_lt hx)]
  split_ifs with hle
  · have hvalue := (realValue_le_iff hx).2 hle
    rw [INT_MAX] at hvalue
    exact wrap_eq (by omega) (by omega)
  · rw [realValue_of_gt hx (Nat.lt_of_not_le hle)]
    rfl

/-- What a size hint is for: the code fits the operand, and stands for a size that is large enough but
not much too large. -/
structure SizeHint (x : UInt32) : Prop where
  operand : luaO_int2fb x ≤ MAXARG_B ∧ luaO_int2fb x ≤ MAXARG_C
  /-- There is no overflow. -/
  exact : luaO_fb2int (luaO_int2fb x) = realValue (luaO_int2fb x)
  enough : (x.toNat : Int) ≤ luaO_fb2int (luaO_int2fb x)
  near : 8 * (luaO_fb2int (luaO_int2fb x) - x.toNat) < x.toNat + 8
  mono : ∀ y : UInt32, x ≤ y → y.toNat ≤ INT_MAX → luaO_int2fb x ≤ luaO_int2fb y

theorem sizeHint_of_le (hle : x.toNat ≤ MAXHINT) : SizeHint x := by
  have hx : x.toNat ≤ INT_MAX := Nat.le_trans hle (by decide)
  have hlt := luaO_int2fb_lt hx
  have hvalue : luaO_fb2int (luaO_int2fb x) = realValue (luaO_int2fb x) := by
    rw [luaO_fb2int_int2fb hx, if_pos hle]
  obtain ⟨henough, hnear⟩ := realValue_int2fb hx
  refine ⟨⟨?_, ?_⟩, hvalue, ?_, ?_, fun y h hy => luaO_int2fb_mono hy h⟩
  · rw [MAXARG_B]
    omega
  · rw [MAXARG_C]
    omega
  · rw [hvalue]
    exact Int.ofNat_le.2 henough
  · rw [hvalue]
    omega

/-- A hint that overflows is negative. -/
theorem not_sizeHint_of_gt (hx : x.toNat ≤ INT_MAX) (hgt : MAXHINT < x.toNat) : ¬ SizeHint x := by
  intro h
  have henough := h.enough
  rw [luaO_fb2int_int2fb hx, if_neg (Nat.not_le.2 hgt)] at henough
  omega

end Luaxx.FloatByte
