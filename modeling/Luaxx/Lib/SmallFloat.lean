import Mathlib.Algebra.Order.Floor.Div
import Mathlib.GroupTheory.GroupAction.Ring
import Mathlib.Tactic.Common
import Mathlib.Tactic.Ring

/-!
# Small floating point numbers

A natural number is rounded up to one with a significand of `k + 1` bits, by halvings that round up.
The exponent and the significand are packed in one number, in which the leading bit of the
significand is left out unless the exponent is the least.
-/

namespace Luaxx.SmallFloat

variable {k x y m n e i j : Nat}

/-! ## Halvings that round up -/

theorem ceilDiv_le_iff : x ⌈/⌉ 2 ^ e ≤ m ↔ x ≤ m * 2 ^ e := by
  rw [ceilDiv_le_iff_le_mul (Nat.two_pow_pos e), Nat.mul_comm]

theorem ceilDiv_mono (h : x ≤ y) (e : Nat) : x ⌈/⌉ 2 ^ e ≤ y ⌈/⌉ 2 ^ e :=
  ceilDiv_le_iff.2 (Nat.le_trans h (ceilDiv_le_iff.1 (Nat.le_refl _)))

theorem ceilDiv_anti (h : i ≤ j) (x : Nat) : x ⌈/⌉ 2 ^ j ≤ x ⌈/⌉ 2 ^ i := by
  rw [ceilDiv_le_iff]
  have hi : x ≤ x ⌈/⌉ 2 ^ i * 2 ^ i := ceilDiv_le_iff.1 (Nat.le_refl _)
  exact Nat.le_trans hi (Nat.mul_le_mul_left _ (Nat.pow_le_pow_right Nat.zero_lt_two h))

theorem lt_ceilDiv_iff : m < x ⌈/⌉ 2 ^ e ↔ m * 2 ^ e < x := by
  rw [← Nat.not_le, ceilDiv_le_iff, Nat.not_le]

theorem ceilDiv_halve (x e : Nat) : (x ⌈/⌉ 2 ^ e + 1) / 2 = x ⌈/⌉ 2 ^ (e + 1) := by
  refine eq_of_forall_ge_iff fun c => ?_
  have hhalf : (x ⌈/⌉ 2 ^ e + 1) / 2 ≤ c ↔ x ⌈/⌉ 2 ^ e ≤ 2 * c := by omega
  rw [hhalf, ceilDiv_le_iff, ceilDiv_le_iff, Nat.pow_succ, Nat.mul_comm 2, Nat.mul_assoc,
    Nat.mul_comm 2]

/-- `x` has been halved `e` times, and each time it had too many bits before. -/
structure Halved (k x m e : Nat) : Prop where
  eq : m = x ⌈/⌉ 2 ^ e
  large : ∀ i < e, 2 ^ (k + 1) ≤ x ⌈/⌉ 2 ^ i

theorem halved_zero (k x : Nat) : Halved k x x 0 where
  eq := by rw [Nat.pow_zero, ceilDiv_one]
  large _ h := absurd h (Nat.not_lt_zero _)

theorem Halved.halve (h : Halved k x m e) (hm : 2 ^ (k + 1) ≤ m) :
    Halved k x ((m + 1) / 2) (e + 1) where
  eq := by rw [h.eq, ceilDiv_halve]
  large i hi := by
    rcases Nat.lt_succ_iff_lt_or_eq.1 hi with hlt | rfl
    · exact h.large i hlt
    · exact h.eq ▸ hm

/-! ## Rounding -/

/-- `x` is rounded up to `m * 2 ^ e`, with as many bits as fit. -/
structure Rounded (k x m e : Nat) : Prop extends Halved k x m e where
  fits : m < 2 ^ (k + 1)

theorem Rounded.le (h : Rounded k x m e) : x ≤ m * 2 ^ e :=
  ceilDiv_le_iff.1 (Nat.le_of_eq h.eq.symm)

/-- The leading bit is set. -/
theorem Rounded.lead (h : Rounded k x m e) (he : e ≠ 0) : 2 ^ k ≤ m := by
  obtain ⟨i, rfl⟩ := Nat.exists_eq_succ_of_ne_zero he
  have hlarge := h.large i (Nat.lt_succ_self i)
  rw [h.eq, ← ceilDiv_halve]
  rw [Nat.pow_succ] at hlarge
  omega

/-- The error is less than one part of `2 ^ k`. -/
theorem Rounded.error (h : Rounded k x m e) (he : e ≠ 0) : 2 ^ k * (m * 2 ^ e - x) < x := by
  obtain ⟨i, rfl⟩ := Nat.exists_eq_succ_of_ne_zero he
  obtain ⟨u, hu⟩ : ∃ u, u + 1 = x ⌈/⌉ 2 ^ i := by
    refine ⟨x ⌈/⌉ 2 ^ i - 1, Nat.sub_add_cancel ?_⟩
    exact Nat.le_trans (Nat.two_pow_pos _) (h.large i (Nat.lt_succ_self i))
  have hlt : u * 2 ^ i < x := lt_ceilDiv_iff.1 (hu ▸ Nat.lt_succ_self u)
  have hlarge : 2 * 2 ^ k ≤ u + 1 := by
    rw [hu, Nat.mul_comm, ← Nat.pow_succ]
    exact h.large i (Nat.lt_succ_self i)
  have hm : m = (u + 1 + 1) / 2 := by rw [h.eq, ← ceilDiv_halve, hu]
  have hvalue : m * 2 ^ (i + 1) = 2 * m * 2 ^ i := by ring
  rw [hvalue]
  rcases Nat.even_or_odd' u with ⟨v, rfl | rfl⟩
  · -- the last halving rounds up
    have hsum : 2 * m = 2 * v + 2 := by omega
    have hdiff : 2 * m * 2 ^ i - x ≤ 2 * 2 ^ i := by
      rw [hsum, Nat.add_mul]
      omega
    have hscaled : 2 ^ k * (2 * 2 ^ i) ≤ 2 * v * 2 ^ i := by
      rw [← Nat.mul_assoc]
      refine Nat.mul_le_mul_right _ ?_
      omega
    exact Nat.lt_of_le_of_lt (Nat.le_trans (Nat.mul_le_mul_left _ hdiff) hscaled) hlt
  · have hsum : 2 * m = 2 * v + 1 + 1 := by omega
    have hdiff : 2 * m * 2 ^ i - x ≤ 2 ^ i := by
      rw [hsum, Nat.add_mul, Nat.one_mul, Nat.sub_le_iff_le_add, Nat.add_comm]
      exact Nat.add_le_add_left (Nat.le_of_lt hlt) _
    have hscaled : 2 ^ k * 2 ^ i ≤ (2 * v + 1) * 2 ^ i := by
      refine Nat.mul_le_mul_right _ ?_
      omega
    exact Nat.lt_of_le_of_lt (Nat.le_trans (Nat.mul_le_mul_left _ hdiff) hscaled) hlt

theorem Rounded.exponent_mono (hx : Rounded k x m i) (hy : Rounded k y n j) (h : x ≤ y) : i ≤ j := by
  by_contra hij
  have hlarge := hx.large j (Nat.lt_of_not_le hij)
  have hmono := ceilDiv_mono h j
  rw [← hy.eq] at hmono
  exact Nat.not_lt.2 (Nat.le_trans hlarge hmono) hy.fits

/-- The largest number that is rounded with an exponent. -/
theorem Rounded.exponent_le_iff (h : Rounded k x m e) :
    e ≤ j ↔ x ≤ (2 ^ (k + 1) - 1) * 2 ^ j := by
  rw [← ceilDiv_le_iff, ← Nat.lt_iff_le_pred (Nat.two_pow_pos _)]
  constructor
  · intro hle
    exact Nat.lt_of_le_of_lt (ceilDiv_anti hle x) (h.eq ▸ h.fits)
  · intro hlt
    by_contra hle
    exact Nat.not_lt.2 (h.large j (Nat.lt_of_not_le hle)) hlt

/-! ## Packing -/

def pack (k m e : Nat) : Nat := e * 2 ^ k + m

def unpack (k c : Nat) : Nat :=
  if c / 2 ^ k = 0 then c % 2 ^ k else (2 ^ k + c % 2 ^ k) * 2 ^ (c / 2 ^ k - 1)

theorem Rounded.pack_mono (hx : Rounded k x m i) (hy : Rounded k y n j) (h : x ≤ y) :
    pack k m i ≤ pack k n j := by
  rw [pack, pack]
  rcases Nat.eq_or_lt_of_le (hx.exponent_mono hy h) with rfl | hlt
  · refine Nat.add_le_add_left ?_ _
    rw [hx.eq, hy.eq]
    exact ceilDiv_mono h i
  · have hlead := hy.lead (Nat.ne_zero_of_lt hlt)
    have hfits := hx.fits
    have hstep : (i + 1) * 2 ^ k ≤ j * 2 ^ k := Nat.mul_le_mul_right _ hlt
    rw [Nat.pow_succ] at hfits
    rw [Nat.add_mul] at hstep
    omega

/-- A packed number with its leading bit. -/
theorem pack_eq (hm : 2 ^ k ≤ m) : pack k m e = (e + 1) * 2 ^ k + (m - 2 ^ k) := by
  rw [pack, Nat.add_mul]
  omega

theorem Rounded.unpack_pack (h : Rounded k x m e) : unpack k (pack k m e) = m * 2 ^ e := by
  by_cases hm : 2 ^ k ≤ m
  · have hfits := h.fits
    rw [Nat.pow_succ] at hfits
    have hrest : m - 2 ^ k < 2 ^ k := by omega
    have hdiv : pack k m e / 2 ^ k = e + 1 := by
      rw [pack_eq hm, Nat.add_comm, Nat.add_mul_div_right _ _ (Nat.two_pow_pos k),
        Nat.div_eq_of_lt hrest, Nat.zero_add]
    have hmod : pack k m e % 2 ^ k = m - 2 ^ k := by
      rw [pack_eq hm, Nat.add_comm, Nat.add_mul_mod_self_right, Nat.mod_eq_of_lt hrest]
    rw [unpack, hdiv, if_neg (Nat.succ_ne_zero e), hmod, Nat.add_sub_of_le hm]
    rfl
  · have he : e = 0 := by
      by_contra he
      exact hm (h.lead he)
    have hlt := Nat.lt_of_not_le hm
    have hpack : pack k m e = m := by rw [pack, he, Nat.zero_mul, Nat.zero_add]
    rw [hpack, unpack, if_pos (Nat.div_eq_of_lt hlt), Nat.mod_eq_of_lt hlt, he, Nat.pow_zero,
      Nat.mul_one]

end Luaxx.SmallFloat
