import Luaxx.Core.Number

/-!
# Whole numbers from 1 on

They are ordered like the numbers of `Nat` that they are, infinity included.
-/

namespace Luaxx.Number

/-- `floor(k) == k && k >= 1` -/
def Index (k : Number) : Prop := k.isWhole = true ∧ luai_numle (cast_num 1) k = true

instance : DecidablePred Index := fun _ => inferInstanceAs (Decidable (_ ∧ _))

variable {k k' : Number}

theorem toNat_cast_num_one : (cast_num 1).toNat = 1023 * 2 ^ 52 := by decide

/-- The bits of a number from 1 on. -/
theorem one_le (h : luai_numle (cast_num 1) k = true) :
    k.isNaN = false ∧ k.negative = false ∧ 1023 * 2 ^ 52 ≤ k.toNat := by
  rw [luai_numle, Bool.or_eq_true] at h
  rcases h with h | h
  · have hpos : (cast_num 1).negative = false := by decide
    simp only [luai_numlt, hpos, Bool.and_eq_true, Bool.not_eq_true', Bool.false_eq_true, if_false,
      decide_eq_true_eq] at h
    obtain ⟨⟨⟨-, hnan⟩, -⟩, hneg, hlt⟩ := h
    rw [toNat_cast_num_one] at hlt
    exact ⟨hnan, hneg, le_of_lt hlt⟩
  · obtain ⟨-, -, rfl | ⟨hzero, -⟩⟩ := luai_numeq_iff.mp h
    · exact ⟨by decide, by decide, le_of_eq toNat_cast_num_one.symm⟩
    · exact absurd hzero (by decide)

theorem Index.not_nan (h : k.Index) : k.isNaN = false := (one_le h.2).1

theorem Index.not_zero (h : k.Index) : k.isZero = false := by
  obtain ⟨-, hneg, hle⟩ := one_le h.2
  rw [negative, decide_eq_false_iff_not] at hneg
  rw [isZero, beq_eq_false_iff_ne]
  omega

theorem pow_split {i j n : Nat} (h : i + j = n) : 2 ^ i * 2 ^ j = 2 ^ n := by
  rw [← Nat.pow_add, h]

theorem div_mul_split {a p q n : Nat} (hsplit : p * q = n) (hdvd : p ∣ a) : a / p * n = a * q := by
  rw [← hsplit, ← Nat.mul_assoc, Nat.div_mul_cancel hdvd]

/-- The number is its significand times a power of two. -/
theorem Index.exists_fields (h : k.Index) : ∃ e f, f < 2 ^ 52 ∧
    k.toNat = (e + 1023) * 2 ^ 52 + f ∧ k.truncate * 2 ^ 52 = (2 ^ 52 + f) * 2 ^ e := by
  obtain ⟨hnan, hneg, hle⟩ := one_le h.2
  rw [negative, decide_eq_false_iff_not] at hneg
  have hwhole := h.1
  have hexp : k.exponent = k.toNat / 2 ^ 52 := by
    rw [exponent]
    omega
  have hge : 1023 ≤ k.exponent := by omega
  refine ⟨k.exponent - 1023, k.fraction, ?_, ?_, ?_⟩
  · rw [fraction]
    omega
  · rw [hexp, fraction]
    omega
  · rw [truncate, if_neg (by omega)]
    split
    · next hsmall =>
      -- the bits after the point are zero
      rw [isWhole, if_neg (by omega), if_pos hsmall, beq_iff_eq] at hwhole
      have hsplit : 2 ^ (1023 + 52 - k.exponent) * 2 ^ (k.exponent - 1023) = 2 ^ 52 :=
        pow_split (by omega)
      have hdvd : 2 ^ (1023 + 52 - k.exponent) ∣ 2 ^ 52 + k.fraction :=
        (Nat.dvd_add_right (Dvd.intro _ hsplit)).mpr (Nat.dvd_of_mod_eq_zero hwhole)
      exact div_mul_split hsplit hdvd
    · rw [Nat.mul_assoc, pow_split (by omega : k.exponent - (1023 + 52) + 52 = k.exponent - 1023)]

theorem Index.truncate_lt (h : k.Index) (h' : k'.Index) (hlt : k.toNat < k'.toNat) :
    k.truncate < k'.truncate := by
  obtain ⟨e, f, hf, hbits, heq⟩ := h.exists_fields
  obtain ⟨e', f', hf', hbits', heq'⟩ := h'.exists_fields
  apply Nat.lt_of_mul_lt_mul_right (a := 2 ^ 52)
  rw [heq, heq']
  have he : e ≤ e' := by omega
  rcases Nat.lt_or_eq_of_le he with he | rfl
  · calc (2 ^ 52 + f) * 2 ^ e < (2 ^ 52 + 2 ^ 52) * 2 ^ e :=
          Nat.mul_lt_mul_of_pos_right (by omega) (Nat.pow_pos (by decide))
      _ = 2 ^ 52 * 2 ^ (e + 1) := by
          rw [Nat.pow_succ]
          ring
      _ ≤ 2 ^ 52 * 2 ^ e' := Nat.mul_le_mul_left _ (Nat.pow_le_pow_right (by decide) he)
      _ ≤ (2 ^ 52 + f') * 2 ^ e' := Nat.mul_le_mul_right _ (by omega)
  · exact Nat.mul_lt_mul_of_pos_right (by omega) (Nat.pow_pos (by decide))

theorem Index.truncate_lt_iff (h : k.Index) (h' : k'.Index) :
    k.truncate < k'.truncate ↔ k.toNat < k'.toNat := by
  refine ⟨fun hlt => ?_, h.truncate_lt h'⟩
  by_contra hle
  rcases Nat.lt_or_eq_of_le (Nat.le_of_not_lt hle) with hgt | heq
  · exact absurd (h'.truncate_lt h hgt) (by omega)
  · rw [UInt64.toNat_inj.mp heq] at hlt
    exact Nat.lt_irrefl _ hlt

theorem Index.truncate_inj (h : k.Index) (h' : k'.Index) (heq : k.truncate = k'.truncate) :
    k = k' := by
  apply UInt64.toNat_inj.mp
  have h1 := h.truncate_lt_iff h'
  have h2 := h'.truncate_lt_iff h
  omega

theorem Index.truncate_pos (h : k.Index) : 0 < k.truncate := by
  obtain ⟨e, f, hf, hbits, heq⟩ := h.exists_fields
  rw [Nat.pos_iff_ne_zero]
  intro hzero
  rw [hzero, Nat.zero_mul] at heq
  have hpos : 0 < (2 ^ 52 + f) * 2 ^ e := Nat.mul_pos (by omega) (Nat.pow_pos (by decide))
  omega

theorem Index.toInt (h : k.Index) :
    lua_number2int k = if k.truncate < 2 ^ 31 then (k.truncate : Int) else -2 ^ 31 := by
  rw [lua_number2int, (one_le h.2).2.1]
  simp only [Bool.false_eq_true, if_false]
  split <;> split <;> omega

/-! ## Converted `int`s -/

theorem index_cast_num {i : Int} (h : 1 ≤ i) (hi : i < 2 ^ 31) :
    (cast_num i).Index ∧ ((cast_num i).truncate : Int) = i := by
  obtain ⟨e, f, he, hf, hfields, hbits⟩ := toNat_cast_num (by omega : i ≠ 0) (by omega)
  rw [if_neg (by omega), Nat.zero_add] at hbits
  have hexp : (cast_num i).exponent = e + 1023 := by
    rw [exponent, hbits]
    omega
  have hfrac : (cast_num i).fraction = f := by
    rw [fraction, hbits]
    omega
  have hsplit : 2 ^ (52 - e) * 2 ^ e = 2 ^ 52 := pow_split (by omega)
  have hbase : 1023 + 52 - (e + 1023) = 52 - e := by omega
  refine ⟨⟨?_, ?_⟩, ?_⟩
  · have hdvd : 2 ^ (52 - e) ∣ f := by
      rw [← Nat.dvd_add_right (Dvd.intro (2 ^ e) hsplit), hfields]
      exact Dvd.intro_left _ rfl
    rw [isWhole, hexp, if_neg (by omega), if_pos (by omega), hbase, hfrac, beq_iff_eq]
    exact Nat.mod_eq_zero_of_dvd hdvd
  · have hnan := cast_num_not_nan (show -2 ^ 31 ≤ i ∧ i < 2 ^ 31 by omega)
    rw [luai_numle, Bool.or_eq_true]
    rcases Nat.lt_or_ge (cast_num 1).toNat (cast_num i).toNat with hlt | hge
    · left
      have hneg : (cast_num i).negative = false := by
        rw [negative, decide_eq_false_iff_not, hbits]
        omega
      have hone : (cast_num 1).negative = false ∧ (cast_num 1).isNaN = false ∧
          (cast_num 1).isZero = false := by decide
      simp [luai_numlt, hone.1, hone.2.1, hone.2.2, hneg, hnan, hlt]
    · right
      have hle : (cast_num 1).toNat ≤ (cast_num i).toNat := by
        rw [toNat_cast_num_one, hbits]
        exact Nat.le_add_right_of_le (Nat.mul_le_mul_right _ (Nat.le_add_left 1023 e))
      have heq := Nat.le_antisymm hge hle
      rw [UInt64.toNat_inj.mp heq]
      decide
  · rw [truncate, hexp, hfrac, if_neg (by omega), if_pos (by omega), hbase, hfields,
      Nat.mul_div_cancel _ (Nat.pow_pos (by decide))]
    omega

theorem negative_cast_num {m : Int} (hm : -2 ^ 31 ≤ m ∧ m < 0) : (cast_num m).negative = true := by
  obtain ⟨e, f, he, hf, hfields, hbits⟩ := toNat_cast_num (by omega : m ≠ 0) (by omega)
  rw [if_pos (by omega)] at hbits
  rw [negative, decide_eq_true_eq, hbits]
  omega

/-- An `int` is compared with a whole number like the numbers that they are. -/
theorem Index.cast_num_lt (h : k.Index) {m : Int} (hm : -2 ^ 31 ≤ m ∧ m < 2 ^ 31) :
    luai_numlt (cast_num m) k = true ↔ m < k.truncate := by
  obtain ⟨hnan, hneg, hle⟩ := one_le h.2
  have hnan' := cast_num_not_nan hm
  have hzero := h.not_zero
  simp only [luai_numlt, hnan, hnan', hzero, hneg, Bool.not_false, Bool.true_and, Bool.and_false,
    Bool.true_or]
  rcases Int.lt_trichotomy m 0 with hlt | rfl | hgt
  · rw [negative_cast_num ⟨hm.1, hlt⟩]
    simp only [if_true, true_iff]
    omega
  · have hbits : (cast_num 0).toNat = 0 := rfl
    have hpos := h.truncate_pos
    have hneg' : (cast_num 0).negative = false := by decide
    rw [hneg', hbits]
    simp only [Bool.false_eq_true, if_false, decide_eq_true_eq]
    omega
  · obtain ⟨hindex, htrunc⟩ := index_cast_num (by omega : 1 ≤ m) hm.2
    have hneg' := (one_le hindex.2).2.1
    rw [hneg']
    simp only [Bool.false_eq_true, if_false, decide_eq_true_eq]
    rw [← hindex.truncate_lt_iff h]
    omega

/-- The whole numbers that are equal to an `int`. -/
theorem Index.eq_cast_num (h : k.Index) {i : Int} (hi : 1 ≤ i ∧ i < 2 ^ 31) :
    luai_numeq k (cast_num i) = true ↔ (k.truncate : Int) = i := by
  obtain ⟨hindex, htrunc⟩ := index_cast_num hi.1 hi.2
  constructor
  · intro heq
    rcases (luai_numeq_iff.mp heq).2.2 with rfl | ⟨hzero, -⟩
    · exact htrunc
    · rw [h.not_zero] at hzero
      cases hzero
  · intro heq
    have hk : k = cast_num i := h.truncate_inj hindex (by omega)
    rw [← hk]
    exact luai_numeq_iff.mpr ⟨h.not_nan, h.not_nan, .inl rfl⟩

theorem cast_num_inj {i i' : Int} (hi : 1 ≤ i ∧ i < 2 ^ 31) (hi' : 1 ≤ i' ∧ i' < 2 ^ 31)
    (h : cast_num i = cast_num i') : i = i' := by
  rw [← (index_cast_num hi.1 hi.2).2, h, (index_cast_num hi'.1 hi'.2).2]

end Luaxx.Number
