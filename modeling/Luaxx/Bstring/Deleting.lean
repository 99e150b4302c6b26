import Luaxx.Bstring.Refinement

/-!
# Which bytes are deleted

`bdelete` clamps what it is asked to delete to the string, and is right as long as the sum that it
computes for this is an `int`.
-/

namespace Luaxx.Bstr

open Luaxx.Int32 Luaxx.Memory

/-- The bytes that are not in the interval from `pos` to `pos + len`. -/
def deleted (l : List UInt8) (pos len : Int) : List UInt8 :=
  l.take pos.toNat ++ l.drop (pos + len).toNat

/-- What a call of `bdelete` has to do, with an outcome and so within the block. -/
structure Deletes (b : Bstring) (l : List UInt8) (pos len : Int) (r : Option (Int × Bstring)) :
    Prop where
  within : 0 ≤ len ∧ 0 ≤ pos + len →
    ∃ b', r = some (BSTR_OK, b') ∧ Represents b' (deleted l pos len)
  other : ¬ (0 ≤ len ∧ 0 ≤ pos + len) → ∃ code, r = some (code, b)

/-- `len + pos` for a negative `pos`, or `pos + len` for one within the string, is no `int`, and wraps
around to a number that makes a difference. -/
def DeleteOverflows (b : Bstring) (pos len : Int) : Prop :=
  (0 < b.slen ∧ pos < 0 ∧ -2 ^ 32 < pos + len ∧ pos + len < -2 ^ 31) ∨
    (0 ≤ pos ∧ pos < b.slen ∧ 2 ^ 31 ≤ pos + len)

variable {b : Bstring} {l : List UInt8} {pos len : Int}

theorem bdelete_left (hpos : pos < 0) : bdelete b pos len = bdelete b 0 (wrap (len + pos)) := by
  rw [bdelete, bdelete, if_pos hpos, if_pos hpos, if_neg (Int.lt_irrefl 0), if_neg (Int.lt_irrefl 0)]

theorem bdelete_error (hpos : 0 ≤ pos) (hlen : len < 0) : bdelete b pos len = some (BSTR_ERR, b) := by
  have hleft : ¬ pos < 0 := by omega
  rw [bdelete, if_neg hleft, if_neg hleft]
  exact if_pos (Or.inl hlen)

/-- Nothing is deleted where no byte is in the interval. -/
theorem bdelete_none (h : Represents b l) (hpos : 0 ≤ pos) (hlen : 0 ≤ len)
    (hnone : len = 0 ∨ b.slen ≤ pos) : bdelete b pos len = some (BSTR_OK, b) := by
  have hbounds := h.bounds
  have hleft : ¬ pos < 0 := by omega
  have hguard : ¬ (len < 0 ∨ b.slen < 0 ∨ b.mlen < b.slen ∨ b.mlen ≤ 0) := by omega
  have hkeep : ¬ (0 < len ∧ pos < b.slen) := by omega
  rw [bdelete, if_neg hleft, if_neg hleft, if_neg hguard, if_neg hkeep]

theorem deleted_without (hpos : 0 ≤ pos) (hlen : 0 ≤ len) :
    deleted l pos len = without l pos.toNat len.toNat := by
  rw [deleted, without, Int.toNat_add hpos hlen]

theorem deleted_left (hpos : pos < 0) : deleted l pos len = deleted l 0 (len + pos) := by
  rw [deleted, deleted, Int.toNat_of_nonpos (Int.le_of_lt hpos), Int.toNat_zero, Int.zero_add,
    Int.add_comm]

theorem deleted_behind (hpos : l.length ≤ pos) (hlen : 0 ≤ len) : deleted l pos len = l := by
  rw [deleted, List.take_of_length_le (by omega), List.drop_eq_nil_of_le (by omega),
    List.append_nil]

/-- The sum is negative, so that the length is lessened by what was to be deleted. -/
theorem bdelete_over (h : Represents b l) (hpos : 0 ≤ pos) (hint : len < 2 ^ 31)
    (hlt : pos < b.slen) (hover : 2 ^ 31 ≤ pos + len) {code : Int} {b' : Bstring}
    (hcall : bdelete b pos len = some (code, b')) : b'.slen = b.slen - len := by
  have hslen := h.slen
  have hmlen := h.mlen
  have hsmall := h.small
  have hlength := h.length_lt
  have hleft : ¬ pos < 0 := by omega
  have hguard : ¬ (len < 0 ∨ b.slen < 0 ∨ b.mlen < b.slen ∨ b.mlen ≤ 0) := by omega
  have htail : ¬ b.slen ≤ wrap (pos + len) := by
    rw [wrap]
    omega
  rw [bdelete, if_neg hleft, if_neg hleft, if_neg hguard, if_pos ⟨by omega, hlt⟩, removed,
    if_neg htail] at hcall
  obtain ⟨b₁, hremoved, hcall⟩ := Option.bind_eq_some_iff.mp hcall
  obtain ⟨x, -, hremoved⟩ := Option.bind_eq_some_iff.mp hremoved
  obtain ⟨b₂, hterminate, hcall⟩ := Option.bind_eq_some_iff.mp hcall
  cases hcall
  cases hremoved
  rw [terminate] at hterminate
  split_ifs at hterminate
  obtain ⟨y, -, hterminate⟩ := Option.bind_eq_some_iff.mp hterminate
  cases hterminate
  exact wrap_eq (by omega) (by omega)

/-- Within the string, the sum of the arguments has to be an `int`. -/
theorem deletes_right_iff (h : Represents b l) (hpos : 0 ≤ pos) (hlen : 0 ≤ len)
    (hint : len < 2 ^ 31) : Deletes b l pos len (bdelete b pos len) ↔
      ¬ (pos < b.slen ∧ 2 ^ 31 ≤ pos + len) := by
  have hslen := h.slen
  have hmlen := h.mlen
  have hsmall := h.small
  have hlength := h.length_lt
  have hin : 0 ≤ len ∧ 0 ≤ pos + len := ⟨hlen, Int.add_nonneg hpos hlen⟩
  by_cases hover : pos < b.slen ∧ 2 ^ 31 ≤ pos + len
  · refine ⟨fun hdel => ?_, fun hno => absurd hover hno⟩
    obtain ⟨b', hcall, hrep⟩ := hdel.within hin
    have hless := bdelete_over h hpos hint hover.1 hover.2 hcall
    have hrest : (deleted l pos len).length = pos.toNat := by
      rw [deleted, List.drop_eq_nil_of_le (by omega), List.append_nil, List.length_take]
      omega
    have hslen' := hrep.slen
    omega
  · refine ⟨fun _ => hover, fun _ => ⟨fun _ => ?_, fun hout => absurd hin hout⟩⟩
    by_cases hbehind : b.slen ≤ pos
    · rw [bdelete_none h hpos hlen (.inr hbehind), deleted_behind (by omega) hlen]
      exact ⟨b, rfl, h⟩
    · rw [deleted_without hpos hlen]
      exact bdelete_spec h hpos hlen (by omega)

/-- To the left of the string, the bytes from its beginning on are deleted. -/
theorem deletes_left_iff (h : Represents b l) (hpos : pos < 0) (hpos' : -2 ^ 31 ≤ pos)
    (hlen : -2 ^ 31 ≤ len) (hlen' : len < 2 ^ 31) : Deletes b l pos len (bdelete b pos len) ↔
      ¬ (0 < b.slen ∧ -2 ^ 32 < pos + len ∧ pos + len < -2 ^ 31) := by
  have hslen := h.slen
  have hbounds := h.bounds
  rw [bdelete_left hpos]
  by_cases hin : 0 ≤ pos + len
  · -- the sum is what is left of the interval
    have hwrap : wrap (len + pos) = len + pos := wrap_eq (by omega) (by omega)
    rw [hwrap]
    refine ⟨fun _ hno => by omega, fun _ => ⟨fun _ => ?_, fun hout => absurd ⟨by omega, hin⟩ hout⟩⟩
    rw [deleted_left hpos, deleted_without (Int.le_refl 0) (by omega)]
    exact bdelete_spec h (Int.le_refl 0) (by omega) (by omega)
  have hout : ¬ (0 ≤ len ∧ 0 ≤ pos + len) := fun hno => hin hno.2
  have hiff : Deletes b l pos len (bdelete b 0 (wrap (len + pos))) ↔
      ∃ code, bdelete b 0 (wrap (len + pos)) = some (code, b) :=
    ⟨fun hdel => hdel.other hout, fun hcall => ⟨fun hno => absurd hno hout, fun _ => hcall⟩⟩
  rw [hiff]
  by_cases hneg : wrap (len + pos) < 0
  · -- the sum is negative, as it should be
    rw [bdelete_error (Int.le_refl 0) hneg]
    refine ⟨fun _ hno => ?_, fun _ => ⟨_, rfl⟩⟩
    rw [wrap] at hneg
    omega
  by_cases hnone : wrap (len + pos) = 0 ∨ b.slen ≤ 0
  · rw [bdelete_none h (Int.le_refl 0) (by omega) hnone]
    refine ⟨fun _ hno => ?_, fun _ => ⟨_, rfl⟩⟩
    rw [wrap] at hneg hnone
    omega
  · -- the sum has become positive, and bytes are deleted
    obtain ⟨b', hcall, hrep⟩ := bdelete_spec h (Int.le_refl 0) (by omega)
      (show 0 + wrap (len + pos) < 2 ^ 31 by rw [Int.zero_add]; exact wrap_lt _)
    have hslen' := hrep.slen
    rw [Int.toNat_zero] at hslen'
    have hless : (without l 0 (wrap (len + pos)).toNat).length < l.length := by
      rw [without, List.take_zero, List.nil_append, Nat.zero_add, List.length_drop]
      omega
    refine ⟨fun hsome => ?_, fun hno => ?_⟩
    · obtain ⟨code, hsame⟩ := hsome
      rw [hcall] at hsame
      cases hsame
      omega
    · exfalso
      apply hno
      rw [wrap] at hneg hnone
      omega

/-- `bdelete` deletes what it is asked to exactly if the sum that it computes does not overflow. -/
theorem bdelete_deletes_iff (h : Represents b l) (hpos : -2 ^ 31 ≤ pos) (hpos' : pos < 2 ^ 31)
    (hlen : -2 ^ 31 ≤ len) (hlen' : len < 2 ^ 31) :
    Deletes b l pos len (bdelete b pos len) ↔ ¬ DeleteOverflows b pos len := by
  rw [DeleteOverflows]
  by_cases hleft : pos < 0
  · rw [deletes_left_iff h hleft hpos hlen hlen']
    constructor
    · rintro hno (⟨hslen, -, hsum⟩ | ⟨hnonneg, -⟩)
      · exact hno ⟨hslen, hsum⟩
      · omega
    · exact fun hno hsum => hno (Or.inl ⟨hsum.1, hleft, hsum.2⟩)
  have hnonneg : 0 ≤ pos := by omega
  by_cases hneg : len < 0
  · rw [bdelete_error hnonneg hneg]
    refine ⟨fun _ hno => by omega, fun _ => ⟨fun hin => by omega, fun _ => ⟨_, rfl⟩⟩⟩
  · rw [deletes_right_iff h hnonneg (by omega) hlen']
    constructor
    · rintro hno (⟨-, hlt, -⟩ | ⟨-, hsum⟩)
      · omega
      · exact hno hsum
    · exact fun hno hsum => hno (Or.inr ⟨hnonneg, hsum⟩)

/-- `"ab"`. -/
def twoBytes : Bstring := ⟨8, 2, [some 97, some 98, some 0, none, none, none, none, none]⟩

theorem twoBytes_represents : Represents twoBytes [97, 98] :=
  ⟨rfl, rfl, by decide, ⟨[none, none, none, none, none], rfl⟩⟩

/-- Everything behind the first byte is to be deleted, and a byte is written before the block. -/
theorem bdelete_to_the_end : ¬ Deletes twoBytes [97, 98] 1 (2 ^ 31 - 1)
    (bdelete twoBytes 1 (2 ^ 31 - 1)) := by
  intro h
  obtain ⟨b', hcall, -⟩ := h.within (by decide)
  have hnone : bdelete twoBytes 1 (2 ^ 31 - 1) = none := by decide
  rw [hnone] at hcall
  cases hcall

theorem bdelete_first_byte : Deletes twoBytes [97, 98] (-1) 2 (bdelete twoBytes (-1) 2) := by
  refine (bdelete_deletes_iff twoBytes_represents (by decide) (by decide) (by decide)
    (by decide)).mpr ?_
  rintro (⟨-, -, -, hsum⟩ | ⟨hpos, -⟩)
  · revert hsum
    decide
  · revert hpos
    decide

end Luaxx.Bstr
