import Luaxx.Json.Output
import Mathlib.Algebra.Order.Ring.Int

/-!
# How a buffer grows

A request that does not fit enlarges the buffer by one of two rules. The exponential one finds a size
that is large enough if there is one among the `int`s. The linear one rounds up the size that the
buffer has, whatever is requested.
-/

namespace Luaxx.Json

open Luaxx.Result Strbuf

/-! ## Sizes without overflow -/

/-- The result of an operation on `int`s, where it is one. -/
def exact (n : Int) : Option Int := if -2 ^ 31 ≤ n ∧ n ≤ INT_MAX then some n else none

/-- The loop of the exponential sizing, without overflow. -/
def enlargeExact (increment reqsize : Int) : Nat → Int → Option Int
  | 0, _ => none
  | fuel + 1, newsize =>
    if newsize < reqsize then do
      let factor ← exact (-increment)
      let newsize ← exact (newsize * factor)
      enlargeExact increment reqsize fuel newsize
    else some newsize

/-- `calculate_new_size` without overflow. -/
def sizeExact (s : Strbuf) (len : Int) : Option Int :=
  if len ≤ 0 then none
  else do
    let reqsize ← exact (len + 1)
    if reqsize < s.size then some reqsize
    else if s.increment < 0 then enlargeExact s.increment reqsize (2 ^ 32 + 1) s.size
    else do
      let sum ← exact (s.size + s.increment)
      let sum ← exact (sum - 1)
      exact (sum.tdiv s.increment * s.increment)

theorem exact_eq {n m : Int} (h : exact n = some m) : m = n ∧ -2 ^ 31 ≤ n ∧ n ≤ INT_MAX := by
  rw [exact] at h
  split_ifs at h with hn
  cases h
  exact ⟨rfl, hn⟩

theorem exact_of {n : Int} (h1 : -2 ^ 31 ≤ n) (h2 : n ≤ INT_MAX) : exact n = some n := if_pos ⟨h1, h2⟩

theorem int_of_exact {n m : Int} (h : exact n = some m) : int n = m := by
  obtain ⟨rfl, h1, h2⟩ := exact_eq h
  exact int_eq h1 (by rw [INT_MAX] at h2; omega)

theorem enlarge_of_exact {increment reqsize : Int} {fuel : Nat} {n m : Int}
    (h : enlargeExact increment reqsize fuel n = some m) :
    enlarge increment reqsize fuel n = .ok m := by
  induction fuel generalizing n with
  | zero => cases h
  | succ fuel ih =>
    rw [enlargeExact] at h
    rw [enlarge]
    split_ifs at h ⊢ with hlt
    · obtain ⟨factor, hfactor, h⟩ := Option.bind_eq_some_iff.mp h
      obtain ⟨n', hn', h⟩ := Option.bind_eq_some_iff.mp h
      rw [(exact_eq hfactor).1] at hn'
      rw [int_of_exact hn']
      exact ih h
    · cases h
      rfl

/-- A size that is computed without overflow is the one that the code computes. -/
theorem size_of_exact {s : Strbuf} {len m : Int} (h : sizeExact s len = some m) :
    calculate_new_size s len = .ok m := by
  rw [sizeExact] at h
  rw [calculate_new_size]
  by_cases hlen : len ≤ 0
  · rw [if_pos hlen] at h
    cases h
  rw [if_neg hlen] at h ⊢
  obtain ⟨reqsize, hreq, h⟩ := Option.bind_eq_some_iff.mp h
  rw [int_of_exact hreq]
  dsimp only
  by_cases hshrink : reqsize < s.size
  · rw [if_pos hshrink] at h ⊢
    cases h
    rfl
  rw [if_neg hshrink] at h ⊢
  by_cases hexp : s.increment < 0
  · rw [if_pos hexp] at h ⊢
    exact enlarge_of_exact h
  · rw [if_neg hexp] at h ⊢
    obtain ⟨sum, hsum, h⟩ := Option.bind_eq_some_iff.mp h
    obtain ⟨sum', hsum', h⟩ := Option.bind_eq_some_iff.mp h
    rw [int_of_exact hsum, int_of_exact hsum', int_of_exact h]

/-! ## When there is a size -/

/-- The `k`-th size is large enough, and no `int` is exceeded before it. -/
theorem enlargeExact_of {factor reqsize : Int} (hfactor : 2 ≤ factor) {k fuel : Nat} {n : Int}
    (hn : 0 < n) (hfuel : k < fuel) (hle : reqsize ≤ n * factor ^ k) (hmax : n * factor ^ k ≤ INT_MAX) :
    ∃ m, enlargeExact (-factor) reqsize fuel n = some m ∧ reqsize ≤ m := by
  induction k generalizing n fuel with
  | zero =>
    obtain ⟨fuel, rfl⟩ := Nat.exists_eq_succ_of_ne_zero (Nat.ne_of_gt hfuel)
    rw [pow_zero, mul_one] at hle
    exact ⟨n, by rw [enlargeExact, if_neg (by omega)], hle⟩
  | succ k ih =>
    obtain ⟨fuel, rfl⟩ := Nat.exists_eq_succ_of_ne_zero (Nat.ne_of_gt (Nat.zero_lt_of_lt hfuel))
    rw [enlargeExact]
    by_cases hlt : n < reqsize
    · have hpow : 1 ≤ factor ^ k := one_le_pow₀ (by omega)
      have hprod : n * factor ^ (k + 1) = n * factor * factor ^ k := by ring
      rw [hprod] at hle hmax
      have hstep : 0 < n * factor := Int.mul_pos hn (by omega)
      have hnext : n * factor ≤ n * factor * factor ^ k := le_mul_of_one_le_right hstep.le hpow
      have hone : factor ≤ n * factor := le_mul_of_one_le_left (by omega) hn
      rw [if_pos hlt, Int.neg_neg, exact_of (by omega) (by omega), Option.bind_eq_bind,
        Option.bind_some, exact_of (by omega) (by omega), Option.bind_some]
      exact ih hstep (by omega) hle hmax
    · rw [if_neg hlt]
      exact ⟨n, rfl, by omega⟩

/-- Every size is the first one times a power of the factor. -/
theorem enlargeExact_eq {increment reqsize : Int} {fuel : Nat} {n m : Int}
    (h : enlargeExact increment reqsize fuel n = some m) :
    reqsize ≤ m ∧ ∃ k, m = n * (-increment) ^ k := by
  induction fuel generalizing n with
  | zero => cases h
  | succ fuel ih =>
    rw [enlargeExact] at h
    by_cases hlt : n < reqsize
    · rw [if_pos hlt] at h
      obtain ⟨factor, hfactor, h⟩ := Option.bind_eq_some_iff.mp h
      obtain ⟨n', hn', h⟩ := Option.bind_eq_some_iff.mp h
      obtain ⟨hle, k, rfl⟩ := ih h
      refine ⟨hle, k + 1, ?_⟩
      rw [(exact_eq hn').1, (exact_eq hfactor).1]
      ring
    · rw [if_neg hlt] at h
      cases h
      exact ⟨by omega, 0, by rw [pow_zero, mul_one]⟩

theorem enlargeExact_le {increment reqsize : Int} {fuel : Nat} {n m : Int} (hn : n ≤ INT_MAX)
    (h : enlargeExact increment reqsize fuel n = some m) : m ≤ INT_MAX := by
  induction fuel generalizing n with
  | zero => cases h
  | succ fuel ih =>
    rw [enlargeExact] at h
    by_cases hlt : n < reqsize
    · rw [if_pos hlt] at h
      obtain ⟨factor, -, h⟩ := Option.bind_eq_some_iff.mp h
      obtain ⟨n', hn', h⟩ := Option.bind_eq_some_iff.mp h
      obtain ⟨rfl, -, hle⟩ := exact_eq hn'
      exact ih hle h
    · rw [if_neg hlt] at h
      cases h
      exact hn

/-- A buffer with an increment that `strbuf_set_increment` accepts. -/
structure Strbuf.Usable (s : Strbuf) : Prop where
  increment_ne : s.increment ≠ 0 ∧ s.increment ≠ -1
  increment_int : -2 ^ 31 ≤ s.increment ∧ s.increment ≤ INT_MAX
  size_pos : 0 < s.size
  size_int : s.size ≤ INT_MAX
  length_le : s.length ≤ s.size

/-- The exponential rule has a size for the string of length `len`. -/
def Multiplies (s : Strbuf) (len : Int) : Prop :=
  ∃ k, len + 1 ≤ s.size * (-s.increment) ^ k ∧ s.size * (-s.increment) ^ k ≤ INT_MAX

/-- No multiple of the increment is between the size and the length of the string. -/
def SameStep (s : Strbuf) (len : Int) : Prop :=
  s.size + s.increment ≤ INT_MAX ∧ (s.size - 1) / s.increment = len / s.increment

def Growable (s : Strbuf) (len : Int) : Prop :=
  if s.increment < 0 then Multiplies s len else SameStep s len

/-- The buffer has room for a string of the length and for a zero byte, the content is kept, and no
`int` has been exceeded. -/
structure Grown (s : Strbuf) (len : Int) (r : M Strbuf) : Prop where
  grown : ∃ size, sizeExact s len = some size ∧ r = .ok { s with size := size } ∧ len + 1 ≤ size

theorem resize_of_exact {s : Strbuf} {len size : Int} (h : sizeExact s len = some size)
    (hsize : 0 ≤ size) : strbuf_resize s len = .ok { s with size := size } := by
  rw [strbuf_resize, size_of_exact h, ok_bind, if_neg (by omega)]

section

variable {s : Strbuf} {len : Int}

theorem sizeExact_eq (hlen : 1 ≤ len) (hmax : len + 1 ≤ INT_MAX) (hle : s.size ≤ len) :
    sizeExact s len = if s.increment < 0 then enlargeExact s.increment (len + 1) (2 ^ 32 + 1) s.size
      else (exact (s.size + s.increment)).bind fun sum => (exact (sum - 1)).bind fun sum =>
        exact (sum.tdiv s.increment * s.increment) := by
  have hreq : exact (len + 1) = some (len + 1) := exact_of (by omega) hmax
  rw [sizeExact, if_neg (by omega), hreq]
  show (if len + 1 < s.size then some (len + 1) else _) = _
  rw [if_neg (by omega)]
  rfl

/-- The exponential rule. -/
theorem exists_enlarged_iff (hs : s.Usable) (hneg : s.increment < 0) (hle : s.size ≤ len) :
    (∃ size, enlargeExact s.increment (len + 1) (2 ^ 32 + 1) s.size = some size ∧ len + 1 ≤ size) ↔
      Multiplies s len := by
  have hne := hs.increment_ne
  have hpos := hs.size_pos
  constructor
  · rintro ⟨size, hsize, hfit⟩
    obtain ⟨-, k, rfl⟩ := enlargeExact_eq hsize
    exact ⟨k, hfit, enlargeExact_le hs.size_int hsize⟩
  · rintro ⟨k, hfit, hmax⟩
    have hfactor : 2 ≤ -s.increment := by omega
    have hk : k < 2 ^ 32 + 1 := by
      have hpow : (2 : Int) ^ k ≤ (-s.increment) ^ k := pow_le_pow_left₀ (by decide) hfactor k
      have hprod : (-s.increment) ^ k ≤ s.size * (-s.increment) ^ k :=
        le_mul_of_one_le_left (Int.pow_pos (by omega)).le hpos
      have htwo : (k : Int) < 2 ^ k := by exact_mod_cast Nat.lt_two_pow_self
      rw [INT_MAX] at hmax
      omega
    obtain ⟨size, hsize, hle⟩ := enlargeExact_of hfactor hpos hk hfit hmax
    rw [Int.neg_neg] at hsize
    exact ⟨size, hsize, hle⟩

/-- The linear rule. -/
theorem exists_rounded_iff (hs : s.Usable) (hpos : 0 < s.increment) (hle : s.size ≤ len) :
    (∃ size, ((exact (s.size + s.increment)).bind fun sum => (exact (sum - 1)).bind fun sum =>
      exact (sum.tdiv s.increment * s.increment)) = some size ∧ len + 1 ≤ size) ↔
      SameStep s len := by
  have hsize := hs.size_pos
  have hround : (s.size + s.increment - 1).tdiv s.increment = (s.size - 1) / s.increment + 1 := by
    rw [Int.tdiv_eq_ediv_of_nonneg (by omega),
      show s.size + s.increment - 1 = s.size - 1 + 1 * s.increment by omega,
      Int.add_mul_ediv_right _ _ (Int.ne_of_gt hpos)]
  have hquot : (s.size - 1) / s.increment ≤ len / s.increment :=
    Int.ediv_le_ediv hpos (by omega)
  constructor
  · rintro ⟨size, h, hfit⟩
    obtain ⟨sum, hsum, h⟩ := Option.bind_eq_some_iff.mp h
    obtain ⟨sum', hsum', h⟩ := Option.bind_eq_some_iff.mp h
    obtain ⟨rfl, -, hmax⟩ := exact_eq hsum
    obtain ⟨rfl, -⟩ := exact_eq hsum'
    obtain ⟨rfl, -⟩ := exact_eq h
    rw [hround] at hfit
    have hlt : len / s.increment < (s.size - 1) / s.increment + 1 :=
      Int.ediv_lt_of_lt_mul hpos (by omega)
    exact ⟨hmax, by omega⟩
  · rintro ⟨hmax, hstep⟩
    have hlt := Int.lt_ediv_add_one_mul_self len hpos
    have hmul : ((s.size - 1) / s.increment + 1) * s.increment ≤ s.size - 1 + s.increment := by
      have := Int.ediv_mul_le (s.size - 1) (Int.ne_of_gt hpos)
      rw [Int.add_mul, Int.one_mul]
      omega
    refine ⟨((s.size - 1) / s.increment + 1) * s.increment, ?_, ?_⟩
    · rw [exact_of (by omega) hmax, Option.bind_some, exact_of (by omega) (by omega),
        Option.bind_some, hround]
      rw [hstep]
      rw [hstep] at hmul
      exact exact_of (by omega) (by omega)
    · rw [hstep]
      omega

/-- A request that does not fit gets its room exactly if there is a size for it by the rule. -/
theorem strbuf_ensure_empty_length_grown_iff (hs : s.Usable) {n : Int}
    (hfull : strbuf_empty_length s < n) (hlen : 1 ≤ s.length + n) (hmax : s.length + n + 1 ≤ INT_MAX) :
    Grown s (s.length + n) (strbuf_ensure_empty_length s n) ↔ Growable s (s.length + n) := by
  have hint : INT_MAX = 2 ^ 31 - 1 := rfl
  have hlength : 0 ≤ s.length := Int.natCast_nonneg _
  have hle := hs.length_le
  have hsize := hs.size_int
  have hpos := hs.size_pos
  have hempty : strbuf_empty_length s = s.size - s.length - 1 := int_eq (by omega) (by omega)
  rw [hempty] at hfull
  have hcall : strbuf_ensure_empty_length s n = strbuf_resize s (s.length + n) := by
    rw [strbuf_ensure_empty_length, hempty, if_pos hfull, int_eq (by omega) (by omega)]
  have hgrown : Grown s (s.length + n) (strbuf_ensure_empty_length s n) ↔
      ∃ size, sizeExact s (s.length + n) = some size ∧ s.length + n + 1 ≤ size := by
    rw [hcall]
    constructor
    · rintro ⟨size, hexact, -, hfit⟩
      exact ⟨size, hexact, hfit⟩
    · rintro ⟨size, hexact, hfit⟩
      exact ⟨size, hexact, resize_of_exact hexact (by omega), hfit⟩
  rw [hgrown, sizeExact_eq hlen hmax (by omega), Growable]
  by_cases hneg : s.increment < 0
  · rw [if_pos hneg, if_pos hneg]
    exact exists_enlarged_iff hs hneg (by omega)
  · have hne := hs.increment_ne
    rw [if_neg hneg, if_neg hneg]
    exact exists_rounded_iff hs (by omega) (by omega)

/-- The linear rule makes 1024 bytes of 1023 for a string of 2000. -/
theorem linear_increment_too_small :
    ¬ Grown ⟨[], 1023, 512⟩ 2000 (strbuf_ensure_empty_length ⟨[], 1023, 512⟩ 2000) := by
  rintro ⟨size, hexact, -, hfit⟩
  have hsize : sizeExact ⟨[], 1023, 512⟩ 2000 = some 1024 := by decide
  rw [hsize] at hexact
  cases hexact
  revert hfit
  decide

/-- The default increment doubles the size. -/
theorem default_increment_grows :
    Grown ⟨[], 1023, -2⟩ 2000 (strbuf_ensure_empty_length ⟨[], 1023, -2⟩ 2000) := by
  have hs : Strbuf.Usable ⟨[], 1023, -2⟩ :=
    ⟨by decide, by decide, by decide, by decide, by decide⟩
  refine (strbuf_ensure_empty_length_grown_iff hs (n := 2000) (by decide) (by decide)
    (by decide)).mpr ?_
  exact (if_pos (show (-2 : Int) < 0 by decide)).mpr ⟨1, by decide, by decide⟩

end

end Luaxx.Json
