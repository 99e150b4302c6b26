import Mathlib.Tactic.Common

/-!
# The first place in a range

The outcome of a search through the places from `lo` to `hi`: the first one with the property, or
none where no place has it.
-/

namespace Luaxx.First

variable {P Q : Nat → Prop} {lo hi : Nat} {r r' : Option Nat}

/-- A search for `P` from `lo` to `hi` ends with `r`. -/
def IsFirst (P : Nat → Prop) (lo hi : Nat) : Option Nat → Prop
  | some i => lo ≤ i ∧ i ≤ hi ∧ P i ∧ ∀ j, lo ≤ j → j < i → ¬ P j
  | none => ∀ j, lo ≤ j → j ≤ hi → ¬ P j

theorem IsFirst.unique (h : IsFirst P lo hi r) (h' : IsFirst P lo hi r') : r = r' := by
  cases r with
  | none =>
    cases r' with
    | none => rfl
    | some j =>
      obtain ⟨hlo, hhi, hP, -⟩ := h'
      exact absurd hP (h j hlo hhi)
  | some i =>
    obtain ⟨hlo, hhi, hP, hbefore⟩ := h
    cases r' with
    | none => exact absurd hP (h' i hlo hhi)
    | some j =>
      obtain ⟨hlo', -, hP', hbefore'⟩ := h'
      rcases Nat.lt_trichotomy i j with hlt | rfl | hlt
      · exact absurd hP (hbefore' i hlo hlt)
      · rfl
      · exact absurd hP' (hbefore j hlo' hlt)

/-- The first place is the first of the range. -/
theorem IsFirst.here (hle : lo ≤ hi) (h : P lo) : IsFirst P lo hi (some lo) :=
  ⟨Nat.le_refl lo, hle, h, fun _ h1 h2 => absurd h2 (Nat.not_lt.mpr h1)⟩

/-- Places without the property are skipped. -/
theorem IsFirst.skip {mid : Nat} (hmid : lo ≤ mid) (hskip : ∀ j, lo ≤ j → j < mid → ¬ P j)
    (h : IsFirst P mid hi r) : IsFirst P lo hi r := by
  cases r with
  | none =>
    intro j hlo hhi
    by_cases hj : j < mid
    · exact hskip j hlo hj
    · exact h j (Nat.le_of_not_lt hj) hhi
  | some i =>
    obtain ⟨hi1, hi2, hP, hbefore⟩ := h
    refine ⟨Nat.le_trans hmid hi1, hi2, hP, fun j hlo hj => ?_⟩
    by_cases hjm : j < mid
    · exact hskip j hlo hjm
    · exact hbefore j (Nat.le_of_not_lt hjm) hj

theorem IsFirst.next (hskip : ¬ P lo) (h : IsFirst P (lo + 1) hi r) : IsFirst P lo hi r := by
  refine h.skip (Nat.le_succ lo) fun j h1 h2 => ?_
  obtain rfl : j = lo := by omega
  exact hskip

/-- An empty range. -/
theorem isFirst_none (h : hi < lo) : IsFirst P lo hi none := fun j h1 h2 => by omega

end Luaxx.First
