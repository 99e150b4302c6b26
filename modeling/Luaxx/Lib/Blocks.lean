import Mathlib.Data.List.Basic
import Mathlib.Tactic.Ring

/-!
# Iterated compression over fixed-size blocks

A block hash folds a compression function `f : σ → List α → σ` over the consecutive blocks of
`n` elements of its input. `absorb` is that fold with the number of blocks as its recursion
argument, so it computes; `absorbAll` takes as many whole blocks as the list has.

The one fact every streaming implementation rests on is `absorbAll_append`: absorbing a list
whose length is a multiple of the block size and then another one is absorbing their
concatenation.
-/

namespace Luaxx.Blocks

variable {α σ : Type*} (n : Nat) (f : σ → List α → σ)

/-- Fold `f` over the first `k` blocks of `n` elements of `l`. -/
def absorb : Nat → σ → List α → σ
  | 0, s, _ => s
  | k + 1, s, l => absorb k (f s (l.take n)) (l.drop n)

/-- Fold `f` over all the whole blocks of `l`. -/
def absorbAll (s : σ) (l : List α) : σ := absorb n f (l.length / n) s l

@[simp] theorem absorb_zero (s : σ) (l : List α) : absorb n f 0 s l = s := rfl

theorem absorb_succ (k : Nat) (s : σ) (l : List α) :
    absorb n f (k + 1) s l = absorb n f k (f s (l.take n)) (l.drop n) := rfl

/-- Blocks are absorbed one after the other. -/
theorem absorb_add (j k : Nat) (s : σ) (l : List α) :
    absorb n f (j + k) s l = absorb n f k (absorb n f j s l) (l.drop (j * n)) := by
  induction j generalizing s l with
  | zero => simp
  | succ j ih =>
      rw [Nat.add_right_comm, absorb_succ, absorb_succ, ih, List.drop_drop]
      congr 2
      ring

/-- What follows the absorbed blocks does not matter. -/
theorem absorb_append (k : Nat) (s : σ) (l r : List α) (h : k * n ≤ l.length) :
    absorb n f k s (l ++ r) = absorb n f k s l := by
  induction k generalizing s l with
  | zero => rfl
  | succ k ih =>
      have hn : n ≤ l.length := by
        have : n ≤ (k + 1) * n := Nat.le_mul_of_pos_left n (Nat.succ_pos k)
        omega
      have hk : k * n ≤ (l.drop n).length := by
        rw [List.length_drop]
        have : (k + 1) * n = k * n + n := by ring
        omega
      rw [absorb_succ, absorb_succ, List.take_append_of_le_length hn,
        List.drop_append_of_le_length hn, ih _ _ hk]

variable {n}

/-- Absorbing whole blocks and then the rest is absorbing the concatenation. -/
theorem absorbAll_append (hn : 0 < n) (s : σ) (a b : List α) (ha : n ∣ a.length) :
    absorbAll n f s (a ++ b) = absorbAll n f (absorbAll n f s a) b := by
  obtain ⟨k, hk⟩ := ha
  have hlen : (a ++ b).length / n = k + b.length / n := by
    rw [List.length_append, hk, Nat.mul_add_div hn]
  have hka : k * n = a.length := by rw [hk, Nat.mul_comm]
  have hdiv : a.length / n = k := by rw [hk, Nat.mul_div_cancel_left _ hn]
  unfold absorbAll
  rw [hlen, hdiv, absorb_add, absorb_append n f k s a b hka.le, hka, List.drop_left]

/-- A single whole block is compressed once. -/
theorem absorbAll_block (hn : 0 < n) (s : σ) (b : List α) (hb : b.length = n) :
    absorbAll n f s b = f s b := by
  have h1 : b.length / n = 1 := by rw [hb, Nat.div_self hn]
  unfold absorbAll
  rw [h1, absorb_succ, absorb_zero, ← hb, List.take_length]

/-- A list shorter than a block leaves the state alone. -/
theorem absorbAll_of_lt (s : σ) (b : List α) (hb : b.length < n) :
    absorbAll n f s b = s := by
  unfold absorbAll
  rw [Nat.div_eq_of_lt hb, absorb_zero]

end Luaxx.Blocks
