import Mathlib.Algebra.Order.Ring.Int
import Mathlib.Data.List.Nodup
import Mathlib.Data.List.Range
import Mathlib.Logic.Equiv.Basic

/-!
# Segments of an array

An array is a function on the integers. `Rearranged` says that it has only been permuted inside a
segment, `Ascending` that a segment is in order.
-/

namespace Luaxx.Segments

variable {α : Type*} {t t' t'' : Int → α} {l u i j : Int}

/-! ## Permutations of a segment -/

def Rearranged (l u : Int) (t t' : Int → α) : Prop :=
  ∃ f : Equiv.Perm Int, (∀ k, k < l ∨ u < k → f k = k) ∧ ∀ k, t' k = t (f k)

theorem Rearranged.refl (t : Int → α) : Rearranged l u t t := ⟨Equiv.refl Int, fun _ _ => rfl, fun _ => rfl⟩

theorem Rearranged.trans (h : Rearranged l u t t') (h' : Rearranged l u t' t'') :
    Rearranged l u t t'' := by
  obtain ⟨f, hf, ht⟩ := h
  obtain ⟨f', hf', ht'⟩ := h'
  refine ⟨f'.trans f, fun k hk => ?_, fun k => ?_⟩
  · rw [Equiv.trans_apply, hf' k hk, hf k hk]
  · rw [ht', ht, Equiv.trans_apply]

theorem Rearranged.mono (h : Rearranged l u t t') {l' u' : Int} (hl : l' ≤ l) (hu : u ≤ u') :
    Rearranged l' u' t t' := by
  obtain ⟨f, hf, ht⟩ := h
  refine ⟨f, fun k hk => hf k ?_, ht⟩
  omega

theorem Rearranged.outside (h : Rearranged l u t t') {k : Int} (hk : k < l ∨ u < k) :
    t' k = t k := by
  obtain ⟨f, hf, ht⟩ := h
  rw [ht, hf k hk]

/-- What holds of all elements of the segment still does. -/
theorem Rearranged.forall_mem (h : Rearranged l u t t') {P : α → Prop}
    (hP : ∀ k, l ≤ k → k ≤ u → P (t k)) (k : Int) (h1 : l ≤ k) (h2 : k ≤ u) : P (t' k) := by
  obtain ⟨f, hf, ht⟩ := h
  rw [ht]
  by_contra hnot
  have hout : f k < l ∨ u < f k := by
    by_contra hin
    exact hnot (hP (f k) (by omega) (by omega))
  have hfix : f k = k := f.injective (hf (f k) hout)
  omega

/-- The values of two places exchanged, as two assignments. -/
theorem rearranged_swap (hi : l ≤ i ∧ i ≤ u) (hj : l ≤ j ∧ j ≤ u) (t : Int → α) :
    Rearranged l u t (Function.update (Function.update t i (t j)) j (t i)) := by
  refine ⟨Equiv.swap i j, fun k hk => Equiv.swap_apply_of_ne_of_ne (by omega) (by omega), fun k => ?_⟩
  rw [Equiv.swap_apply_def, Function.update_apply, Function.update_apply]
  split_ifs with h1 h2 h3
  · rw [← h1, h2]
  · rfl
  · rfl
  · rfl

/-! ## The elements as a list -/

/-- The elements from 1 to `n`. -/
def elements (n : Nat) (t : Int → α) : List α := (List.range n).map fun k : Nat => t (k + 1)

theorem mem_elements {n : Nat} {a : α} : a ∈ elements n t ↔ ∃ k : Int, 1 ≤ k ∧ k ≤ n ∧ t k = a := by
  rw [elements, List.mem_map]
  constructor
  · rintro ⟨k, hk, rfl⟩
    have := List.mem_range.mp hk
    exact ⟨k + 1, by omega, by omega, rfl⟩
  · rintro ⟨k, h1, h2, rfl⟩
    refine ⟨(k - 1).toNat, List.mem_range.mpr (by omega), ?_⟩
    congr 1
    omega

theorem Rearranged.perm {n : Nat} (h : Rearranged 1 n t t') : (elements n t').Perm (elements n t) := by
  obtain ⟨f, hf, ht⟩ := h
  have hmap : ∀ g : Int → α, elements n g =
      ((List.range n).map fun k : Nat => (k : Int) + 1).map g := fun g => by
    rw [elements, List.map_map]
    rfl
  have hcomp : t' = t ∘ f := funext ht
  have hin : ∀ k : Int, k ∈ (List.range n).map (fun k : Nat => (k : Int) + 1) ↔ 1 ≤ k ∧ k ≤ n := by
    intro k
    rw [List.mem_map]
    constructor
    · rintro ⟨m, hm, rfl⟩
      have := List.mem_range.mp hm
      omega
    · rintro ⟨h1, h2⟩
      exact ⟨(k - 1).toNat, List.mem_range.mpr (by omega), by omega⟩
  have hnodup : ((List.range n).map fun k : Nat => (k : Int) + 1).Nodup :=
    List.nodup_range.map fun a b hab => by
      have : (a : Int) + 1 = b + 1 := hab
      omega
  rw [hmap, hmap, hcomp, ← List.map_map]
  refine List.Perm.map t ?_
  refine (List.perm_ext_iff_of_nodup (hnodup.map f.injective) hnodup).mpr fun k => ?_
  rw [List.mem_map, hin]
  constructor
  · rintro ⟨m, hm, rfl⟩
    rw [hin] at hm
    by_contra hout
    have hfix : f m = m := f.injective (hf (f m) (by omega))
    omega
  · intro hk
    refine ⟨f.symm k, (hin _).mpr ?_, f.apply_symm_apply k⟩
    by_contra hout
    have hfix := hf (f.symm k) (by omega)
    rw [f.apply_symm_apply] at hfix
    rw [← hfix] at hout
    exact hout hk

/-! ## Order -/

def Ascending (Le : α → α → Prop) (l u : Int) (t : Int → α) : Prop :=
  ∀ i j, l ≤ i → i < j → j ≤ u → Le (t i) (t j)

variable {Le : α → α → Prop}

theorem ascending_of_le (h : u ≤ l) : Ascending Le l u t := by
  intro i j h1 h2 h3
  omega

theorem Ascending.congr (h : Ascending Le l u t) (ht : ∀ k, l ≤ k → k ≤ u → t' k = t k) :
    Ascending Le l u t' := by
  intro i j h1 h2 h3
  rw [ht i h1 (by omega), ht j (by omega) h3]
  exact h i j h1 h2 h3

/-- Two segments in order, with an element between them that none of them exceeds or none is less
than. -/
theorem Ascending.join {S : α → Prop}
    (htrans : ∀ a b c, S a → S b → S c → Le a b → Le b c → Le a c)
    (hS : ∀ k, l ≤ k → k ≤ u → S (t k)) (h1 : Ascending Le l (i - 1) t)
    (h2 : Ascending Le (i + 1) u t) (hl : l ≤ i) (hu : i ≤ u)
    (hbelow : ∀ k, l ≤ k → k < i → Le (t k) (t i)) (habove : ∀ k, i < k → k ≤ u → Le (t i) (t k)) :
    Ascending Le l u t := by
  intro a b ha hab hb
  rcases lt_trichotomy a i with hai | rfl | hai
  · rcases lt_trichotomy b i with hbi | rfl | hbi
    · exact h1 a b ha hab (by omega)
    · exact hbelow a ha hai
    · exact htrans _ _ _ (hS a ha (by omega)) (hS i hl hu) (hS b (by omega) hb) (hbelow a ha hai)
        (habove b hbi hb)
  · exact habove b hab hb
  · exact h2 a b (by omega) hab hb

/-- What holds of all elements of the segment before holds of them after. -/
def Preserved (l u : Int) (t t' : Int → α) : Prop :=
  ∀ P : α → Prop, (∀ k, l ≤ k → k ≤ u → P (t k)) → ∀ k, l ≤ k → k ≤ u → P (t' k)

theorem Rearranged.preserved (h : Rearranged l u t t') : Preserved l u t t' :=
  fun _ hP => h.forall_mem hP

theorem preserved_of_eq (h : ∀ k, l ≤ k → k ≤ u → t' k = t k) : Preserved l u t t' := by
  intro P hP k h1 h2
  rw [h k h1 h2]
  exact hP k h1 h2

theorem Preserved.trans (h : Preserved l u t t') (h' : Preserved l u t' t'') : Preserved l u t t'' :=
  fun P hP => h' P (h P hP)

/-- A partition at `i` whose two sides have been sorted. -/
theorem Ascending.partition {S : α → Prop}
    (htrans : ∀ a b c, S a → S b → S c → Le a b → Le b c → Le a c)
    (hS : ∀ k, l ≤ k → k ≤ u → S (t k)) (hl : l ≤ i) (hu : i ≤ u)
    (hbelow : ∀ k, l ≤ k → k < i → Le (t k) (t i)) (habove : ∀ k, i < k → k ≤ u → Le (t i) (t k))
    (hlow : Preserved l (i - 1) t t') (hhigh : Preserved (i + 1) u t t') (hi : t' i = t i)
    (h1 : Ascending Le l (i - 1) t') (h2 : Ascending Le (i + 1) u t') : Ascending Le l u t' := by
  refine .join (i := i) htrans (fun k hk1 hk2 => ?_) h1 h2 hl hu (fun k hk1 hk2 => ?_)
    fun k hk1 hk2 => ?_
  · rcases lt_trichotomy k i with hk | rfl | hk
    · exact hlow S (fun k h1 h2 => hS k h1 (by omega)) k hk1 (by omega)
    · rw [hi]
      exact hS k hk1 hk2
    · exact hhigh S (fun k h1 h2 => hS k (by omega) h2) k (by omega) hk2
  · rw [hi]
    exact hlow (Le · (t i)) (fun k h1 h2 => hbelow k h1 (by omega)) k hk1 (by omega)
  · rw [hi]
    exact hhigh (Le (t i)) (fun k h1 h2 => habove k (by omega) h2) k (by omega) hk2

end Luaxx.Segments
