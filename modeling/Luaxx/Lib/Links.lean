import Mathlib.Tactic.Common
import Mathlib.Tactic.Ring
import Mathlib.Data.Fintype.Card

/-!
# Linked chains

A partial successor function links the elements of a type, and `Chain next i l` says that the links
from `i` on are those of `l` and come to an end. A chain has no element twice. Two changes of the
links are followed through every chain: an element moved to an unused place, and an unused place
linked in after an element. `walk` and `findPrevious` are the loops that follow the links, with as
much fuel as there are places.
-/

namespace Luaxx.Links

universe u

variable {α : Type u} {next next' : α → Option α}

/-- The elements from `i` to the end of its chain. -/
inductive Chain (next : α → Option α) : α → List α → Prop
  | last {i : α} : next i = none → Chain next i [i]
  | step {i j : α} {l : List α} : next i = some j → Chain next j l → Chain next i (i :: l)

namespace Chain

variable {i j : α} {l l' : List α}

theorem head (h : Chain next i l) : ∃ t, l = i :: t := by
  cases h with
  | last _ => exact ⟨[], rfl⟩
  | step _ _ => exact ⟨_, rfl⟩

theorem mem_self (h : Chain next i l) : i ∈ l := by
  obtain ⟨t, rfl⟩ := h.head
  exact List.mem_cons_self ..

theorem unique (h : Chain next i l) (h' : Chain next i l') : l = l' := by
  induction h generalizing l' with
  | last hi =>
    cases h' with
    | last _ => rfl
    | step hi' _ => rw [hi] at hi'; cases hi'
  | step hi _ ih =>
    cases h' with
    | last hi' => rw [hi] at hi'; cases hi'
    | step hi' h' =>
      rw [hi] at hi'
      cases hi'
      rw [ih h']

/-- Each element of a chain begins the rest of it. -/
theorem of_mem (h : Chain next i l) (hj : j ∈ l) : ∃ l', Chain next j l' ∧ l' <:+ l := by
  induction h with
  | last hi =>
    obtain rfl := List.mem_singleton.mp hj
    exact ⟨_, .last hi, List.suffix_refl _⟩
  | step hi hrest ih =>
    rcases List.mem_cons.mp hj with rfl | hj
    · exact ⟨_, .step hi hrest, List.suffix_refl _⟩
    · obtain ⟨l', hl', hsuf⟩ := ih hj
      exact ⟨l', hl', hsuf.trans (List.suffix_cons ..)⟩

theorem nodup (h : Chain next i l) : l.Nodup := by
  induction h with
  | last _ => exact List.nodup_singleton _
  | @step i j l hi hrest ih =>
    refine List.nodup_cons.mpr ⟨fun hmem => ?_, ih⟩
    -- the rest of the chain would be one of its own proper parts
    obtain ⟨l', hl', hsuf⟩ := hrest.of_mem hmem
    have heq := hl'.unique (.step hi hrest)
    have hlen := hsuf.length_le
    rw [heq, List.length_cons] at hlen
    omega

/-- No element is its own successor. -/
theorem next_ne (h : Chain next i l) : next i ≠ some i := by
  intro hi
  have hnodup := h.nodup
  cases h with
  | last hi' => rw [hi'] at hi; cases hi
  | step hi' hrest =>
    rw [hi] at hi'
    cases hi'
    exact (List.nodup_cons.mp hnodup).1 hrest.mem_self

/-- The elements after the first one have predecessors in the chain. -/
theorem exists_previous (h : Chain next i l) (hj : j ∈ l) (hne : j ≠ i) :
    ∃ p ∈ l, next p = some j := by
  induction h with
  | last _ => exact absurd (List.mem_singleton.mp hj) hne
  | @step i k l hi hrest ih =>
    rcases List.mem_cons.mp hj with rfl | hj
    · exact absurd rfl hne
    · by_cases hk : j = k
      · exact ⟨i, List.mem_cons_self .., by rw [hi, hk]⟩
      · obtain ⟨p, hp, hnext⟩ := ih hj hk
        exact ⟨p, List.mem_cons_of_mem _ hp, hnext⟩

end Chain

/-! ## Changes of the links -/

section Relocate

variable [DecidableEq α] {m n : α}

/-- The place of an element after `m` has moved to `n`. -/
def moved (m n i : α) : α := if i = m then n else i

/-- What was linked to `m` is now linked to `n`, which is linked to what `m` was. -/
structure Relocated (next next' : α → Option α) (m n : α) : Prop where
  unlinked : ∀ i, next i ≠ some n
  ne : m ≠ n
  target : next' n = next m
  pred : ∀ i, next i = some m → next' i = some n
  other : ∀ i, i ≠ m → i ≠ n → next i ≠ some m → next' i = next i

/-- A chain goes through the new place where it went through the old one. -/
theorem Chain.relocate (hr : Relocated next next' m n) {i : α} {l : List α} (h : Chain next i l)
    (hi : i ≠ n) : Chain next' (moved m n i) (l.map (moved m n)) := by
  have hself : ∀ j, j ≠ m → moved m n j = j := fun j hj => if_neg hj
  have hm : moved m n m = n := if_pos rfl
  induction h with
  | @last i hend =>
    refine .last ?_
    by_cases him : i = m
    · subst him
      rw [hm, hr.target, hend]
    · rw [hself i him, hr.other i him hi (by rw [hend]; simp), hend]
  | @step i j l hstep hrest ih =>
    have hj : j ≠ n := by
      rintro rfl
      exact hr.unlinked i hstep
    refine .step ?_ (ih hj)
    by_cases him : i = m
    · subst him
      have hji : j ≠ i := by
        rintro rfl
        exact (Chain.step hstep hrest).next_ne hstep
      rw [hm, hr.target, hstep, hself j hji]
    · rw [hself i him]
      by_cases hjm : j = m
      · subst hjm
        rw [hm, hr.pred i hstep]
      · rw [hself j hjm, hr.other i him hi (by rw [hstep]; simpa using hjm), hstep]

/-- `n` is linked in after `m`. -/
structure Inserted (next next' : α → Option α) (m n : α) : Prop where
  unlinked : ∀ i, next i ≠ some n
  ne : m ≠ n
  link : next' m = some n
  target : next' n = next m
  other : ∀ i, i ≠ m → i ≠ n → next' i = next i

/-- A chain through `m` has one more element. -/
theorem Chain.insert (hr : Inserted next next' m n) {i : α} {l : List α} (h : Chain next i l)
    (hi : i ≠ n) : Chain next' i (l.flatMap fun x => if x = m then [m, n] else [x]) := by
  induction h with
  | @last i hend =>
    by_cases him : i = m
    · subst him
      have hn : Chain next' n [n] := .last (by rw [hr.target, hend])
      simpa using Chain.step hr.link hn
    · have hend' : next' i = none := by rw [hr.other i him hi, hend]
      simpa [him] using Chain.last hend'
  | @step i j l hstep hrest ih =>
    have hj : j ≠ n := by
      rintro rfl
      exact hr.unlinked i hstep
    by_cases him : i = m
    · subst him
      simpa using Chain.step hr.link (.step (by rw [hr.target, hstep]) (ih hj))
    · simpa [him] using Chain.step (by rw [hr.other i him hi, hstep]) (ih hj)

theorem mem_insert {x : α} {l : List α} (hx : x ∈ l) :
    x ∈ l.flatMap fun y => if y = m then [m, n] else [y] := by
  refine List.mem_flatMap.mpr ⟨x, hx, ?_⟩
  split_ifs with h <;> simp [h]

theorem mem_insert_new {l : List α} (hm : m ∈ l) :
    n ∈ l.flatMap fun y => if y = m then [m, n] else [y] :=
  List.mem_flatMap.mpr ⟨m, hm, by simp⟩

/-- A search passes by the place linked in where it would not stop there. -/
theorem find?_insert {p : α → Bool} (hp : p n = false) (l : List α) :
    (l.flatMap fun y => if y = m then [m, n] else [y]).find? p = l.find? p := by
  induction l with
  | nil => rfl
  | cons x l ih =>
    rw [List.flatMap_cons, List.find?_append, ih, List.find?_cons]
    split_ifs with hx
    · rw [hx, List.find?_cons, List.find?_cons, hp, List.find?_nil]
      cases p m <;> rfl
    · rw [List.find?_cons, List.find?_nil]
      cases p x <;> rfl

end Relocate

theorem find?_congr {p q : α → Bool} {l : List α} (h : ∀ x ∈ l, p x = q x) :
    l.find? p = l.find? q := by
  induction l with
  | nil => rfl
  | cons x l ih =>
    rw [List.find?_cons, List.find?_cons, h x (List.mem_cons_self ..),
      ih fun y hy => h y (List.mem_cons_of_mem _ hy)]

/-- A search with a condition that holds of less, but still of what was found. -/
theorem find?_eq_some_of_imp {p q : α → Bool} {l : List α} {i : α} (h : l.find? p = some i)
    (hi : q i = true) (hq : ∀ j ∈ l, q j = true → p j = true) : l.find? q = some i := by
  rw [List.find?_eq_some_iff_append] at h ⊢
  obtain ⟨-, as, bs, rfl, has⟩ := h
  refine ⟨hi, as, bs, rfl, fun a ha => ?_⟩
  have hpa := has a ha
  rw [Bool.not_eq_true'] at hpa ⊢
  refine Bool.eq_false_iff.mpr fun hqa => ?_
  rw [hq a (List.mem_append_left _ ha) hqa] at hpa
  cases hpa

/-! ## Following the links -/

/-- The first element from `i` on for which `p` holds. -/
def walk (next : α → Option α) (p : α → Bool) : Nat → α → Option α
  | 0, _ => none
  | fuel + 1, i =>
    if p i then some i
    else
      match next i with
      | none => none
      | some j => walk next p fuel j

theorem walk_eq {p : α → Bool} {i : α} {l : List α} (h : Chain next i l) {fuel : Nat}
    (hfuel : l.length ≤ fuel) : walk next p fuel i = l.find? p := by
  induction h generalizing fuel with
  | last hend =>
    obtain ⟨fuel, rfl⟩ : ∃ n, fuel = n + 1 := ⟨fuel - 1, by simp at hfuel; omega⟩
    rw [walk, List.find?_cons, hend, List.find?_nil]
    cases p _ <;> rfl
  | step hstep hrest ih =>
    obtain ⟨fuel, rfl⟩ : ∃ n, fuel = n + 1 := ⟨fuel - 1, by simp at hfuel; omega⟩
    rw [walk, List.find?_cons, hstep]
    have hlen : _ ≤ fuel := Nat.le_of_succ_le_succ hfuel
    cases p _
    · exact ih hlen
    · rfl

/-- The element linked to `m`; nothing if the chain ends before. -/
def findPrevious [DecidableEq α] (next : α → Option α) (m : α) : Nat → α → Option α
  | 0, _ => none
  | fuel + 1, i =>
    if next i = some m then some i
    else
      match next i with
      | none => none
      | some j => findPrevious next m fuel j

theorem findPrevious_eq [DecidableEq α] {m i : α} {l : List α} (h : Chain next i l) (hm : m ∈ l)
    (hne : m ≠ i) {fuel : Nat} (hfuel : l.length ≤ fuel) :
    ∃ p, findPrevious next m fuel i = some p ∧ next p = some m := by
  induction h generalizing fuel with
  | last _ => exact absurd (List.mem_singleton.mp hm) hne
  | @step i j l hstep hrest ih =>
    obtain ⟨fuel, rfl⟩ : ∃ n, fuel = n + 1 := ⟨fuel - 1, by simp at hfuel; omega⟩
    rw [findPrevious]
    by_cases hj : m = j
    · subst hj
      exact ⟨i, if_pos hstep, hstep⟩
    · have hmem := (List.mem_cons.mp hm).resolve_left hne
      rw [hstep, if_neg (by simpa using Ne.symm hj)]
      exact ih hmem hj (by simp at hfuel; omega)

/-- A chain of natural numbers below a bound is no longer than the bound. -/
theorem Chain.length_le {next : Nat → Option Nat} {i n : Nat} {l : List Nat} (h : Chain next i l)
    (hl : ∀ j ∈ l, j < n) : l.length ≤ n := by
  have hsub : l ⊆ List.range n := fun j hj => List.mem_range.mpr (hl j hj)
  have := (List.subperm_of_subset h.nodup hsub).length_le
  rwa [List.length_range] at this

end Luaxx.Links
