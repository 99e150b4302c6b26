import Mathlib.Data.List.GetD
import Mathlib.Data.List.Perm.Basic
import Mathlib.Tactic.Common

/-!
# Buckets

A table of buckets files each element under a place that depends on the element and on the number
of buckets. A change of one bucket is seen in the list of all elements as a change of one part of
it; filing all elements again keeps them all.
-/

namespace Luaxx.Buckets

universe u

variable {α : Type u} {place : Nat → α → Nat} {buckets : List (List α)}

/-- Each element is in the bucket of its place. -/
def Filed (place : Nat → α → Nat) (buckets : List (List α)) : Prop :=
  ∀ i, ∀ x ∈ buckets.getD i [], place buckets.length x = i

theorem mem_flatten_iff {x : α} : x ∈ buckets.flatten ↔ ∃ i, x ∈ buckets.getD i [] := by
  rw [List.mem_flatten]
  constructor
  · rintro ⟨chain, hchain, hx⟩
    obtain ⟨i, hi, rfl⟩ := List.mem_iff_getElem.1 hchain
    refine ⟨i, ?_⟩
    rwa [List.getD_eq_getElem _ _ hi]
  · rintro ⟨i, hx⟩
    by_cases hi : i < buckets.length
    · rw [List.getD_eq_getElem _ _ hi] at hx
      exact ⟨_, List.getElem_mem hi, hx⟩
    · rw [List.getD_eq_default _ _ (Nat.le_of_not_lt hi)] at hx
      cases hx

/-- What is filed is found in the bucket of its place. -/
theorem Filed.mem_place (h : Filed place buckets) {x : α} (hx : x ∈ buckets.flatten) :
    x ∈ buckets.getD (place buckets.length x) [] := by
  obtain ⟨i, hi⟩ := mem_flatten_iff.1 hx
  rwa [h i x hi]

/-! ## A change of one bucket -/

/-- All elements are those before, in and behind a bucket. -/
theorem flatten_modify {i : Nat} (hi : i < buckets.length) :
    ∃ front back, buckets.flatten = front ++ (buckets.getD i [] ++ back) ∧
      ∀ f, (buckets.modify i f).flatten = front ++ (f (buckets.getD i []) ++ back) := by
  induction buckets generalizing i with
  | nil => cases hi
  | cons chain buckets ih =>
    cases i with
    | zero => exact ⟨[], buckets.flatten, rfl, fun f => rfl⟩
    | succ i =>
      obtain ⟨front, back, heq, hmodify⟩ := ih (Nat.lt_of_succ_lt_succ hi)
      refine ⟨chain ++ front, back, ?_, fun f => ?_⟩
      · rw [List.flatten_cons, heq, List.append_assoc, List.getD_cons_succ]
      · rw [List.modify_succ_cons, List.flatten_cons, hmodify, List.append_assoc,
          List.getD_cons_succ]

theorem getD_modify (f : List α → List α) {i : Nat} (j : Nat) (hi : i < buckets.length) :
    (buckets.modify i f).getD j [] =
      if i = j then f (buckets.getD j []) else buckets.getD j [] := by
  rw [List.getD_eq_getElem?_getD, List.getD_eq_getElem?_getD, List.getElem?_modify]
  split_ifs with h
  · subst h
    cases hget : buckets[i]? with
    | some chain => rfl
    | none =>
      rw [List.getElem?_eq_getElem hi] at hget
      cases hget
  · cases buckets[j]? <;> rfl

/-- A change of one bucket keeps the elements filed if each that is in it then has its place. -/
theorem Filed.modify (h : Filed place buckets) {i : Nat} {f : List α → List α}
    (hi : i < buckets.length)
    (hf : ∀ x ∈ f (buckets.getD i []), place buckets.length x = i) :
    Filed place (buckets.modify i f) := by
  intro j x hx
  rw [List.length_modify]
  rw [getD_modify f j hi] at hx
  split_ifs at hx with hij
  · subst hij
    exact hf x hx
  · exact h j x hx

/-- A change of each element that keeps its place. -/
theorem Filed.map (h : Filed place buckets) {f : α → α} (hf : ∀ n x, place n (f x) = place n x) :
    Filed place (buckets.map (List.map f)) := by
  intro i x hx
  rw [List.getD_eq_getElem?_getD, List.getElem?_map] at hx
  rw [List.length_map]
  cases hget : buckets[i]? with
  | none =>
    rw [hget] at hx
    cases hx
  | some chain =>
    rw [hget] at hx
    obtain ⟨y, hy, rfl⟩ := List.mem_map.1 hx
    rw [hf]
    refine h i y ?_
    rwa [List.getD_eq_getElem?_getD, hget]

/-! ## Chaining an element -/

/-- The element is chained in front of its bucket. -/
def push (place : Nat → α → Nat) (buckets : List (List α)) (x : α) : List (List α) :=
  buckets.modify (place buckets.length x) (x :: ·)

@[simp] theorem length_push (x : α) : (push place buckets x).length = buckets.length :=
  List.length_modify ..

theorem Filed.push (h : Filed place buckets) {x : α} (hx : place buckets.length x < buckets.length) :
    Filed place (push place buckets x) := by
  refine h.modify hx fun y hy => ?_
  rcases List.mem_cons.1 hy with rfl | hy
  · rfl
  · exact h _ y hy

theorem flatten_push {x : α} (hx : place buckets.length x < buckets.length) :
    (push place buckets x).flatten.Perm (x :: buckets.flatten) := by
  obtain ⟨front, back, heq, hmodify⟩ := flatten_modify hx
  rw [push, hmodify, heq, List.cons_append]
  exact List.perm_middle

/-! ## Filing all elements again -/

/-- The elements of each bucket, from the first one on, are chained in a new table. -/
def rehash (place : Nat → α → Nat) (newsize : Nat) (buckets : List (List α)) : List (List α) :=
  buckets.foldl (fun newhash chain => chain.foldl (push place) newhash)
    (List.replicate newsize [])

theorem filed_replicate (n : Nat) : Filed place (List.replicate n ([] : List α)) := by
  intro i x hx
  rw [List.getD_eq_getElem?_getD, List.getElem?_replicate] at hx
  split_ifs at hx <;> cases hx

/-- The elements of a list are chained one after another. -/
structure Chained (place : Nat → α → Nat) (l : List α) (newhash newhash' : List (List α)) : Prop where
  length_eq : newhash'.length = newhash.length
  filed : Filed place newhash'
  perm : newhash'.flatten.Perm (l ++ newhash.flatten)

theorem chained_foldl (hplace : ∀ n x, 0 < n → place n x < n) (l : List α) {newhash : List (List α)}
    (h : Filed place newhash) (hpos : 0 < newhash.length) :
    Chained place l newhash (l.foldl (push place) newhash) := by
  induction l generalizing newhash with
  | nil => exact ⟨rfl, h, List.Perm.refl _⟩
  | cons x l ih =>
    have hx := hplace newhash.length x hpos
    obtain ⟨hlen, hfiled, hperm⟩ := ih (h.push hx) (by rwa [length_push])
    refine ⟨hlen.trans (length_push x), hfiled, hperm.trans ?_⟩
    exact ((flatten_push hx).append_left l).trans List.perm_middle

theorem rehash_eq (newsize : Nat) :
    rehash place newsize buckets =
      buckets.flatten.foldl (push place) (List.replicate newsize []) :=
  List.foldl_flatten.symm

theorem chained_rehash (hplace : ∀ n x, 0 < n → place n x < n) {newsize : Nat}
    (hpos : 0 < newsize) :
    Chained place buckets.flatten (List.replicate newsize []) (rehash place newsize buckets) := by
  rw [rehash_eq]
  exact chained_foldl hplace _ (filed_replicate _) (by rwa [List.length_replicate])

theorem length_rehash (hplace : ∀ n x, 0 < n → place n x < n) {newsize : Nat}
    (hpos : 0 < newsize) : (rehash place newsize buckets).length = newsize := by
  rw [(chained_rehash hplace hpos).length_eq, List.length_replicate]

theorem filed_rehash (hplace : ∀ n x, 0 < n → place n x < n) {newsize : Nat}
    (hpos : 0 < newsize) : Filed place (rehash place newsize buckets) :=
  (chained_rehash hplace hpos).filed

theorem flatten_rehash (hplace : ∀ n x, 0 < n → place n x < n) {newsize : Nat}
    (hpos : 0 < newsize) : (rehash place newsize buckets).flatten.Perm buckets.flatten := by
  have h : (rehash place newsize buckets).flatten.Perm (buckets.flatten ++ _) :=
    (chained_rehash hplace hpos).perm
  have hnil : (List.replicate newsize ([] : List α)).flatten = [] :=
    List.flatten_eq_nil_iff.2 fun _ hl => List.eq_of_mem_replicate hl
  rwa [hnil, List.append_nil] at h

end Luaxx.Buckets
