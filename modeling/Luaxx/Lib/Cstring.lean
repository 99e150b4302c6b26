import Luaxx.Lib.Spans

/-!
# C strings in a block

A pointer is an index into a block. A string is read up to its NUL, which has to be in the block, and
a byte is written within the block; otherwise there is no result. A search that finds nothing gives a
null pointer.
-/

namespace Luaxx.Cstring

open Luaxx.Spans

def stringAt (x : List UInt8) (p : Nat) : Option (List UInt8) :=
  if 0 ∈ x.drop p then some ((x.drop p).takeWhile (· ≠ 0)) else none

def strchr (x : List UInt8) (p : Nat) (c : UInt8) : Option (Option Nat) := do
  let s ← stringAt x p
  return (if c ∈ s then some (p + (s.takeWhile (· ≠ c)).length) else none)

def strrchr (x : List UInt8) (p : Nat) (c : UInt8) : Option (Option Nat) := do
  let s ← stringAt x p
  return (if c ∈ s then some (p + (s.reverse.dropWhile (· ≠ c)).tail.length) else none)

/-- `*p = c`. -/
def put (x : List UInt8) (p : Nat) (c : UInt8) : Option (List UInt8) :=
  if p < x.length then some (x.set p c) else none

/-- The block has a string, and its NUL, at its start. -/
def Holds (x s : List UInt8) : Prop := ∃ rest, x = s ++ 0 :: rest ∧ 0 ∉ s

variable {x s t u v : List UInt8} {c : UInt8}

theorem holds_withNul (h : 0 ∉ s) : Holds (s ++ [0]) s := ⟨[], rfl, h⟩

theorem Holds.stringAt (h : Holds x (u ++ v)) : stringAt x u.length = some v := by
  obtain ⟨rest, rfl, h0⟩ := h
  have hdrop : (u ++ v ++ 0 :: rest).drop u.length = v ++ 0 :: rest := by
    rw [List.append_assoc, List.drop_left]
  have hv : 0 ∉ v := fun hmem => h0 (List.mem_append_right u hmem)
  rw [Cstring.stringAt, hdrop, if_pos (List.mem_append_right v List.mem_cons_self),
    (span_ne hv rest).1]

theorem Holds.stringAt_zero (h : Holds x s) : Cstring.stringAt x 0 = some s :=
  Holds.stringAt (u := []) h

theorem Holds.strchr_none (h : Holds x (u ++ v)) (hc : c ∉ v) : strchr x u.length c = some none := by
  rw [strchr, h.stringAt]
  show some (if c ∈ v then _ else _) = _
  rw [if_neg hc]

theorem Holds.strchr_some (h : Holds x (u ++ (s ++ c :: t))) (hc : c ∉ s) :
    strchr x u.length c = some (some (u.length + s.length)) := by
  rw [strchr, h.stringAt]
  show some (if c ∈ s ++ c :: t then _ else _) = _
  rw [if_pos (List.mem_append_right s List.mem_cons_self), (span_ne hc t).1]

theorem Holds.strrchr_none (h : Holds x (u ++ v)) (hc : c ∉ v) :
    strrchr x u.length c = some none := by
  rw [strrchr, h.stringAt]
  show some (if c ∈ v then _ else _) = _
  rw [if_neg hc]

theorem Holds.strrchr_some (h : Holds x (u ++ (s ++ c :: t))) (hc : c ∉ t) :
    strrchr x u.length c = some (some (u.length + s.length)) := by
  have hspan := (span_ne (v := t.reverse) (c := c) (by rwa [List.mem_reverse]) s.reverse).2
  have hreverse : (s ++ c :: t).reverse = t.reverse ++ c :: s.reverse := by
    rw [List.reverse_append, List.reverse_cons, List.append_assoc]
    rfl
  rw [strrchr, h.stringAt]
  show some (if c ∈ s ++ c :: t then _ else _) = _
  rw [if_pos (List.mem_append_right s List.mem_cons_self), hreverse, hspan, List.tail_cons,
    List.length_reverse]

/-- A string is cut off, or ended where it ends. -/
theorem Holds.cut (h : Holds x (u ++ v)) : ∃ y, put x u.length 0 = some y ∧ Holds y u := by
  obtain ⟨rest, rfl, h0⟩ := h
  have hu : 0 ∉ u := fun hmem => h0 (List.mem_append_left v hmem)
  have hlt : u.length < (u ++ v ++ 0 :: rest).length := by
    rw [List.length_append, List.length_append, List.length_cons]
    omega
  refine ⟨_, if_pos hlt, ((v ++ 0 :: rest).drop 1), ?_, hu⟩
  rw [List.append_assoc, List.set_append_right _ _ (Nat.le_refl _), Nat.sub_self]
  cases v <;> rfl

/-- The byte at the end of a string is its NUL. -/
theorem Holds.getElem? (h : Holds x (u ++ v)) : x[u.length]? = some (v.headD 0) := by
  obtain ⟨rest, rfl, -⟩ := h
  rw [List.append_assoc, List.getElem?_append_right (Nat.le_refl _), Nat.sub_self]
  cases v <;> rfl

end Luaxx.Cstring
