import Mathlib.Data.List.Basic

/-!
# Blocks of memory

A block is its bytes, of which one that has not been written is `none`. A write or a copy outside of
a block has no result. What is known of a block is how it starts (`Starts`), and every operation is
described by that.
-/

namespace Luaxx.Memory

/-- A block of `malloc`. -/
abbrev Block := List (Option UInt8)

def malloc (n : Nat) : Block := List.replicate n none

/-- `realloc`, which keeps what fits. -/
def realloc (x : Block) (n : Nat) : Block := x.take n ++ malloc (n - x.length)

def write (x : Block) (i : Nat) (c : UInt8) : Option Block :=
  if i < x.length then some (x.set i (some c)) else none

/-- `memmove` of `n` bytes to position `d`. -/
def move (x : Block) (d : Nat) (src : Block) (n : Nat) : Option Block :=
  if d + n ≤ x.length ∧ n ≤ src.length then some (x.take d ++ (src.take n ++ x.drop (d + n)))
  else none

/-- The block has these bytes at its start. -/
def Starts (x : Block) (s : List UInt8) : Prop := s.map some <+: x

variable {x src : Block} {s t : List UInt8}

theorem starts_nil (x : Block) : Starts x [] := List.nil_prefix

theorem starts_map (s : List UInt8) : Starts (s.map some) s := List.prefix_rfl

theorem Starts.length_le (h : Starts x s) : s.length ≤ x.length := by
  have hle := List.IsPrefix.length_le h
  rw [List.length_map] at hle
  exact hle

theorem Starts.of_append (h : Starts x (s ++ t)) : Starts x s := by
  rw [Starts, List.map_append] at h
  exact (List.prefix_append _ _).trans h

theorem Starts.take (h : Starts x s) (n : Nat) : Starts x (s.take n) :=
  ((List.take_prefix n s).map some).trans h

theorem Starts.take_eq (h : Starts x s) {n : Nat} (hn : n ≤ s.length) :
    x.take n = (s.take n).map some := by
  obtain ⟨rest, rfl⟩ := h
  rw [List.take_append_of_le_length (by rw [List.length_map]; exact hn), List.map_take]

theorem Starts.drop (h : Starts x s) (n : Nat) : Starts (x.drop n) (s.drop n) := by
  obtain ⟨rest, rfl⟩ := h
  rw [Starts, List.map_drop, List.drop_append]
  exact List.prefix_append _ _

@[simp] theorem length_malloc (n : Nat) : (malloc n).length = n := List.length_replicate

theorem length_realloc {n : Nat} (h : x.length ≤ n) : (realloc x n).length = n := by
  rw [realloc, List.length_append, List.length_take, length_malloc]
  omega

theorem Starts.realloc (h : Starts x s) {n : Nat} (hn : x.length ≤ n) :
    Starts (realloc x n) s := by
  rw [Memory.realloc, List.take_of_length_le hn]
  exact List.IsPrefix.trans h (List.prefix_append _ _)

/-- A write after the first `i` bytes. -/
theorem Starts.write (h : Starts x s) {i : Nat} (hi : i ≤ s.length) (hlt : i < x.length)
    (c : UInt8) :
    ∃ y, write x i c = some y ∧ y.length = x.length ∧ Starts y (s.take i ++ [c]) := by
  refine ⟨x.set i (some c), if_pos hlt, List.length_set, ?_⟩
  rw [Starts, List.map_append, ← h.take_eq hi, List.set_eq_take_append_cons_drop, if_pos hlt]
  exact ⟨x.drop (i + 1), by rw [List.append_assoc]; rfl⟩

/-- A copy after the first `d` bytes. -/
theorem Starts.move (h : Starts x s) (hsrc : Starts src t) {d : Nat} (hd : d ≤ s.length)
    (hle : d + t.length ≤ x.length) :
    ∃ y, move x d src t.length = some y ∧ y.length = x.length ∧ Starts y (s.take d ++ t) := by
  refine ⟨_, if_pos ⟨hle, hsrc.length_le⟩, ?_, ?_⟩
  · rw [List.length_append, List.length_append, List.length_take, List.length_take,
      List.length_drop]
    have hlen := hsrc.length_le
    omega
  · rw [Starts, List.map_append, h.take_eq hd, hsrc.take_eq (Nat.le_refl _), List.take_length,
      ← List.append_assoc]
    exact List.prefix_append _ _

end Luaxx.Memory
