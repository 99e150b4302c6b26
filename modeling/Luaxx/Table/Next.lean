import Luaxx.Table.Store

/-!
# Traversal of a table (`luaH_next`)

The elements of the array part and the nodes are numbered one after the other. `luaH_next` goes on
from the number of the key, which `findindex` finds in the chain of the key, also where the
collector has marked it dead. Numbers are unbounded here: the two parts of a table together have
fewer than 2^31 places.
-/

namespace Luaxx.Tables

open Luaxx.Links Luaxx.Result Value

/-- `gcvalue`, for the values that have it (`iscollectable`). -/
def gcvalue : Value → Option Nat
  | .string p => some p
  | .object _ p => some p
  | .deadkey p => some p
  | _ => none

/-- The node has the key, or it had a key with the same address. -/
def isNextKey (t : Table) (key : Value) (i : Nat) : Bool :=
  rawequal (t.gkey i) key ||
    match t.gkey i with
    | .deadkey p => gcvalue key == some p
    | _ => false

section

variable (hashes : Nat → UInt32) (t : Table)

def findindex (key : Value) : M Int :=
  if key.ttisnil then pure (-1)
  else
    let i := arrayindex key
    if 0 < i ∧ i ≤ t.sizearray then pure (i - 1)
    else
      match walk t.gnext (isNextKey t key) t.node.length (mainposition hashes t key) with
      | some n => pure (n + t.sizearray)
      | none => luaG_runerror "invalid key to 'next'"

/-- The first number from `i` on, below `n`, for which `p` holds. -/
def firstFrom (p : Nat → Bool) (i n : Nat) : Option Nat := (List.range' i (n - i)).find? p

def luaH_next (key : Value) : M (Option (Value × Value)) := do
  let i := ((← findindex hashes t key) + 1).toNat
  match firstFrom (fun i => !(t.array.getD i .nil).ttisnil) i t.sizearray with
  | some i => return some (.number (cast_num (i + 1)), t.array.getD i .nil)
  | none =>
    match firstFrom (fun i => !(t.gval i).ttisnil) (i - t.sizearray) t.sizenode with
    | some i => return some (t.gkey i, t.gval i)
    | none => return none

end

/-! ## Places by number -/

section

variable {hashes : Nat → UInt32} {t : Table} {key : Value}

/-- The place with a number. -/
def place (t : Table) (x : Nat) : Slot :=
  if x < t.sizearray then .array x else .node (x - t.sizearray)

/-- The key that `luaH_next` returns for the place. -/
def keyAt (t : Table) (x : Nat) : Value :=
  if x < t.sizearray then .number (cast_num (x + 1)) else t.gkey (x - t.sizearray)

def valAt (t : Table) (x : Nat) : Value := t.read (some (place t x))

theorem firstFrom_eq_some {p : Nat → Bool} {i n x : Nat} (h : firstFrom p i n = some x) :
    i ≤ x ∧ x < n ∧ p x = true ∧ ∀ y, i ≤ y → y < x → p y = false := by
  rw [firstFrom, List.find?_range'_eq_some] at h
  obtain ⟨hp, hmem, hbefore⟩ := h
  rw [List.mem_range'_1] at hmem
  refine ⟨hmem.1, by omega, hp, fun y h1 h2 => ?_⟩
  simpa using hbefore y h1 h2

theorem firstFrom_eq_none {p : Nat → Bool} {i n : Nat} (h : firstFrom p i n = none) :
    ∀ y, i ≤ y → y < n → p y = false := by
  intro y h1 h2
  rw [firstFrom, List.find?_eq_none] at h
  have := h y (List.mem_range'_1.mpr ⟨h1, by omega⟩)
  simpa using this

theorem not_ttisnil {v : Value} : (!v.ttisnil) = true ↔ v ≠ .nil := by
  rw [Bool.not_eq_true', Bool.eq_false_iff, ne_eq, ttisnil_iff]

/-- `luaH_next` returns the first place after that of the key that has a value. -/
theorem luaH_next_spec {i : Int} (hi : findindex hashes t key = .ok i) (hpos : -1 ≤ i) :
    (∃ x : Nat, i < x ∧ x < t.sizearray + t.sizenode ∧ valAt t x ≠ .nil ∧
      (∀ y : Nat, i < y → y < x → valAt t y = .nil) ∧
      luaH_next hashes t key = .ok (some (keyAt t x, valAt t x))) ∨
    ((∀ y : Nat, i < y → y < t.sizearray + t.sizenode → valAt t y = .nil) ∧
      luaH_next hashes t key = .ok none) := by
  have harray : ∀ y, y < t.sizearray → valAt t y = t.array.getD y .nil := fun y hy => by
    rw [valAt, place, if_pos hy]
    rfl
  have hnode : ∀ y, t.sizearray ≤ y → valAt t y = t.gval (y - t.sizearray) := fun y hy => by
    rw [valAt, place, if_neg (Nat.not_lt.mpr hy)]
    rfl
  rw [luaH_next, hi, ok_bind]
  cases hfirst : firstFrom (fun i => !(t.array.getD i .nil).ttisnil) (i + 1).toNat t.sizearray with
  | some x =>
    obtain ⟨hle, hlt, hx, hbefore⟩ := firstFrom_eq_some hfirst
    refine .inl ⟨x, by omega, by omega, ?_, fun y h1 h2 => ?_, ?_⟩
    · rw [harray x hlt]
      exact not_ttisnil.mp hx
    · rw [harray y (by omega)]
      simpa using hbefore y (by omega) h2
    · rw [keyAt, if_pos hlt, harray x hlt]
      simp only [hfirst]
      rfl
  | none =>
    have hskip := firstFrom_eq_none hfirst
    have hskip' : ∀ y : Nat, i < y → y < t.sizearray → valAt t y = .nil := fun y h1 h2 => by
      rw [harray y h2]
      simpa using hskip y (by omega) h2
    cases hsecond : firstFrom (fun i => !(t.gval i).ttisnil) ((i + 1).toNat - t.sizearray)
      t.sizenode with
    | some x =>
      obtain ⟨hle, hlt, hx, hbefore⟩ := firstFrom_eq_some hsecond
      have hsub : x + t.sizearray - t.sizearray = x := Nat.add_sub_cancel x _
      refine .inl ⟨x + t.sizearray, by omega, by omega, ?_, fun y h1 h2 => ?_, ?_⟩
      · rw [hnode _ (Nat.le_add_left _ x), hsub]
        exact not_ttisnil.mp hx
      · by_cases hy : y < t.sizearray
        · exact hskip' y h1 hy
        · rw [hnode y (Nat.le_of_not_lt hy)]
          simpa using hbefore (y - t.sizearray) (by omega) (by omega)
      · rw [keyAt, if_neg (by omega), hnode _ (Nat.le_add_left _ x), hsub]
        simp only [hfirst, hsecond]
        rfl
    | none =>
      refine .inr ⟨fun y h1 h2 => ?_, ?_⟩
      · by_cases hy : y < t.sizearray
        · exact hskip' y h1 hy
        · rw [hnode y (Nat.le_of_not_lt hy)]
          simpa using firstFrom_eq_none hsecond (y - t.sizearray) (by omega) (by omega)
      · simp only [hfirst, hsecond]
        rfl

end

end Luaxx.Tables
