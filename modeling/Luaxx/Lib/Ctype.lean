import Mathlib.Tactic.Common
import Mathlib.Tactic.Ring

/-!
# Characters (`ctype.h`)

Bytes and their classes in the "C" locale: no byte above 127 belongs to any of them.
-/

namespace Luaxx.Ctype

/-- A character constant. -/
def ch (c : Char) : UInt8 := UInt8.ofNat c.toNat

@[simp] theorem ch_inj (a b : Char) : ch a = ch b ↔ a.toNat % 256 = b.toNat % 256 := by
  rw [← UInt8.toNat_inj, ch, ch, UInt8.toNat_ofNat', UInt8.toNat_ofNat']

@[simp] theorem ch_eq_zero (a : Char) : ch a = 0 ↔ a.toNat % 256 = 0 := by
  rw [← UInt8.toNat_inj, ch, UInt8.toNat_ofNat']
  rfl

@[simp] theorem zero_eq_ch (a : Char) : 0 = ch a ↔ a.toNat % 256 = 0 := by
  rw [eq_comm, ch_eq_zero]

def isdigit (c : UInt8) : Bool := ch '0' ≤ c && c ≤ ch '9'
def islower (c : UInt8) : Bool := ch 'a' ≤ c && c ≤ ch 'z'
def isupper (c : UInt8) : Bool := ch 'A' ≤ c && c ≤ ch 'Z'
def isalpha (c : UInt8) : Bool := islower c || isupper c
def isalnum (c : UInt8) : Bool := isalpha c || isdigit c
def isxdigit (c : UInt8) : Bool :=
  isdigit c || (ch 'a' ≤ c && c ≤ ch 'f') || (ch 'A' ≤ c && c ≤ ch 'F')
def isspace (c : UInt8) : Bool := c == ch ' ' || (9 ≤ c && c ≤ 13)
def iscntrl (c : UInt8) : Bool := c < 32 || c == 127
def isgraph (c : UInt8) : Bool := 33 ≤ c && c ≤ 126
def ispunct (c : UInt8) : Bool := 33 ≤ c && c ≤ 126 && !isalnum c

def tolower (c : UInt8) : UInt8 := if isupper c then c + 32 else c

def chars (s : String) : List UInt8 := s.toList.map ch

/-- The digits of `%x`. -/
def hexDigits : Nat → Nat → List UInt8
  | 0, _ => []
  | width + 1, n =>
    hexDigits width (n / 16) ++
      [(chars "0123456789abcdef").getD (n % 16) 0]

theorem hexDigits_length (width n : Nat) : (hexDigits width n).length = width := by
  induction width generalizing n with
  | zero => rfl
  | succ width ih =>
    rw [hexDigits, List.length_append, ih]
    rfl

/-- Only the bytes of the string are looked at, not all that there are. -/
instance (priority := high) decidableForallMem (P : UInt8 → Prop) [DecidablePred P]
    (s : List UInt8) : Decidable (∀ c ∈ s, P c) := List.decidableBAll P s

/-- A property of all bytes can be decided. -/
theorem forall_byte {P : UInt8 → Prop} (h : ∀ i j : Fin 16, P (UInt8.ofNat (16 * i + j)))
    (c : UInt8) : P c := by
  have hdiv : c.toNat / 16 < 16 := Nat.div_lt_of_lt_mul c.toNat_lt
  have hmod : c.toNat % 16 < 16 := Nat.mod_lt _ (by decide)
  have hc : P (UInt8.ofNat (16 * (c.toNat / 16) + c.toNat % 16)) := h ⟨_, hdiv⟩ ⟨_, hmod⟩
  rwa [Nat.div_add_mod, UInt8.ofNat_toNat] at hc

end Luaxx.Ctype
