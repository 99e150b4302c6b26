import Luaxx.Core.Number

/-!
# Values (`lobject.h`)

A `TValue`. Strings are interned, so that a string is its address, like every other collectable
object; the `hash` field of the string at an address is a parameter of what uses it.
-/

namespace Luaxx

inductive ObjectKind where
  | table | function | userdata | thread
  deriving DecidableEq, Repr

inductive Value where
  | nil
  | boolean (b : Bool)
  | lightuserdata (p : Nat)
  | number (n : Number)
  | string (p : Nat)
  | object (kind : ObjectKind) (p : Nat)
  /-- A key that the collector has marked dead. -/
  | deadkey (p : Nat)
  deriving DecidableEq, Repr

namespace Value

def ttisnil : Value → Bool
  | nil => true
  | _ => false

/-- `luaO_rawequalObj`. -/
def rawequal : Value → Value → Bool
  | nil, nil => true
  | number a, number b => luai_numeq a b
  | boolean a, boolean b => a == b
  | lightuserdata p, lightuserdata q => p == q
  | string p, string q => p == q
  | object kind p, object kind' q => kind == kind' && p == q
  | deadkey p, deadkey q => p == q
  | _, _ => false

/-- The values that `luaH_set` accepts as keys. -/
def IsKey : Value → Prop
  | nil => False
  | deadkey _ => False
  | number n => luai_numisnan n = false
  | _ => True

instance : DecidablePred IsKey := fun v => by
  cases v <;> unfold IsKey <;> infer_instance

@[simp] theorem ttisnil_iff {v : Value} : v.ttisnil = true ↔ v = nil := by
  cases v <;> simp [ttisnil]

theorem rawequal_comm (a b : Value) : rawequal a b = rawequal b a := by
  cases a <;> cases b <;> simp [rawequal, luai_numeq_comm, Bool.beq_comm]

theorem rawequal_trans {a b c : Value} (h : rawequal a b = true) (h' : rawequal b c = true) :
    rawequal a c = true := by
  cases a <;> cases b <;> cases c <;> simp_all [rawequal]
  exact luai_numeq_trans h h'

theorem rawequal_self {v : Value} (h : v.IsKey) : rawequal v v = true := by
  cases v <;> simp_all [rawequal, IsKey, luai_numisnan]

/-- What is equal to a key is a key. -/
theorem IsKey.of_rawequal {a b : Value} (h : rawequal a b = true) (ha : a.IsKey) : b.IsKey := by
  cases a <;> cases b <;> simp_all [rawequal, IsKey, luai_numisnan]
  exact luai_numeq_trans (by rw [luai_numeq_comm]; exact h) h

end Value

end Luaxx
