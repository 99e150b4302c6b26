import Mathlib.Tactic.Common
import Mathlib.Tactic.Ring
import Mathlib.Data.Nat.ModEq

/-!
# Numbers in bytes, low-order byte first

`bytesLE k n` writes the `k` low bytes of `n`; `natLE` reads a number back. Between them they
identify the lists of `k` bytes with the numbers below `256 ^ k`.
-/

namespace Luaxx.LittleEndian

/-- `n` in `k` bytes, low-order byte first. -/
def bytesLE : Nat → Nat → List UInt8
  | 0, _ => []
  | k + 1, n => UInt8.ofNat n :: bytesLE k (n / 256)

/-- The number of a list of bytes, low-order byte first. -/
def natLE : List UInt8 → Nat
  | [] => 0
  | b :: bs => b.toNat + 256 * natLE bs

@[simp] theorem length_bytesLE (k n : Nat) : (bytesLE k n).length = k := by
  induction k generalizing n with
  | zero => rfl
  | succ k ih => simp [bytesLE, ih]

theorem bytesLE_add (j k n : Nat) :
    bytesLE (j + k) n = bytesLE j n ++ bytesLE k (n / 256 ^ j) := by
  induction j generalizing n with
  | zero => simp [bytesLE]
  | succ j ih =>
      rw [Nat.add_right_comm, bytesLE, ih, bytesLE, List.cons_append, Nat.div_div_eq_div_mul,
        Nat.pow_succ']

/-- Only the low `k` bytes of the number count. -/
theorem bytesLE_mod (k n : Nat) : bytesLE k (n % 256 ^ k) = bytesLE k n := by
  induction k generalizing n with
  | zero => rfl
  | succ k ih =>
      have hlo : UInt8.ofNat (n % 256 ^ (k + 1)) = UInt8.ofNat n := by
        apply UInt8.toNat_inj.mp
        rw [UInt8.toNat_ofNat', UInt8.toNat_ofNat']
        exact Nat.mod_mod_of_dvd n (Dvd.intro_left (256 ^ k) rfl)
      have hhi : n % 256 ^ (k + 1) / 256 = n / 256 % 256 ^ k := by
        rw [Nat.pow_succ', Nat.mod_mul_right_div_self]
      rw [bytesLE, bytesLE, hlo, hhi, ih]

theorem natLE_bytesLE (k n : Nat) : natLE (bytesLE k n) = n % 256 ^ k := by
  induction k generalizing n with
  | zero => simp [bytesLE, natLE, Nat.mod_one]
  | succ k ih =>
      have h : n % 256 ^ (k + 1) = n % 256 + 256 * (n / 256 % 256 ^ k) := by
        rw [Nat.pow_succ', Nat.mod_mul]
      rw [bytesLE, natLE, ih, UInt8.toNat_ofNat', h]

theorem natLE_lt (bs : List UInt8) : natLE bs < 256 ^ bs.length := by
  induction bs with
  | nil => simp [natLE]
  | cons b bs ih =>
      have := b.toNat_lt
      rw [natLE, List.length_cons, Nat.pow_succ]
      omega

theorem bytesLE_natLE (bs : List UInt8) : bytesLE bs.length (natLE bs) = bs := by
  induction bs with
  | nil => rfl
  | cons b bs ih =>
      have hb := b.toNat_lt
      have hlo : UInt8.ofNat (natLE (b :: bs)) = b := by
        apply UInt8.toNat_inj.mp
        rw [UInt8.toNat_ofNat', natLE]
        omega
      have hhi : natLE (b :: bs) / 256 = natLE bs := by
        rw [natLE]
        omega
      rw [List.length_cons, bytesLE, hlo, hhi, ih]

/-- `bytesLE k` tells numbers apart up to their low `k` bytes. -/
theorem bytesLE_inj {k m n : Nat} (h : bytesLE k m = bytesLE k n) :
    m % 256 ^ k = n % 256 ^ k := by
  rw [← natLE_bytesLE, ← natLE_bytesLE, h]

end Luaxx.LittleEndian
