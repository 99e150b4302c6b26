import Mathlib.Tactic.Common
import Mathlib.Tactic.Ring

/-!
# Computations that may fail

Inversion of `>>=` for `Except` and `Option`: a sequence succeeds exactly when its parts do. A
proof about a `do` block peels it apart with these instead of unfolding the monad.
-/

universe u v

namespace Luaxx.Result

variable {ε : Type u} {α β : Type v}

theorem bind_ok {x : Except ε α} {f : α → Except ε β} {b : β} :
    (x >>= f) = .ok b ↔ ∃ a, x = .ok a ∧ f a = .ok b := by
  cases x with
  | error e => simp [bind, Except.bind]
  | ok a => simp [bind, Except.bind]

@[simp] theorem ok_bind (a : α) (f : α → Except ε β) : ((.ok a : Except ε α) >>= f) = f a := rfl

@[simp] theorem error_bind (e : ε) (f : α → Except ε β) :
    ((.error e : Except ε α) >>= f) = .error e := rfl

/-- A guard that fails with an error. -/
theorem ite_error_ok {c : Prop} [Decidable c] {e : ε} {x : Except ε α} {a : α} :
    (if c then .error e else x) = .ok a ↔ ¬ c ∧ x = .ok a := by
  split_ifs with h <;> simp [h]

/-- A guard that lets a computation go on. -/
theorem ite_ok_error {c : Prop} [Decidable c] {e : ε} {x : Except ε α} {a : α} :
    (if c then x else .error e) = .ok a ↔ c ∧ x = .ok a := by
  split_ifs with h <;> simp [h]

/-! ## Outcomes -/

section Yields

variable {E : ε → Prop} {P Q : α → Prop} {R : β → Prop} {x : Except ε α} {f : α → Except ε β}

/-- A result satisfies `Q`, an error `E`. -/
def Yields (E : ε → Prop) (Q : α → Prop) : Except ε α → Prop
  | .ok a => Q a
  | .error e => E e

theorem Yields.bind (hx : Yields E Q x) (hf : ∀ a, Q a → Yields E R (f a)) :
    Yields E R (x >>= f) := by
  cases x with
  | ok a => exact hf a hx
  | error e => exact hx

theorem Yields.imp (hx : Yields E P x) (h : ∀ a, P a → Q a) : Yields E Q x := by
  cases x with
  | ok a => exact h a hx
  | error e => exact hx

theorem yields_of_eq {a : α} (hx : x = .ok a) (ha : Q a) : Yields E Q x := by
  rw [hx]
  exact ha

theorem Yields.ok_of_eq {a : α} (h : Yields E Q x) (hx : x = .ok a) : Q a := by
  rw [hx] at h
  exact h

/-- Where no error is possible there is a result. -/
theorem Yields.exists_ok (h : Yields (fun _ => False) Q x) : ∃ a, x = .ok a ∧ Q a := by
  cases x with
  | ok a => exact ⟨a, rfl, h⟩
  | error e => exact h.elim

end Yields

/-! ## Two computations -/

section Agree

variable {α' β' γ : Type v} {R : α → α' → Prop} {S : β → β' → Prop}

/-- Both fail with one error, or both have results and `R` relates these. -/
def Agree (R : α → α' → Prop) : Except ε α → Except ε α' → Prop
  | .ok a, .ok a' => R a a'
  | .error e, .error e' => e = e'
  | _, _ => False

theorem Agree.bind {x : Except ε α} {x' : Except ε α'} {f : α → Except ε β}
    {f' : α' → Except ε β'} (hx : Agree R x x') (hf : ∀ a a', R a a' → Agree S (f a) (f' a')) :
    Agree S (x >>= f) (x' >>= f') := by
  cases x <;> cases x'
  case error.error e e' => exact hx
  case error.ok e a' => exact hx.elim
  case ok.error a e' => exact hx.elim
  case ok.ok a a' => exact hf a a' hx

theorem Agree.imp {x : Except ε α} {x' : Except ε α'} {R' : α → α' → Prop} (hx : Agree R x x')
    (h : ∀ a a', R a a' → R' a a') : Agree R' x x' := by
  cases x <;> cases x'
  case error.error e e' => exact hx
  case error.ok e a' => exact hx.elim
  case ok.error a e' => exact hx.elim
  case ok.ok a a' => exact h a a' hx

theorem Agree.refl {R : α → α → Prop} (h : ∀ a, R a a) (x : Except ε α) : Agree R x x := by
  cases x with
  | ok a => exact h a
  | error e => rfl

theorem Agree.trans {R : α → α' → Prop} {S : α' → β → Prop} {T : α → β → Prop}
    {x : Except ε α} {y : Except ε α'} {z : Except ε β} (hxy : Agree R x y) (hyz : Agree S y z)
    (h : ∀ a b c, R a b → S b c → T a c) : Agree T x z := by
  cases x <;> cases y <;> cases z <;> simp_all [Agree]
  exact h _ _ _ hxy hyz

theorem agree_bind_ok_left {x : Except ε α} {y : Except ε β'} {g : α → β} :
    Agree S (x >>= fun a => .ok (g a)) y ↔ Agree (fun a b => S (g a) b) x y := by
  cases x <;> cases y <;> rfl

theorem agree_bind_ok_right {x : Except ε β} {y : Except ε α'} {g : α' → β'} :
    Agree S x (y >>= fun a => .ok (g a)) ↔ Agree (fun b a => S b (g a)) x y := by
  cases x <;> cases y <;> rfl

end Agree

end Luaxx.Result
