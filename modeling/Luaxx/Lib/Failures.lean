import Mathlib.Tactic.Common

/-!
# Computations that fail in a state

`EStateM` keeps the state that a computation has reached when it raises an error. `Ends` is about both
outcomes, with the state of each.
-/

universe u

namespace Luaxx.Failures

variable {ε σ α β : Type u} {x : EStateM ε σ α} {f : α → EStateM ε σ β} {s s' : σ}

theorem seq_of_ok {a : α} (h : x s = .ok a s') : (x >>= f) s = f a s' := by
  show EStateM.bind x f s = _
  rw [EStateM.bind, h]

theorem seq_of_error {e : ε} (h : x s = .error e s') : (x >>= f) s = .error e s' := by
  show EStateM.bind x f s = _
  rw [EStateM.bind, h]

theorem seq_congr {g : α → EStateM ε σ β} (h : ∀ a s', x s = .ok a s' → f a s' = g a s') :
    (x >>= f) s = (x >>= g) s := by
  cases hs : x s with
  | ok a s' => rw [seq_of_ok hs, seq_of_ok hs, h a s' hs]
  | error e s' => rw [seq_of_error hs, seq_of_error hs]

section Ends

variable {E : ε → σ → Prop} {Q R : α → σ → Prop} {S : β → σ → Prop}

/-- A result and the state that it is returned in satisfy `Q`, an error and its state `E`. -/
def Ends (E : ε → σ → Prop) (Q : α → σ → Prop) : EStateM.Result ε σ α → Prop
  | .ok a s => Q a s
  | .error e s => E e s

theorem Ends.bind (hx : Ends E Q (x s)) (hf : ∀ a s', Q a s' → Ends E S (f a s')) :
    Ends E S ((x >>= f) s) := by
  cases hs : x s with
  | ok a s' =>
    rw [seq_of_ok hs]
    rw [hs] at hx
    exact hf a s' hx
  | error e s' =>
    rw [seq_of_error hs]
    rw [hs] at hx
    exact hx

theorem Ends.imp (hx : Ends E Q (x s)) (h : ∀ a s', Q a s' → R a s') : Ends E R (x s) := by
  cases hs : x s with
  | ok a s' =>
    rw [hs] at hx
    exact h a s' hx
  | error e s' =>
    rw [hs] at hx
    exact hx

theorem Ends.error_imp {E' : ε → σ → Prop} (hx : Ends E Q (x s))
    (h : ∀ e s', E e s' → E' e s') : Ends E' Q (x s) := by
  cases hs : x s with
  | ok a s' =>
    rw [hs] at hx
    exact hx
  | error e s' =>
    rw [hs] at hx
    exact h e s' hx

theorem ends_of_ok {a : α} (hx : x s = .ok a s') (h : Q a s') : Ends E Q (x s) := by
  rw [hx]
  exact h

theorem Ends.error_of_eq {e : ε} (h : Ends E Q (x s)) (hx : x s = .error e s') : E e s' := by
  rw [hx] at h
  exact h

end Ends

end Luaxx.Failures
