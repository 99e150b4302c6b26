import Mathlib.Tactic.Common

/-!
# Computations that leave a trace

A computation ends with a result or an error, in a state, and has done a list of events by then.
`Ends` relies on one condition on the events and guarantees another, and it is about both outcomes,
with the state of each. What a whole run relies on holds of each of its parts.
-/

universe u

namespace Luaxx.Tracing

structure Outcome (ε τ σ α : Type u) where
  result : Except ε α
  state : σ
  events : List τ

/-- A computation on states `σ`, with errors `ε` and events `τ`. -/
def Traced (ε τ σ α : Type u) : Type u := σ → Outcome ε τ σ α

variable {ε τ σ α β : Type u}

/-- What is done after some events. -/
def Outcome.after (es : List τ) (o : Outcome ε τ σ α) : Outcome ε τ σ α :=
  ⟨o.result, o.state, es ++ o.events⟩

instance : Monad (Traced ε τ σ) where
  pure a := fun s => ⟨.ok a, s, []⟩
  bind x f := fun s =>
    match x s with
    | ⟨.ok a, s', es⟩ => (f a s').after es
    | ⟨.error e, s', es⟩ => ⟨.error e, s', es⟩

def fail (e : ε) : Traced ε τ σ α := fun s => ⟨.error e, s, []⟩

/-- The state. -/
def look : Traced ε τ σ σ := fun s => ⟨.ok s, s, []⟩

def update (f : σ → σ) : Traced ε τ σ PUnit := fun s => ⟨.ok ⟨⟩, f s, []⟩

def record (e : τ) : Traced ε τ σ PUnit := fun s => ⟨.ok ⟨⟩, s, [e]⟩

theorem seq_of_ok {x : Traced ε τ σ α} {f : α → Traced ε τ σ β} {s s' : σ} {a : α} {es : List τ}
    (h : x s = ⟨.ok a, s', es⟩) : (x >>= f) s = (f a s').after es := by
  show (match x s with
    | ⟨.ok a, s', es⟩ => (f a s').after es
    | ⟨.error e, s', es⟩ => ⟨.error e, s', es⟩) = _
  rw [h]

theorem seq_of_error {x : Traced ε τ σ α} {f : α → Traced ε τ σ β} {s s' : σ} {e : ε} {es : List τ}
    (h : x s = ⟨.error e, s', es⟩) : (x >>= f) s = ⟨.error e, s', es⟩ := by
  show (match x s with
    | ⟨.ok a, s', es⟩ => (f a s').after es
    | ⟨.error e, s', es⟩ => ⟨.error e, s', es⟩) = _
  rw [h]

section Ends

variable {A G : τ → Prop} {E : ε → σ → Prop} {Q R : α → σ → Prop} {S : β → σ → Prop}
  {x : Traced ε τ σ α} {f : α → Traced ε τ σ β} {s s' : σ} {es : List τ}

/-- Where `A` holds of all events, so does `G`; a result and its state satisfy `Q`, an error and its
state `E`. -/
def Ends (A G : τ → Prop) (E : ε → σ → Prop) (Q : α → σ → Prop) (o : Outcome ε τ σ α) : Prop :=
  (∀ e ∈ o.events, A e) → (∀ e ∈ o.events, G e) ∧
    match o.result with
    | .ok a => Q a o.state
    | .error e => E e o.state

theorem ends_pure {a : α} (h : Q a s) : Ends A G E Q ((pure a : Traced ε τ σ α) s) :=
  fun _ => ⟨fun _ he => absurd he List.not_mem_nil, h⟩

theorem ends_fail {e : ε} (h : E e s) : Ends A G E Q ((fail e : Traced ε τ σ α) s) :=
  fun _ => ⟨fun _ he => absurd he List.not_mem_nil, h⟩

theorem Ends.after {o : Outcome ε τ σ β} (hes : (∀ e ∈ es, A e) → ∀ e ∈ es, G e)
    (h : (∀ e ∈ es, A e) → Ends A G E S o) : Ends A G E S (o.after es) := by
  intro hA
  have hA₁ : ∀ e ∈ es, A e := fun e he => hA e (List.mem_append_left _ he)
  obtain ⟨hG, ho⟩ := h hA₁ fun e he => hA e (List.mem_append_right _ he)
  refine ⟨fun e he => ?_, ho⟩
  rcases List.mem_append.mp he with he | he
  · exact hes hA₁ e he
  · exact hG e he

theorem Ends.bind (hx : Ends A G E Q (x s)) (hf : ∀ a s', Q a s' → Ends A G E S (f a s')) :
    Ends A G E S ((x >>= f) s) := by
  rcases hs : x s with ⟨a | a, s', es⟩
  · rw [seq_of_error hs]
    rw [hs] at hx
    exact hx
  · rw [seq_of_ok hs]
    rw [hs] at hx
    exact .after (fun hA => (hx hA).1) fun hA => hf a s' (hx hA).2

theorem Ends.imp (hx : Ends A G E Q (x s)) (h : ∀ a s', Q a s' → R a s') : Ends A G E R (x s) := by
  intro hA
  obtain ⟨hG, ho⟩ := hx hA
  refine ⟨hG, ?_⟩
  cases hr : (x s).result with
  | ok a =>
    rw [hr] at ho
    exact h a _ ho
  | error e =>
    rw [hr] at ho
    exact ho

/-- A step whose outcome is known. -/
theorem ends_step {a : α} (hx : x s = ⟨.ok a, s', es⟩) (hG : (∀ e ∈ es, A e) → ∀ e ∈ es, G e)
    (hf : (∀ e ∈ es, A e) → Ends A G E S (f a s')) : Ends A G E S ((x >>= f) s) := by
  rw [seq_of_ok hx]
  exact .after hG hf

/-- A step without events. -/
theorem ends_silent {a : α} (hx : x s = ⟨.ok a, s', []⟩) (hf : Ends A G E S (f a s')) :
    Ends A G E S ((x >>= f) s) :=
  ends_step hx (fun _ _ he => absurd he List.not_mem_nil) fun _ => hf

/-- A step with one event. -/
theorem ends_event {a : α} {e : τ} (hx : x s = ⟨.ok a, s', [e]⟩) (hG : G e)
    (hf : A e → Ends A G E S (f a s')) : Ends A G E S ((x >>= f) s) := by
  refine ends_step hx (fun _ e' he => ?_) fun hA => hf (hA e List.mem_cons_self)
  rw [List.mem_singleton.mp he]
  exact hG

/-- A step that fails. -/
theorem ends_failed {e : ε} (hx : x s = ⟨.error e, s', []⟩) (h : E e s') :
    Ends A G E S ((x >>= f) s) := by
  rw [seq_of_error hx]
  exact fun _ => ⟨fun _ he => absurd he List.not_mem_nil, h⟩

end Ends

end Luaxx.Tracing
