import Luaxx.Lib.Result

/-!
# Readers of byte formats

A `Reader` takes what it needs off the front of its input or fails. `Decodes r enc ok val` says
what it accepts: exactly the encodings `enc x` of the descriptions `x` that are `ok`, whatever
follows them, and it returns their value `val x`. Such a reader decides on what it has read
alone, so no encoding begins with another one (`Decodes.prefix_free`).
-/

namespace Luaxx.Codec

open Luaxx.Result

variable {ε α β ρ : Type}

abbrev Reader (ε α : Type) := StateT (List UInt8) (Except ε) α

def fail (e : ε) : Reader ε α := fun _ => .error e

/-- The next `n` bytes. -/
def readBlock (e : ε) (n : Nat) : Reader ε (List UInt8) := fun inp =>
  if inp.length < n then .error e else .ok (inp.take n, inp.drop n)

/-- `n` times the same reader. -/
def readMany (r : Reader ε α) : Nat → Reader ε (List α)
  | 0 => pure []
  | n + 1 => do
    let a ← r
    let as ← readMany r n
    pure (a :: as)

/-! ## Running a reader -/

@[simp] theorem pure_run (a : α) (inp : List UInt8) :
    (pure a : Reader ε α) inp = .ok (a, inp) := rfl

@[simp] theorem fail_run (e : ε) (inp : List UInt8) : (fail e : Reader ε α) inp = .error e := rfl

theorem bind_run (r : Reader ε α) (f : α → Reader ε β) (inp : List UInt8) :
    (r >>= f) inp = (r inp >>= fun p => f p.1 p.2) := rfl

/-- A sequence that succeeded is two steps that did. -/
theorem bind_run_ok {r : Reader ε α} {f : α → Reader ε β} {inp rest : List UInt8} {b : β} :
    (r >>= f) inp = .ok (b, rest) ↔ ∃ a mid, r inp = .ok (a, mid) ∧ f a mid = .ok (b, rest) := by
  rw [bind_run, bind_ok]
  constructor
  · rintro ⟨⟨a, mid⟩, h, h'⟩
    exact ⟨a, mid, h, h'⟩
  · rintro ⟨a, mid, h, h'⟩
    exact ⟨(a, mid), h, h'⟩

theorem ite_run (c : Prop) [Decidable c] (r s : Reader ε α) (inp : List UInt8) :
    (if c then r else s) inp = if c then r inp else s inp := by
  split_ifs <;> rfl

/-! ## What a reader accepts -/

structure Decodes (r : Reader ε α) (enc : ρ → List UInt8) (ok : ρ → Prop) (val : ρ → α) : Prop where
  sound : ∀ {inp a rest}, r inp = .ok (a, rest) → ∃ x, ok x ∧ inp = enc x ++ rest ∧ a = val x
  complete : ∀ x, ok x → ∀ rest, r (enc x ++ rest) = .ok (val x, rest)

theorem readBlock_decodes (e : ε) (n : Nat) :
    Decodes (readBlock e n) id (fun bs => bs.length = n) id where
  sound := by
    intro inp a rest h
    simp only [readBlock, ite_error_ok, Except.ok.injEq, Prod.mk.injEq] at h
    obtain ⟨hlen, rfl, rfl⟩ := h
    exact ⟨inp.take n, by rw [List.length_take]; omega, (List.take_append_drop n inp).symm, rfl⟩
  complete := by
    intro bs hbs rest
    subst hbs
    simp [readBlock]

/-- A reader whose result is converted, for descriptions that may be chosen differently. -/
theorem Decodes.map {σ : Type} {r : Reader ε α} {enc : ρ → List UInt8} {ok : ρ → Prop}
    {val : ρ → α} (h : Decodes r enc ok val) {f : α → β} {enc' : σ → List UInt8} {ok' : σ → Prop}
    {val' : σ → β} (fwd : ρ → σ) (back : σ → ρ)
    (hto : ∀ x, ok x → ok' (fwd x) ∧ enc' (fwd x) = enc x ∧ val' (fwd x) = f (val x))
    (hback : ∀ y, ok' y → ok (back y) ∧ enc (back y) = enc' y ∧ f (val (back y)) = val' y) :
    Decodes (r >>= fun a => pure (f a)) enc' ok' val' where
  sound := by
    intro inp b rest h'
    obtain ⟨a, mid, hr, hp⟩ := bind_run_ok.mp h'
    obtain ⟨rfl, rfl⟩ := Prod.mk.injEq .. ▸ Except.ok.inj hp
    obtain ⟨x, hx, rfl, rfl⟩ := h.sound hr
    obtain ⟨h1, h2, h3⟩ := hto x hx
    exact ⟨fwd x, h1, by rw [h2], h3.symm⟩
  complete := by
    intro y hy rest
    obtain ⟨h1, h2, h3⟩ := hback y hy
    exact bind_run_ok.mpr ⟨_, _, h2 ▸ h.complete _ h1 rest, by rw [h3]; rfl⟩

theorem readMany_decodes {r : Reader ε α} {enc : ρ → List UInt8} {ok : ρ → Prop} {val : ρ → α}
    (h : Decodes r enc ok val) (n : Nat) :
    Decodes (readMany r n) (List.flatMap enc) (fun xs => xs.length = n ∧ ∀ x ∈ xs, ok x)
      (List.map val) := by
  induction n with
  | zero =>
      refine ⟨fun {inp as rest} hr => ?_, fun xs hxs rest => ?_⟩
      · obtain ⟨rfl, rfl⟩ := Prod.mk.injEq .. ▸ Except.ok.inj hr
        exact ⟨[], by simp, by simp, rfl⟩
      · obtain rfl := List.length_eq_zero_iff.mp hxs.1
        rfl
  | succ n ih =>
      refine ⟨fun {inp as rest} hr => ?_, fun xs hxs rest => ?_⟩
      · obtain ⟨a, mid, ha, hr⟩ := bind_run_ok.mp hr
        obtain ⟨as', mid', has, hr⟩ := bind_run_ok.mp hr
        obtain ⟨rfl, rfl⟩ := Prod.mk.injEq .. ▸ Except.ok.inj hr
        obtain ⟨x, hx, rfl, rfl⟩ := h.sound ha
        obtain ⟨xs, ⟨hlen, hxs⟩, rfl, rfl⟩ := ih.sound has
        refine ⟨x :: xs, ⟨by simp [hlen], ?_⟩, by simp, rfl⟩
        intro y hy
        rcases List.mem_cons.mp hy with rfl | hy
        · exact hx
        · exact hxs y hy
      · match xs, hxs with
        | x :: xs, ⟨hlen, hxs⟩ =>
          have h1 := h.complete x (hxs x (by simp)) (xs.flatMap enc ++ rest)
          have h2 := ih.complete xs ⟨by simpa using hlen, fun y hy => hxs y (by simp [hy])⟩ rest
          refine bind_run_ok.mpr ⟨_, _, ?_, bind_run_ok.mpr ⟨_, _, h2, rfl⟩⟩
          rw [List.flatMap_cons, List.append_assoc]
          exact h1

/-- No encoding begins with another one. -/
theorem Decodes.prefix_free {r : Reader ε α} {enc : ρ → List UInt8} {ok : ρ → Prop} {val : ρ → α}
    (h : Decodes r enc ok val) {x y : ρ} (hx : ok x) (hy : ok y) {back : List UInt8}
    (hxy : enc x = enc y ++ back) : val x = val y ∧ back = [] := by
  have h1 := h.complete x hx []
  have h2 := h.complete y hy back
  rw [List.append_nil, hxy, h2] at h1
  obtain ⟨hval, hback⟩ := Prod.mk.injEq .. ▸ Except.ok.inj h1
  exact ⟨hval.symm, hback⟩

end Luaxx.Codec
