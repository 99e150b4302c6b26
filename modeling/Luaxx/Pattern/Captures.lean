import Luaxx.Pattern.Traces

/-!
# What a match reads of the captures

`match` reads no capture at or above its level: what a `MatchState` on the C stack holds there at
first makes no difference.
-/

namespace Luaxx.Pattern

open Luaxx.Ctype Luaxx.Result

variable {src : List UInt8} {ms ms' : MatchState} {s : Nat} {p ep q : List UInt8} {r r' : Result}

/-- One outcome, with the same level and the same captures below it. -/
def SameOutcome (a a' : Option Nat × MatchState) : Prop := a'.1 = a.1 ∧ SameBelow a.2 a'.2

theorem same_outcome (res : Option Nat) (h : SameBelow ms ms') :
    Agree SameOutcome (pure (res, ms) : Result) (pure (res, ms') : Result) := ⟨rfl, h⟩

theorem agree_orElse {f : MatchState → Result} (h : Agree SameOutcome r r')
    (hf : ∀ ms ms', SameBelow ms ms' → Agree SameOutcome (f ms) (f ms')) :
    Agree SameOutcome
      (do
        let (res, ms) ← r
        if res.isSome then pure (res, ms) else f ms)
      (do
        let (res, ms) ← r'
        if res.isSome then pure (res, ms) else f ms) := by
  refine h.bind fun a a' ha => ?_
  obtain ⟨res, ms⟩ := a
  obtain ⟨res', ms'⟩ := a'
  obtain ⟨rfl, hsame⟩ : res' = res ∧ SameBelow ms ms' := ha
  cases res' with
  | none => exact hf ms ms' hsame
  | some e => exact same_outcome (some e) hsame

theorem agree_undo (f f' : MatchState → MatchState) (h : Agree SameOutcome r r')
    (hf : ∀ ms ms', SameBelow ms ms' → SameBelow (f ms) (f' ms')) :
    Agree SameOutcome
      (do
        let (res, ms) ← r
        pure (res, if res.isNone then f ms else ms))
      (do
        let (res, ms) ← r'
        pure (res, if res.isNone then f' ms else ms)) := by
  refine h.bind fun a a' ha => ?_
  obtain ⟨res, ms⟩ := a
  obtain ⟨res', ms'⟩ := a'
  obtain ⟨rfl, hsame⟩ : res' = res ∧ SameBelow ms ms' := ha
  cases res' with
  | none => exact same_outcome none (hf ms ms' hsame)
  | some e => exact same_outcome (some e) hsame

/-! ## Reading captures -/

theorem SameBelow.setCapture (h : SameBelow ms ms') (l : Nat) (slot : CaptureSlot) :
    SameBelow (ms.setCapture l slot) (ms'.setCapture l slot) := by
  refine ⟨h.level, fun i hi => ?_⟩
  show Function.update ms'.capture l slot i = Function.update ms.capture l slot i
  rw [Function.update_apply, Function.update_apply, h.capture i hi]

theorem check_capture_congr (h : SameBelow ms ms') (l : UInt8) :
    check_capture ms' l = check_capture ms l := by
  rw [check_capture, check_capture, h.level]
  by_cases hin : (l.toNat : Int) - (ch '1').toNat < 0 ∨ (l.toNat : Int) - (ch '1').toNat ≥ ms.level
  · rw [if_pos (or_assoc.mp (.inl hin)), if_pos (or_assoc.mp (.inl hin))]
  · rw [h.capture _ (by omega)]

theorem check_capture_lt {l : UInt8} {i : Nat} (h : check_capture ms l = .ok i) : i < ms.level := by
  rw [check_capture] at h
  split_ifs at h with hin
  cases h
  omega

theorem unfinishedBelow_congr (h : SameBelow ms ms') {level : Nat} (hle : level ≤ ms.level) :
    unfinishedBelow ms' level = unfinishedBelow ms level := by
  induction level with
  | zero => rfl
  | succ level ih => rw [unfinishedBelow, unfinishedBelow, h.capture level hle, ih (by omega)]

theorem capture_to_close_congr (h : SameBelow ms ms') :
    capture_to_close ms' = capture_to_close ms := by
  rw [capture_to_close, capture_to_close, h.level, unfinishedBelow_congr h (Nat.le_refl _)]

theorem match_capture_congr (h : SameBelow ms ms') (l : UInt8) :
    match_capture src ms' s l = match_capture src ms s l := by
  rw [match_capture, match_capture, check_capture_congr h]
  cases hcheck : check_capture ms l with
  | error msg => rfl
  | ok i => simp only [ok_bind, h.capture i (check_capture_lt hcheck)]

/-! ## The functions that call `match` back -/

/-- A call that does not read the captures at and above the level. -/
def Indifferent (rec : MatchState → Nat → List UInt8 → Result) : Prop :=
  ∀ ms ms' s p, SameBelow ms ms' → Agree SameOutcome (rec ms s p) (rec ms' s p)

section Callbacks

variable {rec : MatchState → Nat → List UInt8 → Result}

theorem maxTry_indifferent (hrec : Indifferent rec) (h : SameBelow ms ms') (n : Nat) :
    Agree SameOutcome (maxTry rec ms s q n) (maxTry rec ms' s q n) := by
  induction n generalizing ms ms' with
  | zero => exact hrec ms ms' s q h
  | succ n ih => exact agree_orElse (hrec ms ms' _ q h) fun ms ms' h => ih h

theorem minTry_indifferent (hrec : Indifferent rec) (h : SameBelow ms ms') (rest : List UInt8) :
    Agree SameOutcome (minTry rec p ep ms rest s) (minTry rec p ep ms' rest s) := by
  induction rest generalizing ms ms' s with
  | nil => exact hrec ms ms' s _ h
  | cons c rest ih =>
    refine agree_orElse
      (f := fun ms => if singlematch c p ep then minTry rec p ep ms rest (s + 1) else pure (none, ms))
      (hrec ms ms' s _ h) fun ms ms' h => ?_
    split_ifs
    · exact ih h
    · exact same_outcome none h

theorem start_capture_indifferent (hrec : Indifferent rec) (h : SameBelow ms ms') (what : Int) :
    Agree SameOutcome (start_capture rec ms s q what) (start_capture rec ms' s q what) := by
  rw [start_capture, start_capture, h.level]
  split_ifs with hlevel
  · exact rfl
  · refine agree_undo (fun ms => { ms with level := ms.level - 1 })
      (fun ms => { ms with level := ms.level - 1 }) (hrec _ _ s q ?_) fun ms ms' h => ?_
    · refine ⟨congrArg (· + 1) h.level, fun i hi => ?_⟩
      show Function.update ms'.capture ms.level _ i = Function.update ms.capture ms.level _ i
      rw [Function.update_apply, Function.update_apply]
      split_ifs with heq
      · rfl
      · exact h.capture i (by
          have : i < ms.level + 1 := hi
          omega)
    · exact ⟨congrArg (· - 1) h.level, fun i hi => h.capture i (by
        have : i < ms.level - 1 := hi
        omega)⟩

theorem end_capture_indifferent (hrec : Indifferent rec) (h : SameBelow ms ms') :
    Agree SameOutcome (end_capture rec ms s q) (end_capture rec ms' s q) := by
  rw [end_capture, end_capture, capture_to_close_congr h]
  cases hclose : capture_to_close ms with
  | error msg => exact rfl
  | ok l =>
    obtain ⟨hl, -⟩ := (unfinishedBelow_spec ms ms.level).ok_of_eq hclose
    simp only [ok_bind, h.capture l hl]
    refine agree_undo (fun ms => ms.setCapture l ⟨(ms.capture l).init, CAP_UNFINISHED⟩)
      (fun ms => ms.setCapture l ⟨(ms.capture l).init, CAP_UNFINISHED⟩)
      (hrec _ _ s q (h.setCapture l _)) fun ms ms' h => ?_
    by_cases hl' : l < ms.level
    · rw [h.capture l hl']
      exact h.setCapture l _
    · -- the capture is above what is compared
      refine ⟨h.level, fun i hi => ?_⟩
      have hi' : i < ms.level := hi
      show Function.update ms'.capture l _ i = Function.update ms.capture l _ i
      rw [Function.update_of_ne (by omega), Function.update_of_ne (by omega)]
      exact h.capture i hi'

theorem matchItem_indifferent (hrec : Indifferent rec) (h : SameBelow ms ms') :
    Agree SameOutcome (matchItem src rec ms s p) (matchItem src rec ms' s p) := by
  rw [matchItem, matchItem]
  cases classend p with
  | error msg => exact rfl
  | ok ep =>
    simp only [ok_bind]
    split_ifs
    · exact agree_orElse (f := fun ms => rec ms s ep.tail) (hrec ms ms' _ _ h)
        fun ms ms' h => hrec ms ms' s _ h
    · exact hrec ms ms' s _ h
    · exact maxTry_indifferent hrec h _
    · exact maxTry_indifferent hrec h _
    · exact same_outcome none h
    · exact minTry_indifferent hrec h _
    · exact hrec ms ms' _ _ h
    · exact same_outcome none h

theorem matchFrontier_indifferent (hrec : Indifferent rec) (h : SameBelow ms ms') :
    Agree SameOutcome (matchFrontier src rec ms s p) (matchFrontier src rec ms' s p) := by
  rw [matchFrontier, matchFrontier]
  by_cases hset : deref p ≠ ch '['
  · rw [if_pos hset, if_pos hset]
    exact rfl
  · rw [if_neg hset, if_neg hset]
    cases classend p with
    | error msg => exact rfl
    | ok ep =>
      simp only [ok_bind]
      split_ifs
      · exact same_outcome none h
      · exact hrec ms ms' s ep h
      · exact same_outcome none h
      · exact hrec ms ms' s ep h

/-- A computation that comes first, and fails or leaves a position, or `NULL`. -/
theorem agree_position {x : Except String (Option Nat)} (hrec : Indifferent rec)
    (h : SameBelow ms ms') :
    Agree SameOutcome
      (x >>= fun | none => pure (none, ms) | some s => rec ms s p)
      (x >>= fun | none => pure (none, ms') | some s => rec ms' s p) := by
  cases x with
  | error msg => exact rfl
  | ok e =>
    cases e with
    | none => exact same_outcome none h
    | some e => exact hrec ms ms' e p h

theorem matchBody_indifferent (hrec : Indifferent rec) (h : SameBelow ms ms') :
    Agree SameOutcome (matchBody src rec ms s p) (matchBody src rec ms' s p) := by
  rw [matchBody, matchBody]
  split_ifs
  · exact start_capture_indifferent hrec h _
  · exact start_capture_indifferent hrec h _
  · exact end_capture_indifferent hrec h
  · exact agree_position hrec h
  · exact matchFrontier_indifferent hrec h
  · rw [match_capture_congr h]
    exact agree_position hrec h
  · exact matchItem_indifferent hrec h
  · exact same_outcome _ h
  · exact same_outcome _ h
  · exact same_outcome _ h
  · exact matchItem_indifferent hrec h
  · exact matchItem_indifferent hrec h

end Callbacks

theorem matchFuel_indifferent (src : List UInt8) (fuel : Nat) : Indifferent (matchFuel src fuel) := by
  induction fuel with
  | zero => exact fun _ _ _ _ _ => rfl
  | succ fuel ih => exact fun _ _ _ _ h => matchBody_indifferent ih h

/-- A match from the level 0 does not depend on the captures. -/
theorem do_match_indifferent (src p : List UInt8) (s : Nat) (capture capture' : Nat → CaptureSlot) :
    Agree SameOutcome (do_match src ⟨0, capture⟩ s p) (do_match src ⟨0, capture'⟩ s p) :=
  matchFuel_indifferent src _ _ _ s p ⟨rfl, fun _ hl => absurd hl (Nat.not_lt_zero _)⟩

end Luaxx.Pattern
