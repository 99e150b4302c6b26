import Luaxx.Json.Grammar
import Luaxx.Lib.Spans

/-!
# Numbers

What `strtod` takes of a text that the filter in front of it lets pass: a number, which may have a
bare point.
-/

namespace Luaxx.Json

open Luaxx.Ctype Luaxx.Spans

/-- No number goes on here. -/
def NumberEnd (p : List UInt8) : Prop := isalnum (peek p) = false ∧ peek p ≠ ch '.'

theorem span_digits {ds p : List UInt8} (hds : Digits ds) (hp : isdigit (peek p) = false) :
    (ds ++ p).takeWhile isdigit = ds ∧ (ds ++ p).dropWhile isdigit = p := by
  apply span_eq isdigit p hds
  intro c hc
  rcases p with _ | ⟨d, p⟩
  · cases hc
  · cases hc
    exact hp

theorem strtodDigits_whole {whole p : List UInt8} (hwhole : Digits whole) (hne : whole ≠ [])
    (hp : isdigit (peek p) = false) (hpoint : peek p ≠ ch '.') :
    strtodDigits isdigit (whole ++ p) = some (whole, p) := by
  have hspan := span_digits hwhole hp
  rw [strtodDigits]
  simp only
  rw [hspan.1, hspan.2, if_neg hpoint, if_neg hne]

theorem strtodDigits_point {whole fraction p : List UInt8} (hwhole : Digits whole)
    (hfraction : Digits fraction) (hne : ¬ (whole = [] ∧ fraction = []))
    (hp : isdigit (peek p) = false) :
    strtodDigits isdigit (whole ++ ch '.' :: (fraction ++ p)) =
      some (whole ++ ch '.' :: fraction, p) := by
  have hspan := span_digits (p := ch '.' :: (fraction ++ p)) hwhole rfl
  have hspan' := span_digits hfraction hp
  rw [strtodDigits]
  simp only
  rw [hspan.1, hspan.2, peek_cons, if_pos rfl, List.tail_cons, hspan'.1, hspan'.2, if_neg hne]

theorem exponent_letter (c : UInt8) : tolower c = ch 'e' ↔ c = ch 'e' ∨ c = ch 'E' :=
  forall_byte (P := fun c => tolower c = ch 'e' ↔ c = ch 'e' ∨ c = ch 'E') (by decide) c

theorem isalnum_of_isdigit {c : UInt8} (h : isalnum c = false) : isdigit c = false := by
  rw [isalnum, Bool.or_eq_false_iff] at h
  exact h.2

theorem not_letter_of_not_isalnum {c : UInt8} (h : isalnum c = false) :
    tolower c ≠ ch 'e' ∧ tolower c ≠ ch 'x' :=
  forall_byte (P := fun c => isalnum c = false → tolower c ≠ ch 'e' ∧ tolower c ≠ ch 'x')
    (by decide) c h

theorem strtodSign_eq {sign p : List UInt8} (h : sign = [] ∨ sign = [ch '-'] ∨ sign = [ch '+'])
    (hp : peek p ≠ ch '+' ∧ peek p ≠ ch '-') : strtodSign (sign ++ p) = (sign, p) := by
  rcases h with rfl | rfl | rfl
  · rw [strtodSign]
    exact if_neg fun h => h.elim hp.1 hp.2
  · rfl
  · rfl

theorem not_sign_of_digit {c : UInt8} (h : isdigit c = true) : c ≠ ch '+' ∧ c ≠ ch '-' :=
  forall_byte (P := fun c => isdigit c = true → c ≠ ch '+' ∧ c ≠ ch '-') (by decide) c h

theorem strtodExponent_eq {e rest : List UInt8} (he : IsExponent e) (hrest : NumberEnd rest) :
    strtodExponent 'e' (e ++ rest) = (e, rest) := by
  cases he with
  | none =>
    rw [strtodExponent]
    exact if_neg (not_letter_of_not_isalnum hrest.1).1
  | @some c sign digits hc hsign hdigits hne =>
    have hsignEq : strtodSign (sign ++ (digits ++ rest)) = (sign, digits ++ rest) := by
      apply strtodSign_eq hsign
      rcases digits with _ | ⟨d, digits⟩
      · exact absurd rfl hne
      · exact not_sign_of_digit (hdigits d List.mem_cons_self)
    have hspan := span_digits hdigits (isalnum_of_isdigit hrest.1)
    rw [strtodExponent, List.cons_append, peek_cons, if_pos ((exponent_letter c).mpr hc),
      List.tail_cons, List.append_assoc, hsignEq]
    simp only
    rw [hspan.1, hspan.2, if_neg hne]

/-- What follows the digits of a number. -/
theorem exponent_end {e rest : List UInt8} (he : IsExponent e) (hrest : NumberEnd rest) :
    isdigit (peek (e ++ rest)) = false ∧ peek (e ++ rest) ≠ ch '.' ∧
      tolower (peek (e ++ rest)) ≠ ch 'x' := by
  cases he with
  | none => exact ⟨isalnum_of_isdigit hrest.1, hrest.2, (not_letter_of_not_isalnum hrest.1).2⟩
  | some hc =>
    rw [List.cons_append, peek_cons]
    rcases hc with rfl | rfl <;> decide

/-- The digits of a number are not `0x`. -/
theorem not_hex {whole p : List UInt8} (h : IsWhole whole) (hp : tolower (peek p) ≠ ch 'x') :
    ¬ (peek (whole ++ p) = ch '0' ∧ tolower (peek (whole ++ p).tail) = ch 'x') := by
  obtain ⟨hdigits, hne, hzero⟩ := h
  rintro ⟨h0, hx⟩
  rcases whole with _ | ⟨c, whole⟩
  · exact hne rfl
  · have hc : c = ch '0' := h0
    have hwhole := hzero (by rw [hc]; rfl)
    rw [hwhole] at hx
    exact hp hx

theorem strtodSpan_eq {n rest : List UInt8} (hn : LenientNumber n) (hrest : NumberEnd rest) :
    strtodSpan (n ++ rest) = some (n, rest) := by
  obtain ⟨sign, decimal, e, rfl, hsign, hdecimal, he⟩ := hn
  obtain ⟨hdigit, hpoint, hx⟩ := exponent_end he hrest
  have hexponent := strtodExponent_eq he hrest
  have hunsigned : strtodUnsigned (decimal ++ (e ++ rest)) = some (decimal ++ e, rest) ∧
      peek (decimal ++ (e ++ rest)) ≠ ch '+' ∧ peek (decimal ++ (e ++ rest)) ≠ ch '-' := by
    have hwhole : ∀ {whole p}, IsWhole whole → peek (whole ++ p) ≠ ch '+' ∧ peek (whole ++ p) ≠ ch '-' := by
      rintro whole p ⟨hdigits, hne, -⟩
      rcases whole with _ | ⟨c, whole⟩
      · exact absurd rfl hne
      · exact not_sign_of_digit (hdigits c List.mem_cons_self)
    have hread : ¬ (peek (decimal ++ (e ++ rest)) = ch '0' ∧
          tolower (peek (decimal ++ (e ++ rest)).tail) = ch 'x') →
        strtodDigits isdigit (decimal ++ (e ++ rest)) = some (decimal, e ++ rest) →
        strtodUnsigned (decimal ++ (e ++ rest)) = some (decimal ++ e, rest) := by
      intro hhex hdigits
      rw [strtodUnsigned]
      simp only
      rw [if_neg hhex]
      simp only
      rw [hdigits]
      simp only
      rw [hexponent]
    have hpointed : ∀ {whole digits}, IsWhole whole → Digits digits →
        decimal = whole ++ ch '.' :: digits →
        strtodUnsigned (decimal ++ (e ++ rest)) = some (decimal ++ e, rest) ∧
          peek (decimal ++ (e ++ rest)) ≠ ch '+' ∧ peek (decimal ++ (e ++ rest)) ≠ ch '-' := by
      intro whole digits h hdigits hdecimal
      have hshape : decimal ++ (e ++ rest) = whole ++ ch '.' :: (digits ++ (e ++ rest)) := by
        rw [hdecimal, List.append_assoc]
        rfl
      refine ⟨hread ?_ ?_, ?_⟩
      · rw [hshape]
        exact not_hex h (by rw [peek_cons]; decide)
      · rw [hshape, strtodDigits_point h.1 hdigits (fun hboth => h.2.1 hboth.1) hdigit, hdecimal]
      · rw [hshape]
        exact hwhole h
    rcases hdecimal with hdecimal | hdecimal
    · cases hdecimal with
      | whole h =>
        exact ⟨hread (not_hex h hx) (strtodDigits_whole h.1 h.2.1 hdigit hpoint), hwhole h⟩
      | point h hdigits hne => exact hpointed h hdigits rfl
    · cases hdecimal with
      | last h => exact hpointed h (fun _ hc => absurd hc List.not_mem_nil) rfl
      | @first digits hdigits hne =>
        refine ⟨hread (fun h => ?_) ?_, ?_, ?_⟩
        · exact absurd h.1 (show ¬ ch '.' = ch '0' by decide)
        · have hnone : Digits [] := fun _ hc => absurd hc List.not_mem_nil
          exact strtodDigits_point hnone hdigits (fun hboth => hne hboth.2) hdigit
        · exact show ¬ ch '.' = ch '+' by decide
        · exact show ¬ ch '.' = ch '-' by decide
  rw [strtodSpan, List.append_assoc, List.append_assoc,
    strtodSign_eq (hsign.imp_right Or.inl) hunsigned.2]
  simp only
  rw [hunsigned.1]
  rfl

/-- What the filter looks for after the sign. -/
theorem json_is_invalid_number_eq {sign q : List UInt8} (hsign : IsSign sign)
    (hq : sign = [] → peek q ≠ ch '+' ∧ peek q ≠ ch '-') :
    json_is_invalid_number (sign ++ q) =
      if peek q = ch '0' then peek q.tail ||| 0x20 = ch 'x' || isdigit (peek q.tail)
      else if peek q ≤ ch '9' ∨ 128 ≤ peek q then false
      else strncasecmp q "inf" || strncasecmp q "nan" := by
  rcases hsign with rfl | rfl
  · rw [List.nil_append, json_is_invalid_number, if_neg (hq rfl).1]
    simp only
    rw [if_neg (hq rfl).2]
  · rw [List.singleton_append, json_is_invalid_number, peek_cons, if_neg (by decide)]
    simp only
    rw [if_pos trivial, List.tail_cons]

theorem or_20 (c : UInt8) : c ||| 0x20 = ch 'x' ↔ tolower c = ch 'x' :=
  forall_byte (P := fun c => c ||| 0x20 = ch 'x' ↔ tolower c = ch 'x') (by decide) c

theorem le_of_isdigit {c : UInt8} (h : isdigit c = true) : c ≤ ch '9' := by
  rw [isdigit, Bool.and_eq_true, decide_eq_true_eq, decide_eq_true_eq] at h
  exact h.2

/-- The first character of a number, and that the filter lets it pass. -/
theorem number_passes {n rest : List UInt8} (hn : LenientNumber n) (hrest : NumberEnd rest) :
    (peek (n ++ rest) = ch '-' ∨ isdigit (peek (n ++ rest)) = true) ∧
      json_is_invalid_number (n ++ rest) = false := by
  obtain ⟨sign, decimal, e, rfl, hsign, hdecimal, he⟩ := hn
  obtain ⟨hdigit, hpoint, hx⟩ := exponent_end he hrest
  rw [List.append_assoc, List.append_assoc]
  have hwhole : ∀ {whole p}, IsWhole whole → isdigit (peek p) = false → tolower (peek p) ≠ ch 'x' →
      isdigit (peek (whole ++ p)) = true ∧
        json_is_invalid_number (sign ++ (whole ++ p)) = false := by
    rintro whole p ⟨hdigits, hne, hzero⟩ hp hpx
    rcases whole with _ | ⟨c, whole⟩
    · exact absurd rfl hne
    · have hc := hdigits c List.mem_cons_self
      refine ⟨hc, ?_⟩
      have hsign' : peek (c :: (whole ++ p)) ≠ ch '+' ∧ peek (c :: (whole ++ p)) ≠ ch '-' :=
        not_sign_of_digit hc
      rw [List.cons_append, json_is_invalid_number_eq hsign fun _ => hsign', peek_cons, List.tail_cons]
      split
      · next h0 =>
        have hnil : whole = [] := (List.cons.inj (hzero (by rw [h0]; rfl))).2
        rw [hnil, List.nil_append, hp, Bool.or_false, decide_eq_false_iff_not, or_20]
        exact hpx
      · rw [if_pos (.inl (le_of_isdigit hc))]
  have hfirst : ∀ {p : List UInt8}, isdigit (peek p) = true →
      peek (sign ++ p) = ch '-' ∨ isdigit (peek (sign ++ p)) = true := by
    intro p hp
    rcases hsign with rfl | rfl
    · exact .inr hp
    · exact .inl rfl
  have hpointed : ∀ {whole digits}, IsWhole whole → decimal = whole ++ ch '.' :: digits →
      (peek (sign ++ (decimal ++ (e ++ rest))) = ch '-' ∨
        isdigit (peek (sign ++ (decimal ++ (e ++ rest)))) = true) ∧
      json_is_invalid_number (sign ++ (decimal ++ (e ++ rest))) = false := by
    intro whole digits h hdecimal
    rw [hdecimal, List.append_assoc, List.cons_append]
    obtain ⟨hd, hpass⟩ := hwhole (p := ch '.' :: (digits ++ (e ++ rest))) h
      (by rw [peek_cons]; decide) (by rw [peek_cons]; decide)
    exact ⟨hfirst hd, hpass⟩
  rcases hdecimal with hdecimal | hdecimal
  · cases hdecimal with
    | whole h =>
      obtain ⟨hd, hpass⟩ := hwhole h hdigit hx
      exact ⟨hfirst hd, hpass⟩
    | point h hdigits hne => exact hpointed h rfl
  · cases hdecimal with
    | last h => exact hpointed h rfl
    | first hdigits hne =>
      refine ⟨.inl rfl, ?_⟩
      rw [json_is_invalid_number_eq (.inr rfl) (fun h => by cases h), List.cons_append, peek_cons, if_neg (by decide), if_pos (.inl (by decide))]

/-! ### What `strtod` takes -/

theorem exists_digits {q d r : List UInt8} (h : strtodDigits isdigit q = some (d, r)) :
    q = d ++ r ∧ ((Digits d ∧ d ≠ []) ∨ ∃ whole fraction, Digits whole ∧ Digits fraction ∧
      ¬ (whole = [] ∧ fraction = []) ∧ d = whole ++ ch '.' :: fraction) := by
  obtain ⟨whole, p, rfl, hwhole, hp⟩ := exists_span isdigit q
  have hspan := span_eq isdigit p hwhole hp
  rw [strtodDigits] at h
  simp only at h
  rw [hspan.1, hspan.2] at h
  split at h
  · next hpoint =>
    rcases p with _ | ⟨c, p⟩
    · exact absurd hpoint (by decide)
    obtain rfl : c = ch '.' := hpoint
    obtain ⟨fraction, r', rfl, hfraction, hr'⟩ := exists_span isdigit p
    have hspan' := span_eq isdigit r' hfraction hr'
    rw [List.tail_cons, hspan'.1, hspan'.2] at h
    split at h
    · cases h
    · next hne =>
      cases h
      exact ⟨by rw [List.append_assoc]; rfl, .inr ⟨whole, fraction, hwhole, hfraction, hne, rfl⟩⟩
  · split at h
    · cases h
    · next hne =>
      cases h
      exact ⟨rfl, .inl ⟨hwhole, hne⟩⟩

theorem exists_sign (p : List UInt8) :
    ∃ sign q, strtodSign p = (sign, q) ∧ p = sign ++ q ∧
      ((sign = [] ∧ peek p ≠ ch '+' ∧ peek p ≠ ch '-') ∨ sign = [ch '-'] ∨ sign = [ch '+']) := by
  rw [strtodSign]
  split
  · next h =>
    rcases p with _ | ⟨c, p⟩
    · exact absurd h (by decide)
    rw [peek_cons] at h
    refine ⟨[c], p, rfl, rfl, .inr ?_⟩
    rcases h with rfl | rfl
    · exact .inr rfl
    · exact .inl rfl
  · next h =>
    rw [not_or] at h
    exact ⟨[], p, rfl, rfl, .inl ⟨rfl, h⟩⟩

theorem exists_exponent (r : List UInt8) :
    ∃ e rest, strtodExponent 'e' r = (e, rest) ∧ r = e ++ rest ∧ IsExponent e := by
  rw [strtodExponent]
  split
  · next hletter =>
    rcases r with _ | ⟨c, r⟩
    · exact absurd hletter (by decide)
    rw [peek_cons, exponent_letter] at hletter
    obtain ⟨sign, q, hsplit, hr, hsign⟩ := exists_sign r
    obtain ⟨digits, rest, rfl, hdigits, hrest⟩ := exists_span isdigit q
    have hspan := span_eq isdigit rest hdigits hrest
    rw [List.tail_cons, hsplit]
    simp only
    rw [hspan.1, hspan.2]
    split
    · exact ⟨[], c :: r, rfl, rfl, .none⟩
    · next hne =>
      refine ⟨c :: (sign ++ digits), rest, rfl, ?_, .some hletter (hsign.imp_left And.left) hdigits hne⟩
      rw [hr, List.cons_append, List.append_assoc]
  · exact ⟨[], r, rfl, rfl, .none⟩

/-- A word that is found begins with its letter. -/
theorem strncasecmp_head {q : List UInt8} {word : String} (h : strncasecmp q word = true) :
    tolower (peek q) = peek (chars word) ∨ chars word = [] := by
  rw [strncasecmp, beq_iff_eq] at h
  cases hword : chars word with
  | nil => exact .inr rfl
  | cons c w =>
    left
    rw [hword] at h
    cases q with
    | nil => cases h
    | cons d q =>
      rw [List.length_cons, List.take_succ_cons, List.map_cons] at h
      exact (List.cons.inj h).1

/-- A word is found only where the filter finds it, and it begins with a letter. -/
theorem strtodWord_none {q : List UInt8} (h : (peek q ≤ ch '9' ∨ 128 ≤ peek q) ∨
    (strncasecmp q "inf" || strncasecmp q "nan") = false) : strtodWord q = none := by
  have hletters : ∀ c : UInt8, c ≤ ch '9' ∨ 128 ≤ c → tolower c ≠ ch 'i' ∧ tolower c ≠ ch 'n' :=
    fun c => forall_byte (P := fun c => c ≤ ch '9' ∨ 128 ≤ c →
      tolower c ≠ ch 'i' ∧ tolower c ≠ ch 'n') (by decide) c
  have hnone : strncasecmp q "inf" = false ∧ strncasecmp q "nan" = false := by
    rcases h with h | h
    · obtain ⟨hi, hn⟩ := hletters _ h
      rw [Bool.eq_false_iff, Bool.eq_false_iff]
      refine ⟨fun h => ?_, fun h => ?_⟩
      · rcases strncasecmp_head h with h | h
        · exact hi h
        · cases h
      · rcases strncasecmp_head h with h | h
        · exact hn h
        · cases h
    · rwa [Bool.or_eq_false_iff] at h
  have hinfinity : strncasecmp q "infinity" = false := by
    rw [Bool.eq_false_iff]
    intro h
    rw [strncasecmp, beq_iff_eq] at h
    have htake := congrArg (List.take 3) h
    rw [← List.map_take, List.take_take] at htake
    have hinf : strncasecmp q "inf" = true := by
      rw [strncasecmp, beq_iff_eq]
      exact htake
    rw [hnone.1] at hinf
    cases hinf
  rw [strtodWord]
  simp only
  rw [hinfinity, hnone.1, hnone.2]
  rfl

/-- What `strtod` takes of a text that the filter lets pass is a number. -/
theorem exists_number {p n rest : List UInt8} (hp : peek p = ch '-' ∨ isdigit (peek p) = true)
    (hpass : json_is_invalid_number p = false) (h : strtodSpan p = some (n, rest)) :
    LenientNumber n ∧ p = n ++ rest := by
  obtain ⟨sign, q, hsplit, hpq, hsign⟩ := exists_sign p
  have hsign' : IsSign sign ∧ (sign = [] → isdigit (peek q) = true) := by
    rcases hsign with ⟨rfl, -, hminus⟩ | rfl | rfl
    · exact ⟨.inl rfl, fun _ => by
        rw [← List.nil_append q, ← hpq]
        exact hp.resolve_left hminus⟩
    · exact ⟨.inr rfl, fun h => by cases h⟩
    · rw [hpq, List.singleton_append, peek_cons] at hp
      rcases hp with hp | hp
      · exact absurd hp (by decide)
      · exact absurd hp (by decide)
  obtain ⟨hsign, hdigit⟩ := hsign'
  rw [hpq, json_is_invalid_number_eq hsign fun h => not_sign_of_digit (hdigit h)] at hpass
  rw [strtodSpan, hsplit] at h
  simp only at h
  rw [Option.map_eq_some_iff] at h
  obtain ⟨⟨t, rest'⟩, hunsigned, ht⟩ := h
  obtain ⟨rfl, rfl⟩ := Prod.mk.inj ht
  have hwhole : ∀ {whole p'}, q = whole ++ p' → Digits whole → whole ≠ [] → IsWhole whole := by
    intro whole p' hq hdigits hne
    refine ⟨hdigits, hne, fun hhead => ?_⟩
    rcases whole with _ | ⟨c, whole⟩
    · exact absurd rfl hne
    obtain rfl : c = ch '0' := Option.some.inj hhead
    rw [hq, List.cons_append, peek_cons, if_pos rfl, List.tail_cons, Bool.or_eq_false_iff] at hpass
    rcases whole with _ | ⟨d, whole⟩
    · rfl
    · rw [List.cons_append, peek_cons, hdigits d (List.mem_cons_of_mem _ List.mem_cons_self)] at hpass
      exact nomatch hpass.2
  have hhex : ¬ (peek q = ch '0' ∧ tolower (peek q.tail) = ch 'x') := by
    rintro ⟨h0, hx⟩
    rw [if_pos h0, Bool.or_eq_false_iff, decide_eq_false_iff_not, or_20] at hpass
    exact hpass.1 hx
  rw [strtodUnsigned] at hunsigned
  simp only at hunsigned
  rw [if_neg hhex] at hunsigned
  simp only at hunsigned
  cases hdigits : strtodDigits isdigit q with
  | none =>
    have hword : strtodWord q = none := by
      apply strtodWord_none
      split at hpass
      · next h0 => exact .inl (.inl (by rw [h0]; decide))
      · split at hpass
        · next hle => exact .inl hle
        · exact .inr hpass
    rw [hdigits] at hunsigned
    simp only at hunsigned
    rw [hword] at hunsigned
    cases hunsigned
  | some r =>
    obtain ⟨d, r⟩ := r
    obtain ⟨hq, hshape⟩ := exists_digits hdigits
    obtain ⟨e, rest, hexponent, rfl, he⟩ := exists_exponent r
    rw [hdigits] at hunsigned
    simp only at hunsigned
    rw [hexponent] at hunsigned
    cases hunsigned
    refine ⟨⟨sign, d, e, rfl, hsign, ?_, he⟩, ?_⟩
    · rcases hshape with ⟨hd, hne⟩ | ⟨whole, fraction, hw, hf, hne, rfl⟩
      · exact .inl (.whole (hwhole hq hd hne))
      · by_cases hnil : whole = []
        · have hne' : fraction ≠ [] := fun h => hne ⟨hnil, h⟩
          rcases hsign with hsign | hsign
          · have hpeek := hdigit hsign
            rw [hq, hnil, List.nil_append, List.cons_append, peek_cons] at hpeek
            exact absurd hpeek (by decide)
          · rw [hsign, hnil]
            exact .inr (.first hf hne')
        · have hw' := hwhole (by rw [hq, List.append_assoc]) hw hnil
          by_cases hf' : fraction = []
          · rw [hf']
            exact .inr (.last hw')
          · exact .inl (.point hw' hf hf')
    · rw [hpq, hq, List.append_assoc, List.append_assoc]

end Luaxx.Json
