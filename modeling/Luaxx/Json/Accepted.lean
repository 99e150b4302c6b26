import Luaxx.Json.Parser

/-!
# What the parser accepts is a text

Without the invalid numbers, everything that the functions for values read is a text of the grammar
in which a number may have a bare point.
-/

namespace Luaxx.Json

open Luaxx.Ctype Luaxx.Result Strbuf

variable {libc : Libc} {cfg : Config} {json : Source}

/-- What is read from `p` up to `rest` is white space and a text. -/
def TextUpTo (p rest : List UInt8) : Prop :=
  ∃ w t j, p = w ++ (t ++ rest) ∧ Whitespace w ∧ Text LenientNumber t j

theorem exists_next {p q : List UInt8} {token : Token} {index : Nat}
    (h : json_next_token libc cfg json p = .ok (token, index, q)) :
    (∃ msg, token = .error msg) ∨ ∃ w s, p = w ++ s ∧ Whitespace w ∧ TokenAt libc cfg s token q := by
  obtain ⟨w, hp, hw, hspace⟩ := exists_skip p
  exact (exists_token hspace (readToken_of_next h)).imp_right fun htoken => ⟨w, _, hp, hw, htoken⟩

theorem exists_plain {p q : List UInt8} {c : UInt8} {type : TokenType} {index : Nat}
    (h : json_next_token libc cfg json p = .ok (.plain type, index, q))
    (hc : (c, type) ∈ punctuation) : ∃ w, p = w ++ c :: q ∧ Whitespace w := by
  have hpeek := peek_of_token (readToken_of_next h) hc
  obtain ⟨w, hp, hw, hspace⟩ := exists_skip p
  rcases exists_token hspace (readToken_of_next h) with ⟨msg, htoken⟩ | htoken
  · cases htoken
  · refine ⟨w, ?_, hw⟩
    rw [hp]
    congr 1
    generalize skipWhitespace p = s at hpeek htoken
    cases htoken with
    | plain => rw [← hpeek, peek_cons]
    | «end» => exact absurd hc (by simp [punctuation])
    | null => exact absurd hc (by simp [punctuation])

/-- The texts of values that a function for values reads. -/
def ProcessSound (libc : Libc) (cfg : Config) (json : Source) (process : Process) : Prop :=
  ∀ {p rest : List UInt8} {next : Next} {depth top : Nat} {v : Value},
    json_next_token libc cfg json p = .ok next → process next depth top = .ok (v, rest) →
    TextUpTo p rest

theorem throw_ne {α : Type} {exp : String} {token : Token} {index : Nat} {a : α} :
    (json_throw_parse_error exp token index : M α) ≠ .ok a := fun h => by cases h

variable {process : Process}

theorem exists_elements (hprocess : ProcessSound libc cfg json process) :
    ∀ {n depth top i : Nat} {fields : List (Key × Value)} {p rest : List UInt8} {next : Next}
      {v : Value}, json_next_token libc cfg json p = .ok next →
      arrayLoop libc cfg json process depth top n i fields next = .ok (v, rest) →
      ∃ ts js, p = ts ++ ch ']' :: rest ∧ Elements LenientNumber ts js := by
  intro n
  induction n with
  | zero =>
    intro depth top i fields p rest next v hnext h
    cases h
  | succ n ih =>
    intro depth top i fields p rest next v hnext h
    rw [arrayLoop] at h
    obtain ⟨⟨value, ptr⟩, hvalue, hrest⟩ := bind_ok.mp h
    obtain ⟨⟨token, index, q⟩, htoken, hafter⟩ := bind_ok.mp hrest
    obtain ⟨w, t, j, rfl, hw, ht⟩ := hprocess hnext hvalue
    clear h hrest
    simp only at hafter htoken
    split at hafter
    · next hend =>
      subst hend
      cases hafter
      obtain ⟨w', rfl, hw'⟩ := exists_plain htoken (c := ch ']') (by decide)
      exact ⟨_, _, by simp only [List.append_assoc], .one hw ht hw'⟩
    · split at hafter
      · exact absurd hafter throw_ne
      · next hcomma =>
        rw [ne_eq, not_not] at hcomma
        subst hcomma
        obtain ⟨next', hnext', hloop⟩ := bind_ok.mp hafter
        obtain ⟨w', rfl, hw'⟩ := exists_plain htoken (c := ch ',') (by decide)
        obtain ⟨ts, js, rfl, hts⟩ := ih hnext' hloop
        exact ⟨_, _, by simp only [List.append_assoc, List.cons_append], .more hw ht hw' hts⟩

theorem exists_members (hprocess : ProcessSound libc cfg json process) :
    ∀ {n depth top : Nat} {fields : List (Key × Value)} {p rest : List UInt8} {next : Next}
      {v : Value}, json_next_token libc cfg json p = .ok next →
      objectLoop libc cfg json process depth top n fields next = .ok (v, rest) →
      ∃ ts ms, p = ts ++ ch '}' :: rest ∧ Members LenientNumber ts ms := by
  intro n
  induction n with
  | zero =>
    intro depth top fields p rest next v hnext h
    cases h
  | succ n ih =>
    intro depth top fields p rest next v hnext h
    obtain ⟨token, index, q⟩ := next
    cases token with
    | string key =>
      rw [objectLoop] at h
      rcases exists_next hnext with ⟨msg, htoken⟩ | ⟨w, s, rfl, hw, htoken⟩
      · cases htoken
      obtain ⟨k, key', rfl, hk⟩ : ∃ k key', s = k ++ q ∧ IsString k key' := by
        cases htoken with
        | string h => exact ⟨_, _, rfl, h⟩
      obtain ⟨⟨token, index', q'⟩, hcolon, hvalue⟩ := bind_ok.mp h
      clear h
      simp only at hvalue hcolon
      split at hvalue
      · exact absurd hvalue throw_ne
      · next htype =>
        rw [ne_eq, not_not] at htype
        subst htype
        obtain ⟨w', rfl, hw'⟩ := exists_plain hcolon (c := ch ':') (by decide)
        obtain ⟨next', hnext', hprocessed⟩ := bind_ok.mp hvalue
        obtain ⟨⟨value, ptr⟩, hmember, hrest⟩ := bind_ok.mp hprocessed
        obtain ⟨⟨token, index'', q''⟩, htoken, hafter⟩ := bind_ok.mp hrest
        obtain ⟨v', t, j, rfl, hv, ht⟩ := hprocess hnext' hmember
        clear hvalue hprocessed hrest
        simp only at hafter htoken
        split at hafter
        · next hend =>
          subst hend
          cases hafter
          obtain ⟨w'', rfl, hw''⟩ := exists_plain htoken (c := ch '}') (by decide)
          exact ⟨_, _, by simp only [List.append_assoc, List.cons_append],
            .one (.mk hw hk hw' hv ht hw'')⟩
        · split at hafter
          · exact absurd hafter throw_ne
          · next hcomma =>
            rw [ne_eq, not_not] at hcomma
            subst hcomma
            obtain ⟨next'', hnext'', hloop⟩ := bind_ok.mp hafter
            obtain ⟨w'', rfl, hw''⟩ := exists_plain htoken (c := ch ',') (by decide)
            obtain ⟨ts, ms, rfl, hts⟩ := ih hnext'' hloop
            exact ⟨_, _, by simp only [List.append_assoc, List.cons_append],
              .more (.mk hw hk hw' hv ht hw'') hts⟩
    | _ => exact absurd h throw_ne

theorem array_sound (hprocess : ProcessSound libc cfg json process) {q rest : List UInt8}
    {depth top : Nat} {v : Value}
    (h : json_parse_array_context libc cfg json process depth top q = .ok (v, rest)) :
    ∃ t j, ch '[' :: q = t ++ rest ∧ Text LenientNumber t j := by
  obtain ⟨-, -, hopen⟩ := bind_ok.mp h
  obtain ⟨⟨token, index, q'⟩, hnext, hbody⟩ := bind_ok.mp hopen
  clear h hopen
  simp only at hbody
  split at hbody
  · next hend =>
    subst hend
    cases hbody
    obtain ⟨w, rfl, hw⟩ := exists_plain hnext (c := ch ']') (by decide)
    exact ⟨ch '[' :: (w ++ [ch ']']), _, by simp, .emptyArray hw⟩
  · obtain ⟨ts, js, rfl, hts⟩ := exists_elements hprocess hnext hbody
    exact ⟨ch '[' :: (ts ++ [ch ']']), _, by simp, .array hts⟩

theorem object_sound (hprocess : ProcessSound libc cfg json process) {q rest : List UInt8}
    {depth top : Nat} {v : Value}
    (h : json_parse_object_context libc cfg json process depth top q = .ok (v, rest)) :
    ∃ t j, ch '{' :: q = t ++ rest ∧ Text LenientNumber t j := by
  obtain ⟨-, -, hopen⟩ := bind_ok.mp h
  obtain ⟨⟨token, index, q'⟩, hnext, hbody⟩ := bind_ok.mp hopen
  clear h hopen
  simp only at hbody
  split at hbody
  · next hend =>
    subst hend
    cases hbody
    obtain ⟨w, rfl, hw⟩ := exists_plain hnext (c := ch '}') (by decide)
    exact ⟨ch '{' :: (w ++ [ch '}']), _, by simp, .emptyObject hw⟩
  · obtain ⟨ts, ms, rfl, hts⟩ := exists_members hprocess hnext hbody
    exact ⟨ch '{' :: (ts ++ [ch '}']), _, by simp, .object hts⟩

theorem process_sound (hcfg : cfg.decode_invalid_numbers = false) (fuel : Nat) :
    ProcessSound libc cfg json (json_process_value libc cfg json fuel) := by
  induction fuel with
  | zero =>
    intro p rest next depth top v hnext h
    obtain ⟨token, index, q⟩ := next
    cases h
  | succ fuel ih =>
    intro p rest next depth top v hnext h
    obtain ⟨token, index, q⟩ := next
    rcases exists_next hnext with ⟨msg, rfl⟩ | ⟨w, s, rfl, hw, htoken⟩
    · exact absurd h throw_ne
    -- the text of the value, with which the token begins
    obtain ⟨t, j, rfl, ht⟩ : ∃ t j, s = t ++ rest ∧ Text LenientNumber t j := by
      cases htoken with
      | @plain c type q hc =>
        simp only [punctuation, List.mem_cons, Prod.mk.injEq, List.not_mem_nil, or_false] at hc
        rcases hc with ⟨rfl, rfl⟩ | ⟨rfl, rfl⟩ | ⟨rfl, rfl⟩ | ⟨rfl, rfl⟩ | ⟨rfl, rfl⟩ | ⟨rfl, rfl⟩
        · exact object_sound ih h
        · exact absurd h throw_ne
        · exact array_sound ih h
        · exact absurd h throw_ne
        · exact absurd h throw_ne
        · exact absurd h throw_ne
      | «end» => exact absurd h throw_ne
      | string hk =>
        cases h
        exact ⟨_, _, rfl, .string hk⟩
      | number hn =>
        cases h
        exact ⟨_, _, rfl, .number hn⟩
      | invalid hinvalid =>
        rw [hcfg] at hinvalid
        cases hinvalid
      | null =>
        cases h
        exact ⟨_, _, rfl, .null⟩
      | true =>
        cases h
        exact ⟨_, _, rfl, .true⟩
      | false =>
        cases h
        exact ⟨_, _, rfl, .false⟩
    exact ⟨w, t, j, rfl, hw, ht⟩

end Luaxx.Json
