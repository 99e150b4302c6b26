import Luaxx.Json.Strict

/-!
# The errors of the decoder

A string that is shorter than `INT_MAX` is decoded or raises an error: no byte is written outside of
the buffer for strings, and every loop ends.
-/

namespace Luaxx.Json

open Luaxx.Ctype Luaxx.Result Strbuf

/-- If there is no result, an error has been raised. -/
def Raises {α : Type} (x : M α) : Prop := ∀ e, x = .error e → ∃ msg, e = .error msg

section

variable {α β : Type} {x : M α} {f : α → M β}

theorem raises_ok (a : α) : Raises (.ok a : M α) := fun _ h => by cases h

theorem raises_error (msg : String) : Raises (.error (.error msg) : M α) := by
  intro e h
  cases h
  exact ⟨msg, rfl⟩

theorem Raises.bind (hx : Raises x) (hf : ∀ a, x = .ok a → Raises (f a)) : Raises (x >>= f) := by
  cases x with
  | ok a => exact hf a rfl
  | error e =>
    obtain ⟨msg, rfl⟩ := hx e rfl
    exact raises_error msg

theorem raises_throw (exp : String) (token : Token) (index : Nat) :
    Raises (json_throw_parse_error exp token index : M α) := raises_error _

end

variable {libc : Libc} {cfg : Config} {json : Source}

/-! ## Tokens -/

theorem raises_append {tmp : Strbuf} {s : List UInt8} {f : Strbuf → M Lexed}
    (hroom : tmp.length + s.length ≤ tmp.size)
    (hf : ∀ tmp' : Strbuf, tmp'.length = tmp.length + s.length → tmp'.size = tmp.size →
      Raises (f tmp')) :
    Raises ( strbuf_append_mem_unsafe tmp s >>= f) := by
  rw [ strbuf_append_mem_unsafe, if_pos hroom]
  refine hf _ ?_ rfl
  rw [Strbuf.length, List.length_append, Nat.cast_add]
  rfl

/-- The buffer is larger than what is left of the text. -/
theorem raises_string : ∀ {fuel : Nat} {tmp : Strbuf} {p : List UInt8}, p.length < fuel →
    tmp.length + p.length < tmp.size → Raises (scanString fuel tmp p) := by
  intro fuel
  induction fuel with
  | zero =>
    intro tmp p hfuel
    omega
  | succ fuel ih =>
    intro tmp p hfuel hroom
    rcases p with _ | ⟨c, p⟩
    · exact raises_ok _
    rw [List.length_cons] at hfuel hroom
    have hone : ∀ (c : UInt8) (q : List UInt8), q.length ≤ p.length →
        Raises ( strbuf_append_char_unsafe tmp c >>= fun tmp => scanString fuel tmp q) := by
      intro c q hq
      refine raises_append (by rw [List.length_singleton]; omega) fun tmp' hlength hsize => ?_
      rw [List.length_singleton] at hlength
      exact ih (by omega) (by omega)
    by_cases hback : c = ch '\\'
    · subst hback
      rw [scanString_escape]
      split
      · next hu =>
        rcases p with _ | ⟨e, p⟩
        · exact absurd (escape2char_u hu) (by decide)
        obtain rfl : e = ch 'u' := escape2char_u hu
        rw [List.length_cons] at hfuel hroom
        split
        · next utf8 q heq =>
          -- an escape is longer than what it stands for
          have hshort : utf8.length + q.length ≤ p.length := by
            rcases exists_unicode heq with ⟨u, n, rfl, hu, hn, hutf8⟩ |
              ⟨u, v, n, m, rfl, hu, hn, hv, hm, hutf8⟩
            · have hshort := codepoint_to_utf8_length n
              rw [← hutf8] at hshort
              obtain ⟨-, -, -, -⟩ := hu
              simp only [List.cons_append, List.length_cons, List.nil_append]
              omega
            · have hshort := codepoint_to_utf8_length
                ((n - 0xD800) * 0x400 + (m - 0xDC00) + 0x10000)
              rw [← hutf8] at hshort
              rw [List.length_append]
              obtain ⟨-, -, -, -⟩ := hv
              simp only [List.cons_append, List.length_cons, List.nil_append]
              omega
          refine raises_append (by omega) fun tmp' hlength hsize => ?_
          exact ih (by omega) (by omega)
        · exact raises_ok _
      · split
        · exact raises_ok _
        · exact hone _ _ (by rw [List.length_tail]; omega)
    · rw [scanString]
      show Raises (if c = ch '"' then _ else if c = 0 then _ else if c = ch '\\' then _ else _)
      rw [if_neg hback]
      split
      · rw [strbuf_ensure_null, if_pos (by omega)]
        exact raises_ok _
      · split
        · exact raises_ok _
        · exact hone _ _ le_rfl

theorem skipWhitespace_length (p : List UInt8) : (skipWhitespace p).length ≤ p.length := by
  obtain ⟨w, hp, -, -⟩ := exists_skip p
  have hlength := congrArg List.length hp
  rw [List.length_append] at hlength
  omega

theorem raises_next {p : List UInt8} (hp : (p.length : Int) < json.tmp.size) :
    Raises (json_next_token libc cfg json p) := by
  have hskip := skipWhitespace_length p
  have hstring : Raises (json_next_string_token json.tmp (skipWhitespace p)) := by
    refine raises_string ?_ ?_
    · rw [List.length_tail]
      omega
    · rw [List.length_tail]
      show ((0 : Nat) : Int) + _ < json.tmp.size
      omega
  have hlex : Raises (lexToken libc cfg json.tmp (skipWhitespace p)) := by
    rw [lexToken]
    split
    · exact raises_ok _
    · exact raises_ok _
    · split
      · exact hstring
      · split
        · split
          · exact raises_ok _
          · exact raises_ok _
        · split
          · exact raises_ok _
          · split
            · exact raises_ok _
            · split
              · exact raises_ok _
              · split
                · exact raises_ok _
                · exact raises_ok _
    · exact raises_ok _
  exact hlex.bind fun _ _ => raises_ok _

/-! ## Values -/

theorem text_pos {t : List UInt8} {j : Tree} (h : Text LenientNumber t j) : 0 < t.length := by
  rcases t with _ | ⟨c, t⟩
  · -- the text would begin like what follows it
    have hhead := (text_head h [ch ']']).2
    exact absurd rfl hhead
  · rw [List.length_cons]
    omega

theorem TextUpTo.length_lt {p rest : List UInt8} (h : TextUpTo p rest) :
    rest.length < p.length := by
  obtain ⟨w, t, j, rfl, -, ht⟩ := h
  have hpos := text_pos ht
  simp only [List.length_append]
  omega

theorem plain_length_lt {p q : List UInt8} {c : UInt8} {type : TokenType} {index : Nat}
    (h : json_next_token libc cfg json p = .ok (.plain type, index, q))
    (hc : (c, type) ∈ punctuation) : q.length < p.length := by
  obtain ⟨w, rfl, -⟩ := exists_plain h hc
  rw [List.length_append, List.length_cons]
  omega

/-- The values in texts that are shorter than `bound`. -/
def ProcessRaises (libc : Libc) (cfg : Config) (json : Source) (bound : Nat) (process : Process) :
    Prop :=
  ∀ {p : List UInt8} {next : Next} {depth top : Nat}, json_next_token libc cfg json p = .ok next →
    p.length < bound → Raises (process next depth top)

section

variable {process : Process} {bound : Nat}

theorem raises_descend (depth top slots : Nat) (ptr : List UInt8) :
    Raises (json_decode_descend cfg json depth top slots ptr) := by
  rw [json_decode_descend]
  split
  · exact raises_ok _
  · exact raises_error _

theorem raises_elements (hsound : ProcessSound libc cfg json process)
    (hprocess : ProcessRaises libc cfg json bound process) (hsize : (bound : Int) ≤ json.tmp.size) :
    ∀ {n depth top i : Nat} {fields : List (Key × Value)} {p : List UInt8} {next : Next},
      json_next_token libc cfg json p = .ok next → p.length < bound → p.length < n →
      Raises (arrayLoop libc cfg json process depth top n i fields next) := by
  intro n
  induction n with
  | zero =>
    intro depth top i fields p next hnext hbound hn
    omega
  | succ n ih =>
    intro depth top i fields p next hnext hbound hn
    rw [arrayLoop]
    refine (hprocess hnext hbound).bind fun r hvalue => ?_
    obtain ⟨value, ptr⟩ := r
    have hptr := (hsound hnext hvalue).length_lt
    refine (raises_next (by omega)).bind fun r htoken => ?_
    obtain ⟨token, index, q⟩ := r
    simp only
    split
    · exact raises_ok _
    · split
      · exact raises_throw _ _ _
      · next hcomma =>
        rw [ne_eq, not_not] at hcomma
        subst hcomma
        have hq := plain_length_lt htoken (c := ch ',') (by decide)
        refine (raises_next (by omega)).bind fun next' hnext' => ?_
        exact ih hnext' (by omega) (by omega)

theorem raises_members (hsound : ProcessSound libc cfg json process)
    (hprocess : ProcessRaises libc cfg json bound process) (hsize : (bound : Int) ≤ json.tmp.size) :
    ∀ {n depth top : Nat} {fields : List (Key × Value)} {p : List UInt8} {next : Next},
      json_next_token libc cfg json p = .ok next → p.length < bound → p.length < n →
      Raises (objectLoop libc cfg json process depth top n fields next) := by
  intro n
  induction n with
  | zero =>
    intro depth top fields p next hnext hbound hn
    omega
  | succ n ih =>
    intro depth top fields p next hnext hbound hn
    obtain ⟨token, index, q⟩ := next
    cases token with
    | string key =>
      rw [objectLoop]
      have hq : q.length ≤ p.length := by
        rcases exists_next hnext with ⟨msg, htoken⟩ | ⟨w, s, rfl, -, htoken⟩
        · cases htoken
        · cases htoken with
          | string h =>
            simp only [List.length_append]
            omega
      refine (raises_next (by omega)).bind fun r hcolon => ?_
      obtain ⟨token, index', q'⟩ := r
      simp only
      split
      · exact raises_throw _ _ _
      · next htype =>
        rw [ne_eq, not_not] at htype
        subst htype
        have hq' := plain_length_lt hcolon (c := ch ':') (by decide)
        refine (raises_next (by omega)).bind fun next' hnext' => ?_
        refine (hprocess hnext' (by omega)).bind fun r hvalue => ?_
        obtain ⟨value, ptr⟩ := r
        have hptr := (hsound hnext' hvalue).length_lt
        simp only
        refine (raises_next (by omega)).bind fun r htoken => ?_
        obtain ⟨token, index'', q''⟩ := r
        simp only
        split
        · exact raises_ok _
        · split
          · exact raises_throw _ _ _
          · next hcomma =>
            rw [ne_eq, not_not] at hcomma
            subst hcomma
            have hq'' := plain_length_lt htoken (c := ch ',') (by decide)
            refine (raises_next (by omega)).bind fun next'' hnext'' => ?_
            exact ih hnext'' (by omega) (by omega)
    | _ => exact raises_throw _ _ _

end

theorem raises_process (hcfg : cfg.decode_invalid_numbers = false) {fuel : Nat}
    (hsize : (fuel : Int) ≤ json.tmp.size) :
    ProcessRaises libc cfg json fuel (json_process_value libc cfg json fuel) := by
  induction fuel with
  | zero =>
    intro p next depth top hnext hp
    omega
  | succ fuel ih =>
    intro p next depth top hnext hp
    have hraises : ProcessRaises libc cfg json fuel (json_process_value libc cfg json fuel) :=
      ih (by omega)
    obtain ⟨token, index, q⟩ := next
    have hsound := @process_sound libc cfg json hcfg fuel
    cases token with
    | plain type =>
      cases type with
      | objBegin =>
        have hq := plain_length_lt hnext (c := ch '{') (by decide)
        refine (raises_descend _ _ _ _).bind fun _ _ => ?_
        refine (raises_next (by omega)).bind fun next' hnext' => ?_
        split
        · exact raises_ok _
        · exact raises_members hsound hraises (by omega) hnext' (by omega) (by omega)
      | arrBegin =>
        have hq := plain_length_lt hnext (c := ch '[') (by decide)
        refine (raises_descend _ _ _ _).bind fun _ _ => ?_
        refine (raises_next (by omega)).bind fun next' hnext' => ?_
        split
        · exact raises_ok _
        · exact raises_elements hsound hraises (by omega) hnext' (by omega) (by omega)
      | null => exact raises_ok _
      | _ => exact raises_throw _ _ _
    | error errtype => exact raises_throw _ _ _
    | _ => exact raises_ok _

/-- The decoder returns a value or raises an error. -/
theorem raises_decode (hcfg : cfg.decode_invalid_numbers = false) {s : List UInt8}
    (hs : (s.length : Int) < INT_MAX) : Raises (json_decode libc cfg s) := by
  rw [json_decode]
  split
  · exact raises_error _
  · obtain ⟨tmp, htmp, hlarge⟩ : ∃ tmp, strbuf_new (int s.length) = .ok tmp ∧
        (s.length : Int) < tmp.size := by
      have hsize := lt_bufferSize hs
      rw [strbuf_new_eq, if_neg (by omega)]
      generalize bufferSize s.length = size at hsize
      exact ⟨⟨[], size, STRBUF_DEFAULT_INCREMENT⟩, rfl, hsize⟩
    rw [htmp, ok_bind]
    refine (raises_next hlarge).bind fun next hnext => ?_
    refine (raises_process hcfg (by show ((s.length + 1 : Nat) : Int) ≤ tmp.size; omega) hnext
      (by omega)).bind fun r hvalue => ?_
    obtain ⟨value, ptr⟩ := r
    have hptr := (process_sound hcfg _ hnext hvalue).length_lt
    refine (raises_next (by show (ptr.length : Int) < tmp.size; omega)).bind fun r hend => ?_
    obtain ⟨token, index, q⟩ := r
    simp only
    split
    · exact raises_throw _ _ _
    · exact raises_ok _

/-! ## Strict decoding -/

/-- The decoder returns a value for every JSON text and raises an error for everything else. -/
def DecodesStrictly (libc : Libc) (cfg : Config) (s : List UInt8) : Prop :=
  (JsonText cfg s → ∃ v, json_decode libc cfg s = .ok v) ∧
    (¬ JsonText cfg s → ∃ msg, json_decode libc cfg s = .error (.error msg))

theorem DecodesStrictly.ok_iff {s : List UInt8} (h : DecodesStrictly libc cfg s) :
    (∃ v, json_decode libc cfg s = .ok v) ↔ JsonText cfg s := by
  refine ⟨fun ⟨v, hv⟩ => ?_, h.1⟩
  by_contra hnot
  obtain ⟨msg, hmsg⟩ := h.2 hnot
  rw [hv] at hmsg
  cases hmsg

/-- The decoder accepts exactly the JSON texts, but for the strings that it misreads, and what it does
not accept raises an error. -/
theorem json_decode_strict_iff (hcfg : cfg.decode_invalid_numbers = false) (s : List UInt8) :
    (((∃ v, json_decode libc cfg s = .ok v) ↔ JsonText cfg s) ↔ ¬ Misread cfg s) ∧
      ((s.length : Int) < INT_MAX → (DecodesStrictly libc cfg s ↔ ¬ Misread cfg s)) := by
  have hiff : ((∃ v, json_decode libc cfg s = .ok v) ↔ JsonText cfg s) ↔ ¬ Misread cfg s :=
    ⟨fun h hmisread => misread_wrong hmisread h, fun h => by
      by_contra hwrong
      exact h (misread_of_wrong hcfg hwrong)⟩
  refine ⟨hiff, fun hs => ?_⟩
  rw [← hiff]
  have hraises := @raises_decode libc cfg hcfg s hs
  constructor
  · exact DecodesStrictly.ok_iff
  · intro h
    refine ⟨h.mpr, fun hnot => ?_⟩
    cases hdecode : json_decode libc cfg s with
    | ok v => exact absurd (h.mp ⟨v, hdecode⟩) hnot
    | error e =>
      obtain ⟨msg, rfl⟩ := hraises e hdecode
      exact ⟨msg, rfl⟩

/-- A bare point is not at the end of a number. -/
theorem not_number_point : ¬ ∃ j, Text IsNumber (chars "1.") j := by
  rintro ⟨j, h⟩
  generalize hs : chars "1." = t at h
  cases h with
  | number h =>
    obtain ⟨sign, decimal, e, rfl, hsign, hdecimal, he⟩ := h
    have hnil : sign = [] := by
      rcases hsign with rfl | rfl
      · rfl
      · exact absurd (List.cons.inj hs).1 (by decide)
    subst hnil
    rw [List.nil_append] at hs
    have hpoint : isdigit (ch '.') = false := rfl
    cases hdecimal with
    | whole h =>
      -- no part has the point
      have hmem : ch '.' ∈ decimal ++ e := by
        rw [← hs]
        decide
      rcases List.mem_append.mp hmem with hmem | hmem
      · exact absurd (h.1 _ hmem) (by rw [hpoint]; decide)
      · cases he with
        | none => cases hmem
        | some hletter hsign hdigits hne =>
          rcases List.mem_cons.mp hmem with heq | hmem
          · rcases hletter with rfl | rfl
            · exact absurd heq (by decide)
            · exact absurd heq (by decide)
          · rcases List.mem_append.mp hmem with hmem | hmem
            · rcases hsign with rfl | rfl | rfl
              · cases hmem
              · exact absurd (List.mem_singleton.mp hmem) (by decide)
              · exact absurd (List.mem_singleton.mp hmem) (by decide)
            · exact absurd (hdigits _ hmem) (by rw [hpoint]; decide)
    | @point w digits h hdigits hne =>
      -- digits come after the point
      have hlength := congrArg List.length hs
      have hw := List.length_pos_iff.mpr h.2.1
      have hd := List.length_pos_iff.mpr hne
      have htwo : (chars "1.").length = 2 := rfl
      rw [htwo, List.length_append, List.length_append, List.length_cons] at hlength
      omega
  | string h =>
    obtain ⟨-⟩ := h
    exact absurd (List.cons.inj hs).1 (by decide)
  | null => exact absurd hs (by decide)
  | true => exact absurd hs (by decide)
  | false => exact absurd hs (by decide)
  | _ => exact absurd (List.cons.inj hs).1 (by decide)

theorem number_depth (t : List UInt8) : ((Tree.number t).depth : Int) ≤ cfg.decode_max_depth := by
  have hrange := cfg.decode_depth_range
  simp only [Tree.depth, Tree.nesting]
  omega

theorem room_number {s : List UInt8} (t : List UInt8) (h : 0 ≤ bufferSize s.length) :
    Room s (.number t) := by
  refine ⟨?_, h, ?_⟩
  · simp only [Tree.slots, Tree.nesting]
    decide
  · simp [Tree.strings]

/-- The decoder takes `1.` for a number, and does not see what comes after a NUL. -/
theorem json_decode_misreads :
    let libc : Libc := ⟨fun _ _ => [], fun _ _ => by decide, fun t =>
      if t = chars "1." then cast_num 1 else cast_num 12⟩
    let cfg : Config := { Config.default with decode_invalid_numbers := false }
    ¬ DecodesStrictly libc cfg (chars "1.") ∧
      ¬ DecodesStrictly libc cfg (chars "12" ++ 0 :: chars "x") := by
  intro libc cfg
  have hnil : Whitespace [] := fun _ h => by cases h
  constructor
  · have hnumber : LenientNumber (chars "1.") :=
      ⟨[], chars "1" ++ [ch '.'], [], rfl, .inl rfl,
        .inr (.last ⟨by decide, by decide, by decide⟩), .none⟩
    have hmisread : Misread cfg ([] ++ (chars "1." ++ [])) :=
      .point hnil (.number hnumber) hnil not_number_point (by decide) (number_depth _)
        (room_number _ (by decide))
    exact fun h => misread_wrong hmisread h.ok_iff
  · have hnumber : LenientNumber (chars "12") :=
      ⟨[], chars "12", [], rfl, .inl rfl, .inl (.whole ⟨by decide, by decide, by decide⟩), .none⟩
    have hmisread : Misread cfg ([] ++ (chars "12" ++ ([] ++ 0 :: chars "x"))) :=
      .cut hnil (.number hnumber) hnil (by decide) (by unfold Utf16; decide)
        (number_depth _) (room_number _ (by decide))
    exact fun h => misread_wrong hmisread h.ok_iff

/-- The strings between quotes are no invalid numbers. -/
theorem json_decode_strict_string :
    let libc : Libc := ⟨fun _ _ => [], fun _ _ => by decide, fun _ => cast_num 0⟩
    let cfg : Config := { Config.default with decode_invalid_numbers := false }
    DecodesStrictly libc cfg (chars "\"nan\"") ↔ ¬ Misread cfg (chars "\"nan\"") :=
  (json_decode_strict_iff rfl (chars "\"nan\"")).2 (by decide)

end Luaxx.Json
