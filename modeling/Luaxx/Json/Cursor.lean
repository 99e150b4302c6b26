import Luaxx.Json.Lexer

/-!
# The pointer into the text

`json_next_token` once more, with `json->ptr` as an index. A character is there to be read up to the
NUL after the text, and the pointer is moved no further; everything else is a fault. No call
faults, and what the functions return is what they return for what is left of the text.
-/

namespace Luaxx.Json

open Luaxx.Ctype Luaxx.Result Strbuf

namespace Cursor

inductive Fault where
  | stop (e : Stop)
  | outside (p : Nat)
  deriving DecidableEq, Repr

abbrev C := Except Fault

/-- What does not use the pointer. -/
def lift {α : Type} : M α → C α
  | .ok a => .ok a
  | .error e => .error (.stop e)

section

variable (data : List UInt8)

/-- `*p`. -/
def read (p : Nat) : C UInt8 :=
  if p ≤ data.length then .ok (data.getD p 0) else .error (.outside p)

/-- `json->ptr = p`. -/
def moveTo (p : Nat) : C Nat := if p ≤ data.length then .ok p else .error (.outside p)

/-- `decode_hex4`, where it is not -1: the first character that is no digit ends it. -/
def decode_hex4 (hex : Nat) : C (Option Nat) := do
  match hexdigit2int (← read data hex) with
  | none => pure none
  | some a =>
    match hexdigit2int (← read data (hex + 1)) with
    | none => pure none
    | some b =>
      match hexdigit2int (← read data (hex + 2)) with
      | none => pure none
      | some c =>
        match hexdigit2int (← read data (hex + 3)) with
        | none => pure none
        | some d => pure (some ((a <<< 12) + (b <<< 8) + (c <<< 4) + d))

/-- Convert the codepoint to UTF-8, append it and advance. -/
def appendCodepoint (tmp : Strbuf) (ptr codepoint escape_len : Nat) : C (Option (Strbuf × Nat)) :=
  if codepoint_to_utf8 codepoint = [] then pure none
  else do
    let tmp ← lift <| strbuf_append_mem_unsafe tmp (codepoint_to_utf8 codepoint)
    let ptr ← moveTo data (ptr + escape_len)
    pure (some (tmp, ptr))

def json_append_unicode_escape (tmp : Strbuf) (ptr : Nat) : C (Option (Strbuf × Nat)) := do
  match ← decode_hex4 data (ptr + 2) with
  | none => pure none
  | some codepoint =>
    if codepoint &&& 0xF800 = 0xD800 then
      if codepoint &&& 0x400 ≠ 0 then pure none
      else do
        let c ← read data (ptr + 6)
        if c ≠ ch '\\' then pure none
        else do
          let c ← read data (ptr + 7)
          if c ≠ ch 'u' then pure none
          else
            match ← decode_hex4 data (ptr + 8) with
            | none => pure none
            | some surrogate_low =>
              if surrogate_low &&& 0xFC00 ≠ 0xDC00 then pure none
              else
                appendCodepoint data tmp ptr
                  (((codepoint &&& 0x3FF) <<< 10 ||| (surrogate_low &&& 0x3FF)) + 0x10000) 12
    else appendCodepoint data tmp ptr codepoint 6

/-- The loop of `json_next_string_token`. -/
def scanString : Nat → Strbuf → Nat → C (Token × Nat)
  | 0, _, _ => .error (.stop .diverges)
  | fuel + 1, tmp, ptr => do
    let c ← read data ptr
    if c = ch '"' then do
      let ptr ← moveTo data (ptr + 1)
      lift (strbuf_ensure_null tmp)
      pure (.string tmp.buf, ptr)
    else if c = 0 then pure (.error "unexpected end of string", ptr)
    else if c = ch '\\' then do
      let e ← read data (ptr + 1)
      if escape2char e = ch 'u' then
        match ← json_append_unicode_escape data tmp ptr with
        | some (tmp, ptr) => scanString fuel tmp ptr
        | none => pure (.error "invalid unicode escape code", ptr)
      else if escape2char e = 0 then pure (.error "invalid escape code", ptr)
      else do
        let ptr ← moveTo data (ptr + 1)
        let tmp ← lift <| strbuf_append_char_unsafe tmp (escape2char e)
        let ptr ← moveTo data (ptr + 1)
        scanString fuel tmp ptr
    else do
      let tmp ← lift <| strbuf_append_char_unsafe tmp c
      let ptr ← moveTo data (ptr + 1)
      scanString fuel tmp ptr

def json_next_string_token (tmp : Strbuf) (ptr : Nat) : C (Token × Nat) := do
  let ptr ← moveTo data (ptr + 1)
  scanString data (data.length + 1) (strbuf_reset tmp) ptr

/-- Eat whitespace. -/
def skipWhitespace : Nat → Nat → C Nat
  | 0, _ => .error (.stop .diverges)
  | fuel + 1, ptr => do
    let c ← read data ptr
    if ch2token c = .whitespace then do
      let ptr ← moveTo data (ptr + 1)
      skipWhitespace fuel ptr
    else pure ptr

variable (libc : Libc) (cfg : Config)

def json_next_number_token (ptr : Nat) : C (Token × Nat) :=
  match strtodSpan (data.drop ptr) with
  | some (text, _) => do
    let ptr ← moveTo data (ptr + text.length)
    pure (.number (libc.strtod text), ptr)
  | none => pure (.error "invalid number", ptr)

/-- A literal, if the text goes on with it. -/
def literal (ptr : Nat) (word : String) (token : Token) : C (Token × Nat) := do
  let ptr ← moveTo data (ptr + (chars word).length)
  pure (token, ptr)

/-- `json_next_token`, after the white space. -/
def lexToken (tmp : Strbuf) (ptr : Nat) : C (Token × Nat) := do
  let c ← read data ptr
  match ch2token c with
  | .error => pure (.error "invalid token", ptr)
  | .end => pure (.plain .end, ptr)
  | .unknown =>
    if c = ch '"' then json_next_string_token data tmp ptr
    else if c = ch '-' ∨ isdigit c = true then
      if !cfg.decode_invalid_numbers && json_is_invalid_number (data.drop ptr) then
        pure (.error "invalid number", ptr)
      else json_next_number_token data libc ptr
    else if (chars "true").isPrefixOf (data.drop ptr) then literal data ptr "true" (.boolean true)
    else if (chars "false").isPrefixOf (data.drop ptr) then
      literal data ptr "false" (.boolean false)
    else if (chars "null").isPrefixOf (data.drop ptr) then literal data ptr "null" (.plain .null)
    else if cfg.decode_invalid_numbers && json_is_invalid_number (data.drop ptr) then
      json_next_number_token data libc ptr
    else pure (.error "invalid token", ptr)
  | type => do
    let ptr ← moveTo data (ptr + 1)
    pure (.plain type, ptr)

def json_next_token (tmp : Strbuf) (ptr : Nat) : C (Token × Nat) := do
  let ptr ← skipWhitespace data (data.length + 1) ptr
  lexToken data libc cfg tmp ptr

end

/-! ## What is left of the text -/

variable {data : List UInt8} {p : Nat}

theorem read_eq (hp : p ≤ data.length) : read data p = .ok (peek (data.drop p)) := by
  rw [read, if_pos hp, peek, List.headD_eq_head?_getD, List.head?_drop, List.getD_eq_getElem?_getD]

theorem moveTo_eq (hp : p ≤ data.length) : moveTo data p = .ok p := if_pos hp

/-- Where a character is, the NUL is further on. -/
theorem lt_of_peek (hp : p ≤ data.length) (h : peek (data.drop p) ≠ 0) : p + 1 ≤ data.length := by
  refine Nat.lt_of_le_of_ne hp fun heq => h ?_
  rw [heq, List.drop_length]
  rfl

theorem peek_digit {c : UInt8} {n : Nat} (h : hexdigit2int c = some n) : c ≠ 0 := by
  rintro rfl
  cases h

theorem decode_hex4_eq (hp : p ≤ data.length) :
    decode_hex4 data p = .ok (Json.decode_hex4 (data.drop p)) := by
  have hlist : ∀ l : List UInt8, Json.decode_hex4 l = (hexdigit2int (peek l)).bind fun a =>
      (hexdigit2int (peek (l.drop 1))).bind fun b => (hexdigit2int (peek (l.drop 2))).bind fun c =>
        (hexdigit2int (peek (l.drop 3))).bind fun d =>
          some ((a <<< 12) + (b <<< 8) + (c <<< 4) + d) := by
    intro l
    have h0 : hexdigit2int (peek []) = none := rfl
    rcases l with _ | ⟨a, _ | ⟨b, _ | ⟨c, _ | ⟨d, l⟩⟩⟩⟩
    · rfl
    · cases hexdigit2int a <;> simp [Json.decode_hex4, h0]
    · cases hexdigit2int a <;> cases hexdigit2int b <;> simp [Json.decode_hex4, h0]
    · cases hexdigit2int a <;> cases hexdigit2int b <;> cases hexdigit2int c <;>
        simp [Json.decode_hex4, h0]
    · rfl
  rw [decode_hex4, hlist, List.drop_drop, List.drop_drop, List.drop_drop, read_eq hp, ok_bind]
  cases ha : hexdigit2int (peek (data.drop p)) with
  | none => rfl
  | some a =>
    have hp1 := lt_of_peek hp (peek_digit ha)
    simp only [Option.bind_some]
    rw [read_eq hp1, ok_bind]
    cases hb : hexdigit2int (peek (data.drop (p + 1))) with
    | none => rfl
    | some b =>
      have hp2 := lt_of_peek hp1 (peek_digit hb)
      simp only [Option.bind_some]
      rw [read_eq hp2, ok_bind]
      cases hc : hexdigit2int (peek (data.drop (p + 2))) with
      | none => rfl
      | some c =>
        have hp3 := lt_of_peek hp2 (peek_digit hc)
        simp only [Option.bind_some]
        rw [read_eq hp3, ok_bind]
        cases hexdigit2int (peek (data.drop (p + 3))) <;> rfl

/-- Four digits are there. -/
theorem length_of_hex4 {n : Nat} (h : Json.decode_hex4 (data.drop p) = some n) :
    p + 4 ≤ data.length := by
  obtain ⟨u, rest, hdrop, hu⟩ := exists_hex4 h
  have hlen := congrArg List.length hdrop
  rw [List.length_drop, List.length_append, hu.length] at hlen
  omega

/-! ## Room in the buffer -/

/-- What has been written is shorter than what has been read, from the quote on. -/
structure Fits (data : List UInt8) (tmp : Strbuf) (p : Nat) : Prop where
  inside : p ≤ data.length
  written : tmp.buf.length < p
  size : (data.length : Int) < tmp.size

theorem Fits.append {tmp : Strbuf} (h : Fits data tmp p) {c : List UInt8} {k : Nat}
    (hc : c.length ≤ k) (hk : p + k ≤ data.length) :
    strbuf_append_mem_unsafe tmp c = .ok { tmp with buf := tmp.buf ++ c } ∧
      Fits data { tmp with buf := tmp.buf ++ c } (p + k) := by
  have hwritten := h.written
  have hsize := h.size
  have hroom : tmp.length + c.length ≤ tmp.size := by
    rw [Strbuf.length]
    omega
  refine ⟨if_pos hroom, hk, ?_, hsize⟩
  show (tmp.buf ++ c).length < _
  rw [List.length_append]
  omega

/-! ## Escapes -/

theorem appendCodepoint_spec {tmp : Strbuf} {n k : Nat} (h : Fits data tmp p) (h4 : 4 ≤ k)
    (hk : p + k ≤ data.length) :
    if codepoint_to_utf8 n = [] then appendCodepoint data tmp p n k = .ok none
    else appendCodepoint data tmp p n k =
        .ok (some ({ tmp with buf := tmp.buf ++ codepoint_to_utf8 n }, p + k)) ∧
      Fits data { tmp with buf := tmp.buf ++ codepoint_to_utf8 n } (p + k) := by
  obtain ⟨happend, hfits⟩ := h.append ((codepoint_to_utf8_length n).trans h4) hk
  rw [appendCodepoint]
  split_ifs
  · rfl
  · rw [happend, moveTo_eq hk]
    exact ⟨rfl, hfits⟩

/-- The escape is read, or refused, as it is in what is left of the text. -/
def SameEscape (data : List UInt8) (tmp : Strbuf) (p : Nat) (r : C (Option (Strbuf × Nat))) :
    Option (List UInt8 × List UInt8) → Prop
  | none => r = .ok none
  | some (utf8, rest) => ∃ p', p < p' ∧ rest = data.drop p' ∧
      r = .ok (some ({ tmp with buf := tmp.buf ++ utf8 }, p')) ∧
      Fits data { tmp with buf := tmp.buf ++ utf8 } p'

theorem sameEscape_append {tmp : Strbuf} {n k : Nat} (h : Fits data tmp p) (h4 : 4 ≤ k)
    (hk : p + k ≤ data.length) : SameEscape data tmp p (appendCodepoint data tmp p n k)
      (if codepoint_to_utf8 n = [] then none
        else some (codepoint_to_utf8 n, (data.drop p).drop k)) := by
  have hspec := appendCodepoint_spec (n := n) h h4 hk
  split_ifs at hspec ⊢
  · exact hspec
  · exact ⟨p + k, by omega, List.drop_drop, hspec⟩

theorem json_append_unicode_escape_same {tmp : Strbuf} (h : Fits data tmp p)
    (hp : p + 2 ≤ data.length) : SameEscape data tmp p (json_append_unicode_escape data tmp p)
      (Json.json_append_unicode_escape (data.drop p)) := by
  rw [json_append_unicode_escape, Json.json_append_unicode_escape, decode_hex4_eq hp, ok_bind,
    List.drop_drop]
  cases hn : Json.decode_hex4 (data.drop (p + 2)) with
  | none => rfl
  | some n =>
    have hp6 : p + 6 ≤ data.length := length_of_hex4 hn
    rw [Option.bind_eq_bind, Option.bind_some]
    dsimp only
    by_cases hhigh : n &&& 0xF800 = 0xD800
    swap
    · rw [if_neg hhigh, if_neg hhigh]
      exact sameEscape_append h (by decide) hp6
    rw [if_pos hhigh, if_pos hhigh]
    by_cases h400 : n &&& 0x400 ≠ 0
    · rw [if_pos h400, if_pos h400]
      rfl
    rw [if_neg h400, if_neg h400, List.drop_drop, List.drop_drop, List.drop_drop, read_eq hp6,
      ok_bind]
    by_cases hslash : peek (data.drop (p + 6)) = ch '\\'
    swap
    · rw [if_pos hslash, if_pos (.inl hslash)]
      rfl
    have hp7 := lt_of_peek hp6 (by rw [hslash]; decide)
    rw [if_neg (not_not.mpr hslash), read_eq hp7, ok_bind]
    by_cases hu : peek (data.drop (p + 7)) = ch 'u'
    swap
    · rw [if_pos hu, if_pos (.inr hu)]
      rfl
    have hp8 := lt_of_peek hp7 (by rw [hu]; decide)
    rw [if_neg (not_not.mpr hu), if_neg (not_or.mpr ⟨not_not.mpr hslash, not_not.mpr hu⟩),
      decode_hex4_eq hp8, ok_bind]
    cases hm : Json.decode_hex4 (data.drop (p + 8)) with
    | none => rfl
    | some m =>
      have hp12 : p + 12 ≤ data.length := length_of_hex4 hm
      simp only [Option.bind_some]
      by_cases hlow : m &&& 0xFC00 ≠ 0xDC00
      · rw [if_pos hlow, if_pos hlow]
        rfl
      · rw [if_neg hlow, if_neg hlow]
        generalize ((n &&& 0x3FF) <<< 10 ||| (m &&& 0x3FF)) + 0x10000 = c
        rw [Option.bind_eq_bind, Option.bind_some]
        exact sameEscape_append h (by decide) hp12

/-! ## Strings -/

/-- The function comes to an end inside the text, with what it returns for what is left of it. -/
def Same (data : List UInt8) (r : C (Token × Nat)) (r' : M Lexed) : Prop :=
  ∃ token p, r = .ok (token, p) ∧ p ≤ data.length ∧ r' = .ok (token, data.drop p)

theorem same_ok {token : Token} (hp : p ≤ data.length) :
    Same data (pure (token, p)) (.ok (token, data.drop p)) := ⟨token, p, rfl, hp, rfl⟩

theorem scanString_same {fuel fuel' : Nat} {tmp : Strbuf} (h : Fits data tmp p)
    (hfuel : data.length < p + fuel) (hfuel' : data.length < p + fuel') :
    Same data (scanString data fuel tmp p) (Json.scanString fuel' tmp (data.drop p)) := by
  have hp := h.inside
  induction fuel generalizing fuel' tmp p with
  | zero => omega
  | succ fuel ih =>
    obtain ⟨fuel', rfl⟩ : ∃ k, fuel' = k + 1 := ⟨fuel' - 1, by omega⟩
    have htail : (data.drop p).tail = data.drop (p + 1) := List.tail_drop
    rw [scanString, Json.scanString, read_eq hp, ok_bind, htail]
    simp only
    by_cases hquote : peek (data.drop p) = ch '"'
    · have hp1 := lt_of_peek hp (by rw [hquote]; decide)
      have hroom : tmp.length < tmp.size := by
        have := h.written
        have := h.size
        rw [Strbuf.length]
        omega
      rw [if_pos hquote, if_pos hquote, moveTo_eq hp1, strbuf_ensure_null, if_pos hroom]
      exact same_ok hp1
    rw [if_neg hquote, if_neg hquote]
    by_cases hend : peek (data.drop p) = 0
    · rw [if_pos hend, if_pos hend]
      exact same_ok hp
    rw [if_neg hend, if_neg hend]
    have hp1 := lt_of_peek hp hend
    by_cases hslash : peek (data.drop p) = ch '\\'
    swap
    · -- a character
      obtain ⟨happend, hfits⟩ := h.append (c := [peek (data.drop p)]) (k := 1) (Nat.le_refl 1) hp1
      rw [if_neg hslash, if_neg hslash, strbuf_append_char_unsafe, happend, moveTo_eq hp1]
      exact ih hfits (by omega) (by omega) hp1
    rw [if_pos hslash, if_pos hslash, read_eq hp1, ok_bind]
    by_cases hu : escape2char (peek (data.drop (p + 1))) = ch 'u'
    · have hp2 := lt_of_peek hp1 (by rw [escape2char_u hu]; decide)
      have hsame := json_append_unicode_escape_same h hp2
      rw [if_pos hu, if_pos hu]
      cases hescape : Json.json_append_unicode_escape (data.drop p) with
      | none =>
        rw [hescape] at hsame
        have hsame : json_append_unicode_escape data tmp p = .ok none := hsame
        rw [hsame]
        exact same_ok hp
      | some r =>
        obtain ⟨utf8, rest⟩ := r
        rw [hescape] at hsame
        obtain ⟨p', hlt, rfl, hsame, hfits⟩ := hsame
        have hroom : strbuf_append_mem_unsafe tmp utf8 = .ok { tmp with buf := tmp.buf ++ utf8 } := by
          have hwritten := hfits.written
          have hsize := h.size
          have hinside := hfits.inside
          rw [List.length_append] at hwritten
          refine if_pos ?_
          rw [Strbuf.length]
          omega
        rw [hsame]
        simp only [hroom]
        exact ih hfits (by omega) (by omega) hfits.inside
    rw [if_neg hu, if_neg hu]
    by_cases hzero : escape2char (peek (data.drop (p + 1))) = 0
    · rw [if_pos hzero, if_pos hzero]
      exact same_ok hp
    · have hp2 := lt_of_peek hp1 (fun h0 => hzero (by rw [h0]; decide))
      obtain ⟨happend, hfits⟩ := h.append (c := [escape2char (peek (data.drop (p + 1)))]) (k := 2)
        (Nat.le_succ 1) hp2
      rw [if_neg hzero, if_neg hzero, moveTo_eq hp1, ok_bind, strbuf_append_char_unsafe, happend,
        List.drop_drop]
      show Same data (moveTo data (p + 2) >>= _) _
      rw [moveTo_eq hp2]
      exact ih hfits (by omega) (by omega) hp2

theorem json_next_string_token_same {tmp : Strbuf} (hp : p + 1 ≤ data.length)
    (hsize : (data.length : Int) < tmp.size) :
    Same data (json_next_string_token data tmp p) (Json.json_next_string_token tmp (data.drop p)) := by
  have hfits : Fits data (strbuf_reset tmp) (p + 1) := ⟨hp, Nat.succ_pos p, hsize⟩
  have hlen : (data.drop p).length = data.length - p := List.length_drop
  have htail : (data.drop p).tail = data.drop (p + 1) := List.tail_drop
  rw [json_next_string_token, Json.json_next_string_token, moveTo_eq hp, htail]
  exact scanString_same hfits (by omega) (by omega)

/-! ## Tokens -/

theorem strtodDigits_append {digit : UInt8 → Bool} {q d r : List UInt8}
    (h : strtodDigits digit q = some (d, r)) : q = d ++ r := by
  rw [strtodDigits] at h
  simp only at h
  split at h
  · next hpoint =>
    split at h
    · cases h
    · cases h
      have hrest : q.dropWhile digit = ch '.' :: (q.dropWhile digit).tail := by
        cases hq : q.dropWhile digit with
        | nil =>
          rw [hq] at hpoint
          exact absurd hpoint (by decide)
        | cons c rest =>
          rw [hq] at hpoint
          exact congrArg (· :: rest) hpoint
      rw [List.append_assoc, List.cons_append, List.takeWhile_append_dropWhile, ← hrest,
        List.takeWhile_append_dropWhile]
  · split at h
    · cases h
    · cases h
      exact List.takeWhile_append_dropWhile.symm

theorem strtodExponent_append (letter : Char) (q : List UInt8) :
    q = (strtodExponent letter q).1 ++ (strtodExponent letter q).2 := by
  rw [strtodExponent]
  split
  · next hletter =>
    obtain ⟨sign, r, hsplit, htail, -⟩ := exists_sign q.tail
    rw [hsplit]
    simp only
    split
    · rfl
    · next hdigits =>
      cases q with
      | nil =>
        have hr : r = [] := (List.append_eq_nil_iff.mp htail.symm).2
        rw [hr] at hdigits
        exact absurd rfl hdigits
      | cons c q =>
        have htail : q = sign ++ r := htail
        rw [List.cons_append, List.append_assoc, List.takeWhile_append_dropWhile, ← htail]
        rfl
  · rfl

theorem strtodUnsigned_append {q d r : List UInt8} (h : strtodUnsigned q = some (d, r)) :
    q = d ++ r := by
  rw [strtodUnsigned] at h
  simp only at h
  split at h
  · next digits r' hhex =>
    cases h
    split_ifs at hhex with hx
    have hdigits := strtodDigits_append hhex
    rw [List.append_assoc, List.append_assoc, ← strtodExponent_append, ← hdigits,
      List.take_append_drop]
  · split at h
    · next digits r' hdec =>
      cases h
      rw [List.append_assoc, ← strtodExponent_append]
      exact strtodDigits_append hdec
    · rw [strtodWord] at h
      simp only at h
      split_ifs at h <;>
        · cases h
          exact (List.take_append_drop _ q).symm

theorem strtodSpan_append {q d r : List UInt8} (h : strtodSpan q = some (d, r)) : q = d ++ r := by
  obtain ⟨sign, q', hsplit, rfl, -⟩ := exists_sign q
  rw [strtodSpan, hsplit] at h
  simp only at h
  rw [Option.map_eq_some_iff] at h
  obtain ⟨⟨d', r'⟩, hunsigned, heq⟩ := h
  cases heq
  rw [strtodUnsigned_append hunsigned, List.append_assoc]

variable {libc : Libc} {cfg : Config}

theorem json_next_number_token_same (hp : p ≤ data.length) :
    Same data (json_next_number_token data libc p)
      (.ok (Json.json_next_number_token libc (data.drop p))) := by
  rw [json_next_number_token, Json.json_next_number_token]
  cases hspan : strtodSpan (data.drop p) with
  | none => exact same_ok hp
  | some r =>
    obtain ⟨text, rest⟩ := r
    have happend := strtodSpan_append hspan
    have hlen := congrArg List.length happend
    rw [List.length_drop, List.length_append] at hlen
    have hp' : p + text.length ≤ data.length := by omega
    have hrest : rest = data.drop (p + text.length) := by
      rw [← List.drop_drop, happend, List.drop_left]
    simp only
    rw [moveTo_eq hp', hrest]
    exact same_ok hp'

theorem literal_same {word : String} {n : Nat} {token : Token} (hp : p ≤ data.length)
    (hn : (chars word).length = n) (h : (chars word).isPrefixOf (data.drop p) = true) :
    Same data (literal data p word token) (.ok (token, (data.drop p).drop n)) := by
  have hlen := congrArg List.length (prefix_drop h hn)
  rw [List.length_append, List.length_drop, hn] at hlen
  have hp' : p + n ≤ data.length := by omega
  rw [literal, hn, moveTo_eq hp', List.drop_drop]
  exact same_ok hp'

variable (libc cfg) in
theorem lexToken_same {tmp : Strbuf} (hp : p ≤ data.length) (hsize : (data.length : Int) < tmp.size) :
    Same data (lexToken data libc cfg tmp p) (Json.lexToken libc cfg tmp (data.drop p)) := by
  have htail : (data.drop p).tail = data.drop (p + 1) := List.tail_drop
  rw [lexToken, Json.lexToken, read_eq hp, ok_bind, htail]
  have hp1 : ch2token (peek (data.drop p)) ≠ .end → p + 1 ≤ data.length := by
    intro hne
    refine lt_of_peek hp fun h0 => hne ?_
    rw [h0]
    rfl
  cases htype : ch2token (peek (data.drop p)) with
  | error | «end» => exact same_ok hp
  | unknown =>
    have hp1 := hp1 (by rw [htype]; decide)
    simp only
    split_ifs with hquote hchar hinvalid htrue hfalse hnull hnumber
    · exact json_next_string_token_same hp1 hsize
    · exact same_ok hp
    · exact json_next_number_token_same hp
    · exact literal_same hp rfl htrue
    · exact literal_same hp rfl hfalse
    · exact literal_same hp rfl hnull
    · exact json_next_number_token_same hp
    · exact same_ok hp
  | _ =>
    have hp1 := hp1 (by rw [htype]; decide)
    simp only
    rw [moveTo_eq hp1]
    exact same_ok hp1

theorem skipWhitespace_eq (fuel : Nat) (hp : p ≤ data.length) (hfuel : data.length < p + fuel) :
    ∃ p', skipWhitespace data fuel p = .ok p' ∧ p' ≤ data.length ∧
      Json.skipWhitespace (data.drop p) = data.drop p' := by
  induction fuel generalizing p with
  | zero => omega
  | succ fuel ih =>
    rw [skipWhitespace, read_eq hp, ok_bind]
    by_cases hspace : ch2token (peek (data.drop p)) = .whitespace
    · have hp1 := lt_of_peek hp (fun h0 => by rw [h0] at hspace; cases hspace)
      obtain ⟨p', hskip, hp', hrest⟩ := ih hp1 (by omega)
      rw [if_pos hspace, moveTo_eq hp1]
      refine ⟨p', hskip, hp', ?_⟩
      rw [← hrest, Json.skipWhitespace, Json.skipWhitespace, List.drop_eq_getElem_cons hp1,
        List.dropWhile_cons_of_pos]
      rw [List.drop_eq_getElem_cons hp1] at hspace
      exact beq_iff_eq.mpr hspace
    · rw [if_neg hspace]
      refine ⟨p, rfl, hp, ?_⟩
      rw [Json.skipWhitespace]
      cases hdrop : data.drop p with
      | nil => rfl
      | cons c rest =>
        rw [hdrop] at hspace
        exact List.dropWhile_cons_of_neg fun h => hspace (beq_iff_eq.mp h)

variable (libc cfg) in
theorem json_next_token_same {tmp : Strbuf} (hp : p ≤ data.length)
    (hsize : (data.length : Int) < tmp.size) : ∃ token index p',
      json_next_token data libc cfg tmp p = .ok (token, p') ∧ p' ≤ data.length ∧
      Json.json_next_token libc cfg ⟨data, tmp⟩ (data.drop p) =
        .ok (token, index, data.drop p') := by
  obtain ⟨p', hskip, hp', hrest⟩ := skipWhitespace_eq (data.length + 1) hp (by omega)
  obtain ⟨token, p'', hlex, hp'', hlist⟩ := lexToken_same libc cfg hp' hsize
  rw [json_next_token, hskip, ok_bind, hlex, Json.json_next_token, hrest, hlist, ok_bind]
  exact ⟨token, _, p'', rfl, hp'', rfl⟩

/-! ## The decoder -/

/-- The places of `json->ptr` between the tokens. -/
inductive Reaches (data : List UInt8) (libc : Libc) (cfg : Config) (tmp : Strbuf) : Nat → Prop
  | start : Reaches data libc cfg tmp 0
  | next {p p' : Nat} {token : Token} : Reaches data libc cfg tmp p →
      json_next_token data libc cfg tmp p = .ok (token, p') → Reaches data libc cfg tmp p'

theorem Reaches.inside {tmp : Strbuf} (h : Reaches data libc cfg tmp p)
    (hsize : (data.length : Int) < tmp.size) : p ≤ data.length := by
  induction h with
  | start => exact Nat.zero_le _
  | next _ hnext ih =>
    obtain ⟨token, index, p', hok, hp', -⟩ := json_next_token_same libc cfg ih hsize
    rw [hok] at hnext
    cases hnext
    exact hp'

theorem exists_strbuf_new (h : (data.length : Int) < INT_MAX) :
    ∃ tmp, strbuf_new (int data.length) = .ok tmp ∧ (data.length : Int) < tmp.size := by
  have hmax : INT_MAX = 2 ^ 31 - 1 := rfl
  have hint : ∀ n : Int, 0 ≤ n → n < 2 ^ 31 → int n = n := by
    intro n h0 hlt
    rw [int, Int.emod_eq_of_lt (by omega) (by omega)]
    omega
  rw [strbuf_new, strbuf_init, hint _ (by omega) (by omega)]
  by_cases h0 : (data.length : Int) ≤ 0
  · rw [if_pos h0, if_neg (by decide)]
    exact ⟨_, rfl, lt_of_le_of_lt h0 (by decide)⟩
  · rw [if_neg h0, hint _ (by omega) (by omega), if_neg (by omega)]
    exact ⟨_, rfl, Int.lt_succ _⟩

/-- Whatever tokens are read, each is read without a write outside of the buffer and without a move
of the pointer beyond the NUL, and is the token of the decoder. -/
theorem json_next_token_inside (data : List UInt8) (libc : Libc) (cfg : Config)
    (hlen : (data.length : Int) < INT_MAX) :
    ∃ tmp, strbuf_new (int data.length) = .ok tmp ∧ ∀ p, Reaches data libc cfg tmp p →
      ∃ token index p', json_next_token data libc cfg tmp p = .ok (token, p') ∧
        p' ≤ data.length ∧
        Json.json_next_token libc cfg ⟨data, tmp⟩ (data.drop p) =
          .ok (token, index, data.drop p') := by
  obtain ⟨tmp, hnew, hsize⟩ := exists_strbuf_new hlen
  exact ⟨tmp, hnew, fun p hp => json_next_token_same libc cfg (hp.inside hsize) hsize⟩

/-- A pair of surrogates that is cut off. -/
theorem json_next_token_inside_truncated :
    let libc : Libc := ⟨fun _ _ => [], fun _ _ => by decide, fun _ => cast_num 0⟩
    let data : List UInt8 := chars "\"\\ud83d\\"
    ∃ tmp, strbuf_new (int data.length) = .ok tmp ∧
      ∀ p, Reaches data libc Config.default tmp p → ∃ token index p',
        json_next_token data libc Config.default tmp p = .ok (token, p') ∧ p' ≤ data.length ∧
        Json.json_next_token libc Config.default ⟨data, tmp⟩ (data.drop p) =
          .ok (token, index, data.drop p') :=
  json_next_token_inside _ _ _ (by decide)

end Cursor

end Luaxx.Json
