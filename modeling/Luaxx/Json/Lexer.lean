import Luaxx.Json.Numbers
import Luaxx.Json.Strings

/-!
# Tokens

What `json_next_token` reads, against the grammar.
-/

namespace Luaxx.Json

open Luaxx.Ctype Luaxx.Result Luaxx.Spans Strbuf

variable {libc : Libc} {cfg : Config}

/-- The tokens of one character. -/
def punctuation : List (UInt8 × TokenType) :=
  [(ch '{', .objBegin), (ch '}', .objEnd), (ch '[', .arrBegin), (ch ']', .arrEnd), (ch ',', .comma),
    (ch ':', .colon)]

/-- The text begins with the token, and goes on with `q`. -/
inductive TokenAt (libc : Libc) (cfg : Config) : List UInt8 → Token → List UInt8 → Prop
  | plain {c : UInt8} {type : TokenType} {q : List UInt8} (h : (c, type) ∈ punctuation) :
      TokenAt libc cfg (c :: q) (.plain type) q
  | end {p : List UInt8} (h : peek p = 0) : TokenAt libc cfg p (.plain .end) p
  | string {k key w q : List UInt8} (h : IsString k key) : TokenAt libc cfg (k ++ q) (.string w) q
  | number {n q : List UInt8} (h : LenientNumber n) :
      TokenAt libc cfg (n ++ q) (.number (libc.strtod n)) q
  | invalid {p q : List UInt8} {n : Number} (h : cfg.decode_invalid_numbers = true) :
      TokenAt libc cfg p (.number n) q
  | null {q : List UInt8} : TokenAt libc cfg (chars "null" ++ q) (.plain .null) q
  | true {q : List UInt8} : TokenAt libc cfg (chars "true" ++ q) (.boolean true) q
  | false {q : List UInt8} : TokenAt libc cfg (chars "false" ++ q) (.boolean false) q

theorem prefix_drop {w : String} {n : Nat} {p : List UInt8} (h : (chars w).isPrefixOf p = true)
    (hn : (chars w).length = n) : p = chars w ++ p.drop n := by
  obtain ⟨q, rfl⟩ := List.isPrefixOf_iff_prefix.mp h
  rw [← hn, List.drop_left]

theorem ch2token_end {c : UInt8} (h : ch2token c = .end) : c = 0 :=
  forall_byte (P := fun c => ch2token c = .end → c = 0) (by decide +kernel) c h

theorem ch2token_plain {c : UInt8} (hspace : whitespace c = false) (herror : ch2token c ≠ .error)
    (hend : ch2token c ≠ .end) (hunknown : ch2token c ≠ .unknown) : (c, ch2token c) ∈ punctuation :=
  forall_byte (P := fun c => whitespace c = false → ch2token c ≠ .error → ch2token c ≠ .end →
    ch2token c ≠ .unknown → (c, ch2token c) ∈ punctuation) (by decide +kernel) c hspace herror hend
    hunknown

theorem exists_token {tmp : Strbuf} {p q : List UInt8} {token : Token}
    (hp : whitespace (peek p) = false) (h : lexToken libc cfg tmp p = .ok (token, q)) :
    (∃ msg, token = .error msg) ∨ TokenAt libc cfg p token q := by
  have hnumber : ∀ {r : Lexed}, json_next_number_token libc p = r →
      (peek p = ch '-' ∨ isdigit (peek p) = true) → json_is_invalid_number p = false →
      (∃ msg, r.1 = .error msg) ∨ TokenAt libc cfg p r.1 r.2 := by
    rintro r rfl hchar hpass
    rw [json_next_number_token]
    cases hspan : strtodSpan p with
    | none => exact .inl ⟨_, rfl⟩
    | some r =>
      obtain ⟨n, q⟩ := r
      obtain ⟨hn, rfl⟩ := exists_number hchar hpass hspan
      exact .inr (.number hn)
  have hinvalid : ∀ {r : Lexed}, json_next_number_token libc p = r →
      cfg.decode_invalid_numbers = true →
      (∃ msg, r.1 = .error msg) ∨ TokenAt libc cfg p r.1 r.2 := by
    rintro r rfl hcfg
    rw [json_next_number_token]
    cases hspan : strtodSpan p with
    | none => exact .inl ⟨_, rfl⟩
    | some r => exact .inr (.invalid hcfg)
  rw [lexToken] at h
  split at h
  · cases h
    exact .inl ⟨_, rfl⟩
  · next hend =>
    cases h
    exact .inr (.end (ch2token_end hend))
  · next hunknown =>
    split at h
    · next hquote =>
      rcases p with _ | ⟨c, p⟩
      · exact absurd hquote (by decide)
      obtain rfl : c = ch '"' := hquote
      refine (exists_chars h).imp_right fun ⟨w, b, s, htoken, hb, hs⟩ => ?_
      have hb : p = b ++ ch '"' :: q := hb
      have hshape : ch '"' :: p = ch '"' :: (b ++ [ch '"']) ++ q := by
        rw [hb, List.cons_append, List.append_assoc]
        rfl
      rw [htoken, hshape]
      exact .string (.mk hs)
    · split at h
      · next hchar =>
        split at h
        · cases h
          exact .inl ⟨_, rfl⟩
        · next hpass =>
          rw [Bool.and_eq_true, not_and, Bool.not_eq_true'] at hpass
          cases hcfg : cfg.decode_invalid_numbers with
          | true => exact hinvalid (Except.ok.inj h) hcfg
          | false =>
            exact hnumber (Except.ok.inj h) hchar (Bool.eq_false_iff.mpr (hpass hcfg))
      · split at h
        · next hprefix =>
          cases h
          right
          rw [prefix_drop hprefix (n := 4) rfl]
          exact .true
        · split at h
          · next hprefix =>
            cases h
            right
            rw [prefix_drop hprefix (n := 5) rfl]
            exact .false
          · split at h
            · next hprefix =>
              cases h
              right
              rw [prefix_drop hprefix (n := 4) rfl]
              exact .null
            · split at h
              · next hcfg =>
                rw [Bool.and_eq_true] at hcfg
                exact hinvalid (Except.ok.inj h) hcfg.1
              · cases h
                exact .inl ⟨_, rfl⟩
  · next type herror hend hunknown =>
    cases h
    rcases p with _ | ⟨c, p⟩
    · exact absurd rfl hend
    · exact .inr (.plain (ch2token_plain hp herror hend hunknown))

/-! ## Reading a token -/

variable {json : Source}

/-- What an error message says about the token is left out. -/
def readToken (libc : Libc) (cfg : Config) (json : Source) (p : List UInt8) : M Lexed :=
  lexToken libc cfg json.tmp (skipWhitespace p)

theorem next_ok {p q : List UInt8} {token : Token} (h : readToken libc cfg json p = .ok (token, q)) :
    ∃ index, json_next_token libc cfg json p = .ok (token, index, q) := by
  rw [readToken] at h
  rw [json_next_token, h]
  exact ⟨_, rfl⟩

theorem next_error {p : List UInt8} {e : Stop} (h : readToken libc cfg json p = .error e) :
    json_next_token libc cfg json p = .error e := by
  rw [readToken] at h
  rw [json_next_token, h]
  rfl

theorem readToken_of_next {p q : List UInt8} {token : Token} {index : Nat}
    (h : json_next_token libc cfg json p = .ok (token, index, q)) :
    readToken libc cfg json p = .ok (token, q) := by
  cases hread : readToken libc cfg json p with
  | error e =>
    rw [next_error hread] at h
    cases h
  | ok r =>
    obtain ⟨token', q'⟩ := r
    obtain ⟨index', hnext⟩ := next_ok hread
    rw [hnext] at h
    cases h
    rfl

theorem whitespace_eq (c : UInt8) : (ch2token c == .whitespace) = whitespace c :=
  forall_byte (P := fun c => (ch2token c == .whitespace) = whitespace c) (by decide +kernel) c

theorem skipWhitespace_eq {w p : List UInt8} (hw : Whitespace w) (hp : whitespace (peek p) = false) :
    skipWhitespace (w ++ p) = p := by
  rw [skipWhitespace]
  refine (span_eq _ p (fun c hc => ?_) fun c hc => ?_).2
  · rw [whitespace_eq]
    exact hw c hc
  · rw [whitespace_eq]
    rcases p with _ | ⟨d, p⟩
    · cases hc
    · cases hc
      exact hp

/-- White space before a text makes no difference. -/
theorem exists_skip (p : List UInt8) :
    ∃ w, p = w ++ skipWhitespace p ∧ Whitespace w ∧ whitespace (peek (skipWhitespace p)) = false := by
  obtain ⟨w, q, rfl, hw, hq⟩ := exists_span (fun c => ch2token c == .whitespace) p
  have hw' : Whitespace w := fun c hc => by
    rw [← whitespace_eq]
    exact hw c hc
  have hq' : whitespace (peek q) = false := by
    rcases q with _ | ⟨c, q⟩
    · rfl
    · rw [← whitespace_eq]
      exact hq c rfl
  rw [skipWhitespace_eq hw' hq']
  exact ⟨w, rfl, hw', hq'⟩

theorem readToken_plain {w p : List UInt8} {c : UInt8} {type : TokenType} (hw : Whitespace w)
    (hc : (c, type) ∈ punctuation) :
    readToken libc cfg json (w ++ c :: p) = .ok (.plain type, p) := by
  simp only [punctuation, List.mem_cons, Prod.mk.injEq, List.not_mem_nil, or_false] at hc
  rcases hc with ⟨rfl, rfl⟩ | ⟨rfl, rfl⟩ | ⟨rfl, rfl⟩ | ⟨rfl, rfl⟩ | ⟨rfl, rfl⟩ | ⟨rfl, rfl⟩ <;>
    · rw [readToken, skipWhitespace_eq hw (by rw [peek_cons]; decide)]
      rfl

theorem next_plain {w p : List UInt8} {c : UInt8} {type : TokenType} (hw : Whitespace w)
    (hc : (c, type) ∈ punctuation) :
    ∃ index, json_next_token libc cfg json (w ++ c :: p) = .ok (.plain type, index, p) :=
  next_ok (readToken_plain hw hc)

/-- A bracket is read where one is. -/
theorem peek_of_token {p q : List UInt8} {c : UInt8} {type : TokenType}
    (h : readToken libc cfg json p = .ok (.plain type, q)) (hc : (c, type) ∈ punctuation) :
    peek (skipWhitespace p) = c := by
  obtain ⟨w, -, -, hspace⟩ := exists_skip p
  have hother : ∀ c c' : UInt8, ∀ type, (c, type) ∈ punctuation → (c', type) ∈ punctuation →
      c = c' := by
    intro c c' type hc hc'
    simp only [punctuation, List.mem_cons, Prod.mk.injEq, List.not_mem_nil, or_false] at hc hc'
    rcases hc with ⟨rfl, rfl⟩ | ⟨rfl, rfl⟩ | ⟨rfl, rfl⟩ | ⟨rfl, rfl⟩ | ⟨rfl, rfl⟩ | ⟨rfl, rfl⟩ <;>
      simp at hc' <;> exact hc'.symm
  rcases exists_token hspace h with ⟨msg, htoken⟩ | htoken
  · cases htoken
  · generalize skipWhitespace p = s at htoken
    cases htoken with
    | plain h => exact hother _ _ _ h hc
    | «end» h => exact absurd hc (by simp [punctuation])
    | null => exact absurd hc (by simp [punctuation])

theorem readToken_end {w p : List UInt8} (hw : Whitespace w) (hp : peek p = 0) :
    readToken libc cfg json (w ++ p) = .ok (.plain .end, p) := by
  rw [readToken, skipWhitespace_eq hw (by rw [hp]; decide), lexToken, hp]
  rfl

theorem readToken_literal {w p : List UInt8} (hw : Whitespace w) :
    readToken libc cfg json (w ++ (chars "true" ++ p)) = .ok (.boolean true, p) ∧
      readToken libc cfg json (w ++ (chars "false" ++ p)) = .ok (.boolean false, p) ∧
      readToken libc cfg json (w ++ (chars "null" ++ p)) = .ok (.plain .null, p) := by
  refine ⟨?_, ?_, ?_⟩
  all_goals
    rw [readToken, skipWhitespace_eq hw rfl]
    rfl

theorem number_char {c : UInt8} (h : c = ch '-' ∨ isdigit c = true) :
    ch2token c = .unknown ∧ c ≠ ch '"' ∧ whitespace c = false :=
  forall_byte (P := fun c => c = ch '-' ∨ isdigit c = true →
    ch2token c = .unknown ∧ c ≠ ch '"' ∧ whitespace c = false) (by decide +kernel) c h

theorem readToken_number {w n rest : List UInt8} (hw : Whitespace w) (hn : LenientNumber n)
    (hrest : NumberEnd rest) :
    readToken libc cfg json (w ++ (n ++ rest)) = .ok (.number (libc.strtod n), rest) := by
  obtain ⟨hchar, hpass⟩ := number_passes hn hrest
  obtain ⟨htoken, hquote, hspace⟩ := number_char hchar
  rw [readToken, skipWhitespace_eq hw hspace, lexToken, htoken]
  simp only
  rw [if_neg hquote, if_pos hchar, hpass, Bool.and_false, if_neg (by decide), json_next_number_token,
    strtodSpan_eq hn hrest]

theorem readToken_string {w k key rest : List UInt8} (hw : Whitespace w) (hk : IsString k key)
    (hsize : 0 ≤ json.tmp.size) :
    Lexes (0 ∉ k ∧ (key.length : Int) < json.tmp.size)
      (readToken libc cfg json (w ++ (k ++ rest))) (.string key, rest) := by
  obtain ⟨h⟩ := hk
  rename_i b
  have hread := readsChars h rest ((b ++ ch '"' :: rest).length + 2) (strbuf_reset json.tmp)
    (by rw [List.length_append]; omega) hsize
  have hshape : ch '"' :: (b ++ [ch '"']) ++ rest = ch '"' :: (b ++ ch '"' :: rest) := by
    rw [List.cons_append, List.append_assoc]
    rfl
  have heq : readToken libc cfg json (w ++ (ch '"' :: (b ++ [ch '"']) ++ rest)) =
      scanString ((b ++ ch '"' :: rest).length + 2) (strbuf_reset json.tmp) (b ++ ch '"' :: rest) := by
    rw [readToken, hshape, skipWhitespace_eq hw (by rw [peek_cons]; decide)]
    rfl
  rw [heq]
  refine hread.congr ?_
  have hlength : (strbuf_reset json.tmp).length = 0 := rfl
  have hquote : (0 : UInt8) ≠ ch '"' := by decide
  rw [hlength, Int.zero_add, List.mem_cons, List.mem_append, List.mem_singleton]
  show 0 ∉ b ∧ (key.length : Int) < json.tmp.size ↔ _
  simp only [hquote, false_or, or_false]

end Luaxx.Json
