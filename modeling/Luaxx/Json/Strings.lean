import Luaxx.Json.Grammar
import Luaxx.Json.Output

/-!
# Strings

What the loop for strings reads, against the grammar: between the quotes, characters and escapes.
-/

namespace Luaxx.Json

open Luaxx.Ctype Luaxx.Result Strbuf

/-! ## Outcomes -/

/-- No token is read. -/
def NoToken (x : M Lexed) : Prop := (∃ e, x = .error e) ∨ ∃ msg p, x = .ok (.error msg, p)

/-- The token is read where it is good. -/
def Lexes (good : Prop) (x : M Lexed) (r : Lexed) : Prop :=
  (good ∧ x = .ok r) ∨ (¬ good ∧ NoToken x)

theorem Lexes.congr {good good' : Prop} {x : M Lexed} {r : Lexed} (h : Lexes good x r)
    (hiff : good ↔ good') : Lexes good' x r := by
  rwa [Lexes, ← hiff]

/-! ## Escapes -/

theorem hexdigit2int_eq (c : UInt8) : hexdigit2int c = hexValue c :=
  forall_byte (P := fun c => hexdigit2int c = hexValue c) (by decide) c

theorem hexValue_lt {c : UInt8} {n : Nat} (h : hexValue c = some n) : n < 16 :=
  forall_byte (P := fun c => ∀ n ∈ hexValue c, n < 16) (by decide) c n h

theorem Hex4.lt {u : List UInt8} {n : Nat} (h : Hex4 u n) : n < 65536 := by
  obtain ⟨ha, hb, hc, hd⟩ := h
  have := hexValue_lt ha
  have := hexValue_lt hb
  have := hexValue_lt hc
  have := hexValue_lt hd
  omega

theorem Hex4.length {u : List UInt8} {n : Nat} (h : Hex4 u n) : u.length = 4 := by
  cases h
  rfl

theorem decode_hex4_eq {u : List UInt8} {n : Nat} (h : Hex4 u n) (rest : List UInt8) :
    decode_hex4 (u ++ rest) = some n := by
  obtain ⟨ha, hb, hc, hd⟩ := h
  simp only [List.cons_append, decode_hex4, hexdigit2int_eq, ha, hb, hc, hd, Option.bind_eq_bind,
    Option.bind_some, Option.pure_def, Nat.shiftLeft_eq]

theorem exists_hex4 {p : List UInt8} {n : Nat} (h : decode_hex4 p = some n) :
    ∃ u rest, p = u ++ rest ∧ Hex4 u n := by
  rcases p with _ | ⟨a, _ | ⟨b, _ | ⟨c, _ | ⟨d, rest⟩⟩⟩⟩
  case cons.cons.cons.cons =>
    simp only [decode_hex4, hexdigit2int_eq, Option.bind_eq_bind, Option.bind_eq_some_iff,
      Option.pure_def, Option.some.injEq, Nat.shiftLeft_eq] at h
    obtain ⟨i, ha, j, hb, k, hc, l, hd, rfl⟩ := h
    exact ⟨[a, b, c, d], rest, rfl, .mk ha hb hc hd⟩
  all_goals exact nomatch h

/-- The bits of a mask that ends with `k` zeros. -/
theorem and_mask (n a k : Nat) : n &&& a <<< k = (n >>> k &&& a) <<< k := by
  apply Nat.eq_of_testBit_eq
  intro i
  rw [Nat.testBit_and, Nat.testBit_shiftLeft, Nat.testBit_shiftLeft, Nat.testBit_and,
    Nat.testBit_shiftRight]
  by_cases h : k ≤ i
  · rw [Nat.add_sub_cancel' h]
    simp [h]
  · simp [h]

theorem and_F800 (n : Nat) : n &&& 0xF800 = n / 2048 % 32 * 2048 := by
  rw [show 0xF800 = (2 ^ 5 - 1) <<< 11 from rfl, and_mask, Nat.and_two_pow_sub_one_eq_mod,
    Nat.shiftLeft_eq, Nat.shiftRight_eq_div_pow]

theorem and_FC00 (n : Nat) : n &&& 0xFC00 = n / 1024 % 64 * 1024 := by
  rw [show 0xFC00 = (2 ^ 6 - 1) <<< 10 from rfl, and_mask, Nat.and_two_pow_sub_one_eq_mod,
    Nat.shiftLeft_eq, Nat.shiftRight_eq_div_pow]

theorem and_400 (n : Nat) : n &&& 0x400 = n / 1024 % 2 * 1024 := by
  have h := and_mask n (2 ^ 1 - 1) 10
  rw [Nat.and_two_pow_sub_one_eq_mod, Nat.shiftLeft_eq, Nat.shiftLeft_eq,
    Nat.shiftRight_eq_div_pow] at h
  exact h

theorem and_3FF (n : Nat) : n &&& 0x3FF = n % 1024 :=
  Nat.and_two_pow_sub_one_eq_mod n 10

theorem codepoint_to_utf8_ne {n : Nat} (h : n ≤ 0x1FFFFF) : codepoint_to_utf8 n ≠ [] := by
  unfold codepoint_to_utf8
  split_ifs <;> exact List.cons_ne_nil _ _

theorem codepoint_to_utf8_length (n : Nat) : (codepoint_to_utf8 n).length ≤ 4 := by
  unfold codepoint_to_utf8
  split_ifs <;> simp

/-- The codepoint of two surrogates. -/
theorem surrogates_eq {n m : Nat} (hn : 0xD800 ≤ n ∧ n < 0xDC00) (hm : 0xDC00 ≤ m ∧ m < 0xE000) :
    ((n &&& 0x3FF) <<< 10 ||| (m &&& 0x3FF)) + 0x10000 =
      (n - 0xD800) * 0x400 + (m - 0xDC00) + 0x10000 := by
  rw [and_3FF, and_3FF, ← Nat.shiftLeft_add_eq_or_of_lt (by omega), Nat.shiftLeft_eq]
  omega

theorem escape2char_eq {e c : UInt8} (h : (e, c) ∈ escapes) :
    escape2char e = c ∧ c ≠ ch 'u' ∧ c ≠ 0 ∧ e ≠ 0 := by
  have hall : ∀ e ∈ escapes, escape2char e.1 = e.2 ∧ e.2 ≠ ch 'u' ∧ e.2 ≠ 0 ∧ e.1 ≠ 0 := by
    simp only [escapes, List.forall_mem_cons, List.not_mem_nil, false_implies, implies_true]
    decide +kernel
  exact hall _ h

theorem mem_escapes {e c : UInt8} (h : escape2char e = c) (hu : c ≠ ch 'u') (h0 : c ≠ 0) :
    (e, c) ∈ escapes := by
  have hall := forall_byte (P := fun e => escape2char e ≠ ch 'u' → escape2char e ≠ 0 →
    (e, escape2char e) ∈ escapes) (by decide) e
  rw [h] at hall
  exact hall hu h0

theorem escape2char_u {e : UInt8} (h : escape2char e = ch 'u') : e = ch 'u' :=
  forall_byte (P := fun e => escape2char e = ch 'u' → e = ch 'u') (by decide) e h

theorem unicode_eq {u : List UInt8} {n : Nat} (hu : Hex4 u n) (hn : n < 0xD800 ∨ 0xE000 ≤ n)
    (rest : List UInt8) :
    json_append_unicode_escape (ch '\\' :: ch 'u' :: (u ++ rest)) =
      some (codepoint_to_utf8 n, rest) := by
  have hlt := hu.lt
  have hnot : n &&& 0xF800 ≠ 0xD800 := by
    rw [and_F800]
    omega
  have hdrop : (ch '\\' :: ch 'u' :: (u ++ rest)).drop 6 = rest := by
    obtain ⟨-, -, -, -⟩ := hu
    rfl
  rw [json_append_unicode_escape]
  show (decode_hex4 (u ++ rest) >>= _) = _
  rw [decode_hex4_eq hu, Option.bind_eq_bind, Option.bind_some]
  simp only
  rw [if_neg hnot, Option.bind_eq_bind, Option.bind_some]
  simp only
  rw [if_neg (codepoint_to_utf8_ne (by omega)), hdrop]

theorem pair_eq {u v : List UInt8} {n m : Nat} (hu : Hex4 u n) (hn : 0xD800 ≤ n ∧ n < 0xDC00)
    (hv : Hex4 v m) (hm : 0xDC00 ≤ m ∧ m < 0xE000) (rest : List UInt8) :
    json_append_unicode_escape
        (ch '\\' :: ch 'u' :: (u ++ ch '\\' :: ch 'u' :: (v ++ rest))) =
      some (codepoint_to_utf8 ((n - 0xD800) * 0x400 + (m - 0xDC00) + 0x10000), rest) := by
  have hhigh : n &&& 0xF800 = 0xD800 ∧ n &&& 0x400 = 0 := by
    rw [and_F800, and_400]
    omega
  have hlow : m &&& 0xFC00 = 0xDC00 := by
    rw [and_FC00]
    omega
  have hdrop : ∀ r, (ch '\\' :: ch 'u' :: (u ++ r)).drop 6 = r := by
    obtain ⟨-, -, -, -⟩ := hu
    exact fun _ => rfl
  have hdrop' : ∀ r, (ch '\\' :: ch 'u' :: (v ++ r)).drop 6 = r := by
    obtain ⟨-, -, -, -⟩ := hv
    exact fun _ => rfl
  have hsix := hdrop (ch '\\' :: ch 'u' :: (v ++ rest))
  have hmore : ∀ k, (ch '\\' :: ch 'u' :: (u ++ ch '\\' :: ch 'u' :: (v ++ rest))).drop (6 + k) =
      (ch '\\' :: ch 'u' :: (v ++ rest)).drop k := fun k => by
    rw [← List.drop_drop, hsix]
  rw [json_append_unicode_escape]
  show (decode_hex4 (u ++ _) >>= _) = _
  rw [decode_hex4_eq hu, Option.bind_eq_bind, Option.bind_some]
  simp only
  rw [if_pos hhigh.1, if_neg (not_not.mpr hhigh.2), hsix, show 7 = 6 + 1 from rfl,
    show 8 = 6 + 2 from rfl, hmore, hmore, if_neg ?_]
  · show (decode_hex4 (v ++ rest) >>= _) = _
    rw [decode_hex4_eq hv, Option.bind_eq_bind, Option.bind_some, if_neg (not_not.mpr hlow),
      surrogates_eq hn hm, Option.bind_eq_bind, Option.bind_some]
    simp only
    rw [if_neg (codepoint_to_utf8_ne (by omega)), show 12 = 6 + 6 from rfl, hmore, hdrop']
  · show ¬ (ch '\\' ≠ ch '\\' ∨ ch 'u' ≠ ch 'u')
    rw [not_or, not_not, not_not]
    exact ⟨rfl, rfl⟩

/-- What the function for an escape reads is one escape or two. -/
theorem exists_unicode {p utf8 rest : List UInt8}
    (h : json_append_unicode_escape (ch '\\' :: ch 'u' :: p) = some (utf8, rest)) :
    (∃ u n, p = u ++ rest ∧ Hex4 u n ∧ (n < 0xD800 ∨ 0xE000 ≤ n) ∧ utf8 = codepoint_to_utf8 n) ∨
    ∃ u v n m, p = u ++ ch '\\' :: ch 'u' :: (v ++ rest) ∧ Hex4 u n ∧
      (0xD800 ≤ n ∧ n < 0xDC00) ∧ Hex4 v m ∧ (0xDC00 ≤ m ∧ m < 0xE000) ∧
      utf8 = codepoint_to_utf8 ((n - 0xD800) * 0x400 + (m - 0xDC00) + 0x10000) := by
  rw [json_append_unicode_escape] at h
  have hbind : ∃ n, decode_hex4 p = some n ∧ _ := Option.bind_eq_some_iff.mp h
  obtain ⟨n, hn, h⟩ := hbind
  obtain ⟨u, q, rfl, hu⟩ := exists_hex4 hn
  have hlt := hu.lt
  have hdrop : ∀ k, (ch '\\' :: ch 'u' :: (u ++ q)).drop (6 + k) = q.drop k := by
    obtain ⟨-, -, -, -⟩ := hu
    intro k
    rw [← List.drop_drop]
    rfl
  simp only at h
  split at h
  · next hhigh =>
    -- two surrogates
    rw [and_F800] at hhigh
    split at h
    · cases h
    · next hlow4 =>
      rw [not_not, and_400] at hlow4
      split at h
      · cases h
      · next hnext =>
        rw [not_or, not_not, not_not, show 7 = 6 + 1 from rfl, hdrop 1, show 6 = 6 + 0 from rfl,
          hdrop 0] at hnext
        rw [show 8 = 6 + 2 from rfl, hdrop 2] at h
        obtain ⟨q, rfl⟩ : ∃ q', q = ch '\\' :: ch 'u' :: q' := by
          rcases q with _ | ⟨c, _ | ⟨d, q⟩⟩
          · exact absurd hnext.1 (by decide)
          · have hzero : (0 : UInt8) = ch 'u' := hnext.2
            exact absurd hzero (by decide)
          · obtain ⟨hc, hd⟩ : c = ch '\\' ∧ d = ch 'u' := hnext
            exact ⟨q, by rw [hc, hd]⟩
        obtain ⟨m, hm, h⟩ : ∃ m, decode_hex4 q = some m ∧ _ := Option.bind_eq_some_iff.mp h
        obtain ⟨v, q', rfl, hv⟩ := exists_hex4 hm
        have hltm := hv.lt
        split at h
        · cases h
        · next hlow =>
          rw [not_not, and_FC00] at hlow
          have hn : 0xD800 ≤ n ∧ n < 0xDC00 := by omega
          have hm' : 0xDC00 ≤ m ∧ m < 0xE000 := by omega
          rw [surrogates_eq hn hm', Option.bind_eq_bind, Option.bind_some] at h
          simp only at h
          split at h
          · cases h
          · obtain ⟨rfl, hrest⟩ := Prod.mk.inj (Option.some.inj h)
            right
            refine ⟨u, v, n, m, ?_, hu, hn, hv, hm', rfl⟩
            have hdrop' : (ch '\\' :: ch 'u' :: (v ++ q')).drop 6 = q' := by
              obtain ⟨-, -, -, -⟩ := hv
              rfl
            rw [← hrest, show 12 = 6 + 6 from rfl, hdrop 6, hdrop']
  · next hhigh =>
    rw [and_F800] at hhigh
    have hn : n < 0xD800 ∨ 0xE000 ≤ n := by omega
    rw [Option.bind_eq_bind, Option.bind_some] at h
    simp only at h
    split at h
    · cases h
    · obtain ⟨rfl, hrest⟩ := Prod.mk.inj (Option.some.inj h)
      left
      refine ⟨u, n, ?_, hu, hn, rfl⟩
      rw [← hrest, show 6 = 6 + 0 from rfl, hdrop 0]
      rfl

/-! ## Strings -/

theorem scanString_quote {fuel : Nat} {tmp : Strbuf} {rest : List UInt8} :
    scanString (fuel + 1) tmp (ch '"' :: rest) =
      if tmp.length < tmp.size then .ok (.string tmp.buf, rest) else .error .overrun := by
  rw [scanString]
  show (strbuf_ensure_null tmp >>= _) = _
  rw [strbuf_ensure_null]
  split
  · rfl
  · rfl

/-- The loop reads the characters up to the quote if none is a NUL and the buffer is large enough. -/
def ReadsChars (rest b s : List UInt8) : Prop :=
  ∀ (fuel : Nat) (tmp : Strbuf), b.length < fuel → tmp.length ≤ tmp.size →
    Lexes (0 ∉ b ∧ tmp.length + s.length < tmp.size)
      (scanString fuel tmp (b ++ ch '"' :: rest)) (.string (tmp.buf ++ s), rest)

/-- One round of the loop reads `i` and puts `c` into the buffer. -/
theorem ReadsChars.round {rest b s i c : List UInt8} (h : ReadsChars rest b s) (hi : i ≠ [])
    (hnul : 0 ∉ i)
    (hround : ∀ fuel tmp p, scanString (fuel + 1) tmp (i ++ p) =
      strbuf_append_mem_unsafe tmp c >>= fun tmp => scanString fuel tmp p) :
    ReadsChars rest (i ++ b) (c ++ s) := by
  intro fuel tmp hfuel htmp
  have hpos : 0 < i.length := List.length_pos_iff.mpr hi
  rw [List.length_append] at hfuel
  obtain ⟨fuel, rfl⟩ : ∃ n, fuel = n + 1 := ⟨fuel - 1, by omega⟩
  have hlen : ((c ++ s).length : Int) = c.length + s.length := by
    rw [List.length_append, Nat.cast_add]
  rw [List.append_assoc, hround, strbuf_append_mem_unsafe]
  by_cases hroom : tmp.length + c.length ≤ tmp.size
  · rw [if_pos hroom, ok_bind, ← List.append_assoc tmp.buf]
    have htmp' : ({ tmp with buf := tmp.buf ++ c } : Strbuf).length = tmp.length + c.length := by
      rw [Strbuf.length, List.length_append, Nat.cast_add]
      rfl
    refine (h fuel { tmp with buf := tmp.buf ++ c } (by omega) (by rw [htmp']; exact hroom)).congr ?_
    rw [htmp', hlen, List.mem_append, not_or, add_assoc]
    exact ⟨fun hg => ⟨⟨hnul, hg.1⟩, hg.2⟩, fun hg => ⟨hg.1.2, hg.2⟩⟩
  · rw [if_neg hroom]
    refine .inr ⟨fun hg => hroom ?_, .inl ⟨_, rfl⟩⟩
    omega

/-- A round of the loop at a backslash. -/
theorem scanString_escape (fuel : Nat) (tmp : Strbuf) (p : List UInt8) :
    scanString (fuel + 1) tmp (ch '\\' :: p) =
      if escape2char (peek p) = ch 'u' then
        match json_append_unicode_escape (ch '\\' :: p) with
        | some (utf8, ptr) => strbuf_append_mem_unsafe tmp utf8 >>= fun tmp => scanString fuel tmp ptr
        | none => .ok (.error "invalid unicode escape code", ch '\\' :: p)
      else if escape2char (peek p) = 0 then .ok (.error "invalid escape code", ch '\\' :: p)
      else strbuf_append_char_unsafe tmp (escape2char (peek p)) >>= fun tmp =>
        scanString fuel tmp p.tail := by
  rw [scanString]
  show (if ch '\\' = ch '"' then _ else if ch '\\' = 0 then _ else if ch '\\' = ch '\\' then _
    else _) = _
  rw [if_neg (by decide), if_neg (by decide), if_pos rfl]
  cases p <;> rfl

theorem readsChars {b s : List UInt8} (h : Chars b s) (rest : List UInt8) : ReadsChars rest b s := by
  have hletter : ∀ p, escape2char (peek (ch 'u' :: p)) = ch 'u' := fun _ => rfl
  have hdigits : ∀ {u n}, Hex4 u n → 0 ∉ u := by
    rintro u n ⟨ha, hb, hc, hd⟩ hmem
    have hzero : hexValue 0 = none := rfl
    simp only [List.mem_cons, List.not_mem_nil, or_false] at hmem
    rcases hmem with rfl | rfl | rfl | rfl
    · rw [hzero] at ha
      cases ha
    · rw [hzero] at hb
      cases hb
    · rw [hzero] at hc
      cases hc
    · rw [hzero] at hd
      cases hd
  induction h with
  | nil =>
    intro fuel tmp hfuel htmp
    obtain ⟨fuel, rfl⟩ : ∃ n, fuel = n + 1 := ⟨fuel - 1, by omega⟩
    rw [List.nil_append, scanString_quote, List.append_nil]
    by_cases hroom : tmp.length < tmp.size
    · rw [if_pos hroom]
      exact .inl ⟨⟨List.not_mem_nil, by simpa using hroom⟩, rfl⟩
    · rw [if_neg hroom]
      exact .inr ⟨fun hg => hroom (by simpa using hg.2), .inl ⟨_, rfl⟩⟩
  | @char c b s hquote hback h ih =>
    by_cases hnul : c = 0
    · intro fuel tmp hfuel htmp
      obtain ⟨fuel, rfl⟩ : ∃ n, fuel = n + 1 := ⟨fuel - 1, by omega⟩
      subst hnul
      exact .inr ⟨fun hg => hg.1 List.mem_cons_self, .inr ⟨_, _, rfl⟩⟩
    · refine ih.round (i := [c]) (c := [c]) (List.cons_ne_nil _ _) ?_ fun fuel tmp p => ?_
      · rw [List.mem_singleton]
        exact fun h => hnul h.symm
      · rw [scanString]
        show (if c = ch '"' then _ else if c = 0 then _ else if c = ch '\\' then _ else _) = _
        rw [if_neg hquote, if_neg hnul, if_neg hback]
        rfl
  | @escape e c b s he h ih =>
    obtain ⟨heq, hu, hc, hnul⟩ := escape2char_eq he
    refine ih.round (i := [ch '\\', e]) (c := [c]) (List.cons_ne_nil _ _) ?_ fun fuel tmp p => ?_
    · simp only [List.mem_cons, List.not_mem_nil, or_false, not_or]
      exact ⟨by decide, fun h => hnul h.symm⟩
    · have hpeek : peek (e :: p) = e := rfl
      show scanString (fuel + 1) tmp (ch '\\' :: e :: p) = _
      rw [scanString_escape, hpeek, heq, if_neg hu, if_neg hc]
      rfl
  | @unicode u b s n hu hn h ih =>
    refine ih.round (i := ch '\\' :: ch 'u' :: u) (List.cons_ne_nil _ _) ?_ fun fuel tmp p => ?_
    · rw [List.mem_cons, List.mem_cons, not_or, not_or]
      exact ⟨by decide, by decide, hdigits hu⟩
    · show scanString (fuel + 1) tmp (ch '\\' :: ch 'u' :: (u ++ p)) = _
      rw [scanString_escape, if_pos (hletter _), unicode_eq hu hn]
  | @pair u v b s n m hu hn hv hm h ih =>
    have hshape : ∀ p, ch '\\' :: ch 'u' :: (u ++ ch '\\' :: ch 'u' :: (v ++ p)) =
        (ch '\\' :: ch 'u' :: (u ++ ch '\\' :: ch 'u' :: v)) ++ p := by
      intro p
      rw [List.cons_append, List.cons_append, List.append_assoc]
      rfl
    rw [hshape]
    refine ih.round (List.cons_ne_nil _ _) ?_ fun fuel tmp p => ?_
    · rw [List.mem_cons, List.mem_cons, List.mem_append, List.mem_cons, List.mem_cons, not_or, not_or,
        not_or, not_or, not_or]
      exact ⟨by decide, by decide, hdigits hu, by decide, by decide, hdigits hv⟩
    · rw [← hshape, scanString_escape, if_pos (hletter _),
        pair_eq hu hn hv hm]

/-- A string is not longer than its text. -/
theorem Chars.length_le {b s : List UInt8} (h : Chars b s) : s.length ≤ b.length := by
  induction h with
  | nil => exact le_refl _
  | char hquote hback h ih => exact Nat.succ_le_succ ih
  | escape he h ih =>
    rw [List.length_cons, List.length_cons, List.length_cons]
    omega
  | @unicode u b s n hu hn h ih =>
    have hutf8 := codepoint_to_utf8_length n
    simp only [List.length_cons, List.length_append, hu.length]
    omega
  | @pair u v b s n m hu hn hv hm h ih =>
    have hutf8 := codepoint_to_utf8_length ((n - 0xD800) * 0x400 + (m - 0xDC00) + 0x10000)
    simp only [List.length_cons, List.length_append, hu.length, hv.length]
    omega

/-- What the loop reads is a sequence of characters and a quote. -/
theorem exists_chars : ∀ {fuel : Nat} {tmp : Strbuf} {p rest : List UInt8} {token : Token},
    scanString fuel tmp p = .ok (token, rest) → (∃ msg, token = .error msg) ∨
      ∃ w b s, token = .string w ∧ p = b ++ ch '"' :: rest ∧ Chars b s := by
  intro fuel
  induction fuel with
  | zero =>
    intro tmp p rest token h
    cases h
  | succ fuel ih =>
    intro tmp p rest token h
    rcases p with _ | ⟨c, p⟩
    · cases h
      exact .inl ⟨_, rfl⟩
    by_cases hback : c = ch '\\'
    · subst hback
      rw [scanString_escape] at h
      split at h
      · next hu =>
        rcases p with _ | ⟨e, p⟩
        · exact absurd (escape2char_u hu) (by decide)
        obtain rfl : e = ch 'u' := escape2char_u hu
        split at h
        · next utf8 q heq =>
          obtain ⟨tmp', -, h⟩ := bind_ok.mp h
          refine (ih h).imp_right fun ⟨w, b, s, htoken, hq, hb⟩ => ?_
          rcases exists_unicode heq with ⟨u, n, rfl, hu, hn, -⟩ |
            ⟨u, v, n, m, rfl, hu, hn, hv, hm, -⟩
          · refine ⟨w, _, _, htoken, ?_, .unicode hu hn hb⟩
            rw [hq, List.cons_append, List.cons_append, List.append_assoc]
          · refine ⟨w, _, _, htoken, ?_, .pair hu hn hv hm hb⟩
            rw [hq, List.cons_append, List.cons_append, List.append_assoc, List.cons_append,
              List.cons_append, List.append_assoc]
        · cases h
          exact .inl ⟨_, rfl⟩
      · next hu =>
        split at h
        · cases h
          exact .inl ⟨_, rfl⟩
        · next hzero =>
          obtain ⟨tmp', -, h⟩ := bind_ok.mp h
          refine (ih h).imp_right fun ⟨w, b, s, htoken, hp, hb⟩ => ?_
          rcases p with _ | ⟨e, p⟩
          · exact absurd rfl hzero
          · have hp : p = b ++ ch '"' :: rest := hp
            exact ⟨w, _, _, htoken, by rw [hp]; rfl, .escape (mem_escapes rfl hu hzero) hb⟩
    · rw [scanString] at h
      change (if c = ch '"' then _ else if c = 0 then _ else if c = ch '\\' then _ else _) = _ at h
      rw [if_neg hback] at h
      split at h
      · next hc =>
        obtain ⟨-, -, h⟩ := bind_ok.mp h
        cases h
        exact .inr ⟨_, [], [], rfl, by rw [hc]; rfl, .nil⟩
      · next hquote =>
        split at h
        · cases h
          exact .inl ⟨_, rfl⟩
        · obtain ⟨tmp', -, h⟩ := bind_ok.mp h
          refine (ih h).imp_right fun ⟨w, b, s, htoken, hp, hb⟩ => ?_
          have hp : p = b ++ ch '"' :: rest := hp
          exact ⟨w, _, _, htoken, by rw [hp]; rfl, .char hquote hback hb⟩

end Luaxx.Json
