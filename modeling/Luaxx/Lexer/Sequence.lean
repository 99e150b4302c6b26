import Luaxx.Lexer.Items

/-!
# The tokens of a chunk

The lexer reads the tokens of the reference, unless it takes a NUL behind one of them for a part of
it, or counts too many lines.
-/

namespace Luaxx.Lexer

open Luaxx.Ctype Luaxx.Vm Reference

namespace Reference

variable {s rest : List UInt8} {d c : UInt8} {locale : Locale} {i : Item}

/-! ## What an item is of a text -/

theorem escape_suffix {p : UInt8 × List UInt8} (h : escape s = some p) : p.2 <:+ s := by
  cases s with
  | nil => cases h
  | cons e s =>
    rw [escape] at h
    cases hletter : escapes.lookup e with
    | some b =>
      rw [hletter] at h
      cases h
      exact List.suffix_cons _ _
    | none =>
      rw [hletter] at h
      dsimp only at h
      split_ifs at h
      · cases h
        exact (lineRest_suffix e s).trans (List.suffix_cons _ _)
      · cases h
        exact List.drop_suffix _ _
      · cases h
        exact List.suffix_cons _ _

theorem quoted_suffix {del : UInt8} {k : Nat} {p : List UInt8 × List UInt8}
    (h : quoted del k s = some p) : p.2 <:+ s := by
  induction k generalizing s p with
  | zero => cases h
  | succ k ih =>
    cases s with
    | nil => cases h
    | cons c s =>
      rw [quoted_cons] at h
      split_ifs at h
      · cases h
        exact List.suffix_cons _ _
      · obtain ⟨b, hb, h⟩ := Option.bind_eq_some_iff.1 h
        obtain ⟨q, hq, rfl⟩ := Option.map_eq_some_iff.1 h
        exact (ih hq).trans ((escape_suffix hb).trans (List.suffix_cons _ _))
      · obtain ⟨q, hq, rfl⟩ := Option.map_eq_some_iff.1 h
        exact (ih hq).trans (List.suffix_cons _ _)

theorem skip_suffix {k : Nat} (h : skip k s = some rest) : rest <:+ s := by
  induction k generalizing s with
  | zero =>
    cases h
    exact List.suffix_refl _
  | succ k ih =>
    cases s with
    | nil =>
      cases h
      exact List.suffix_refl _
    | cons c s =>
      rw [skip] at h
      split_ifs at h
      · exact (ih h).trans ((lineRest_suffix c s).trans (List.suffix_cons _ _))
      · exact (ih h).trans (List.suffix_cons _ _)
      · obtain ⟨t, ht, h⟩ := Option.bind_eq_some_iff.1 h
        exact (ih h).trans ((comment_suffix ht).trans ((List.tail_suffix s).trans
          (List.suffix_cons _ _)))
      · cases h
        exact List.suffix_refl _

/-- Digits and points, an exponent letter with a sign behind it, and letters and digits: each part may
be empty. -/
def IsNumeral (text : List UInt8) : Prop :=
  ∃ digits exponent letters, text = digits ++ exponent ++ letters ∧
    (∀ c ∈ digits, isFraction c = true) ∧
    (exponent = [] ∨ (∃ e, isExponent e = true ∧ exponent = [e]) ∨
      ∃ e sign, isExponent e = true ∧ isSign sign = true ∧ exponent = [e, sign]) ∧
    ∀ c ∈ letters, isname c = true

theorem numeral_isNumeral (s : List UInt8) : IsNumeral (numeral s) := by
  have hdigits : ∀ c ∈ s.takeWhile isFraction, isFraction c = true :=
    fun c hc => List.mem_takeWhile_imp hc
  have hletters (t : List UInt8) : ∀ c ∈ t.takeWhile isname, isname c = true :=
    fun c hc => List.mem_takeWhile_imp hc
  rw [numeral]
  cases s.dropWhile isFraction with
  | nil => exact ⟨_, [], [], (List.append_nil _).symm, hdigits, .inl rfl, List.forall_mem_nil _⟩
  | cons c t =>
    rw [numeralTail]
    split_ifs with hexp
    · cases t with
      | nil => exact ⟨_, [c], [], by rw [List.append_nil]; rfl, hdigits,
          .inr (.inl ⟨c, hexp, rfl⟩), List.forall_mem_nil _⟩
      | cons c' t =>
        rw [exponent]
        split_ifs with hsign
        · refine ⟨_, [c, c'], _, ?_, hdigits, .inr (.inr ⟨c, c', hexp, hsign, rfl⟩), hletters t⟩
          rw [List.append_assoc]
          rfl
        · refine ⟨_, [c], _, ?_, hdigits, .inr (.inl ⟨c, hexp, rfl⟩), hletters (c' :: t)⟩
          rw [List.append_assoc]
          rfl
    · refine ⟨_, [], _, ?_, hdigits, .inl rfl, hletters (c :: t)⟩
      rw [List.append_nil]

/-- The text of a token is what the token is of. -/
structure Item.Valid (i : Item) : Prop where
  concat : i.token.token = TK_CONCAT → i.text = chars ".."
  dots : i.token.token = TK_DOTS → i.text = chars "..."
  number : i.token.token = TK_NUMBER → IsNumeral i.text
  single : i.token.token < FIRST_RESERVED → ∃ c, i.text = [c] ∧ i.token.token = c.toNat
  nonempty : i.token.token ≠ TK_EOS → i.text ≠ []

/-- A token of several characters that is not one of these. -/
theorem valid_other {i : Item} (hge : FIRST_RESERVED ≤ i.token.token)
    (hother : i.token.token ≠ TK_CONCAT ∧ i.token.token ≠ TK_DOTS ∧ i.token.token ≠ TK_NUMBER)
    (hne : i.text ≠ []) : i.Valid where
  concat h := absurd h hother.1
  dots h := absurd h hother.2.1
  number h := absurd h hother.2.2
  single h := absurd h (Nat.not_lt.2 hge)
  nonempty _ := hne

theorem symbol_valid (c : UInt8) (rest : List UInt8) (d : UInt8) :
    (symbol [c] c.toNat rest d).Valid := by
  have hlt : c.toNat < 256 := c.toNat_lt
  refine ⟨fun h => ?_, fun h => ?_, fun h => ?_, fun _ => ⟨c, rfl, rfl⟩, fun _ => List.cons_ne_nil _ _⟩
  · exact absurd (show c.toNat = TK_CONCAT from h) (Nat.ne_of_lt (Nat.lt_trans hlt (by decide)))
  · exact absurd (show c.toNat = TK_DOTS from h) (Nat.ne_of_lt (Nat.lt_trans hlt (by decide)))
  · exact absurd (show c.toNat = TK_NUMBER from h) (Nat.ne_of_lt (Nat.lt_trans hlt (by decide)))

/-- A token of the text, that is before the rest. -/
structure Item.Of (locale : Locale) (d : UInt8) (s : List UInt8) (i : Item) : Prop extends i.Valid where
  partition : s = i.text ++ i.rest
  point : i.decpoint = d ∨ i.decpoint = locale.decimal_point

theorem symbol_of (c : UInt8) (s : List UInt8) (d : UInt8) :
    (symbol [c] c.toNat s d).Of locale d (c :: s) :=
  ⟨symbol_valid c s d, rfl, .inl rfl⟩

theorem string_of {text : List UInt8} (hrest : rest <:+ s) (hlt : rest.length < s.length) :
    (behind s rest ⟨TK_STRING, .ts text⟩ d).Of locale d s := by
  obtain ⟨t, rfl⟩ := hrest
  have htext : (behind (t ++ rest) rest ⟨TK_STRING, .ts text⟩ d).text = t := by
    show (t ++ rest).take ((t ++ rest).length - rest.length) = t
    rw [List.length_append, Nat.add_sub_cancel, List.take_left]
  have hne : t ≠ [] := by
    rintro rfl
    exact Nat.lt_irrefl _ hlt
  refine ⟨valid_other (show FIRST_RESERVED ≤ TK_STRING by decide)
    (show TK_STRING ≠ _ ∧ TK_STRING ≠ _ ∧ TK_STRING ≠ _ by decide) (htext.symm ▸ hne), ?_, .inl rfl⟩
  rw [htext]
  rfl

theorem bracketItem_of (h : bracketItem d s = some i) : i.Of locale d (ch '[' :: s) := by
  obtain ⟨n, s, rfl, hs⟩ := exists_replicate s
  rw [bracketItem_replicate n hs] at h
  split_ifs at h with hopen hzero
  · obtain ⟨p, hp, rfl⟩ := Option.map_eq_some_iff.1 h
    have hsuffix : p.2 <:+ List.replicate n (ch '=') ++ s :=
      (longBracket_suffix hp).trans ((List.tail_suffix s).trans (List.suffix_append _ _))
    exact string_of (hsuffix.trans (List.suffix_cons _ _)) (Nat.lt_succ_of_le hsuffix.length_le)
  · cases h
    subst hzero
    exact symbol_of (ch '[') s d

theorem exponent_isPrefix (s : List UInt8) : exponent s <+: s := by
  cases s with
  | nil => exact List.prefix_refl _
  | cons c s =>
    rw [exponent]
    split_ifs
    · exact List.cons_prefix_cons.2 ⟨rfl, List.takeWhile_prefix _⟩
    · exact List.takeWhile_prefix _

theorem numeral_isPrefix (s : List UInt8) : numeral s <+: s := by
  have htail (t : List UInt8) : numeralTail t <+: t := by
    cases t with
    | nil => exact List.prefix_refl _
    | cons c t =>
      rw [numeralTail]
      split_ifs
      · exact List.cons_prefix_cons.2 ⟨rfl, exponent_isPrefix t⟩
      · exact List.takeWhile_prefix _
  obtain ⟨rest, hrest⟩ := htail (s.dropWhile isFraction)
  refine ⟨rest, ?_⟩
  rw [numeral, List.append_assoc, hrest, List.takeWhile_append_dropWhile]

/-- A numeral begins with a digit or a point. -/
theorem numeralItem_of (hc : isFraction c = true) (h : numeralItem locale d (c :: s) = some i) :
    i.Of locale d (c :: s) := by
  obtain ⟨r, hr, rfl⟩ := Option.map_eq_some_iff.1 h
  have hne : numeral (c :: s) ≠ [] := by
    rw [numeral, List.takeWhile_cons_of_pos hc]
    exact List.cons_ne_nil _ _
  refine ⟨⟨fun h => ?_, fun h => ?_, fun _ => numeral_isNumeral _, fun h => ?_, fun _ => hne⟩, ?_,
    numeralValue_point hr⟩
  · exact absurd (show TK_NUMBER = TK_CONCAT from h) (by decide)
  · exact absurd (show TK_NUMBER = TK_DOTS from h) (by decide)
  · exact absurd (show TK_NUMBER < FIRST_RESERVED from h) (by decide)
  · exact (List.prefix_iff_eq_append.1 (numeral_isPrefix (c :: s))).symm

theorem dotItem_of (h : dotItem locale d s = some i) : i.Of locale d (ch '.' :: s) := by
  rw [dotItem] at h
  split_ifs at h with hthree htwo hdigit
  · cases h
    obtain ⟨t, rfl⟩ := hthree
    refine ⟨⟨fun h => ?_, fun _ => rfl, fun h => ?_, fun h => ?_, fun _ => List.cons_ne_nil _ _⟩,
      rfl, .inl rfl⟩
    · exact absurd (show TK_DOTS = TK_CONCAT from h) (by decide)
    · exact absurd (show TK_DOTS = TK_NUMBER from h) (by decide)
    · exact absurd (show TK_DOTS < FIRST_RESERVED from h) (by decide)
  · cases h
    cases s with
    | nil => cases htwo
    | cons c s =>
      obtain rfl := Option.some.inj htwo
      refine ⟨⟨fun _ => rfl, fun h => ?_, fun h => ?_, fun h => ?_, fun _ => List.cons_ne_nil _ _⟩,
        rfl, .inl rfl⟩
      · exact absurd (show TK_CONCAT = TK_DOTS from h) (by decide)
      · exact absurd (show TK_CONCAT = TK_NUMBER from h) (by decide)
      · exact absurd (show TK_CONCAT < FIRST_RESERVED from h) (by decide)
  · exact numeralItem_of rfl h
  · cases h
    exact symbol_of (ch '.') s d

theorem nameItem_of (hc : isname c = true) : (nameItem d (c :: s)).Of locale d (c :: s) := by
  have hne : (nameItem d (c :: s)).text ≠ [] := by
    show (c :: s).takeWhile isname ≠ []
    rw [List.takeWhile_cons_of_pos hc]
    exact List.cons_ne_nil _ _
  refine ⟨valid_other ?_ ?_ hne, List.takeWhile_append_dropWhile.symm, .inl rfl⟩
  · rcases nameItem_token d (c :: s) with h | ⟨i, -, h⟩
    · rw [h]
      decide
    · rw [h]
      exact Nat.le_add_right _ _
  · rcases nameItem_token d (c :: s) with h | ⟨i, hi, h⟩
    · rw [h]
      decide
    · rw [h, FIRST_RESERVED, TK_CONCAT, TK_DOTS, TK_NUMBER]
      rw [NUM_RESERVED] at hi
      omega

theorem equals_of {token : Nat} (hc : equals.lookup c = some token)
    (hequal : s.head? = some (ch '=')) : (symbol [c, ch '='] token s.tail d).Of locale d (c :: s) := by
  have hmem := mem_equals hc
  have hall : ∀ p ∈ equals, FIRST_RESERVED ≤ p.2 ∧ p.2 ≠ TK_CONCAT ∧ p.2 ≠ TK_DOTS ∧
      p.2 ≠ TK_NUMBER := by decide
  obtain ⟨hge, hother⟩ := hall _ hmem
  refine ⟨valid_other hge hother (List.cons_ne_nil _ _), ?_, .inl rfl⟩
  cases s with
  | nil => cases hequal
  | cons c' s =>
    obtain rfl := Option.some.inj hequal
    rfl

theorem item_of (h : item locale d s = some i) : i.Of locale d s := by
  cases s with
  | nil =>
    cases h
    refine ⟨⟨fun h => ?_, fun h => ?_, fun h => ?_, fun h => ?_, fun h => absurd rfl h⟩, rfl,
      .inl rfl⟩
    · exact absurd (show TK_EOS = TK_CONCAT from h) (by decide)
    · exact absurd (show TK_EOS = TK_DOTS from h) (by decide)
    · exact absurd (show TK_EOS = TK_NUMBER from h) (by decide)
    · exact absurd (show TK_EOS < FIRST_RESERVED from h) (by decide)
  | cons c s =>
    rw [item] at h
    by_cases hbracket : c = ch '['
    · rw [if_pos hbracket] at h
      exact hbracket ▸ bracketItem_of h
    rw [if_neg hbracket] at h
    by_cases hquote : c = ch '"' ∨ c = ch '\''
    · rw [if_pos hquote] at h
      obtain ⟨p, hp, rfl⟩ := Option.map_eq_some_iff.1 h
      have hsuffix := quoted_suffix hp
      exact string_of (hsuffix.trans (List.suffix_cons _ _)) (Nat.lt_succ_of_le hsuffix.length_le)
    rw [if_neg hquote] at h
    by_cases hdot : c = ch '.'
    · rw [if_pos hdot] at h
      exact hdot ▸ dotItem_of h
    rw [if_neg hdot] at h
    by_cases hdigit : isdigit c = true
    · rw [if_pos hdigit] at h
      refine numeralItem_of ?_ h
      rw [isFraction, hdigit, Bool.true_or]
    rw [if_neg hdigit] at h
    by_cases hname : isalpha c = true ∨ c = ch '_'
    · rw [if_pos hname] at h
      cases h
      exact nameItem_of (isname_of_begin hname)
    rw [if_neg hname] at h
    cases hequals : equals.lookup c with
    | none =>
      rw [hequals] at h
      cases h
      exact symbol_of c s d
    | some token =>
      rw [hequals] at h
      dsimp only at h
      split_ifs at h with hequal
      · cases h
        exact equals_of hequals hequal
      · cases h
        exact symbol_of c s d

/-- The items follow each other: before each one there are separators, and behind it the text of the
next one begins. -/
def Covered : List UInt8 → List Item → Prop
  | _, [] => True
  | s, i :: is =>
    (∃ gap, s = gap ++ (i.text ++ i.rest) ∧ skip (s.length + 1) s = some (i.text ++ i.rest)) ∧
      Covered i.rest is

theorem next_of (h : next locale d s = some i) :
    ∃ t, skip (s.length + 1) s = some t ∧ t <:+ s ∧ i.Of locale d t := by
  obtain ⟨t, ht, hitem⟩ := Option.bind_eq_some_iff.1 h
  exact ⟨t, ht, skip_suffix ht, item_of hitem⟩

/-- A token that is not the end is not empty. -/
theorem length_next (h : next locale d s = some i) :
    i.rest.length ≤ s.length ∧ (i.token.token ≠ TK_EOS → i.rest.length < s.length) := by
  obtain ⟨t, -, hsuffix, hof⟩ := next_of h
  have hlen : i.text.length + i.rest.length ≤ s.length := by
    rw [← List.length_append, ← hof.partition]
    exact hsuffix.length_le
  refine ⟨Nat.le_trans (Nat.le_add_left _ _) hlen, fun heos => ?_⟩
  have hpos := List.length_pos_of_ne_nil (hof.nonempty heos)
  omega

theorem items_succ (k : Nat) (hi : next locale d s = some i) :
    items locale (k + 1) d s =
      if i.token.token = TK_EOS then ([i], false)
      else (i :: (items locale k i.decpoint i.rest).1, (items locale k i.decpoint i.rest).2) := by
  rw [items, hi]

theorem exists_items (k : Nat) (hi : next locale d s = some i) :
    ∃ is b, items locale (k + 1) d s = (i :: is, b) := by
  rw [items_succ k hi]
  split_ifs
  · exact ⟨_, _, rfl⟩
  · exact ⟨_, _, rfl⟩

theorem items_none (k : Nat) (h : next locale d s = none) :
    items locale (k + 1) d s = ([], true) := by
  rw [items, h]

theorem items_covered (k : Nat) (d : UInt8) (s : List UInt8) :
    Covered s (items locale k d s).1 ∧ ∀ i ∈ (items locale k d s).1, i.Valid := by
  induction k generalizing d s with
  | zero => exact ⟨trivial, List.forall_mem_nil _⟩
  | succ k ih =>
    cases hnext : next locale d s with
    | none =>
      rw [items_none k hnext]
      exact ⟨trivial, List.forall_mem_nil _⟩
    | some i =>
      obtain ⟨t, hskip, ⟨gap, hgap⟩, hof⟩ := next_of hnext
      rw [hof.partition] at hskip hgap
      rw [items_succ k hnext]
      split_ifs
      · refine ⟨⟨⟨gap, hgap.symm, hskip⟩, trivial⟩, fun j hj => ?_⟩
        rw [List.mem_singleton.1 hj]
        exact hof.toValid
      · obtain ⟨hcovered, hvalid⟩ := ih i.decpoint i.rest
        refine ⟨⟨⟨gap, hgap.symm, hskip⟩, hcovered⟩, fun j hj => ?_⟩
        rcases List.mem_cons.1 hj with rfl | hj
        · exact hof.toValid
        · exact hvalid j hj

end Reference

/-! ## Repeated calls of `llex` -/

/-- The characters before the lexer. -/
def LexState.input (ls : LexState (List UInt8)) : List UInt8 :=
  match ls.current with
  | none => []
  | some c => c :: ls.z

/-- The tokens that repeated calls of `llex` read, each with the characters behind it, and the error
that ends them. -/
def readTokens (locale : Locale) (fuel : Nat) :
    Nat → LexState (List UInt8) → List (Token × List UInt8) × Option Stop
  | 0, _ => ([], some .outOfFuel)
  | k + 1, ls =>
    match (llex getByte locale fuel).run ls with
    | .error e => ([], some e)
    | .ok (t, ls) =>
      if t.token = TK_EOS then ([(t, ls.input)], none)
      else ((t, ls.input) :: (readTokens locale fuel k ls).1, (readTokens locale fuel k ls).2)

/-- The tokens of a chunk, with the current token `t` before the first one is read. -/
def readChunk (locale : Locale) (t : Token) (fuel : Nat) (s : List UInt8) :
    List (Token × List UInt8) × Option Stop :=
  readTokens locale fuel (s.length + 1) (showing (LexVars.initial t) s)

/-- The same tokens are read, from the same characters, and an error is raised where the text is
malformed. -/
def Agrees (read : List (Token × List UInt8) × Option Stop) (items : List Item × Bool) : Prop :=
  read.1 = items.1.map (fun i => (i.token, i.rest)) ∧ read.2.isSome = items.2

variable {last : Nat} {s : List UInt8} {d : UInt8} {locale : Locale}

theorem llex_scans (hd : Pointed locale d) {fuel : Nat} (hfuel : s.length < fuel)
    (hroom : Room [] s) (buff : List UInt8) :
    Scans last locale (Reference.next locale d s) (llex getByte locale fuel) ⟨buff, d, s⟩ :=
  luaZ_resetbuffer_ends.bind_scans (llexLoop_scans hd hfuel (Nat.lt_succ_self _) hfuel hroom)

section

variable {fuel k : Nat} {ls ls' : LexState (List UInt8)} {t : Token} {w : View}

theorem Shows.input (h : Shows last ls w) : ls.input = w.input := by
  rw [LexState.input, h.current_eq, h.z_eq]
  cases w.input <;> rfl

theorem Shows.not_overruns (h : Shows last ls w) : ¬ Overruns last w.input := by
  have hline := h.line_lt
  have hlast := h.last_eq
  rw [Overruns]
  omega

theorem readTokens_error {e : Stop} (h : (llex getByte locale fuel).run ls = .error e) :
    readTokens locale fuel (k + 1) ls = ([], some e) := by
  rw [readTokens, h]

theorem readTokens_ok (h : (llex getByte locale fuel).run ls = .ok (t, ls')) :
    readTokens locale fuel (k + 1) ls =
      if t.token = TK_EOS then ([(t, ls'.input)], none)
      else ((t, ls'.input) :: (readTokens locale fuel k ls').1, (readTokens locale fuel k ls').2) := by
  rw [readTokens, h]

end

/-- No NUL behind the token is taken, and its last line has a number that is not too large. -/
def Reference.Item.Read (last : Nat) (i : Item) : Prop := ¬ i.TakesNul ∧ ¬ Overruns last i.rest

instance (last : Nat) (i : Item) : Decidable (i.Read last) :=
  inferInstanceAs (Decidable (_ ∧ _))

theorem not_agrees_nil {e : Stop} {i : Item} {is : List Item} {b : Bool} :
    ¬ Agrees ([], some e) (i :: is, b) := by
  rintro ⟨h, -⟩
  cases h

/-- The tokens behind the first one decide. -/
theorem agrees_cons {i : Item} {ts : List (Token × List UInt8)} {e : Option Stop} {is : List Item}
    {b : Bool} : Agrees ((i.token, i.rest) :: ts, e) (i :: is, b) ↔ Agrees (ts, e) (is, b) := by
  rw [Agrees, Agrees, List.map_cons, List.cons_inj_right]

theorem not_agrees_rest {t : Token} {rest : List UInt8} {i : Item}
    {ts : List (Token × List UInt8)} {e : Option Stop} {is : List Item} {b : Bool}
    (h : rest.length < i.rest.length) : ¬ Agrees ((t, rest) :: ts, e) (i :: is, b) := by
  rintro ⟨heq, -⟩
  rw [List.map_cons, List.cons.injEq, Prod.mk.injEq] at heq
  exact Nat.ne_of_lt h (congrArg List.length heq.1.2)

theorem readTokens_spec {fuel k k' : Nat} {ls : LexState (List UInt8)} {w : View}
    (hls : Shows last ls w) (hd : Pointed locale w.decpoint) (hk : w.input.length < k)
    (hk' : w.input.length < k') (hfuel : w.input.length < fuel) (hroom : Room [] w.input) :
    (∀ e ∈ (readTokens locale fuel k ls).2, e.IsError) ∧
      (Agrees (readTokens locale fuel k ls) (items locale k' w.decpoint w.input) ↔
        ∀ i ∈ (items locale k' w.decpoint w.input).1, i.Read last) := by
  induction k generalizing k' ls w with
  | zero => cases hk
  | succ k ih =>
    cases k' with
    | zero => cases hk'
    | succ k' =>
      obtain ⟨buff, d, s⟩ := w
      have hscans : Scans last locale (Reference.next locale d s) (llex getByte locale fuel)
          ⟨buff, d, s⟩ := llex_scans hd hfuel hroom buff
      have hsmaller {t : List UInt8} (ht : t.length < s.length) :
          t.length < k ∧ t.length < k' ∧ t.length < fuel ∧ Room [] t := by
        dsimp only at hk hk' hfuel
        rw [Room] at hroom ⊢
        dsimp only at hroom
        omega
      show _ ∧ (Agrees _ (items locale (k' + 1) d s) ↔ ∀ i ∈ (items locale (k' + 1) d s).1, _)
      cases hnext : Reference.next locale d s with
      | none =>
        obtain ⟨e, he, herror⟩ := hscans.raises hnext ls hls
        rw [readTokens_error he, items_none k' hnext]
        refine ⟨fun e' he' => ?_, iff_of_true ⟨rfl, rfl⟩ (List.forall_mem_nil _)⟩
        cases he'
        exact herror
      | some i =>
        obtain ⟨hle, hlt⟩ := length_next hnext
        obtain ⟨_, -, -, hof⟩ := next_of hnext
        by_cases hnul : i.TakesNul
        · -- the lexer reads more than the token, so that what is behind it differs
          obtain ⟨is, b, heq⟩ := exists_items k' hnext
          rw [heq]
          have hnot : ¬ ∀ j ∈ i :: is, j.Read last := fun h => (h i List.mem_cons_self).1 hnul
          rcases (hscans.loses i hnext hnul).run ls hls with
            ⟨e, he, herror, -⟩ | ⟨t, ls', w', hok, hls', hd', hshort⟩
          · rw [readTokens_error he]
            refine ⟨fun e' he' => ?_, iff_of_false not_agrees_nil hnot⟩
            cases he'
            exact herror
          · rw [readTokens_ok hok, hls'.input]
            obtain ⟨hw, hw', hwfuel, hwroom⟩ := hsmaller (Nat.lt_of_lt_of_le hshort hle)
            split_ifs
            · exact ⟨fun e he => absurd he (Option.not_mem_none e), iff_of_false (not_agrees_rest hshort) hnot⟩
            · exact ⟨(ih hls' hd' hw hw' hwfuel hwroom).1, iff_of_false (not_agrees_rest hshort) hnot⟩
        · rcases (hscans.leads i hnext hnul).run ls hls with
            ⟨e, he, herror, hover⟩ | ⟨t, ls', w', hok, hls', rfl, hd', hrest⟩
          · obtain ⟨is, b, heq⟩ := exists_items k' hnext
            rw [heq, readTokens_error he]
            refine ⟨fun e' he' => ?_, iff_of_false not_agrees_nil fun h =>
              (h i List.mem_cons_self).2 hover⟩
            cases he'
            exact herror
          · have hread : i.Read last := ⟨hnul, hrest ▸ hls'.not_overruns⟩
            rw [readTokens_ok hok, hls'.input, hrest, items_succ k' hnext]
            split_ifs with heos
            · refine ⟨fun e he => absurd he (Option.not_mem_none e), iff_of_true ⟨rfl, rfl⟩ fun j hj => ?_⟩
              rw [List.mem_singleton.1 hj]
              exact hread
            · obtain ⟨hw, hw', hwfuel, hwroom⟩ := hsmaller (hlt heos)
              rw [← hrest] at hw hw' hwfuel hwroom
              have hpoint : Pointed locale w'.decpoint := hd'.symm ▸ hd.next hof.point
              obtain ⟨herror, hagrees⟩ := ih hls' hpoint hw hw' hwfuel hwroom
              rw [hd', hrest] at hagrees
              rw [agrees_cons, List.forall_mem_cons]
              exact ⟨herror, hagrees.trans (and_iff_right hread).symm⟩

/-- The tokens of the reference are read, each from its own text, if and only if no token has a NUL
behind it that is taken for a part of it, and no line has a number that is too large. -/
theorem llex_tokens (locale : Locale) (t : Token) {s : List UInt8} {fuel : Nat}
    (hfuel : s.length < fuel) (hlen : s.length + 1 < MAX_SIZET / 2) :
    (∀ e ∈ (readChunk locale t fuel s).2, e.IsError) ∧
      (Agrees (readChunk locale t fuel s) (chunk locale s) ↔
        ∀ i ∈ (chunk locale s).1, i.Read (lineEnds s + 1)) ∧
      Covered s (chunk locale s).1 ∧ ∀ i ∈ (chunk locale s).1, i.Valid := by
  have hls : Shows (lineEnds s + 1) (showing (LexVars.initial t) s) ⟨[], ch '.', s⟩ := by
    refine ⟨rfl, rfl, rfl, rfl, Nat.add_comm _ _, (by decide : 1 < MAX_INT), ?_⟩
    show 0 + s.length < MAX_SIZET / 2
    omega
  have hroom : Room [] s := by
    rw [Room, List.length_nil]
    omega
  have hlt : s.length < s.length + 1 := Nat.lt_succ_self _
  obtain ⟨herror, hagrees⟩ := readTokens_spec hls (.inl rfl) hlt hlt hfuel hroom
  exact ⟨herror, hagrees, items_covered _ _ _⟩

/-- A text of one token. -/
theorem llex_tokens_dot : [ch '.'].length < 2 ∧
    Agrees (readChunk plainLocale ⟨TK_EOS, .none⟩ 2 [ch '.']) (chunk plainLocale [ch '.']) :=
  ⟨by decide, (llex_tokens plainLocale ⟨TK_EOS, .none⟩ (by decide : [ch '.'].length < 2)
    (by decide)).2.1.2 (by decide)⟩

/-- A NUL behind a `.` is read as another one. -/
theorem llex_dot_nul :
    (readChunk plainLocale ⟨TK_EOS, .none⟩ 3 [ch '.', 0]).1.map (fun p => p.1.token) =
      [TK_CONCAT, TK_EOS] ∧
    (chunk plainLocale [ch '.', 0]).1.map (fun i => i.token.token) =
      [(ch '.').toNat, 0, TK_EOS] ∧
    ¬ Agrees (readChunk plainLocale ⟨TK_EOS, .none⟩ 3 [ch '.', 0])
      (chunk plainLocale [ch '.', 0]) := by
  have hread : (readChunk plainLocale ⟨TK_EOS, .none⟩ 3 [ch '.', 0]).1.map (fun p => p.1.token) =
      [TK_CONCAT, TK_EOS] := by decide
  have hitems : (chunk plainLocale [ch '.', 0]).1.map (fun i => i.token.token) =
      [(ch '.').toNat, 0, TK_EOS] := by decide
  refine ⟨hread, hitems, fun h => ?_⟩
  have htokens := congrArg (List.map fun p => p.1.token) h.1
  rw [hread, List.map_map] at htokens
  exact absurd (htokens.trans hitems) (by decide)

end Luaxx.Lexer
