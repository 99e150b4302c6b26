import Luaxx.Lexer.Tokens

/-!
# The analyzer

`llex` comes to the item that the reference has for the text, or raises an error where it has none.
-/

namespace Luaxx.Lexer

open Luaxx.Ctype Luaxx.Vm Reference

variable {last : Nat} {s : List UInt8} {d c : UInt8} {locale : Locale}

/-! ## Points -/

theorem point_line : (chars ".").contains (ch '\n') = false ∧ (chars ".").contains (ch '\r') = false := by
  decide

theorem contains_point : (chars ".").contains c = true ↔ c = ch '.' := by
  rw [List.contains_iff_mem]
  exact List.mem_singleton

/-- A `.` or a NUL is taken as a point. -/
theorem third_ends (last : Nat) (d : UInt8) (buff s : List UInt8) :
    ∃ b rest, Ends last
      (check_next getByte (chars ".") >>= fun three =>
        pure (⟨if three then TK_DOTS else TK_CONCAT, .none⟩ : Token)) ⟨buff, d, s⟩
      ⟨if s.head?.any (fun c => c == 0 || c == ch '.') then TK_DOTS else TK_CONCAT, .none⟩
      ⟨b, d, rest⟩ ∧
      rest = if s.head?.any (fun c => c == 0 || c == ch '.') then s.tail else s := by
  cases s with
  | nil =>
    refine ⟨_, _, (check_next_ends_false fun _ h => ?_).bind ends_pure, rfl⟩
    cases h
  | cons c s =>
    by_cases h : c = 0 ∨ c = ch '.'
    · have hany : (c == 0 || c == ch '.') = true := by
        rw [Bool.or_eq_true, beq_iff_eq, beq_iff_eq]
        exact h
      rw [List.head?_cons, Option.any_some, hany]
      exact ⟨_, _, (check_next_ends point_line (h.imp_right contains_point.2)).bind ends_pure, rfl⟩
    · have hany : (c == 0 || c == ch '.') = false := by
        rw [← Bool.not_eq_true, Bool.or_eq_true, beq_iff_eq, beq_iff_eq]
        exact h
      rw [List.head?_cons, Option.any_some, hany]
      refine ⟨_, _, (check_next_ends_false fun c' hc' => ?_).bind ends_pure, rfl⟩
      obtain rfl := Option.some.inj hc'
      rw [not_or] at h
      exact ⟨h.1, eq_false_of_ne_true fun hc => h.2 (contains_point.1 hc)⟩

theorem two_points : chars ".." <+: ch '.' :: s ↔ s.head? = some (ch '.') := by
  cases s with
  | nil =>
    refine ⟨fun h => absurd (List.IsPrefix.length_le h) (by decide), fun h => ?_⟩
    cases h
  | cons c s =>
    show ch '.' :: [ch '.'] <+: ch '.' :: c :: s ↔ _
    rw [List.cons_prefix_cons, List.cons_prefix_cons, List.head?_cons, Option.some_inj]
    exact ⟨fun h => h.2.1.symm, fun h => ⟨rfl, h.symm, List.nil_prefix⟩⟩

/-- A character that is no point ends the points. -/
theorem dotItem_of_ne (h : s.head? ≠ some (ch '.')) : dotItem locale d s =
    if s.head?.any isdigit then numeralItem locale d (ch '.' :: s)
    else some (symbol [ch '.'] (ch '.').toNat s d) := by
  rw [dotItem, if_neg, if_neg h]
  intro hprefix
  obtain ⟨t, ht⟩ := hprefix
  exact h (ht ▸ rfl)

theorem read_dots_scans (hd : Pointed locale d) {fuel : Nat} (hfuel : s.length < fuel)
    (hroom : Room [] (ch '.' :: s)) :
    Scans last locale (dotItem locale d s) (read_dots getByte locale fuel)
      ⟨[], d, ch '.' :: s⟩ := by
  refine (save_and_next_ends rfl).bind_scans ?_
  by_cases htwo : s.head?.any (fun c => c == 0 || c == ch '.') = true
  · -- a second point, or a NUL that is taken as one
    cases s with
    | nil => cases htwo
    | cons c s =>
      rw [List.head?_cons, Option.any_some, Bool.or_eq_true, beq_iff_eq, beq_iff_eq] at htwo
      refine (check_next_ends point_line (htwo.imp_right contains_point.2)).bind_scans ?_
      obtain ⟨b, rest, hthird, hrest⟩ :=
        third_ends last d ([] ++ [ch '.'] ++ [c]) s
      by_cases hpoint : c = ch '.'
      · subst hpoint
        rw [dotItem]
        by_cases hthree : s.head? = some (ch '.')
        · rw [if_pos (two_points.2 hthree)]
          rw [hthree] at hthird hrest
          subst hrest
          have hdots : ¬ (symbol (chars "...") TK_DOTS s.tail d).TakesNul :=
            not_takesNul (show TK_DOTS ≠ _ by decide) (show TK_DOTS ≠ _ by decide)
              (show TK_DOTS ≠ _ by decide)
          rw [List.drop_succ_cons, List.drop_one]
          exact hthird.scans hdots
        · rw [if_neg fun h => hthree (two_points.1 h), if_pos rfl, List.tail_cons]
          by_cases hzero : s.head? = some 0
          · rw [hzero] at hthird hrest
            refine hthird.scans_nul hd ⟨hzero, .inr (.inl rfl)⟩ ?_
            cases s with
            | nil => cases hzero
            | cons c s => exact hrest ▸ Nat.lt_succ_self _
          · have hany : s.head?.any (fun c => c == 0 || c == ch '.') = false := by
              cases s with
              | nil => rfl
              | cons c s =>
                rw [List.head?_cons, Option.some_inj] at hthree hzero
                rw [List.head?_cons, Option.any_some, beq_false_of_ne hzero, beq_false_of_ne hthree]
                rfl
            rw [hany] at hthird hrest
            subst hrest
            exact hthird.scans fun h => hzero h.1
      · obtain rfl := htwo.resolve_right hpoint
        have hno : (0 :: s).head? ≠ some (ch '.') := fun h => hpoint (Option.some.inj h)
        have hdigit : ¬ (0 :: s).head?.any isdigit = true :=
          show ¬ isdigit 0 = true by decide
        rw [dotItem_of_ne hno, if_neg hdigit]
        refine hthird.scans_nul hd ⟨rfl, .inl rfl⟩ ?_
        show rest.length < s.length + 1
        rw [hrest]
        split_ifs
        · exact Nat.lt_succ_of_le (List.tail_sublist s).length_le
        · exact Nat.lt_succ_self _
  · have hne : ∀ c, s.head? = some c → c ≠ 0 ∧ c ≠ ch '.' := by
      intro c hc
      rw [hc, Option.any_some, Bool.or_eq_true, beq_iff_eq, beq_iff_eq, not_or] at htwo
      exact htwo
    refine (check_next_ends_false fun c hc => ⟨(hne c hc).1, ?_⟩).bind_scans
      (scans_look fun v hv => ?_)
    · exact eq_false_of_ne_true fun h => (hne c hc).2 (contains_point.1 h)
    · rw [dotItem_of_ne fun h => (hne _ h).2 rfl, curIs_seen hv]
      show Scans last locale _ (if s.head?.any isdigit = true then _ else _) _
      by_cases hdigit : s.head?.any isdigit = true
      · rw [if_pos hdigit, if_pos hdigit]
        cases s with
        | nil => cases hdigit
        | cons c s =>
          have hpre : ∀ c ∈ [ch '.'], isFraction c = true := fun c hc => by
            rw [List.mem_singleton.1 hc]
            rfl
          have hroom' : Room ([] ++ [ch '.']) (c :: s) := Room.append hroom
          have hdot : Room [ch '.'] (c :: s) := hroom'
          exact numeral_scans hd (Nat.lt_of_succ_lt hfuel) hdot hpre hdigit
      · rw [if_neg hdigit, if_neg hdigit]
        refine ends_pure.scans fun h => ?_
        exact (hne 0 h.1).1 rfl

/-! ## Long brackets -/

theorem bracketItem_replicate (n : Nat) (hs : s.head? ≠ some (ch '=')) :
    bracketItem d (List.replicate n (ch '=') ++ s) =
      if s.head? = some (ch '[') then
        (longBracket n s.tail).map fun p =>
          behind (ch '[' :: (List.replicate n (ch '=') ++ s)) p.2 ⟨TK_STRING, .ts (contents p.1)⟩ d
      else if n = 0 then some (symbol [ch '['] (ch '[').toNat s d) else none := by
  rw [bracketItem, opening_replicate n hs]
  by_cases hopen : s.head? = some (ch '[')
  · rw [if_pos hopen, if_pos hopen]
  · rw [if_neg hopen, if_neg hopen]
    cases n with
    | zero => exact if_neg hs
    | succ n => exact if_pos rfl

theorem string_not_takesNul {i : Item} (h : i.token.token = TK_STRING) : ¬ i.TakesNul := by
  refine not_takesNul ?_ ?_ ?_ <;> rw [h] <;> decide

/-- The part of `llexLoop` behind a `[`. -/
theorem bracket_scans {fuel : Nat} (hfuel : s.length < fuel) :
    Scans last locale (bracketItem d s)
      (skip_sep getByte fuel >>= fun sep =>
        if sep ≥ 0 then
          read_long_string getByte fuel true sep >>= fun s => pure ⟨TK_STRING, s⟩
        else if sep = -1 then pure ⟨(ch '[').toNat, .none⟩
        else luaX_lexerror "invalid long string delimiter" TK_STRING)
      ⟨[], d, ch '[' :: s⟩ := by
  obtain ⟨n, s, rfl, hs⟩ := exists_replicate s
  rw [List.length_append, List.length_replicate] at hfuel
  have hsep : Ends last (skip_sep getByte fuel) ⟨[], d, _⟩ _ _ :=
    skip_sep_ends (c := ch '[') rfl n hs (show n < fuel by omega)
  rw [bracketItem_replicate n hs]
  by_cases hopen : s.head? = some (ch '[')
  · rw [if_pos hopen] at hsep ⊢
    refine hsep.bind_scans ?_
    rw [if_pos (Int.natCast_nonneg n)]
    cases s with
    | nil => cases hopen
    | cons c body =>
      obtain rfl := Option.some.inj hopen
      have hbody : body.length < fuel := by
        rw [List.length_cons] at hfuel
        omega
      have hlen : true = true → ([] ++ ch '[' :: List.replicate n (ch '=')).length = n + 1 := fun _ => by
        rw [List.nil_append, List.length_cons, List.length_replicate]
      rw [List.tail_cons]
      cases hlong : longBracket n body with
      | none => exact (read_long_string_raises rfl hlong hbody).bind.scans
      | some p =>
        refine Leads.scans ((read_long_string_leads rfl hlong hbody hlen).bind fun a w hw => ?_)
          (string_not_takesNul rfl)
        obtain ⟨hpoint, hinput, rfl⟩ := hw
        exact ends_pure.leads (fun hover => hinput ▸ hover) ⟨rfl, hpoint, hinput⟩
  · rw [if_neg hopen] at hsep ⊢
    refine hsep.bind_scans ?_
    rw [if_neg (show ¬ -(n : Int) - 1 ≥ 0 by omega)]
    by_cases hzero : n = 0
    · rw [if_pos hzero, if_pos (show -(n : Int) - 1 = -1 by omega)]
      exact ends_pure.scans (symbol_not_takesNul (by decide))
    · rw [if_neg hzero, if_neg (show ¬ -(n : Int) - 1 = -1 by omega)]
      exact (luaX_lexerror_raises _ _ _).scans

/-! ## Separators -/

section

variable {k : Nat}

theorem skip_line (hc : isLineEnd c = true) : skip (k + 1) (c :: s) = skip k (lineRest c s) := by
  rw [skip, if_pos hc]

theorem skip_space (hline : ¬ isLineEnd c = true) (hc : isspace c = true) :
    skip (k + 1) (c :: s) = skip k s := by
  rw [skip, if_neg hline, if_pos hc]

theorem skip_comment (s : List UInt8) :
    skip (k + 1) (ch '-' :: ch '-' :: s) = (comment s).bind (skip k) := by
  rw [skip, if_neg (by decide), if_neg (by decide), if_pos ⟨rfl, rfl⟩, List.tail_cons]

theorem skip_other (hline : ¬ isLineEnd c = true) (hspace : ¬ isspace c = true)
    (hc : ¬ (c = ch '-' ∧ s.head? = some (ch '-'))) : skip (k + 1) (c :: s) = some (c :: s) := by
  rw [skip, if_neg hline, if_neg hspace, if_neg hc]

end

theorem longBracket_suffix {level : Nat} {p : List UInt8 × List UInt8}
    (h : longBracket level s = some p) : p.2 <:+ s :=
  ⟨_, (cutAt_eq (cutAt_of_longBracket h)).symm⟩

theorem comment_suffix {rest : List UInt8} (h : comment s = some rest) : rest <:+ s := by
  by_cases hbracket : s.head? = some (ch '[')
  · cases s with
    | nil => cases hbracket
    | cons c s =>
      obtain rfl := Option.some.inj hbracket
      obtain ⟨n, s, rfl, hs⟩ := exists_replicate s
      have hall : s <:+ ch '[' :: (List.replicate n (ch '=') ++ s) :=
        (List.suffix_append _ _).trans (List.suffix_cons _ _)
      rw [comment_bracket n hs] at h
      split_ifs at h
      · obtain ⟨p, hp, rfl⟩ := Option.map_eq_some_iff.1 h
        exact (longBracket_suffix hp).trans ((List.tail_suffix s).trans hall)
      · cases h
        exact (List.dropWhile_suffix _).trans hall
  · rw [comment_of_ne hbracket] at h
    cases h
    exact List.dropWhile_suffix _

/-! ## Characters and operators -/

/-- A character that begins no token with others, but for one with a `=` behind it. -/
structure Alone (c : UInt8) : Prop where
  bracket : c ≠ ch '['
  quote : ¬ (c = ch '"' ∨ c = ch '\'')
  dot : c ≠ ch '.'
  digit : ¬ isdigit c = true
  name : ¬ (isalpha c = true ∨ c = ch '_')

theorem Alone.item_equals (h : Alone c) {token : Nat} (hc : equals.lookup c = some token) :
    item locale d (c :: s) =
      if s.head? = some (ch '=') then some (symbol [c, ch '='] token s.tail d)
      else some (symbol [c] c.toNat s d) := by
  rw [item, if_neg h.bracket, if_neg h.quote, if_neg h.dot, if_neg h.digit, if_neg h.name, hc]

theorem Alone.item_single (h : Alone c) (hc : equals.lookup c = none) :
    item locale d (c :: s) = some (symbol [c] c.toNat s d) := by
  rw [item, if_neg h.bracket, if_neg h.quote, if_neg h.dot, if_neg h.digit, if_neg h.name, hc]

theorem mem_equals {token : Nat} (hc : equals.lookup c = some token) : (c, token) ∈ equals := by
  obtain ⟨front, back, heq, -⟩ := List.lookup_eq_some_iff.1 hc
  rw [heq]
  exact List.mem_append_right _ List.mem_cons_self

theorem equals_not_takesNul {token : Nat} (hc : equals.lookup c = some token) (text rest : List UInt8) :
    ¬ (symbol text token rest d).TakesNul := by
  have hmem := mem_equals hc
  have hall : ∀ p ∈ equals, p.2 ≠ (ch '.').toNat ∧ p.2 ≠ TK_CONCAT ∧ p.2 ≠ TK_NUMBER := by decide
  obtain ⟨hdot, hconcat, hnumber⟩ := hall _ hmem
  exact not_takesNul hdot hconcat hnumber

theorem withEqual_scans (h : Alone c) (hline : isLineEnd c = false) {token : Nat}
    (hc : equals.lookup c = some token) :
    Scans last locale (item locale d (c :: s)) (withEqual getByte c token) ⟨[], d, c :: s⟩ := by
  have hends : Ends last (withEqual getByte c token) ⟨[], d, c :: s⟩ _ _ :=
    withEqual_ends hline token
  rw [h.item_equals hc]
  by_cases hequal : s.head? = some (ch '=')
  · rw [if_pos hequal] at hends ⊢
    rw [if_pos hequal] at hends
    exact hends.scans (equals_not_takesNul hc _ _)
  · rw [if_neg hequal] at hends ⊢
    rw [if_neg hequal] at hends
    exact hends.scans (symbol_not_takesNul h.dot)

theorem isname_of_begin (h : isalpha c = true ∨ c = ch '_') : isname c = true := by
  rw [isname, isalnum, Bool.or_eq_true, Bool.or_eq_true, beq_iff_eq]
  exact h.imp_left .inl

theorem quoted_scans {fuel : Nat} (hquote : c = ch '"' ∨ c = ch '\'') (hfuel : s.length < fuel)
    (hroom : Room [] (c :: s)) :
    Scans last locale (item locale d (c :: s))
      (read_string getByte fuel c >>= fun r => pure ⟨TK_STRING, r⟩) ⟨[], d, c :: s⟩ := by
  have hbracket : c ≠ ch '[' := by
    rcases hquote with rfl | rfl <;> decide
  have hline : isLineEnd c = false := by
    rcases hquote with rfl | rfl <;> rfl
  have hroom' : 1 + s.length < MAX_SIZET / 2 := by
    rw [Room, List.length_cons, List.length_nil] at hroom
    omega
  rw [item, if_neg hbracket, if_pos hquote]
  cases hquoted : quoted c (s.length + 1) s with
  | none => exact (read_string_raises hline hfuel (Nat.lt_succ_self _) hquoted).bind.scans
  | some p =>
    have hends : Ends last (read_string getByte fuel c >>= fun r => pure (⟨TK_STRING, r⟩ : Token))
        ⟨[], d, c :: s⟩ ⟨TK_STRING, .ts p.1⟩ ⟨[c] ++ p.1 ++ [c], d, p.2⟩ :=
      (read_string_ends hline hfuel hroom' hquoted).bind ends_pure
    exact hends.scans (string_not_takesNul rfl)

/-- A dash, alone or with the one that begins a comment. -/
theorem dash_scans {fuel k : Nat} {loop : LexM (List UInt8) Token} (hfuel : s.length < fuel)
    (hloop : ∀ {t : List UInt8}, t.length ≤ s.length →
      Scans last locale ((skip k t).bind (item locale d)) loop ⟨[], d, t⟩) :
    Scans last locale ((skip (k + 1) (ch '-' :: s)).bind (item locale d))
      (next getByte >>= fun _ => look >>= fun ls =>
        if ls.current ≠ some (ch '-') then pure ⟨(ch '-').toNat, .none⟩
        else next getByte >>= fun _ => skipComment getByte fuel >>= fun _ => loop)
      ⟨[], d, ch '-' :: s⟩ := by
  refine (next_ends rfl).bind_scans (scans_look fun v hv => ?_)
  rw [hv.current_eq]
  by_cases hcomment : s.head? = some (ch '-')
  · rw [if_neg (not_not.2 hcomment)]
    cases s with
    | nil => cases hcomment
    | cons c s =>
      obtain rfl := Option.some.inj hcomment
      obtain ⟨hends, hraises⟩ := skipComment_spec (Nat.lt_of_succ_lt hfuel)
      rw [skip_comment]
      refine (next_ends rfl).bind_scans ?_
      cases hrest : comment s with
      | none => exact (hraises hrest).bind.scans
      | some rest =>
        refine (hends rest hrest).bind_scans (hloop ?_)
        exact Nat.le_succ_of_le (comment_suffix hrest).length_le
  · rw [if_pos hcomment, skip_other (by decide) (by decide) fun h => hcomment h.2, Option.bind_some,
      Alone.item_single (by constructor <;> decide) (by decide)]
    exact ends_pure.scans (symbol_not_takesNul (by decide))

/-! ## The loop of `llex` -/

theorem llexLoop_scans (hd : Pointed locale d) {fuel k k' : Nat} (hk : s.length < k)
    (hk' : s.length < k') (hfuel : s.length < fuel) (hroom : Room [] s) :
    Scans last locale ((skip k' s).bind (item locale d)) (llexLoop getByte locale fuel k)
      ⟨[], d, s⟩ := by
  induction k generalizing s k' with
  | zero => cases hk
  | succ k ih =>
    cases k' with
    | zero => cases hk'
    | succ k' =>
      refine scans_look fun v hv => ?_
      rw [hv.current_eq]
      cases s with
      | nil =>
        exact ends_pure.scans (i := symbol [] TK_EOS [] d) (not_takesNul (show TK_EOS ≠ _ by decide)
          (show TK_EOS ≠ _ by decide) (show TK_EOS ≠ _ by decide))
      | cons c s =>
        have hlen : s.length < k := Nat.lt_of_succ_lt_succ hk
        have hlen' : s.length < k' := Nat.lt_of_succ_lt_succ hk'
        have hs : s.length < fuel := Nat.lt_of_succ_lt hfuel
        have hsmaller {t : List UInt8} (ht : t.length ≤ s.length) :
            Scans last locale ((skip k' t).bind (item locale d)) (llexLoop getByte locale fuel k)
              ⟨[], d, t⟩ := by
          refine ih (Nat.lt_of_le_of_lt ht hlen) (Nat.lt_of_le_of_lt ht hlen')
            (Nat.lt_of_le_of_lt ht hs) ?_
          rw [Room] at hroom ⊢
          rw [List.length_cons] at hroom
          omega
        rw [List.head?_cons]
        dsimp only
        by_cases hline : isLineEnd c = true
        · rw [if_pos (isLineEnd_iff.1 hline), skip_line hline]
          exact (inclinenumber_ends hline).bind_scans (hsmaller (length_lineRest_le c s))
        have hplain : isLineEnd c = false := eq_false_of_ne_true hline
        rw [if_neg fun h => hline (isLineEnd_iff.2 h)]
        by_cases hdash : c = ch '-'
        · subst hdash
          rw [if_pos rfl]
          exact dash_scans hs hsmaller
        rw [if_neg hdash]
        by_cases hbracket : c = ch '['
        · subst hbracket
          rw [if_pos rfl, skip_other hline (by decide) fun h => hdash h.1, Option.bind_some, item,
            if_pos rfl]
          exact bracket_scans hs
        rw [if_neg hbracket]
        have hequals {token : Nat} (halone : Alone c) (hspace : ¬ isspace c = true)
            (hc : equals.lookup c = some token) :
            Scans last locale ((skip (k' + 1) (c :: s)).bind (item locale d))
              (withEqual getByte c token) ⟨[], d, c :: s⟩ := by
          rw [skip_other hline hspace fun h => hdash h.1, Option.bind_some]
          exact withEqual_scans halone hplain hc
        by_cases heq : c = ch '='
        · subst heq
          rw [if_pos rfl]
          exact hequals (by constructor <;> decide) (by decide) rfl
        rw [if_neg heq]
        by_cases hlt : c = ch '<'
        · subst hlt
          rw [if_pos rfl]
          exact hequals (by constructor <;> decide) (by decide) rfl
        rw [if_neg hlt]
        by_cases hgt : c = ch '>'
        · subst hgt
          rw [if_pos rfl]
          exact hequals (by constructor <;> decide) (by decide) rfl
        rw [if_neg hgt]
        by_cases htilde : c = ch '~'
        · subst htilde
          rw [if_pos rfl]
          exact hequals (by constructor <;> decide) (by decide) rfl
        rw [if_neg htilde]
        by_cases hquote : c = ch '"' ∨ c = ch '\''
        · have hspace : ¬ isspace c = true := by
            rcases hquote with rfl | rfl <;> decide
          rw [if_pos hquote, skip_other hline hspace fun h => hdash h.1, Option.bind_some]
          exact quoted_scans hquote hs hroom
        rw [if_neg hquote]
        by_cases hdot : c = ch '.'
        · subst hdot
          rw [if_pos rfl, skip_other hline (by decide) fun h => hdash h.1, Option.bind_some, item,
            if_neg hbracket, if_neg hquote, if_pos rfl]
          exact read_dots_scans hd hs hroom
        rw [if_neg hdot]
        by_cases hspace : isspace c = true
        · rw [if_pos hspace, skip_space hline hspace]
          exact (next_ends hplain).bind_scans (hsmaller (Nat.le_refl _))
        rw [if_neg hspace, skip_other hline hspace fun h => hdash h.1, Option.bind_some]
        by_cases hdigit : isdigit c = true
        · rw [if_pos hdigit, item, if_neg hbracket, if_neg hquote, if_neg hdot, if_pos hdigit]
          have hpre : ∀ c ∈ ([] : List UInt8), isFraction c = true := List.forall_mem_nil _
          exact numeral_scans hd hs hroom hpre hdigit
        rw [if_neg hdigit]
        by_cases hname : isalpha c = true ∨ c = ch '_'
        · rw [if_pos hname, item, if_neg hbracket, if_neg hquote, if_neg hdot, if_neg hdigit,
            if_pos hname]
          exact (read_name_ends hs (isname_of_begin hname)).scans (nameItem_not_takesNul d (c :: s))
        rw [if_neg hname]
        have hnone : equals.lookup c = none := by
          simp only [equals, List.lookup_cons, beq_false_of_ne heq, beq_false_of_ne hlt,
            beq_false_of_ne hgt, beq_false_of_ne htilde, List.lookup_nil]
        rw [Alone.item_single ⟨hbracket, hquote, hdot, hdigit, hname⟩ hnone]
        have hends : Ends last (next getByte >>= fun _ => pure (⟨c.toNat, .none⟩ : Token))
            ⟨[], d, c :: s⟩ ⟨c.toNat, .none⟩ ⟨[], d, s⟩ := (next_ends hplain).bind ends_pure
        exact hends.scans (symbol_not_takesNul hdot)

end Luaxx.Lexer
