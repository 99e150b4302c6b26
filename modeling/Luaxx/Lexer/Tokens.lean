import Luaxx.Lexer.Brackets

/-!
# The tokens of the reference lexer

Strings, comments and names are read as the reference reads them, and so is each token, but for the
NUL that `check_next` takes behind points and behind a numeral.
-/

namespace Luaxx.Lexer

open Luaxx.Ctype Luaxx.Vm Reference

variable {last : Nat} {buff s : List UInt8} {d c : UInt8} {locale : Locale}

/-! ## Strings -/

theorem isdigit_line : isdigit (ch '\n') = false ∧ isdigit (ch '\r') = false := by decide

theorem decimalEscape_ends (k n : Nat) :
    Ends last (decimalEscape getByte k n) ⟨buff, d, s⟩
      (((s.take k).takeWhile isdigit).foldl (fun n d => 10 * n + (d.toNat - 48)) n)
      ⟨buff, d, s.drop ((s.take k).takeWhile isdigit).length⟩ := by
  induction k generalizing s n with
  | zero => exact ends_pure
  | succ k ih =>
    refine ends_look fun v hv => ?_
    rw [hv.current_eq]
    cases s with
    | nil => exact ends_pure
    | cons c s =>
      rw [List.head?_cons, List.take_succ_cons, List.takeWhile_cons]
      dsimp only
      split_ifs with hc
      · exact (next_ends (not_isLineEnd isdigit_line hc)).bind (ih _)
      · exact ends_pure

theorem decimal_ends : Ends last (decimalEscape getByte 3 0) ⟨buff, d, s⟩
    (decimal ((s.take 3).takeWhile isdigit))
    ⟨buff, d, s.drop ((s.take 3).takeWhile isdigit).length⟩ :=
  decimalEscape_ends 3 0

theorem escapes_line {e b : UInt8} (h : escapes.lookup e = some b) : isLineEnd e = false := by
  refine not_isLineEnd (p := fun e => (escapes.lookup e).isSome) (by decide) ?_
  show (escapes.lookup e).isSome = true
  rw [h]
  rfl

/-- An escape stands for one character. -/
theorem read_escape_ends {b : UInt8} {rest : List UInt8} (hc : isLineEnd c = false)
    (hroom : buff.length + 1 + s.length < MAX_SIZET / 2) (h : escape s = some (b, rest)) :
    Ends last (read_escape getByte) ⟨buff, d, c :: s⟩ () ⟨buff ++ [b], d, rest⟩ := by
  refine (next_ends hc).bind (ends_look fun v hv => ?_)
  rw [hv.current_eq]
  cases s with
  | nil => cases h
  | cons e s =>
    rw [List.head?_cons]
    dsimp only
    rw [escape] at h
    cases hletter : escapes.lookup e with
    | some b' =>
      rw [hletter] at h
      cases h
      exact (save_ends hroom).bind (next_ends (escapes_line hletter))
    | none =>
      rw [hletter] at h
      dsimp only at h ⊢
      by_cases hend : isLineEnd e = true
      · rw [if_pos hend] at h
        cases h
        rw [if_pos (isLineEnd_iff.1 hend)]
        exact save_line_ends hend
      rw [if_neg hend] at h
      rw [if_neg fun h => hend (isLineEnd_iff.2 h)]
      by_cases hdigit : isdigit e = true
      · rw [if_pos hdigit] at h ⊢
        split_ifs at h with hlarge
        cases h
        refine decimal_ends.bind ?_
        rw [if_neg hlarge]
        refine save_ends (Nat.lt_of_le_of_lt (Nat.add_le_add_left ?_ _) hroom)
        exact (List.drop_sublist _ _).length_le
      · rw [if_neg hdigit] at h ⊢
        cases h
        exact save_and_next_ends (eq_false_of_ne_true hend)

theorem read_escape_raises (hc : isLineEnd c = false) (h : escape s = none) (hs : s ≠ []) :
    Raises last (read_escape getByte) ⟨buff, d, c :: s⟩ := by
  refine (next_ends hc).raises (raises_look fun v hv => ?_)
  rw [hv.current_eq]
  cases s with
  | nil => exact absurd rfl hs
  | cons e s =>
    rw [List.head?_cons]
    dsimp only
    rw [escape] at h
    cases hletter : escapes.lookup e with
    | some b =>
      rw [hletter] at h
      cases h
    | none =>
      rw [hletter] at h
      dsimp only at h ⊢
      by_cases hend : isLineEnd e = true
      · rw [if_pos hend] at h
        cases h
      rw [if_neg hend] at h
      rw [if_neg fun h => hend (isLineEnd_iff.2 h)]
      by_cases hdigit : isdigit e = true
      · rw [if_pos hdigit] at h ⊢
        split_ifs at h with hlarge
        refine decimal_ends.raises ?_
        rw [if_pos hlarge]
        exact luaX_lexerror_raises _ _ _
      · rw [if_neg hdigit] at h
        cases h

/-- The loop will raise an error. -/
theorem read_escape_end (hc : isLineEnd c = false) :
    Ends last (read_escape getByte) ⟨buff, d, [c]⟩ () ⟨buff, d, []⟩ := by
  refine (next_ends hc).bind (ends_look fun v hv => ?_)
  rw [hv.current_eq]
  exact ends_pure

theorem length_escape {b : UInt8} {rest : List UInt8} (h : escape s = some (b, rest)) :
    rest.length < s.length := by
  cases s with
  | nil => cases h
  | cons e s =>
    rw [escape] at h
    cases hletter : escapes.lookup e with
    | some b' =>
      rw [hletter] at h
      cases h
      exact Nat.lt_succ_self _
    | none =>
      rw [hletter] at h
      dsimp only at h
      split_ifs at h with hend hdigit hlarge
      · cases h
        exact Nat.lt_succ_of_le (length_lineRest_le e s)
      · cases h
        rw [List.length_drop, List.take_succ_cons, List.takeWhile_cons_of_pos hdigit,
          List.length_cons, List.length_cons]
        omega
      · cases h
        exact Nat.lt_succ_self _

theorem quoted_cons (del : UInt8) (k : Nat) (c : UInt8) (s : List UInt8) :
    quoted del (k + 1) (c :: s) =
      if c = del then some ([], s)
      else if isLineEnd c then none
      else if c = ch '\\' then
        (escape s).bind fun p => (quoted del k p.2).map fun q => (p.1 :: q.1, q.2)
      else (quoted del k s).map fun q => (c :: q.1, q.2) := rfl

theorem stringLoop_ends {del : UInt8} {k k' : Nat} {p : List UInt8 × List UInt8} (hk : s.length < k)
    (hroom : buff.length + s.length < MAX_SIZET / 2) (h : quoted del k' s = some p) :
    Ends last (stringLoop getByte del k) ⟨buff, d, s⟩ () ⟨buff ++ p.1, d, del :: p.2⟩ := by
  induction k generalizing buff s k' p with
  | zero => cases hk
  | succ k ih =>
    refine ends_look fun v hv => ?_
    rw [hv.current_eq]
    cases k' with
    | zero => cases h
    | succ k' =>
      cases s with
      | nil => cases h
      | cons c s =>
        have hk' : s.length < k := Nat.lt_of_succ_lt_succ hk
        have hroom' : buff.length + 1 + s.length < MAX_SIZET / 2 := by
          rw [List.length_cons] at hroom
          omega
        rw [quoted_cons] at h
        rw [List.head?_cons]
        dsimp only
        by_cases hdel : c = del
        · rw [if_pos hdel] at h ⊢
          cases h
          rw [List.append_nil, hdel]
          exact ends_pure
        rw [if_neg hdel] at h ⊢
        by_cases hend : isLineEnd c = true
        · rw [if_pos hend] at h
          cases h
        rw [if_neg hend] at h
        rw [if_neg fun h => hend (isLineEnd_iff.2 h)]
        by_cases hescape : c = ch '\\'
        · rw [if_pos hescape] at h ⊢
          rw [Option.bind_eq_some_iff] at h
          obtain ⟨⟨b, rest⟩, hb, h⟩ := h
          rw [Option.map_eq_some_iff] at h
          obtain ⟨q, hq, rfl⟩ := h
          have hlt := length_escape hb
          rw [List.append_cons]
          refine (read_escape_ends (hescape ▸ rfl) hroom' hb).bind (ih (Nat.lt_trans hlt hk') ?_ hq)
          rw [List.length_append]
          exact Nat.lt_trans (Nat.add_lt_add_left hlt _) hroom'
        · rw [if_neg hescape] at h ⊢
          rw [Option.map_eq_some_iff] at h
          obtain ⟨q, hq, rfl⟩ := h
          rw [List.append_cons]
          refine (save_and_next_ends (eq_false_of_ne_true hend)).bind (ih hk' ?_ hq)
          rw [List.length_append]
          exact hroom'

theorem stringLoop_raises {del : UInt8} {k k' : Nat} (hk : s.length < k) (hk' : s.length < k')
    (h : quoted del k' s = none) : Raises last (stringLoop getByte del k) ⟨buff, d, s⟩ := by
  induction k generalizing buff s k' with
  | zero => cases hk
  | succ k ih =>
    refine Raises.of_room fun hroom => raises_look fun v hv => ?_
    rw [hv.current_eq]
    cases k' with
    | zero => cases hk'
    | succ k' =>
      cases s with
      | nil => exact luaX_lexerror_raises _ _ _
      | cons c s =>
        have hroom' : buff.length + 1 + s.length < MAX_SIZET / 2 := by
          have h : buff.length + (s.length + 1) < MAX_SIZET / 2 := hroom
          omega
        have hlen : s.length < k := Nat.lt_of_succ_lt_succ hk
        have hlen' : s.length < k' := Nat.lt_of_succ_lt_succ hk'
        rw [quoted_cons] at h
        rw [List.head?_cons]
        dsimp only
        by_cases hdel : c = del
        · rw [if_pos hdel] at h
          cases h
        rw [if_neg hdel] at h ⊢
        by_cases hend : isLineEnd c = true
        · rw [if_pos (isLineEnd_iff.1 hend)]
          exact luaX_lexerror_raises _ _ _
        rw [if_neg hend] at h
        rw [if_neg fun h => hend (isLineEnd_iff.2 h)]
        by_cases hescape : c = ch '\\'
        · rw [if_pos hescape] at h ⊢
          cases hb : escape s with
          | none =>
            by_cases hs : s = []
            · subst hs
              have hnil : quoted del k' [] = none := by
                cases k' with
                | zero => rfl
                | succ k' => rfl
              exact (read_escape_end (hescape ▸ rfl)).raises (ih hlen hlen' hnil)
            · exact (read_escape_raises (hescape ▸ rfl) hb hs).bind
          | some b =>
            rw [hb] at h
            have hq : quoted del k' b.2 = none := Option.map_eq_none_iff.1 h
            have hlt := length_escape hb
            refine (read_escape_ends (hescape ▸ rfl) hroom' hb).raises (ih ?_ ?_ hq)
            · exact Nat.lt_trans hlt hlen
            · exact Nat.lt_trans hlt hlen'
        · rw [if_neg hescape] at h ⊢
          exact (save_and_next_ends (eq_false_of_ne_true hend)).raises
            (ih hlen hlen' (Option.map_eq_none_iff.1 h))

theorem read_string_ends {del : UInt8} {fuel k : Nat} {p : List UInt8 × List UInt8}
    (hdel : isLineEnd del = false) (hfuel : s.length < fuel)
    (hroom : 1 + s.length < MAX_SIZET / 2) (h : quoted del k s = some p) :
    Ends last (read_string getByte fuel del) ⟨[], d, del :: s⟩ (.ts p.1)
      ⟨[del] ++ p.1 ++ [del], d, p.2⟩ := by
  have hroom' : ([] ++ [del]).length + s.length < MAX_SIZET / 2 := hroom
  refine (save_and_next_ends hdel).bind ((stringLoop_ends hfuel hroom' h).bind
    ((save_and_next_ends hdel).bind (ends_look fun v hv => ?_)))
  have hstored : (v.buff.drop 1).take (v.buff.length - 2) = p.1 := by
    rw [hv.buff_eq]
    show (([del] ++ p.1 ++ [del]).drop 1).take (([del] ++ p.1 ++ [del]).length - 2) = p.1
    have hlen : ([del] ++ p.1 ++ [del]).length - 2 = p.1.length := by
      rw [List.length_append, List.length_append]
      exact Nat.add_sub_cancel_left 1 p.1.length
    rw [hlen]
    exact List.take_left
  rw [hstored]
  exact ends_pure

theorem read_string_raises {del : UInt8} {fuel k : Nat} (hdel : isLineEnd del = false)
    (hfuel : s.length < fuel) (hk : s.length < k) (h : quoted del k s = none) :
    Raises last (read_string getByte fuel del) ⟨[], d, del :: s⟩ :=
  (save_and_next_ends hdel).raises (stringLoop_raises hfuel hk h).bind

/-! ## Comments -/

theorem skipLine_ends {k : Nat} (hk : s.length < k) :
    Ends last (skipLine getByte k) ⟨buff, d, s⟩ ()
      ⟨buff, d, s.dropWhile fun c => !isLineEnd c⟩ := by
  induction k generalizing s with
  | zero => cases hk
  | succ k ih =>
    refine ends_look fun v hv => ?_
    rw [currIsNewline_seen hv, hv.current_eq]
    cases s with
    | nil => exact ends_pure
    | cons c s =>
      rw [List.dropWhile_cons]
      show Ends last (if ¬ isLineEnd c = true ∧ some c ≠ none then _ else _) _ _ _
      by_cases hend : isLineEnd c = true
      · rw [if_neg fun h => h.1 hend, hend]
        exact ends_pure
      · rw [if_pos ⟨hend, Option.some_ne_none c⟩, eq_false_of_ne_true hend]
        exact (next_ends (eq_false_of_ne_true hend)).bind (ih (Nat.lt_of_succ_lt_succ hk))

theorem comment_of_ne (h : s.head? ≠ some (ch '[')) :
    comment s = some (s.dropWhile fun c => !isLineEnd c) := by
  cases s with
  | nil => rfl
  | cons c s =>
    rw [comment, if_neg fun hc => h (congrArg some hc)]

theorem comment_bracket (n : Nat) (hs : s.head? ≠ some (ch '=')) :
    comment (ch '[' :: (List.replicate n (ch '=') ++ s)) =
      if s.head? = some (ch '[') then (longBracket n s.tail).map fun p => p.2
      else some (s.dropWhile fun c => !isLineEnd c) := by
  rw [comment, if_pos rfl, opening_replicate n hs]
  split_ifs with hopen
  · rfl
  · have hline : ∀ c ∈ ch '[' :: List.replicate n (ch '='), (!isLineEnd c) = true := fun c hc => by
      rw [forall_bracket rfl n c hc]
      rfl
    show some ((ch '[' :: List.replicate n (ch '=') ++ s).dropWhile fun c => !isLineEnd c) = _
    rw [List.dropWhile_append_of_pos hline]

/-- The rest of a comment, or an error where a long one is not closed. -/
theorem skipComment_spec {fuel : Nat} (hfuel : s.length < fuel) :
    (∀ rest, comment s = some rest →
      Ends last (skipComment getByte fuel) ⟨[], d, s⟩ () ⟨[], d, rest⟩) ∧
      (comment s = none → Raises last (skipComment getByte fuel) ⟨[], d, s⟩) := by
  by_cases hbracket : s.head? = some (ch '[')
  · cases s with
    | nil => cases hbracket
    | cons c s =>
      obtain rfl := Option.some.inj hbracket
      obtain ⟨n, s, rfl, hs⟩ := exists_replicate s
      rw [List.length_cons, List.length_append, List.length_replicate] at hfuel
      have hsep : Ends last (skip_sep getByte fuel) ⟨[], d, _⟩ _ _ :=
        skip_sep_ends (c := ch '[') rfl n hs (show n < fuel by omega)
      have hlook {v : LexVars} (hv : Seen v ⟨[], d, ch '[' :: (List.replicate n (ch '=') ++ s)⟩) :
          curIs (· == ch '[') v = true := curIs_seen hv _
      rw [comment_bracket n hs]
      by_cases hopen : s.head? = some (ch '[')
      · rw [if_pos hopen] at hsep ⊢
        cases s with
        | nil => cases hopen
        | cons c body =>
          obtain rfl := Option.some.inj hopen
          have hbody : body.length < fuel := by
            rw [List.length_cons] at hfuel
            omega
          refine ⟨fun rest h => ends_look fun v hv => ?_, fun h => raises_look fun v hv => ?_⟩
          · obtain ⟨p, hp, rfl⟩ := Option.map_eq_some_iff.1 h
            rw [hlook hv, if_pos rfl]
            refine hsep.bind (luaZ_resetbuffer_ends.bind ?_)
            rw [if_pos (Int.natCast_nonneg n)]
            refine (read_long_string_leads rfl hp hbody fun h => Bool.noConfusion h).bind fun _ w hw => ?_
            obtain ⟨b, d', s'⟩ := w
            obtain ⟨rfl, rfl, -⟩ := hw
            exact luaZ_resetbuffer_ends
          · rw [hlook hv, if_pos rfl]
            refine hsep.raises (luaZ_resetbuffer_ends.raises ?_)
            rw [if_pos (Int.natCast_nonneg n)]
            exact (read_long_string_raises rfl (Option.map_eq_none_iff.1 h) hbody).bind
      · rw [if_neg hopen] at hsep ⊢
        refine ⟨fun rest h => ends_look fun v hv => ?_, fun h => nomatch h⟩
        cases h
        rw [hlook hv, if_pos rfl]
        refine hsep.bind (luaZ_resetbuffer_ends.bind ?_)
        rw [if_neg (by omega)]
        exact skipLine_ends (by omega)
  · rw [comment_of_ne hbracket]
    refine ⟨fun rest h => ends_look fun v hv => ?_, fun h => nomatch h⟩
    cases h
    rw [curIs_seen hv, if_neg]
    · exact skipLine_ends hfuel
    · cases s with
      | nil => exact Bool.false_ne_true
      | cons c s => exact fun h => hbracket (congrArg some (beq_iff_eq.1 h))

/-! ## Names and operators -/

theorem read_name_ends {fuel : Nat} (hfuel : s.length < fuel) (hc : isname c = true) :
    Ends last (read_name getByte fuel) ⟨[], d, c :: s⟩ (nameItem d (c :: s)).token
      ⟨(nameItem d (c :: s)).text, d, (nameItem d (c :: s)).rest⟩ := by
  refine (save_and_next_ends (not_isLineEnd isname_line hc)).bind
    ((saveWhile_ends isname_line hfuel).bind (ends_look fun v hv => ?_))
  have hname : (c :: s).takeWhile isname = [] ++ [c] ++ s.takeWhile isname :=
    List.takeWhile_cons_of_pos hc
  have hrest : (c :: s).dropWhile isname = s.dropWhile isname := List.dropWhile_cons_of_pos hc
  rw [nameItem]
  dsimp only
  rw [hv.buff_eq, hname, hrest]
  cases ((luaX_tokens.take NUM_RESERVED).map chars).idxOf? ([] ++ [c] ++ s.takeWhile isname) with
  | none => exact ends_pure
  | some i => exact ends_pure

theorem withEqual_ends (hc : isLineEnd c = false) (token : Nat) :
    Ends last (withEqual getByte c token) ⟨buff, d, c :: s⟩
      (if s.head? = some (ch '=') then ⟨token, .none⟩ else ⟨c.toNat, .none⟩)
      ⟨buff, d, if s.head? = some (ch '=') then s.tail else s⟩ := by
  refine (next_ends hc).bind (ends_look fun v hv => ?_)
  rw [curIs_seen hv]
  cases s with
  | nil => exact ends_pure
  | cons c' s =>
    rw [List.head?_cons, Option.any_some]
    by_cases h : c' = ch '='
    · rw [if_pos (congrArg some h), if_pos (congrArg some h), if_pos (beq_iff_eq.2 h)]
      exact (next_ends (h ▸ rfl)).bind ends_pure
    · rw [if_neg fun h' => h (Option.some.inj h'), if_neg fun h' => h (Option.some.inj h'),
        if_neg fun h' => h (beq_iff_eq.1 h')]
      exact ends_pure

/-! ## One token -/

/-- The token is read as the item says, unless a NUL behind it is taken: then the lexer goes on
behind more than the token. -/
structure Scans (last : Nat) (locale : Locale) (r : Option Item) (x : LexM (List UInt8) Token)
    (w : View) : Prop where
  leads : ∀ i, r = some i → ¬ i.TakesNul → Leads last x w (Overruns last i.rest) fun t w' =>
    t = i.token ∧ w'.decpoint = i.decpoint ∧ w'.input = i.rest
  loses : ∀ i, r = some i → i.TakesNul → Leads last x w True fun _ w' =>
    Pointed locale w'.decpoint ∧ w'.input.length < i.rest.length
  raises : r = none → Raises last x w

section

variable {α : Type} {r : Option Item} {i : Item} {w w' : View}

theorem scans_look {f : LexVars → LexM (List UInt8) Token}
    (hf : ∀ v, Seen v w → Scans last locale r (f v) w) : Scans last locale r (look >>= f) w where
  leads i hi hnul := leads_look fun v hv => (hf v hv).leads i hi hnul
  loses i hi hnul := leads_look fun v hv => (hf v hv).loses i hi hnul
  raises h := raises_look fun v hv => (hf v hv).raises h

theorem Ends.bind_scans {x : LexM (List UInt8) α} {a : α} {f : α → LexM (List UInt8) Token}
    (hx : Ends last x w a w') (hf : Scans last locale r (f a) w') :
    Scans last locale r (x >>= f) w where
  leads i hi hnul := hx.bind_leads (hf.leads i hi hnul)
  loses i hi hnul := hx.bind_leads (hf.loses i hi hnul)
  raises h := hx.raises (hf.raises h)

/-- The token is one behind which no NUL is taken. -/
theorem Leads.scans {x : LexM (List UInt8) Token}
    (hx : Leads last x w (Overruns last i.rest) fun t w' =>
      t = i.token ∧ w'.decpoint = i.decpoint ∧ w'.input = i.rest)
    (hi : ¬ i.TakesNul) : Scans last locale (some i) x w where
  leads i' hi' _ := by
    cases hi'
    exact hx
  loses i' hi' hnul := by
    cases hi'
    exact absurd hnul hi
  raises h := by cases h

theorem Ends.scans {x : LexM (List UInt8) Token} {b : List UInt8}
    (hx : Ends last x w i.token ⟨b, i.decpoint, i.rest⟩) (hi : ¬ i.TakesNul) :
    Scans last locale (some i) x w :=
  (hx.leads id ⟨rfl, rfl, rfl⟩).scans hi

/-- The NUL behind the token is taken. -/
theorem Ends.scans_nul {x : LexM (List UInt8) Token} {t : Token} {b rest : List UInt8}
    (hx : Ends last x w t ⟨b, d, rest⟩) (hd : Pointed locale d) (hi : i.TakesNul)
    (hrest : rest.length < i.rest.length) : Scans last locale (some i) x w where
  leads i' hi' hnul := by
    cases hi'
    exact absurd hi hnul
  loses i' hi' _ := by
    cases hi'
    exact hx.leads (fun _ => trivial) ⟨hd, hrest⟩
  raises h := by cases h

theorem Raises.scans {x : LexM (List UInt8) Token} (hx : Raises last x w) :
    Scans last locale none x w where
  leads i h := by cases h
  loses i h := by cases h
  raises _ := hx

end

/-- Behind such a token no NUL is taken. -/
theorem not_takesNul {i : Item} (hdot : i.token.token ≠ (ch '.').toNat)
    (hconcat : i.token.token ≠ TK_CONCAT) (hnumber : i.token.token ≠ TK_NUMBER) : ¬ i.TakesNul := by
  rintro ⟨-, h | h | ⟨h, -⟩⟩
  · exact hdot h
  · exact hconcat h
  · exact hnumber h

theorem symbol_not_takesNul {text rest : List UInt8} {c : UInt8} (hc : c ≠ ch '.') :
    ¬ (symbol text c.toNat rest d).TakesNul := by
  have hlt := c.toNat_lt
  refine not_takesNul (fun h => hc (UInt8.toNat_inj.1 h)) ?_ ?_
  · rw [TK_CONCAT]
    exact Nat.ne_of_lt (Nat.lt_trans hlt (by decide))
  · rw [TK_NUMBER]
    exact Nat.ne_of_lt (Nat.lt_trans hlt (by decide))

/-- A name or a reserved word. -/
theorem nameItem_token (d : UInt8) (s : List UInt8) : (nameItem d s).token.token = TK_NAME ∨
    ∃ i, i < NUM_RESERVED ∧ (nameItem d s).token.token = FIRST_RESERVED + i := by
  rw [nameItem]
  dsimp only
  cases hidx : ((luaX_tokens.take NUM_RESERVED).map chars).idxOf? (s.takeWhile isname) with
  | none => exact .inl rfl
  | some i => exact .inr ⟨i, (List.idxOf?_eq_some_iff.1 hidx).1, rfl⟩

theorem nameItem_not_takesNul (d : UInt8) (s : List UInt8) : ¬ (nameItem d s).TakesNul := by
  rcases nameItem_token d s with h | ⟨i, hi, h⟩
  · refine not_takesNul ?_ ?_ ?_ <;> rw [h] <;> decide
  · rw [NUM_RESERVED] at hi
    refine not_takesNul ?_ ?_ ?_ <;> rw [h, FIRST_RESERVED]
    · exact Nat.ne_of_gt (Nat.lt_of_lt_of_le (by decide) (Nat.le_add_right 257 i))
    · rw [TK_CONCAT]
      omega
    · rw [TK_NUMBER]
      omega

/-! ## Numerals and points -/

theorem takesNul_iff : TakesNul s ↔
    (s.drop (numeralTail s).length).head? = some 0 ∧
      (numeralTail s = [] ∨ ∃ e, numeralTail s = [e] ∧ isExponent e = true) := by
  cases s with
  | nil => exact iff_of_false id fun h => Option.noConfusion rfl (heq_of_eq h.1)
  | cons c s =>
    by_cases hexp : isExponent c = true
    · have hne : c ≠ 0 := by
        rintro rfl
        exact absurd hexp (by decide)
      rw [numeralTail, if_pos hexp]
      constructor
      · intro h
        have hzero := (h.resolve_left hne).2
        cases s with
        | nil => cases hzero
        | cons c' s =>
          obtain rfl := Option.some.inj hzero
          rw [exponent_zero]
          exact ⟨rfl, .inr ⟨c, rfl, hexp⟩⟩
      · rintro ⟨hzero, h | ⟨e, h, -⟩⟩
        · cases h
        · obtain ⟨-, hnil⟩ := List.cons.inj h
          rw [hnil] at hzero
          exact .inr ⟨hexp, hzero⟩
    · rw [numeralTail, if_neg hexp]
      constructor
      · rintro (rfl | h)
        · rw [List.takeWhile_cons, not_isname_zero]
          exact ⟨rfl, .inl rfl⟩
        · exact absurd h.1 hexp
      · rintro ⟨hzero, h | ⟨e, h, he⟩⟩
        · rw [h] at hzero
          exact .inl (Option.some.inj hzero)
        · rw [List.takeWhile_cons] at h
          split_ifs at h
          obtain ⟨rfl, -⟩ := List.cons.inj h
          exact absurd he hexp

theorem head?_numeralTail (h : (numeralTail s).head? = some c) : s.head? = some c := by
  cases s with
  | nil => cases h
  | cons c' s =>
    rw [numeralTail] at h
    split_ifs at h
    · exact h
    · rw [List.takeWhile_cons] at h
      split_ifs at h
      · exact h
      · cases h

theorem dropWhile_numeral (s : List UInt8) :
    (numeral s).dropWhile isFraction = numeralTail (s.dropWhile isFraction) := by
  have htail : ∀ c, (numeralTail (s.dropWhile isFraction)).head? = some c → isFraction c = false := by
    intro c hc
    have hstop := List.head?_dropWhile_not isFraction s
    rw [head?_numeralTail hc] at hstop
    exact hstop
  exact (Spans.span_eq isFraction _ (fun c hc => List.mem_takeWhile_imp hc) htail).2

theorem openNumeral_iff (s : List UInt8) : openNumeral (numeral s) = true ↔
    numeralTail (s.dropWhile isFraction) = [] ∨
      ∃ e, numeralTail (s.dropWhile isFraction) = [e] ∧ isExponent e = true := by
  rw [openNumeral, dropWhile_numeral]
  cases numeralTail (s.dropWhile isFraction) with
  | nil => exact iff_of_true rfl (.inl rfl)
  | cons c t =>
    cases t with
    | nil =>
      refine ⟨fun h => .inr ⟨c, rfl, h⟩, ?_⟩
      rintro (h | ⟨e, h, he⟩)
      · cases h
      · cases h
        exact he
    | cons c' t =>
      refine iff_of_false Bool.false_ne_true ?_
      rintro (h | ⟨e, h, -⟩)
      · cases h
      · cases h

theorem numeral_scans (hd : Pointed locale d) {fuel : Nat} (hfuel : s.length < fuel)
    {pre : List UInt8} (hroom : Room pre (c :: s)) (hpre : ∀ c ∈ pre, isFraction c = true)
    (hc : isdigit c = true) :
    Scans last locale (numeralItem locale d (pre ++ c :: s))
      (read_numeral getByte locale fuel >>= fun r => pure ⟨TK_NUMBER, r⟩) ⟨pre, d, c :: s⟩ := by
  obtain ⟨junk, rest, hconverts, hnul, hplain⟩ :=
    read_numeral_converts last hd hfuel hroom hpre hc
  generalize pre ++ c :: s = text at hconverts hnul hplain ⊢
  have hrest : text.drop (numeral text).length =
      (text.dropWhile isFraction).drop (numeralTail (text.dropWhile isFraction)).length := by
    rw [numeral, List.length_append, ← List.drop_drop, drop_takeWhile]
  cases hvalue : numeralValue locale d (numeral text) with
  | none =>
    rw [numeralItem, hvalue]
    exact (hconverts.raises hvalue).bind.scans
  | some r =>
    obtain ⟨r, d'⟩ := r
    rw [numeralItem, hvalue]
    have hends : Ends last
        (read_numeral getByte locale fuel >>= fun r => pure (⟨TK_NUMBER, r⟩ : Token))
        ⟨pre, d, c :: s⟩ ⟨TK_NUMBER, .r r⟩ ⟨point d' (numeral text ++ 0 :: junk), d', rest⟩ :=
      (hconverts.ends r d' hvalue).bind ends_pure
    have htakes : (⟨numeral text, ⟨TK_NUMBER, .r r⟩, text.drop (numeral text).length, d'⟩ :
        Item).TakesNul ↔ TakesNul (text.dropWhile isFraction) := by
      rw [takesNul_iff, ← hrest, ← openNumeral_iff]
      refine and_congr_right fun _ => ⟨?_, fun h => .inr (.inr ⟨rfl, h⟩)⟩
      rintro (h | h | h)
      · exact absurd (show TK_NUMBER = (ch '.').toNat from h) (by decide)
      · exact absurd (show TK_NUMBER = TK_CONCAT from h) (by decide)
      · exact h.2
    by_cases htaken : TakesNul (text.dropWhile isFraction)
    · exact hends.scans_nul (hd.next (numeralValue_point hvalue)) (htakes.2 htaken) (hnul htaken)
    · rw [hplain htaken] at hends
      exact hends.scans fun h => htaken (htakes.1 h)

end Luaxx.Lexer
