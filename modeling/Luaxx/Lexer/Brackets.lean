import Luaxx.Lexer.Scanning

/-!
# Long brackets

The reference finds the end of a long bracket as a text; the lexer goes on one bracket, one line end
or one character at a time.
-/

namespace Luaxx.Lexer

open Luaxx.Ctype Luaxx.Vm Reference

namespace Reference

variable {level : Nat} {c : UInt8} {s t rest : List UInt8}

/-! ## The reference on one character -/

theorem cutAt_eq {mark : List UInt8} (h : cutAt mark s = some (t, rest)) : s = t ++ mark ++ rest := by
  induction s generalizing t with
  | nil => cases h
  | cons c s ih =>
    rw [cutAt] at h
    split_ifs at h with hmark
    · cases h
      obtain ⟨rest, heq⟩ := hmark
      rw [← heq, List.drop_left]
      rfl
    · rw [Option.map_eq_some_iff] at h
      obtain ⟨⟨t', rest'⟩, hcut, heq⟩ := h
      cases heq
      exact congrArg (List.cons c) (ih hcut)

/-- The text before a place where the end of a bracket is begins as the whole, or is empty. -/
theorem head?_of_cutAt (h : cutAt (closing level) s = some (t, rest)) :
    t.head? = s.head? ∨ t = [] ∧ s.head? = some (ch ']') := by
  rw [cutAt_eq h, List.append_assoc]
  cases t with
  | nil => exact .inr ⟨rfl, rfl⟩
  | cons c t => exact .inl rfl

theorem cutAt_of_longBracket {cut : List UInt8 × List UInt8} (h : longBracket level s = some cut) :
    cutAt (closing level) s = some cut := by
  rw [longBracket, Option.bind_eq_some_iff] at h
  obtain ⟨cut', hcut, h⟩ := h
  split_ifs at h
  rwa [← Option.some.inj h]

theorem nested_cons : [ch '[', ch '['] <:+: c :: t ↔
    (c = ch '[' ∧ t.head? = some (ch '[')) ∨ [ch '[', ch '['] <:+: t := by
  rw [List.infix_cons_iff, List.cons_prefix_cons]
  refine or_congr_left (and_congr eq_comm ?_)
  cases t with
  | nil => exact ⟨fun h => absurd (List.prefix_nil.1 h) (List.cons_ne_nil _ _), fun h => nomatch h⟩
  | cons c t =>
    rw [List.cons_prefix_cons, List.head?_cons, Option.some_inj]
    exact ⟨fun h => h.1.symm, fun h => ⟨h.symm, List.nil_prefix⟩⟩

/-- What the reference makes of one more character. -/
theorem longBracket_cons (level : Nat) (c : UInt8) (s : List UInt8) :
    longBracket level (c :: s) =
      if closing level <+: c :: s then some ([], (c :: s).drop (closing level).length)
      else if level = 0 ∧ c = ch '[' ∧ s.head? = some (ch '[') then none
      else (longBracket level s).map fun p => (c :: p.1, p.2) := by
  rw [longBracket, cutAt, longBracket]
  split_ifs with hclose hnest
  · show (if level = 0 ∧ [ch '[', ch '['] <:+: [] then none else some ([], _)) = _
    rw [if_neg]
    rintro ⟨-, h⟩
    exact absurd (List.infix_nil.1 h) (List.cons_ne_nil _ _)
  · cases hcut : cutAt (closing level) s with
    | none => rfl
    | some cut =>
      show (if level = 0 ∧ [ch '[', ch '['] <:+: c :: cut.1 then none else some (c :: cut.1, cut.2)) = _
      refine if_pos ⟨hnest.1, nested_cons.2 (.inl ⟨hnest.2.1, ?_⟩)⟩
      rcases head?_of_cutAt hcut with h | ⟨-, h⟩
      · exact h.trans hnest.2.2
      · exact absurd (hnest.2.2.symm.trans h) (by decide)
  · cases hcut : cutAt (closing level) s with
    | none => rfl
    | some cut =>
      show (if level = 0 ∧ [ch '[', ch '['] <:+: c :: cut.1 then none else some (c :: cut.1, cut.2)) =
        Option.map _ (if level = 0 ∧ [ch '[', ch '['] <:+: cut.1 then none else some cut)
      have hiff : level = 0 ∧ [ch '[', ch '['] <:+: c :: cut.1 ↔
          level = 0 ∧ [ch '[', ch '['] <:+: cut.1 := by
        refine and_congr_right fun hlevel => ?_
        rw [nested_cons]
        refine or_iff_right fun h => hnest ⟨hlevel, h.1, ?_⟩
        rcases head?_of_cutAt hcut with heq | ⟨hnil, -⟩
        · exact heq.symm.trans h.2
        · rw [hnil] at h
          cases h.2
      by_cases h : level = 0 ∧ [ch '[', ch '['] <:+: cut.1
      · rw [if_pos h, if_pos (hiff.2 h)]
        rfl
      · rw [if_neg h, if_neg fun h' => h (hiff.1 h')]
        rfl

theorem closing_prefix_cons : closing level <+: c :: s ↔
    c = ch ']' ∧ List.replicate level (ch '=') ++ [ch ']'] <+: s := by
  rw [closing, List.cons_prefix_cons, eq_comm]

/-- A character that is no bracket. -/
theorem longBracket_other (hopen : c ≠ ch '[') (hclose : c ≠ ch ']') :
    longBracket level (c :: s) = (longBracket level s).map fun p => (c :: p.1, p.2) := by
  rw [longBracket_cons, if_neg fun h => hclose (closing_prefix_cons.1 h).1,
    if_neg fun h => hopen h.2.1]

theorem longBracket_replicate (n : Nat) :
    longBracket level (List.replicate n (ch '=') ++ s) =
      (longBracket level s).map fun p => (List.replicate n (ch '=') ++ p.1, p.2) := by
  induction n with
  | zero =>
    show longBracket level s = (longBracket level s).map fun p => (p.1, p.2)
    rw [Option.map_id']
  | succ n ih =>
    rw [List.replicate_succ, List.cons_append, longBracket_other (by decide) (by decide), ih,
      Option.map_map]
    rfl

theorem replicate_isPrefix {n : Nat} (hs : s.head? ≠ some (ch '=')) :
    List.replicate level (ch '=') ++ [ch ']'] <+: List.replicate n (ch '=') ++ s ↔
      n = level ∧ s.head? = some (ch ']') := by
  induction level generalizing n with
  | zero =>
    cases n with
    | zero =>
      cases s with
      | nil => simp
      | cons c s => simp [eq_comm]
    | succ n => simp [List.replicate_succ]
  | succ level ih =>
    cases n with
    | zero =>
      cases s with
      | nil => simp
      | cons c s =>
        simp only [List.head?_cons, ne_eq, Option.some.injEq] at hs
        simp [List.replicate_succ, Ne.symm hs]
    | succ n =>
      rw [List.replicate_succ, List.replicate_succ, List.cons_append, List.cons_append,
        List.cons_prefix_cons, ih]
      simp

theorem exists_replicate (s : List UInt8) :
    ∃ n s', s = List.replicate n (ch '=') ++ s' ∧ s'.head? ≠ some (ch '=') := by
  induction s with
  | nil => exact ⟨0, [], rfl, fun h => nomatch h⟩
  | cons c s ih =>
    by_cases hc : c = ch '='
    · obtain ⟨n, s', rfl, hs'⟩ := ih
      exact ⟨n + 1, s', by rw [hc]; rfl, hs'⟩
    · exact ⟨0, c :: s, rfl, fun h => hc (Option.some.inj h)⟩

/-- A closing bracket, of the level or of another. -/
theorem longBracket_close {n : Nat} (hs : s.head? ≠ some (ch '=')) :
    longBracket level (ch ']' :: (List.replicate n (ch '=') ++ s)) =
      if n = level ∧ s.head? = some (ch ']') then some ([], s.tail)
      else (longBracket level s).map fun p => (ch ']' :: (List.replicate n (ch '=') ++ p.1), p.2) := by
  rw [longBracket_cons]
  by_cases h : n = level ∧ s.head? = some (ch ']')
  · rw [if_pos h, if_pos (closing_prefix_cons.2 ⟨rfl, (replicate_isPrefix hs).2 h⟩)]
    obtain ⟨rfl, hhead⟩ := h
    cases s with
    | nil => cases hhead
    | cons c s =>
      obtain rfl := Option.some.inj hhead
      have heq : ch ']' :: (List.replicate n (ch '=') ++ ch ']' :: s) = closing n ++ s := by
        rw [closing, List.cons_append, List.append_assoc]
        rfl
      rw [heq, List.drop_left]
      rfl
  · rw [if_neg h, if_neg fun h' => h ((replicate_isPrefix hs).1 (closing_prefix_cons.1 h').2),
      if_neg fun h' => absurd h'.2.1 (by decide), longBracket_replicate, Option.map_map]
    rfl

/-- An opening bracket, of the level or of another, without its last character. -/
theorem longBracket_open {n : Nat} :
    longBracket level (ch '[' :: (List.replicate n (ch '=') ++ s)) =
      if level = 0 ∧ n = 0 ∧ s.head? = some (ch '[') then none
      else (longBracket level s).map fun p => (ch '[' :: (List.replicate n (ch '=') ++ p.1), p.2) := by
  have hno : ¬ closing level <+: ch '[' :: (List.replicate n (ch '=') ++ s) := fun h =>
    absurd (closing_prefix_cons.1 h).1 (by decide)
  have hhead : (List.replicate n (ch '=') ++ s).head? = some (ch '[') ↔
      n = 0 ∧ s.head? = some (ch '[') := by
    cases n with
    | zero => simp
    | succ n => simp [List.replicate_succ]
  rw [longBracket_cons, if_neg hno, longBracket_replicate, Option.map_map]
  by_cases h : level = 0 ∧ n = 0 ∧ s.head? = some (ch '[')
  · rw [if_pos h, if_pos ⟨h.1, rfl, hhead.2 h.2⟩]
  · rw [if_neg h, if_neg fun h' => h ⟨h'.1, hhead.1 h'.2.2⟩]
    rfl

/-! ## Line ends in a bracket -/

/-- A line end is one character of a long string, and no bracket. -/
theorem longBracket_line (level : Nat) (hc : isLineEnd c = true) (s : List UInt8) :
    ∃ f : List UInt8 → List UInt8,
      longBracket level (c :: s) = (longBracket level (lineRest c s)).map (fun p => (f p.1, p.2)) ∧
      ∀ p, longBracket level (lineRest c s) = some p →
        lines none (f p.1) = ch '\n' :: lines none p.1 ∧ contents (f p.1) = lines none p.1 := by
  have hbracket {c : UInt8} (hc : isLineEnd c = true) (s : List UInt8) :
      longBracket level (c :: s) = (longBracket level s).map fun p => (c :: p.1, p.2) := by
    refine longBracket_other ?_ ?_
    · rintro rfl
      exact absurd hc (by decide)
    · rintro rfl
      exact absurd hc (by decide)
  have hlines (t : List UInt8) : lines none (c :: t) = ch '\n' :: lines none (lineRest c t) := by
    rw [lines, if_pos hc, ← lines_some]
    rfl
  have hcontents (t : List UInt8) : contents (c :: t) = lines none (lineRest c t) := by
    rw [contents, if_pos hc, lines_some]
  rcases lineRest_eq c s with heq | ⟨c', hc', hne, heq⟩
  · refine ⟨fun t => c :: t, ?_, fun p hp => ?_⟩
    · rw [heq]
      exact hbracket hc s
    · have hrest : lineRest c p.1 = p.1 := by
        rw [heq] at hp
        rcases lineRest_eq c p.1 with h | ⟨c', hc', hne, h⟩
        · exact h
        · exfalso
          rcases head?_of_cutAt (cutAt_of_longBracket hp) with hhead | ⟨hnil, -⟩
          · rw [h, List.head?_cons] at hhead
            cases s with
            | nil => cases hhead
            | cons d s =>
              obtain rfl := Option.some.inj hhead
              rw [lineRest, if_pos ⟨hc', hne⟩] at heq
              exact absurd (congrArg List.length heq) (Nat.ne_of_lt (Nat.lt_succ_self _))
          · rw [hnil] at h
            cases h
      exact ⟨(hlines p.1).trans (by rw [hrest]), (hcontents p.1).trans (by rw [hrest])⟩
  · refine ⟨fun t => c :: c' :: t, ?_, fun p _ => ?_⟩
    · conv_lhs => rw [heq]
      rw [hbracket hc, hbracket hc', Option.map_map]
      rfl
    · have hrest : lineRest c (c' :: p.1) = p.1 := by rw [lineRest, if_pos ⟨hc', hne⟩]
      exact ⟨(hlines _).trans (by rw [hrest]), (hcontents _).trans (by rw [hrest])⟩

end Reference

/-! ## The loop of `read_long_string` -/

variable {last : Nat} {buff s : List UInt8} {d c : UInt8}

theorem countSep_ends (n : Nat) (hs : s.head? ≠ some (ch '=')) {k : Nat} (hk : n < k) (count : Int) :
    Ends last (countSep getByte k count) ⟨buff, d, List.replicate n (ch '=') ++ s⟩ (count + n)
      ⟨buff ++ List.replicate n (ch '='), d, s⟩ := by
  induction n generalizing k buff count with
  | zero =>
    cases k with
    | zero => cases hk
    | succ k =>
      refine ends_look fun v hv => ?_
      rw [curIs_seen hv]
      show Ends last (if s.head?.any (· == ch '=') = true then _ else _) _ _ _
      rw [if_neg, List.replicate_zero, List.append_nil]
      · exact (Int.add_zero count).symm ▸ ends_pure
      · cases s with
        | nil => exact Bool.false_ne_true
        | cons c s => exact fun h => hs (congrArg some (beq_iff_eq.1 h))
  | succ n ih =>
    cases k with
    | zero => cases hk
    | succ k =>
      refine ends_look fun v hv => ?_
      rw [curIs_seen hv, List.replicate_succ, List.append_cons]
      have hcount : count + (n + 1 : Nat) = count + 1 + n := by
        rw [Int.natCast_succ, Int.add_assoc, Int.add_comm 1]
      rw [hcount]
      exact (save_and_next_ends (by decide)).bind (ih (Nat.lt_of_succ_lt_succ hk) (count + 1))

/-- The level of a bracket, or a negative number where there is none. -/
theorem skip_sep_ends (hc : isLineEnd c = false) (n : Nat) (hs : s.head? ≠ some (ch '='))
    {fuel : Nat} (hfuel : n < fuel) :
    Ends last (skip_sep getByte fuel) ⟨buff, d, c :: (List.replicate n (ch '=') ++ s)⟩
      (if s.head? = some c then (n : Int) else -(n : Int) - 1)
      ⟨buff ++ c :: List.replicate n (ch '='), d, s⟩ := by
  refine ends_look fun v hv => (save_and_next_ends hc).bind ?_
  have hcount : Ends last (countSep getByte fuel 0)
      ⟨buff ++ [c], d, List.replicate n (ch '=') ++ s⟩ (0 + n)
      ⟨buff ++ [c] ++ List.replicate n (ch '='), d, s⟩ := countSep_ends n hs hfuel 0
  rw [Int.zero_add, ← List.append_cons] at hcount
  refine hcount.bind (ends_look fun v' hv' => ?_)
  rw [hv'.current_eq, hv.current_eq]
  exact ends_pure

theorem level_eq_iff {p : Prop} [Decidable p] (n level : Nat) :
    (if p then (n : Int) else -(n : Int) - 1) = (level : Int) ↔ n = level ∧ p := by
  split_ifs with h
  · rw [Int.natCast_inj, and_iff_left h]
  · exact iff_of_false (by omega) fun h' => h h'.2

theorem lines_append {u : List UInt8} (hu : ∀ c ∈ u, isLineEnd c = false) (t : List UInt8) :
    lines none (u ++ t) = u ++ lines none t := by
  induction u with
  | nil => rfl
  | cons c u ih =>
    obtain ⟨hc, hu⟩ := List.forall_mem_cons.1 hu
    rw [List.cons_append, lines, hc, if_neg Bool.false_ne_true, ih hu, List.cons_append]

/-- A bracket of a level has no line end. -/
theorem forall_bracket {c : UInt8} (hc : isLineEnd c = false) (n : Nat) :
    ∀ b ∈ c :: List.replicate n (ch '='), isLineEnd b = false := by
  intro b hb
  rcases List.mem_cons.1 hb with rfl | hb
  · exact hc
  · rw [List.eq_of_mem_replicate hb]
    rfl

/-- The rest of a long bracket is read as the reference reads it. -/
structure Closes (last : Nat) (d : UInt8) (seminfo : Bool) (level : Nat) (s : List UInt8)
    (x : LexM (List UInt8) Unit) (buff : List UInt8) (w : View) : Prop where
  leads : ∀ p, longBracket level s = some p →
    Leads last x w (Overruns last p.2) fun _ w' => w'.decpoint = d ∧ w'.input = p.2 ∧
      (seminfo = true → w'.buff = buff ++ lines none p.1 ++ closing level)
  raises : longBracket level s = none → Raises last x w

section

variable {seminfo : Bool} {level : Nat} {s' buff' : List UInt8} {w w' : View}

theorem closes_look {f : LexVars → LexM (List UInt8) Unit}
    (hf : ∀ v, Seen v w → Closes last d seminfo level s (f v) buff w) :
    Closes last d seminfo level s (look >>= f) buff w where
  leads p h := leads_look fun v hv => (hf v hv).leads p h
  raises h := raises_look fun v hv => (hf v hv).raises h

/-- A part of the text is read. -/
theorem Ends.closes {α : Type} {x : LexM (List UInt8) α} {a : α} {g : α → LexM (List UInt8) Unit}
    {f : List UInt8 → List UInt8} (hx : Ends last x w a w')
    (hs : longBracket level s = (longBracket level s').map fun p => (f p.1, p.2))
    (hbuff : ∀ p, longBracket level s' = some p → seminfo = true →
      buff' ++ lines none p.1 = buff ++ lines none (f p.1))
    (h : Closes last d seminfo level s' (g a) buff' w') :
    Closes last d seminfo level s (x >>= g) buff w where
  leads p hp := by
    rw [hs, Option.map_eq_some_iff] at hp
    obtain ⟨p', hp', rfl⟩ := hp
    refine hx.bind_leads ((h.leads p' hp').imp id fun _ w' hw' => ⟨hw'.1, hw'.2.1, fun hsem => ?_⟩)
    rw [hw'.2.2 hsem, hbuff p' hp' hsem]
  raises hnone := by
    rw [hs, Option.map_eq_none_iff] at hnone
    exact hx.raises (h.raises hnone)

/-- In a comment the buffer does not count. -/
theorem Ends.closes_comment {α : Type} {x : LexM (List UInt8) α} {a : α}
    {g : α → LexM (List UInt8) Unit} {f : List UInt8 → List UInt8} (hsem : ¬ seminfo = true)
    (hx : Ends last x w a w')
    (hs : longBracket level s = (longBracket level s').map fun p => (f p.1, p.2))
    (h : Closes last d seminfo level s' (g a) buff' w') :
    Closes last d seminfo level s (x >>= g) buff w :=
  hx.closes hs (fun _ _ hyes => absurd hyes hsem) h

end

/-- Characters that are no line ends are saved as they are. -/
theorem lines_saved {buff u : List UInt8} (hu : ∀ b ∈ u, isLineEnd b = false) (t : List UInt8) :
    buff ++ u ++ lines none t = buff ++ lines none (u ++ t) := by
  rw [lines_append hu, List.append_assoc]

section

variable {seminfo : Bool} {level n fuel : Nat} {loop : LexM (List UInt8) Unit}

/-- The bracket that `skip_sep` reads is of the level, and is followed by its second bracket: the
brackets `[[` are nested, others are a part of the text. -/
theorem bracket_open_closes (hs : s.head? ≠ some (ch '=')) (hfuel : n < fuel)
    (hloop : ∀ {buff t : List UInt8}, t.length ≤ s.length →
      Closes last d seminfo level t loop buff ⟨buff, d, t⟩) :
    Closes last d seminfo level (ch '[' :: (List.replicate n (ch '=') ++ s))
      (skip_sep getByte fuel >>= fun sep =>
        if sep = level then
          save_and_next getByte >>= fun _ =>
            if (level : Int) = 0 then
              luaX_lexerror "nesting of [[...]] is deprecated" (ch '[').toNat
            else loop
        else loop)
      buff ⟨buff, d, ch '[' :: (List.replicate n (ch '=') ++ s)⟩ := by
  have hsep : Ends last (skip_sep getByte fuel) ⟨buff, d, _⟩ _ _ :=
    skip_sep_ends (c := ch '[') rfl n hs hfuel
  have hbracket := forall_bracket (c := ch '[') rfl n
  by_cases hmatch : n = level ∧ s.head? = some (ch '[')
  · obtain ⟨rfl, hhead⟩ := hmatch
    rw [if_pos hhead] at hsep
    cases s with
    | nil => cases hhead
    | cons b s =>
      obtain rfl := Option.some.inj hhead
      by_cases hzero : n = 0
      · have hnone : longBracket n (ch '[' :: (List.replicate n (ch '=') ++ ch '[' :: s)) = none :=
          longBracket_open.trans (if_pos ⟨hzero, hzero, rfl⟩)
        refine ⟨fun p hp => ?_, fun _ => hsep.raises ?_⟩
        · rw [hnone] at hp
          cases hp
        · rw [if_pos rfl]
          refine (save_and_next_ends (by decide)).raises ?_
          rw [if_pos (Int.natCast_eq_zero.2 hzero)]
          exact luaX_lexerror_raises _ _ _
      · refine hsep.closes (longBracket_open.trans (if_neg fun h => hzero h.1))
          (fun p _ _ => lines_saved hbracket p.1) ?_
        rw [if_pos rfl]
        have hsecond : longBracket n (ch '[' :: s) =
            (longBracket n s).map fun p => (ch '[' :: p.1, p.2) := by
          rw [longBracket_cons, if_neg fun h => absurd (closing_prefix_cons.1 h).1 (by decide),
            if_neg fun h => hzero h.1]
        refine (save_and_next_ends (by decide)).closes hsecond
          (fun p _ _ => lines_saved (u := [ch '[']) (forall_bracket rfl 0) p.1) ?_
        rw [if_neg fun h => hzero (Int.natCast_eq_zero.1 h)]
        exact hloop (Nat.le_succ _)
  · refine hsep.closes (longBracket_open.trans (if_neg ?_)) (fun p _ _ => lines_saved hbracket p.1) ?_
    · rintro ⟨rfl, rfl, hhead⟩
      exact hmatch ⟨rfl, hhead⟩
    · rw [if_neg (fun h => hmatch ((level_eq_iff n level).1 h))]
      exact hloop (Nat.le_refl _)

theorem bracket_close_closes (hs : s.head? ≠ some (ch '=')) (hfuel : n < fuel)
    (hloop : ∀ {buff : List UInt8}, Closes last d seminfo level s loop buff ⟨buff, d, s⟩) :
    Closes last d seminfo level (ch ']' :: (List.replicate n (ch '=') ++ s))
      (skip_sep getByte fuel >>= fun sep => if sep = level then save_and_next getByte else loop)
      buff ⟨buff, d, ch ']' :: (List.replicate n (ch '=') ++ s)⟩ := by
  have hsep : Ends last (skip_sep getByte fuel) ⟨buff, d, _⟩ _ _ :=
    skip_sep_ends (c := ch ']') rfl n hs hfuel
  have hbracket := forall_bracket (c := ch ']') rfl n
  by_cases hmatch : n = level ∧ s.head? = some (ch ']')
  · have hsome : longBracket level (ch ']' :: (List.replicate n (ch '=') ++ s)) =
        some ([], s.tail) := (longBracket_close hs).trans (if_pos hmatch)
    obtain ⟨rfl, hhead⟩ := hmatch
    rw [if_pos hhead] at hsep
    cases s with
    | nil => cases hhead
    | cons b s =>
      obtain rfl := Option.some.inj hhead
      refine ⟨fun p hp => hsep.bind_leads ?_, fun hnone => ?_⟩
      · rw [hsome] at hp
        cases hp
        rw [if_pos rfl]
        refine (save_and_next_ends (by decide)).leads id ⟨rfl, rfl, fun _ => ?_⟩
        rw [lines, List.append_nil, List.append_assoc]
        rfl
      · rw [hsome] at hnone
        cases hnone
  · refine hsep.closes ((longBracket_close hs).trans (if_neg hmatch))
      (fun p _ _ => lines_saved hbracket p.1) ?_
    rw [if_neg (fun h => hmatch ((level_eq_iff n level).1 h))]
    exact hloop

/-- A line end is kept as one character in a string, and the buffer of a comment is reset. -/
theorem line_closes {c : UInt8} (hend : isLineEnd c = true)
    (hloop : ∀ {buff : List UInt8},
      Closes last d seminfo level (lineRest c s) loop buff ⟨buff, d, lineRest c s⟩) :
    Closes last d seminfo level (c :: s)
      (save (ch '\n') >>= fun _ => inclinenumber getByte >>= fun _ =>
        if seminfo = true then loop else luaZ_resetbuffer >>= fun _ => loop)
      buff ⟨buff, d, c :: s⟩ := by
  obtain ⟨f, hf, hlines⟩ := longBracket_line level hend s
  rw [← bind_assoc]
  split_ifs with hsem
  · refine (save_line_ends hend).closes hf (fun p hp _ => ?_) hloop
    rw [(hlines p hp).1, List.append_assoc]
    rfl
  · have hsame : longBracket level (lineRest c s) =
        (longBracket level (lineRest c s)).map fun p => (id p.1, p.2) := Option.map_id'.symm
    have hrest : Closes last d seminfo level (lineRest c s) (luaZ_resetbuffer >>= fun _ => loop) []
        ⟨buff ++ [ch '\n'], d, lineRest c s⟩ :=
      luaZ_resetbuffer_ends.closes_comment hsem hsame hloop
    exact (save_line_ends hend).closes_comment hsem hf hrest

end

theorem longStringLoop_closes (seminfo : Bool) (level : Nat) {fuel k : Nat} (hk : s.length < k)
    (hfuel : s.length ≤ fuel) :
    Closes last d seminfo level s (longStringLoop getByte fuel seminfo level k) buff ⟨buff, d, s⟩ := by
  induction k generalizing buff s with
  | zero => cases hk
  | succ k ih =>
    refine closes_look fun v hv => ?_
    rw [hv.current_eq]
    cases s with
    | nil =>
      refine ⟨fun p hp => ?_, fun _ => luaX_lexerror_raises _ _ _⟩
      cases hp
    | cons c s =>
      have hk' : s.length < k := Nat.lt_of_succ_lt_succ hk
      have hfuel' : s.length < fuel := hfuel
      have hloop {buff t : List UInt8} (ht : t.length ≤ s.length) :
          Closes last d seminfo level t (longStringLoop getByte fuel seminfo level k) buff
            ⟨buff, d, t⟩ :=
        ih (Nat.lt_of_le_of_lt ht hk') (Nat.le_trans ht (Nat.le_of_lt hfuel'))
      rw [List.head?_cons]
      dsimp only
      by_cases hopen : c = ch '['
      · subst hopen
        rw [if_pos rfl]
        obtain ⟨n, s', rfl, hs'⟩ := exists_replicate s
        rw [List.length_append, List.length_replicate] at hfuel' hloop
        exact bracket_open_closes hs' (by omega) fun ht => hloop (by omega)
      rw [if_neg hopen]
      by_cases hclose : c = ch ']'
      · subst hclose
        rw [if_pos rfl]
        obtain ⟨n, s', rfl, hs'⟩ := exists_replicate s
        rw [List.length_append, List.length_replicate] at hfuel' hloop
        exact bracket_close_closes hs' (by omega) (hloop (by omega))
      rw [if_neg hclose]
      by_cases hend : isLineEnd c = true
      · rw [if_pos (isLineEnd_iff.1 hend)]
        exact line_closes hend (hloop (length_lineRest_le c s))
      · have hone : ∀ b ∈ [c], isLineEnd b = false := by
          intro b hb
          rw [List.mem_singleton.1 hb]
          exact eq_false_of_ne_true hend
        rw [if_neg fun h => hend (isLineEnd_iff.2 h)]
        split_ifs with hsem
        · exact (save_and_next_ends (eq_false_of_ne_true hend)).closes (longBracket_other hopen hclose)
            (fun p _ _ => lines_saved hone p.1) (hloop (Nat.le_refl _))
        · exact (next_ends (eq_false_of_ne_true hend)).closes_comment hsem (longBracket_other hopen hclose)
            (hloop (Nat.le_refl _))

/-! ## Long strings and long comments -/

theorem opening_replicate (n : Nat) {s : List UInt8} (hs : s.head? ≠ some (ch '=')) :
    opening (List.replicate n (ch '=') ++ s) =
      if s.head? = some (ch '[') then some (n, s.tail) else none := by
  have hspan : (List.replicate n (ch '=') ++ s).takeWhile (· == ch '=') = List.replicate n (ch '=') ∧
      (List.replicate n (ch '=') ++ s).dropWhile (· == ch '=') = s := by
    refine Spans.span_eq _ s (fun c hc => ?_) fun c hc => ?_
    · rw [List.eq_of_mem_replicate hc]
      rfl
    · exact beq_false_of_ne fun heq => hs (heq ▸ hc)
  rw [opening, hspan.1, hspan.2, List.length_replicate]
  cases s with
  | nil => rfl
  | cons c s =>
    rw [List.head?_cons, List.tail_cons]
    by_cases h : c = ch '['
    · rw [if_pos (congrArg some h)]
      exact if_pos h
    · rw [if_neg fun h' => h (Option.some.inj h')]
      exact if_neg h

theorem length_closing (level : Nat) : (closing level).length = level + 2 := by
  rw [closing, List.length_cons, List.length_append, List.length_replicate]
  rfl

/-- What is stored of a buffer with a bracket before and behind a text. -/
theorem stored_eq (level : Nat) {pre text : List UInt8} (hpre : pre.length = level + 2) :
    ((pre ++ text ++ closing level).drop (2 + (level : Int)).toNat).take
        ((pre ++ text ++ closing level).length - 2 * (2 + (level : Int)).toNat) = text := by
  have hcut : (2 + (level : Int)).toNat = pre.length := by
    rw [hpre]
    omega
  have hlen : (pre ++ text ++ closing level).length - 2 * pre.length = text.length := by
    rw [List.length_append, List.length_append, length_closing, hpre]
    omega
  rw [hcut, hlen, List.append_assoc, List.drop_left, List.take_left]

theorem contents_eq_lines {level : Nat} {p : List UInt8 × List UInt8} (h : longBracket level s = some p)
    (hs : s.head?.any isLineEnd = false) : contents p.1 = lines none p.1 := by
  obtain ⟨t, rest⟩ := p
  cases t with
  | nil => rfl
  | cons c t =>
    rcases head?_of_cutAt (cutAt_of_longBracket h) with hhead | ⟨hnil, -⟩
    · rw [← hhead] at hs
      exact if_neg (ne_true_of_eq_false hs)
    · cases hnil

/-- The value of a long string, and what is behind it. -/
def Stored (d : UInt8) (seminfo : Bool) (text rest : List UInt8) (a : SemInfo) (w : View) : Prop :=
  w.decpoint = d ∧ w.input = rest ∧ a = if seminfo then .ts text else .none

theorem longStringEnd_leads {seminfo : Bool} {level : Nat} {fuel : Nat}
    {p : List UInt8 × List UInt8} (h : longBracket level s = some p) (hfuel : s.length < fuel)
    (hbuff : seminfo = true → buff.length = level + 2) :
    Leads last (longStringEnd getByte fuel seminfo level) ⟨buff, d, s⟩ (Overruns last p.2)
      (Stored d seminfo (lines none p.1) p.2) := by
  refine ((longStringLoop_closes seminfo level hfuel (Nat.le_of_lt hfuel)).leads p h).bind
    fun _ w' hw' => leads_look fun v hv =>
      ends_pure.leads (fun hover => hw'.2.1 ▸ hover) ⟨hw'.1, hw'.2.1, ?_⟩
  cases hsem : seminfo with
  | false => rfl
  | true =>
    rw [hv.buff_eq, hw'.2.2 hsem]
    exact congrArg SemInfo.ts (stored_eq level (hbuff hsem))

/-- The second `[` of the opening bracket is before the lexer. -/
theorem read_long_string_leads {seminfo : Bool} {level : Nat} {fuel : Nat}
    {p : List UInt8 × List UInt8} (hc : isLineEnd c = false) (h : longBracket level s = some p) (hfuel : s.length < fuel)
    (hbuff : seminfo = true → buff.length = level + 1) :
    Leads last (read_long_string getByte fuel seminfo level) ⟨buff, d, c :: s⟩ (Overruns last p.2)
      (Stored d seminfo (contents p.1) p.2) := by
  have hlen : seminfo = true → (buff ++ [c]).length = level + 2 := fun hsem => by
    rw [List.length_append, hbuff hsem]
    rfl
  refine (save_and_next_ends hc).bind_leads (leads_look fun v hv => ?_)
  rw [currIsNewline_seen hv]
  cases s with
  | nil => cases h
  | cons c' s =>
    show Leads last (if isLineEnd c' = true then _ else _) _ _ _
    split_ifs with hend
    · obtain ⟨f, hf, hlines⟩ := longBracket_line level hend s
      rw [hf, Option.map_eq_some_iff] at h
      obtain ⟨p', hp', rfl⟩ := h
      rw [(hlines p' hp').2]
      refine (inclinenumber_ends hend).bind_leads (longStringEnd_leads hp' ?_ hlen)
      exact Nat.lt_of_le_of_lt (length_lineRest_le c' s) (Nat.lt_of_succ_lt hfuel)
    · rw [contents_eq_lines h (eq_false_of_ne_true hend)]
      exact longStringEnd_leads h hfuel hlen

theorem read_long_string_raises {seminfo : Bool} {level : Nat} {fuel : Nat}
    (hc : isLineEnd c = false) (h : longBracket level s = none) (hfuel : s.length < fuel) :
    Raises last (read_long_string getByte fuel seminfo level) ⟨buff, d, c :: s⟩ := by
  have hraises {s : List UInt8} {buff : List UInt8} (h : longBracket level s = none)
      (hfuel : s.length < fuel) : Raises last (longStringEnd getByte fuel seminfo level) ⟨buff, d, s⟩ :=
    Raises.bind ((longStringLoop_closes seminfo level hfuel (Nat.le_of_lt hfuel)).raises h)
  refine (save_and_next_ends hc).raises (raises_look fun v hv => ?_)
  rw [currIsNewline_seen hv]
  cases s with
  | nil => exact hraises h hfuel
  | cons c' s =>
    show Raises last (if isLineEnd c' = true then _ else _) _
    split_ifs with hend
    · obtain ⟨f, hf, -⟩ := longBracket_line level hend s
      rw [hf, Option.map_eq_none_iff] at h
      refine (inclinenumber_ends hend).raises (hraises h ?_)
      exact Nat.lt_of_le_of_lt (length_lineRest_le c' s) (Nat.lt_of_succ_lt hfuel)
    · exact hraises h hfuel

end Luaxx.Lexer
