import Luaxx.Lexer.Views
import Luaxx.Lib.Spans

/-!
# The scanners of the lexer

Each loop of `llex.c` over a class of characters, numerals, long brackets and strings, with what the
reference says of the same text.
-/

namespace Luaxx.Lexer

open Luaxx.Ctype Luaxx.Vm Reference

variable {last : Nat} {buff s : List UInt8} {d c : UInt8} {locale : Locale}

theorem curIs_seen {v : LexVars} (hv : Seen v ⟨buff, d, s⟩) (p : UInt8 → Bool) :
    curIs p v = s.head?.any p := by
  rw [curIs, hv.current_eq]

theorem saveWhile_ends {p : UInt8 → Bool} (hp : p (ch '\n') = false ∧ p (ch '\r') = false) {k : Nat}
    (hk : s.length < k) :
    Ends last (saveWhile getByte p k) ⟨buff, d, s⟩ () ⟨buff ++ s.takeWhile p, d, s.dropWhile p⟩ := by
  induction k generalizing buff s with
  | zero => cases hk
  | succ k ih =>
    refine ends_look fun v hv => ?_
    rw [curIs_seen hv]
    cases s with
    | nil =>
      rw [List.takeWhile_nil, List.append_nil]
      exact ends_pure
    | cons c s =>
      rw [List.takeWhile_cons, List.dropWhile_cons]
      show Ends last (if p c = true then _ else _) _ _ _
      split_ifs with hc
      · rw [List.append_cons]
        exact (save_and_next_ends (not_isLineEnd hp hc)).bind (ih (Nat.lt_of_succ_lt_succ hk))
      · rw [List.append_nil]
        exact ends_pure

/-- There is room for the text and for one more character. -/
def Room (buff s : List UInt8) : Prop := buff.length + 1 + s.length < MAX_SIZET / 2

theorem Room.append {buff t s : List UInt8} (h : Room buff (t ++ s)) : Room (buff ++ t) s := by
  rw [Room, List.length_append] at h ⊢
  omega

theorem Room.takeWhile (p : UInt8 → Bool) (h : Room buff s) :
    Room (buff ++ s.takeWhile p) (s.dropWhile p) :=
  Room.append ((List.takeWhile_append_dropWhile (p := p)).symm ▸ h)

theorem Room.take (j : Nat) (h : Room buff s) : Room (buff ++ s.take j) (s.drop j) :=
  Room.append ((List.take_append_drop j s).symm ▸ h)

/-! ## Numerals -/

theorem isname_line : isname (ch '\n') = false ∧ isname (ch '\r') = false := by decide

theorem isFraction_line : isFraction (ch '\n') = false ∧ isFraction (ch '\r') = false := by decide

/-- A character of the set is taken, and so is the NUL that `strchr` finds. -/
theorem check_next_ends {set : List UInt8}
    (hset : set.contains (ch '\n') = false ∧ set.contains (ch '\r') = false)
    (h : c = 0 ∨ set.contains c = true) :
    Ends last (check_next getByte set) ⟨buff, d, c :: s⟩ true ⟨buff ++ [c], d, s⟩ := by
  refine ends_look fun v hv => ?_
  have hcur : curIs (fun c => c == 0 || set.contains c) v = true := by
    rw [curIs_seen hv]
    show (c == 0 || set.contains c) = true
    rw [Bool.or_eq_true, beq_iff_eq]
    exact h
  have hend : isLineEnd c = false := by
    rcases h with rfl | h
    · rfl
    · exact not_isLineEnd (p := fun c => set.contains c) hset h
  rw [hcur]
  exact (save_and_next_ends hend).bind ends_pure

theorem check_next_ends_false {set : List UInt8}
    (h : ∀ c, s.head? = some c → c ≠ 0 ∧ set.contains c = false) :
    Ends last (check_next getByte set) ⟨buff, d, s⟩ false ⟨buff, d, s⟩ := by
  refine ends_look fun v hv => ?_
  have hcur : curIs (fun c => c == 0 || set.contains c) v = false := by
    rw [curIs_seen hv]
    cases s with
    | nil => rfl
    | cons c s =>
      obtain ⟨hzero, hset⟩ := h c rfl
      show (c == 0 || set.contains c) = false
      rw [hset, Bool.or_false]
      exact beq_false_of_ne hzero
  rw [hcur]
  exact ends_pure

theorem buffreplace_ends (p q : UInt8) :
    Ends last (buffreplace p q) ⟨buff, d, s⟩ () ⟨buff.map fun b => if b = p then q else b, d, s⟩ := by
  refine change_ends rfl fun ls hls => ⟨?_, hls.decpoint_eq, hls.current_eq, hls.z_eq, hls.last_eq,
    hls.line_lt, ?_⟩
  · exact congrArg (List.map fun b => if b = p then q else b) hls.buff_eq
  · rw [List.length_map]
    exact hls.room

theorem cstr_append_zero (t w : List UInt8) : cstr (t ++ 0 :: w) = cstr t := by
  induction t with
  | nil => rfl
  | cons c t ih =>
    rw [cstr, cstr, List.cons_append, List.takeWhile_cons, List.takeWhile_cons]
    split
    · exact congrArg (List.cons c) ih
    · rfl

/-- The conversion does not look behind a NUL. -/
theorem cstr_point (p : UInt8) (t w : List UInt8) :
    cstr (point p (t ++ 0 :: w)) = cstr (point p t) := by
  rw [point, List.map_append]
  exact cstr_append_zero _ _

/-- The decimal point is the one that is written in a text, or that of the locale. -/
def Pointed (locale : Locale) (d : UInt8) : Prop := d = ch '.' ∨ d = locale.decimal_point

theorem numeralValue_of_some {t : List UInt8} {r : Number}
    (h : locale.str2d (cstr (point d t)) = some r) : numeralValue locale d t = some (r, d) := by
  rw [numeralValue, h]

theorem numeralValue_of_none {t : List UInt8} (h : locale.str2d (cstr (point d t)) = none) :
    numeralValue locale d t =
      (locale.str2d (cstr (point locale.decimal_point t))).map fun r => (r, locale.decimal_point) := by
  rw [numeralValue, h]

theorem numeralValue_point {t : List UInt8} {r : Number} {d' : UInt8}
    (h : numeralValue locale d t = some (r, d')) : d' = d ∨ d' = locale.decimal_point := by
  cases hstr : locale.str2d (cstr (point d t)) with
  | some r' =>
    rw [numeralValue_of_some hstr] at h
    cases h
    exact .inl rfl
  | none =>
    rw [numeralValue_of_none hstr, Option.map_eq_some_iff] at h
    obtain ⟨_, _, h⟩ := h
    cases h
    exact .inr rfl

theorem Pointed.next {d' : UInt8} (hd : Pointed locale d) (h : d' = d ∨ d' = locale.decimal_point) :
    Pointed locale d' := by
  rcases h with rfl | rfl
  · exact hd
  · exact .inr rfl

theorem point_dot (t : List UInt8) : point (ch '.') t = t := by
  have hid : (fun b => if b = ch '.' then ch '.' else b) = (id : UInt8 → UInt8) := by
    funext b
    split_ifs with h
    · exact h.symm
    · rfl
  rw [point, hid, List.map_id]

/-- The decimal point of the locale is written for the one that was. -/
theorem map_point (hd : Pointed locale d) (t : List UInt8) :
    (point d t).map (fun b => if b = d then locale.decimal_point else b) =
      point locale.decimal_point t := by
  rcases hd with rfl | rfl
  · rw [point_dot]
    rfl
  · have hid : (fun b => if b = locale.decimal_point then locale.decimal_point else b) =
        (id : UInt8 → UInt8) := by
      funext b
      split_ifs with h
      · exact h.symm
      · rfl
    rw [hid, List.map_id]

/-- The second conversion, with the decimal point of the locale. -/
theorem trydecpoint_ends (hd : Pointed locale d) {t w : List UInt8} {r : Number}
    (hr : locale.str2d (cstr (point locale.decimal_point t)) = some r) :
    Ends last (trydecpoint locale) ⟨point d (t ++ 0 :: w), d, s⟩ (.r r)
      ⟨point locale.decimal_point (t ++ 0 :: w), locale.decimal_point, s⟩ := by
  have hchange : Ends last (change fun ls => { ls with decpoint := locale.decimal_point })
      ⟨point d (t ++ 0 :: w), d, s⟩ () ⟨point d (t ++ 0 :: w), locale.decimal_point, s⟩ :=
    change_ends rfl fun _ hls => ⟨hls.buff_eq, rfl, hls.current_eq, hls.z_eq, hls.last_eq, hls.line_lt,
      hls.room⟩
  have hreplace : Ends last (buffreplace d locale.decimal_point)
      ⟨point d (t ++ 0 :: w), locale.decimal_point, s⟩ ()
      ⟨point locale.decimal_point (t ++ 0 :: w), locale.decimal_point, s⟩ :=
    map_point hd (t ++ 0 :: w) ▸ buffreplace_ends _ _
  refine ends_look fun v hv => ?_
  rw [hv.decpoint_eq]
  refine hchange.bind (hreplace.bind (ends_look fun v' hv' => ?_))
  rw [hv'.buff_eq, cstr_point, hr]
  exact ends_pure

theorem trydecpoint_raises (hd : Pointed locale d) {t w : List UInt8}
    (hr : locale.str2d (cstr (point locale.decimal_point t)) = none) :
    Raises last (trydecpoint locale) ⟨point d (t ++ 0 :: w), d, s⟩ := by
  have hchange : Ends last (change fun ls => { ls with decpoint := locale.decimal_point })
      ⟨point d (t ++ 0 :: w), d, s⟩ () ⟨point d (t ++ 0 :: w), locale.decimal_point, s⟩ :=
    change_ends rfl fun _ hls => ⟨hls.buff_eq, rfl, hls.current_eq, hls.z_eq, hls.last_eq, hls.line_lt,
      hls.room⟩
  have hreplace : Ends last (buffreplace d locale.decimal_point)
      ⟨point d (t ++ 0 :: w), locale.decimal_point, s⟩ ()
      ⟨point locale.decimal_point (t ++ 0 :: w), locale.decimal_point, s⟩ :=
    map_point hd (t ++ 0 :: w) ▸ buffreplace_ends _ _
  refine raises_look fun v hv => ?_
  rw [hv.decpoint_eq]
  refine hchange.raises (hreplace.raises (raises_look fun v' hv' => ?_))
  rw [hv'.buff_eq, cstr_point, hr]
  exact (buffreplace_ends _ _).raises (luaX_lexerror_raises _ _ _)

/-- With a text in the buffer up to a NUL, the computation comes to the value of the text and to what
is behind it, or raises an error where the text has no value. -/
structure Converts (last : Nat) (locale : Locale) (d : UInt8) (t junk rest : List UInt8)
    (x : LexM (List UInt8) SemInfo) (w : View) : Prop where
  ends : ∀ r d', numeralValue locale d t = some (r, d') →
    Ends last x w (.r r) ⟨point d' (t ++ 0 :: junk), d', rest⟩
  raises : numeralValue locale d t = none → Raises last x w

section

variable {t junk rest : List UInt8}

theorem Ends.converts {α : Type} {x : LexM (List UInt8) α} {w w' : View}
    {a : α} {f : α → LexM (List UInt8) SemInfo} (hx : Ends last x w a w')
    (hf : Converts last locale d t junk rest (f a) w') : Converts last locale d t junk rest (x >>= f) w where
  ends r d' h := hx.bind (hf.ends r d' h)
  raises h := hx.raises (hf.raises h)

theorem converts_look {w : View} {f : LexVars → LexM (List UInt8) SemInfo}
    (hf : ∀ v, Seen v w → Converts last locale d t junk rest (f v) w) :
    Converts last locale d t junk rest (look >>= f) w where
  ends r d' h := ends_look fun v hv => (hf v hv).ends r d' h
  raises h := raises_look fun v hv => (hf v hv).raises h

theorem numeralEnd_converts (hd : Pointed locale d) {fuel : Nat} (hfuel : s.length < fuel)
    (hroom : Room buff s) (ht : buff ++ s.takeWhile isname ++ [0] = t ++ 0 :: junk) :
    Converts last locale d t junk (s.dropWhile isname) (numeralEnd getByte locale fuel)
      ⟨buff, d, s⟩ := by
  refine (saveWhile_ends isname_line hfuel).converts
    ((save_ends (hroom.takeWhile isname)).converts (converts_look fun v hv => ?_))
  rw [hv.decpoint_eq, ht]
  refine (buffreplace_ends _ _).converts (converts_look fun v' hv' => ?_)
  have hbuff : v'.buff = point d (t ++ 0 :: junk) := hv'.buff_eq
  rw [hbuff, cstr_point]
  cases hstr : locale.str2d (cstr (point d t)) with
  | some r =>
    refine ⟨fun r' d' h => ?_, fun h => ?_⟩
    · rw [numeralValue_of_some hstr] at h
      cases h
      exact ends_pure
    · rw [numeralValue_of_some hstr] at h
      cases h
  | none =>
    refine ⟨fun r d' h => ?_, fun h => ?_⟩
    · rw [numeralValue_of_none hstr, Option.map_eq_some_iff] at h
      obtain ⟨r', hr', heq⟩ := h
      cases heq
      exact trydecpoint_ends hd hr'
    · rw [numeralValue_of_none hstr, Option.map_eq_none_iff] at h
      exact trydecpoint_raises hd h

/-- `check_next` takes a NUL: behind the digits and points, or behind an exponent letter. -/
def TakesNul : List UInt8 → Prop
  | [] => False
  | c :: s => c = 0 ∨ isExponent c = true ∧ s.head? = some 0

theorem not_isname_zero : isname 0 = false := by decide

theorem exponent_zero (s : List UInt8) : exponent (0 :: s) = [] := by
  rw [exponent, if_neg (by decide), List.takeWhile_cons, not_isname_zero]
  rfl

/-- A sign or a NUL behind an exponent letter is taken. -/
theorem sign_ends (text s : List UInt8) :
    ∃ took j, Ends last (check_next getByte (chars "+-")) ⟨text, d, s⟩ took
      ⟨text ++ s.take j, d, s.drop j⟩ := by
  cases s with
  | nil =>
    refine ⟨false, 0, ?_⟩
    rw [List.take_zero, List.append_nil]
    exact check_next_ends_false fun _ h => absurd h.symm (Option.some_ne_none _)
  | cons c s =>
    by_cases h : c = 0 ∨ (chars "+-").contains c = true
    · exact ⟨true, 1, check_next_ends (by decide) h⟩
    · refine ⟨false, 0, ?_⟩
      rw [List.take_zero, List.append_nil]
      refine check_next_ends_false fun c' hc' => ?_
      obtain rfl := Option.some.inj hc'
      rw [not_or] at h
      exact ⟨h.1, eq_false_of_ne_true h.2⟩

theorem drop_takeWhile (p : UInt8 → Bool) (s : List UInt8) :
    s.drop (s.takeWhile p).length = s.dropWhile p := by
  have h : (s.takeWhile p ++ s.dropWhile p).drop (s.takeWhile p).length = s.dropWhile p :=
    List.drop_left
  rwa [List.takeWhile_append_dropWhile] at h

theorem numeralEnd_plain (hd : Pointed locale d) {fuel : Nat} (hfuel : s.length < fuel)
    (hroom : Room buff s) :
    Converts last locale d (buff ++ s.takeWhile isname) [] (s.drop (s.takeWhile isname).length)
      (numeralEnd getByte locale fuel) ⟨buff, d, s⟩ := by
  rw [drop_takeWhile]
  exact numeralEnd_converts hd hfuel hroom rfl

/-- Behind a NUL that is taken, nothing that is read counts. -/
theorem numeralEnd_junk (hd : Pointed locale d) {fuel : Nat} (hfuel : s.length < fuel)
    {t junk : List UInt8} (hroom : Room (t ++ 0 :: junk) s) :
    Converts last locale d t (junk ++ s.takeWhile isname ++ [0]) (s.dropWhile isname)
      (numeralEnd getByte locale fuel) ⟨t ++ 0 :: junk, d, s⟩ := by
  refine numeralEnd_converts hd hfuel hroom ?_
  simp only [List.append_assoc, List.cons_append]

/-- The exponent, from behind its letter. -/
theorem exponent_converts (hd : Pointed locale d) {text : List UInt8} {fuel : Nat}
    (hfuel : s.length < fuel) (hroom : Room text s) :
    ∃ junk rest,
      Converts last locale d (text ++ exponent s) junk rest
        (check_next getByte (chars "+-") >>= fun _ => numeralEnd getByte locale fuel)
        ⟨text, d, s⟩ ∧
      (s.head? = some 0 → rest.length < (s.drop (exponent s).length).length) ∧
      (s.head? ≠ some 0 → rest = s.drop (exponent s).length) := by
  cases s with
  | nil =>
    refine ⟨[], _, ?_, fun h => ?_, fun _ => rfl⟩
    · refine (check_next_ends_false fun _ h => ?_).converts (numeralEnd_plain hd hfuel hroom)
      cases h
    · cases h
  | cons c s =>
    have hs : s.length < fuel := Nat.lt_of_succ_lt hfuel
    have hroom' : Room (text ++ [c]) s := Room.append hroom
    by_cases hzero : c = 0
    · subst hzero
      refine ⟨[] ++ s.takeWhile isname ++ [0], s.dropWhile isname,
        (check_next_ends (by decide) (.inl rfl)).converts ?_, fun _ => ?_, fun h => absurd rfl h⟩
      · rw [exponent_zero, List.append_nil]
        exact numeralEnd_junk hd hs hroom'
      · rw [exponent_zero]
        exact Nat.lt_succ_of_le (List.dropWhile_sublist _).length_le
    · have hhead : (c :: s).head? ≠ some 0 := fun h => hzero (Option.some.inj h)
      by_cases hsign : isSign c = true
      · refine ⟨[], _, (check_next_ends (by decide) (.inr hsign)).converts ?_,
          fun h => absurd h hhead, fun _ => rfl⟩
        rw [exponent, if_pos hsign, List.append_cons]
        exact numeralEnd_plain hd hs hroom'
      · refine ⟨[], _, ?_, fun h => absurd h hhead, fun _ => rfl⟩
        rw [exponent, if_neg hsign]
        refine (check_next_ends_false fun c' hc' => ?_).converts (numeralEnd_plain hd hfuel hroom)
        obtain rfl := Option.some.inj hc'
        exact ⟨hzero, eq_false_of_ne_true hsign⟩

/-- What is behind the digits and points of a numeral is read as the reference reads it, but for a
NUL that is taken. -/
theorem numeralTail_converts (hd : Pointed locale d) {text : List UInt8} {fuel : Nat}
    (hfuel : s.length < fuel) (hroom : Room text s) :
    ∃ junk rest,
      Converts last locale d (text ++ numeralTail s) junk rest
        (check_next getByte (chars "Ee") >>= fun exponent =>
          if exponent then
            check_next getByte (chars "+-") >>= fun _ => numeralEnd getByte locale fuel
          else numeralEnd getByte locale fuel) ⟨text, d, s⟩ ∧
      (TakesNul s → rest.length < (s.drop (numeralTail s).length).length) ∧
      (¬ TakesNul s → rest = s.drop (numeralTail s).length) := by
  cases s with
  | nil =>
    refine ⟨[], _, ?_, fun h => h.elim, fun _ => rfl⟩
    refine (check_next_ends_false fun _ h => ?_).converts (numeralEnd_plain hd hfuel hroom)
    cases h
  | cons c s =>
    have hs : s.length < fuel := Nat.lt_of_succ_lt hfuel
    have hroom' : Room (text ++ [c]) s := Room.append hroom
    by_cases hexp : isExponent c = true
    · obtain ⟨junk, rest, hconverts, hnul, hplain⟩ := exponent_converts hd hs hroom'
      have hne : c ≠ 0 := by
        rintro rfl
        exact absurd hexp (by decide)
      refine ⟨junk, rest, ?_, fun h => ?_, fun h => ?_⟩
      · rw [numeralTail, if_pos hexp, List.append_cons]
        exact (check_next_ends (by decide) (.inr hexp)).converts hconverts
      · rw [numeralTail, if_pos hexp]
        exact hnul (h.resolve_left hne).2
      · rw [numeralTail, if_pos hexp]
        exact hplain fun h0 => h (.inr ⟨hexp, h0⟩)
    · have htail : numeralTail (c :: s) = (c :: s).takeWhile isname := by
        rw [numeralTail, if_neg hexp]
      rw [htail]
      by_cases hzero : c = 0
      · subst hzero
        have hnil : (0 :: s).takeWhile isname = [] := by
          rw [List.takeWhile_cons, not_isname_zero]
          rfl
        obtain ⟨took, j, hsign⟩ := sign_ends (text ++ [0]) s
        rw [hnil, List.append_nil]
        refine ⟨s.take j ++ (s.drop j).takeWhile isname ++ [0], (s.drop j).dropWhile isname,
          (check_next_ends (by decide) (.inl rfl)).converts (hsign.converts ?_), fun _ => ?_,
          fun h => absurd (.inl rfl) h⟩
        · have htake : Room (text ++ 0 :: s.take j) (s.drop j) :=
            List.append_cons text 0 (s.take j) ▸ hroom'.take j
          rw [← List.append_cons]
          refine numeralEnd_junk hd (Nat.lt_of_le_of_lt ?_ hs) htake
          exact (List.drop_sublist _ _).length_le
        · refine Nat.lt_succ_of_le ?_
          exact ((List.dropWhile_sublist _).trans (List.drop_sublist _ _)).length_le
      · have hno : ¬ TakesNul (c :: s) := by
          rintro (h | h)
          · exact hzero h
          · exact hexp h.1
        refine ⟨[], _, ?_, fun h => absurd h hno, fun _ => rfl⟩
        refine (check_next_ends_false fun c' hc' => ?_).converts (numeralEnd_plain hd hfuel hroom)
        obtain rfl := Option.some.inj hc'
        exact ⟨hzero, eq_false_of_ne_true hexp⟩

/-- A numeral, from a digit on, with a point that was read before it. -/
theorem read_numeral_converts (last : Nat) (hd : Pointed locale d) {fuel : Nat}
    (hfuel : s.length < fuel) {pre : List UInt8} (hroom : Room pre (c :: s))
    (hpre : ∀ c ∈ pre, isFraction c = true) (hc : isdigit c = true) :
    ∃ junk rest,
      Converts last locale d (numeral (pre ++ c :: s)) junk rest (read_numeral getByte locale fuel)
        ⟨pre, d, c :: s⟩ ∧
      (TakesNul ((pre ++ c :: s).dropWhile isFraction) →
        rest.length < ((pre ++ c :: s).drop (numeral (pre ++ c :: s)).length).length) ∧
      (¬ TakesNul ((pre ++ c :: s).dropWhile isFraction) →
        rest = (pre ++ c :: s).drop (numeral (pre ++ c :: s)).length) := by
  have hfraction : isFraction c = true := by
    rw [isFraction, hc, Bool.true_or]
  have htake : (pre ++ c :: s).takeWhile isFraction = pre ++ [c] ++ s.takeWhile isFraction := by
    rw [List.takeWhile_append_of_pos hpre, List.takeWhile_cons_of_pos hfraction, List.append_assoc]
    rfl
  have hdrop : (pre ++ c :: s).dropWhile isFraction = s.dropWhile isFraction := by
    rw [List.dropWhile_append_of_pos hpre, List.dropWhile_cons_of_pos hfraction]
  have hlen : (s.dropWhile isFraction).length < fuel :=
    Nat.lt_of_le_of_lt (List.dropWhile_sublist _).length_le hfuel
  have hroom' : Room (pre ++ [c] ++ s.takeWhile isFraction) (s.dropWhile isFraction) :=
    (Room.append hroom).takeWhile isFraction
  obtain ⟨junk, rest, hconverts, hnul, hplain⟩ := numeralTail_converts hd hlen hroom'
  have hrest : (pre ++ c :: s).drop (numeral (pre ++ c :: s)).length =
      (s.dropWhile isFraction).drop (numeralTail (s.dropWhile isFraction)).length := by
    rw [numeral, List.length_append, ← List.drop_drop, drop_takeWhile, hdrop]
  rw [hrest, numeral, htake, hdrop]
  refine ⟨junk, rest, ?_, hnul, hplain⟩
  exact (save_and_next_ends (not_isLineEnd isFraction_line hfraction)).converts
    ((saveWhile_ends isFraction_line hfuel).converts hconverts)

end

end Luaxx.Lexer
