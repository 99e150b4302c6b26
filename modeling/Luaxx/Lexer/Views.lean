import Luaxx.Lexer.Chunks
import Luaxx.Lexer.Reference

/-!
# What the lexer sees

A state of the lexer is seen as its buffer, its decimal point and the text before it, of which the
buffer has room for all. A function of the lexer is described by what it makes of this, unless a line
gets a number that is too large.
-/

namespace Luaxx.Lexer

open Luaxx.Ctype Luaxx.Vm Reference

/-! ## Line ends -/

namespace Reference

variable {c : UInt8} {s : List UInt8}

theorem isLineEnd_iff : isLineEnd c = true ↔ c = ch '\n' ∨ c = ch '\r' := by
  rw [isLineEnd, Bool.or_eq_true, beq_iff_eq, beq_iff_eq]

/-- A class without line ends. -/
theorem not_isLineEnd {p : UInt8 → Bool} (hp : p (ch '\n') = false ∧ p (ch '\r') = false)
    (h : p c = true) : isLineEnd c = false := by
  by_contra hend
  rcases isLineEnd_iff.1 (Bool.eq_true_of_not_eq_false hend) with rfl | rfl
  · exact Bool.false_ne_true (hp.1.symm.trans h)
  · exact Bool.false_ne_true (hp.2.symm.trans h)

theorem lines_some (c : UInt8) (t : List UInt8) :
    lines (some c) t = lines none (lineRest c t) := by
  cases t with
  | nil => rfl
  | cons c' t =>
    rw [lineRest, lines]
    by_cases hend : isLineEnd c' = true
    · rw [if_pos hend]
      by_cases hne : c' ≠ c
      · have hany : (some c).any (fun x => decide (x ≠ c')) = true := decide_eq_true hne.symm
        rw [hany, if_pos rfl, if_pos ⟨hend, hne⟩]
      · have hany : (some c).any (fun x => decide (x ≠ c')) = false :=
          decide_eq_false fun h => hne h.symm
        rw [hany, if_neg Bool.false_ne_true, if_neg fun h => hne h.2, lines, if_pos hend]
        rfl
    · rw [if_neg hend, if_neg fun h => hend h.1, lines, if_neg hend]

theorem lineRest_eq (c : UInt8) (s : List UInt8) :
    lineRest c s = s ∨ ∃ c', isLineEnd c' = true ∧ c' ≠ c ∧ s = c' :: lineRest c s := by
  cases s with
  | nil => exact .inl rfl
  | cons c' s =>
    rw [lineRest]
    split_ifs with h
    · exact .inr ⟨c', h.1, h.2, rfl⟩
    · exact .inl rfl

theorem lineRest_suffix (c : UInt8) (s : List UInt8) : lineRest c s <:+ s := by
  rcases lineRest_eq c s with h | ⟨c', -, -, h⟩
  · exact ⟨[], h⟩
  · exact ⟨[c'], h.symm⟩

theorem length_lineRest_le (c : UInt8) (s : List UInt8) : (lineRest c s).length ≤ s.length :=
  (lineRest_suffix c s).length_le

theorem lineEnds_plain (hc : isLineEnd c = false) (s : List UInt8) :
    lineEnds (c :: s) = lineEnds s := by
  rw [lineEnds, lines, hc, if_neg Bool.false_ne_true, List.count_cons_of_ne, lineEnds]
  rintro rfl
  cases hc

theorem lineEnds_line (hc : isLineEnd c = true) (s : List UInt8) :
    lineEnds (c :: s) = lineEnds (lineRest c s) + 1 := by
  rw [lineEnds, lines, if_pos hc, lines_some, lineEnds]
  exact List.count_cons_self

end Reference

/-- The line that the text begins in has a number that is too large, where `last` is that of the last
line. -/
def Overruns (last : Nat) (s : List UInt8) : Prop := MAX_INT + lineEnds s ≤ last

instance (last : Nat) (s : List UInt8) : Decidable (Overruns last s) :=
  inferInstanceAs (Decidable (_ ≤ _))

structure View where
  buff : List UInt8
  decpoint : UInt8
  input : List UInt8

structure Shows (last : Nat) (ls : LexState (List UInt8)) (w : View) : Prop where
  buff_eq : ls.buff = w.buff
  decpoint_eq : ls.decpoint = w.decpoint
  current_eq : ls.current = w.input.head?
  z_eq : ls.z = w.input.tail
  last_eq : ls.linenumber + lineEnds w.input = last
  line_lt : ls.linenumber < MAX_INT
  room : w.buff.length + w.input.length < MAX_SIZET / 2

section

variable {α β : Type}

/-- The computation comes to a value and a view of which `Q` holds, or to an error where a line has a
number that is too large, from which `P` follows. -/
structure Leads (last : Nat) (x : LexM (List UInt8) α) (w : View) (P : Prop) (Q : α → View → Prop) :
    Prop where
  limit : Overruns last w.input → P
  run : ∀ ls, Shows last ls w →
    (∃ e, x.run ls = .error e ∧ e.IsError ∧ P) ∨
      ∃ a ls' w', x.run ls = .ok (a, ls') ∧ Shows last ls' w' ∧ Q a w'

/-- The computation comes to `a` and to the view `w'`, unless the line of `w'` has a number that is
too large. -/
def Ends (last : Nat) (x : LexM (List UInt8) α) (w : View) (a : α) (w' : View) : Prop :=
  Leads last x w (Overruns last w'.input) fun b v => b = a ∧ v = w'

/-- The computation raises an error of the lexer. -/
def Raises (last : Nat) (x : LexM (List UInt8) α) (w : View) : Prop :=
  ∀ ls, Shows last ls w → ∃ e, x.run ls = .error e ∧ e.IsError

variable {last : Nat} {x : LexM (List UInt8) α} {f : α → LexM (List UInt8) β} {w w' w'' : View}
  {a : α} {b : β} {P P' : Prop} {Q Q' : α → View → Prop} {R : β → View → Prop}

theorem Leads.imp (hx : Leads last x w P Q) (hlimit : P → P') (h : ∀ a w', Q a w' → Q' a w') :
    Leads last x w P' Q' where
  limit hover := hlimit (hx.limit hover)
  run ls hls := by
    rcases hx.run ls hls with ⟨e, he, herror, hp⟩ | ⟨a, ls', w', hok, hls', hq⟩
    · exact .inl ⟨e, he, herror, hlimit hp⟩
    · exact .inr ⟨a, ls', w', hok, hls', h a w' hq⟩

theorem Leads.bind (hx : Leads last x w P Q) (hf : ∀ a w', Q a w' → Leads last (f a) w' P R) :
    Leads last (x >>= f) w P R where
  limit := hx.limit
  run ls hls := by
    rcases hx.run ls hls with ⟨e, he, herror⟩ | ⟨a, ls', w', hok, hls', hq⟩
    · exact .inl ⟨e, bind_run_error he, herror⟩
    · rw [bind_run hok]
      exact (hf a w' hq).run ls' hls'

theorem Leads.raises (hx : Leads last x w P Q) (hf : ∀ a w', Q a w' → Raises last (f a) w') :
    Raises last (x >>= f) w := by
  intro ls hls
  rcases hx.run ls hls with ⟨e, he, herror, -⟩ | ⟨a, ls', w', hok, hls', hq⟩
  · exact ⟨e, bind_run_error he, herror⟩
  · rw [bind_run hok]
    exact hf a w' hq ls' hls'

theorem Ends.leads (hx : Ends last x w a w') (hlimit : Overruns last w'.input → P) (h : Q a w') :
    Leads last x w P Q :=
  hx.imp hlimit fun _ _ heq => heq.1 ▸ heq.2 ▸ h

theorem Ends.bind_leads (hx : Ends last x w a w') (hf : Leads last (f a) w' P R) :
    Leads last (x >>= f) w P R :=
  (hx.imp hf.limit fun _ _ heq => heq).bind fun _ _ heq => heq.1 ▸ heq.2 ▸ hf

theorem Ends.bind (hx : Ends last x w a w') (hf : Ends last (f a) w' b w'') :
    Ends last (x >>= f) w b w'' := hx.bind_leads hf

theorem Ends.raises (hx : Ends last x w a w') (hf : Raises last (f a) w') :
    Raises last (x >>= f) w :=
  Leads.raises hx fun _ _ heq => heq.1 ▸ heq.2 ▸ hf

theorem Raises.bind (hx : Raises last x w) : Raises last (x >>= f) w := by
  intro ls hls
  obtain ⟨e, he, herror⟩ := hx ls hls
  exact ⟨e, bind_run_error he, herror⟩

theorem ends_pure : Ends last (pure a) w a w where
  limit := id
  run ls hls := .inr ⟨a, ls, w, rfl, hls, rfl, rfl⟩

/-- The room that there is may be used. -/
theorem Raises.of_room (h : w.buff.length + w.input.length < MAX_SIZET / 2 → Raises last x w) :
    Raises last x w := fun ls hls => h hls.room ls hls

/-- What is known of the variables in a view. -/
structure Seen (v : LexVars) (w : View) : Prop where
  buff_eq : v.buff = w.buff
  decpoint_eq : v.decpoint = w.decpoint
  current_eq : v.current = w.input.head?

theorem Shows.seen {ls : LexState (List UInt8)} (h : Shows last ls w) : Seen ls.toLexVars w :=
  ⟨h.buff_eq, h.decpoint_eq, h.current_eq⟩

theorem raises_look {f : LexVars → LexM (List UInt8) β}
    (hf : ∀ v, Seen v w → Raises last (f v) w) : Raises last (look >>= f) w :=
  fun ls hls => hf ls.toLexVars hls.seen ls hls

/-- Some variables are seen in each view. -/
theorem exists_seen (w : View) : ∃ v, Seen v w :=
  ⟨{ LexVars.initial ⟨TK_EOS, .none⟩ with
      buff := w.buff, decpoint := w.decpoint, current := w.input.head? }, rfl, rfl, rfl⟩

theorem leads_look {f : LexVars → LexM (List UInt8) β}
    (hf : ∀ v, Seen v w → Leads last (f v) w P R) : Leads last (look >>= f) w P R where
  limit := by
    obtain ⟨v, hv⟩ := exists_seen w
    exact (hf v hv).limit
  run ls hls := (hf ls.toLexVars hls.seen).run ls hls

theorem ends_look {f : LexVars → LexM (List UInt8) β}
    (hf : ∀ v, Seen v w → Ends last (f v) w b w') : Ends last (look >>= f) w b w' := leads_look hf

end

/-! ## Characters -/

variable {last : Nat} {buff s : List UInt8} {d c : UInt8}

theorem next_eq_getByte {ls : LexState (List UInt8)} {w : View} (hls : Shows last ls w) :
    (next getByte).run ls = .ok ((), { ls with
      current := w.input.tail.head?, z := w.input.tail.tail }) := by
  rw [next_eq (getByte_eq ls.z), hls.z_eq]

theorem next_ends (hc : isLineEnd c = false) :
    Ends last (next getByte) ⟨buff, d, c :: s⟩ () ⟨buff, d, s⟩ where
  limit hover := by
    rw [Overruns, ← lineEnds_plain hc]
    exact hover
  run ls hls := by
    refine .inr ⟨(), _, ⟨buff, d, s⟩, next_eq_getByte hls, ⟨hls.buff_eq, hls.decpoint_eq, rfl, rfl,
      ?_, hls.line_lt, Nat.lt_trans (Nat.lt_succ_self _) hls.room⟩, rfl, rfl⟩
    rw [← hls.last_eq, lineEnds_plain hc]

theorem change_ends {g : LexVars → LexVars} {w w' : View} (hinput : w'.input = w.input)
    (hg : ∀ ls, Shows last ls w → Shows last { ls with toLexVars := g ls.toLexVars } w') :
    Ends last (change g) w () w' where
  limit hover := by
    rw [hinput]
    exact hover
  run ls hls := .inr ⟨(), _, w', rfl, hg ls hls, rfl, rfl⟩

/-- A character is saved, where the buffer can get room for it. -/
theorem save_cases (c : UInt8) (ls : LexState (List UInt8)) :
    (∃ size, (save c).run ls = .ok ((), { ls with buffsize := size, buff := ls.buff ++ [c] })) ∨
      MAX_SIZET / 2 ≤ ls.buff.length ∧
        (save c).run ls = .error (.lexerror "lexical element too long" ls.linenumber none) := by
  show (∃ size, (if ls.buff.length + 1 > ls.buffsize then _ else _ : LexM (List UInt8) Unit).run ls =
      _) ∨ _ ∧ (if ls.buff.length + 1 > ls.buffsize then _ else _ : LexM (List UInt8) Unit).run ls = _
  by_cases hfull : ls.buff.length + 1 > ls.buffsize
  · rw [if_pos hfull]
    by_cases hlimit : ls.buffsize ≥ MAX_SIZET / 2
    · rw [if_pos hlimit]
      exact .inr ⟨Nat.le_trans hlimit (Nat.le_of_lt_succ hfull), rfl⟩
    · rw [if_neg hlimit]
      exact .inl ⟨ls.buffsize * 2, rfl⟩
  · rw [if_neg hfull]
    exact .inl ⟨ls.buffsize, rfl⟩

theorem save_ok (c : UInt8) {ls : LexState (List UInt8)} {w : View} (hls : Shows last ls w) :
    ∃ size, (save c).run ls = .ok ((), { ls with buffsize := size, buff := w.buff ++ [c] }) := by
  rcases save_cases c ls with ⟨size, hok⟩ | ⟨hlarge, -⟩
  · rw [hls.buff_eq] at hok
    exact ⟨size, hok⟩
  · have hroom := hls.room
    rw [hls.buff_eq] at hlarge
    exact absurd hroom (Nat.not_lt.2 (Nat.le_add_right_of_le hlarge))

theorem save_ends (hroom : buff.length + 1 + s.length < MAX_SIZET / 2) :
    Ends last (save c) ⟨buff, d, s⟩ () ⟨buff ++ [c], d, s⟩ where
  limit := id
  run ls hls := by
    obtain ⟨size, hok⟩ := save_ok c hls
    refine .inr ⟨(), _, ⟨buff ++ [c], d, s⟩, hok, ⟨rfl, hls.decpoint_eq, hls.current_eq, hls.z_eq,
      hls.last_eq, hls.line_lt, ?_⟩, rfl, rfl⟩
    rw [List.length_append]
    exact hroom

theorem save_and_next_ends (hc : isLineEnd c = false) :
    Ends last (save_and_next getByte) ⟨buff, d, c :: s⟩ () ⟨buff ++ [c], d, s⟩ where
  limit hover := by
    rw [Overruns, ← lineEnds_plain hc]
    exact hover
  run ls hls := by
    obtain ⟨size, hok⟩ := save_ok c hls
    refine .inr ⟨(), { ls with
      buffsize := size, buff := buff ++ [c], current := s.head?, z := s.tail }, ⟨buff ++ [c], d, s⟩,
      ?_, ⟨rfl, hls.decpoint_eq, rfl, rfl, ?_, hls.line_lt, ?_⟩, rfl, rfl⟩
    · show ((save (ls.current.getD 255)).bind fun _ => next getByte).run ls = _
      rw [hls.current_eq]
      refine (bind_run (f := fun _ => next getByte) hok).trans ?_
      rw [next_eq (getByte_eq _), hls.z_eq]
      rfl
    · rw [← hls.last_eq, lineEnds_plain hc]
    · have hroom := hls.room
      rw [List.length_cons, ← Nat.add_assoc, Nat.add_right_comm] at hroom
      rw [List.length_append]
      exact hroom

theorem luaZ_resetbuffer_ends : Ends last luaZ_resetbuffer ⟨buff, d, s⟩ () ⟨[], d, s⟩ :=
  change_ends rfl fun _ hls => ⟨rfl, hls.decpoint_eq, hls.current_eq, hls.z_eq, hls.last_eq,
    hls.line_lt, Nat.lt_of_le_of_lt (Nat.zero_add _ ▸ Nat.le_add_left _ _) hls.room⟩

/-! ## Errors -/

theorem txtToken_cases (token : Nat) (ls : LexState (List UInt8)) :
    (∃ e, (txtToken token).run ls = .error e ∧ e.IsError) ∨
      ∃ near ls', (txtToken token).run ls = .ok (near, ls') := by
  rw [txtToken]
  split_ifs
  · rcases save_cases 0 ls with ⟨size, hok⟩ | ⟨-, herror⟩
    · exact .inr ⟨_, _, bind_run hok⟩
    · exact .inl ⟨_, bind_run_error herror, trivial⟩
  · exact .inr ⟨_, _, rfl⟩

theorem luaX_lexerror_run {α : Type} (msg : String) (token : Nat) (ls : LexState (List UInt8)) :
    ∃ e, (luaX_lexerror msg token : LexM (List UInt8) α).run ls = .error e ∧ e.IsError := by
  rw [luaX_lexerror]
  split_ifs
  · exact ⟨_, rfl, trivial⟩
  · rcases txtToken_cases token ls with ⟨e, he, herror⟩ | ⟨near, ls', hok⟩
    · refine ⟨e, ?_, herror⟩
      exact bind_run_error (f := fun near => throw (.lexerror msg ls.linenumber (some near))) he
    · refine ⟨.lexerror msg ls.linenumber (some near), ?_, trivial⟩
      exact bind_run (f := fun near => throw (.lexerror msg ls.linenumber (some near))) hok

theorem luaX_lexerror_raises {α : Type} (msg : String) (token : Nat) (w : View) :
    Raises last (luaX_lexerror msg token : LexM (List UInt8) α) w :=
  fun ls _ => luaX_lexerror_run msg token ls

/-! ## Lines -/

theorem currIsNewline_seen {v : LexVars} (hv : Seen v ⟨buff, d, s⟩) :
    currIsNewline v = s.head?.any isLineEnd := by
  rw [currIsNewline, hv.current_eq]
  cases s <;> rfl

/-- The end of `inclinenumber`. -/
def countLine : LexM (List UInt8) Unit := do
  change fun ls => { ls with linenumber := ls.linenumber + 1 }
  let ls ← look
  if ls.linenumber ≥ MAX_INT then luaX_syntaxerror "chunk has too many lines"

theorem inclinenumber_countLine {ls : LexState (List UInt8)} (hcurrent : ls.current = some c)
    (hz : ls.z = s) : (inclinenumber getByte).run ls =
      countLine.run { ls with current := (lineRest c s).head?, z := (lineRest c s).tail } := by
  have hnext : (next getByte).run ls = .ok ((), { ls with current := s.head?, z := s.tail }) := by
    rw [next_eq (getByte_eq ls.z), hz]
  have hseen : currIsNewline { ls with current := s.head? }.toLexVars = s.head?.any isLineEnd := by
    cases s <;> rfl
  show (next getByte >>= fun _ => look >>= fun v =>
    if currIsNewline v = true ∧ v.current ≠ ls.current then next getByte >>= fun _ => countLine
    else countLine : LexM (List UInt8) Unit).run ls = _
  rw [bind_run hnext]
  show (if currIsNewline { ls with current := s.head? }.toLexVars = true ∧ s.head? ≠ ls.current then
    next getByte >>= fun _ => countLine else countLine).run { ls with current := s.head?, z := s.tail } = _
  rw [hseen, hcurrent]
  cases s with
  | nil => rfl
  | cons c' s =>
    rw [lineRest]
    by_cases h : isLineEnd c' = true ∧ c' ≠ c
    · rw [if_pos h, if_pos ⟨h.1, fun heq => h.2 (Option.some.inj heq)⟩,
        bind_run (next_eq (getByte_eq _))]
      rfl
    · rw [if_neg h, if_neg (fun h' => h ⟨h'.1, fun heq => h'.2 (congrArg some heq)⟩)]

theorem countLine_cases (ls : LexState (List UInt8)) :
    (MAX_INT ≤ ls.linenumber + 1 ∧ ∃ e, countLine.run ls = .error e ∧ e.IsError) ∨
      (ls.linenumber + 1 < MAX_INT ∧
        countLine.run ls = .ok ((), { ls with linenumber := ls.linenumber + 1 })) := by
  by_cases h : MAX_INT ≤ ls.linenumber + 1
  · refine .inl ⟨h, ?_⟩
    show ∃ e, (if ls.linenumber + 1 ≥ MAX_INT then _ else _ : LexM (List UInt8) Unit).run
      { ls with linenumber := ls.linenumber + 1 } = .error e ∧ e.IsError
    rw [if_pos h]
    exact luaX_lexerror_run _ _ _
  · refine .inr ⟨Nat.lt_of_not_le h, ?_⟩
    show (if ls.linenumber + 1 ≥ MAX_INT then _ else _ : LexM (List UInt8) Unit).run
      { ls with linenumber := ls.linenumber + 1 } = _
    rw [if_neg h]
    rfl

/-- The line end is counted, in a state that shows the text but for its buffer. -/
theorem inclinenumber_shown (buff : List UInt8) {ls : LexState (List UInt8)} (hend : isLineEnd c = true)
    (hls : Shows last { ls with buff := buff } ⟨buff, d, c :: s⟩) {buff' : List UInt8}
    (hbuff : ls.buff = buff') (hroom : buff'.length ≤ buff.length + 1) :
    (∃ e, (inclinenumber getByte).run ls = .error e ∧ e.IsError ∧ Overruns last (lineRest c s)) ∨
      ∃ a ls' w', (inclinenumber getByte).run ls = .ok (a, ls') ∧ Shows last ls' w' ∧
        a = () ∧ w' = ⟨buff', d, lineRest c s⟩ := by
  have hlast : ls.linenumber + 1 + lineEnds (lineRest c s) = last := by
    have heq : ls.linenumber + lineEnds (c :: s) = last := hls.last_eq
    rw [← heq, lineEnds_line hend, Nat.add_right_comm, Nat.add_assoc]
  have hlen := length_lineRest_le c s
  have hlarge : buff.length + (s.length + 1) < MAX_SIZET / 2 := hls.room
  have hcurrent : ls.current = some c := hls.current_eq
  rw [inclinenumber_countLine hcurrent hls.z_eq]
  rcases countLine_cases { ls with current := (lineRest c s).head?, z := (lineRest c s).tail } with
    ⟨hline, e, he, herror⟩ | ⟨hline, hok⟩
  · refine .inl ⟨e, he, herror, ?_⟩
    rw [Overruns, ← hlast]
    exact Nat.add_le_add_right hline _
  · refine .inr ⟨(), _, ⟨buff', d, lineRest c s⟩, hok, ⟨hbuff, hls.decpoint_eq, rfl, rfl, hlast, hline, ?_⟩, rfl, rfl⟩
    show buff'.length + (lineRest c s).length < _
    omega

theorem overruns_line (hend : isLineEnd c = true) (h : Overruns last (c :: s)) :
    Overruns last (lineRest c s) := by
  rw [Overruns, lineEnds_line hend] at h
  exact Nat.le_of_succ_le h

theorem inclinenumber_ends (hend : isLineEnd c = true) :
    Ends last (inclinenumber getByte) ⟨buff, d, c :: s⟩ () ⟨buff, d, lineRest c s⟩ where
  limit := overruns_line hend
  run _ hls := inclinenumber_shown buff hend
    ⟨rfl, hls.decpoint_eq, hls.current_eq, hls.z_eq, hls.last_eq, hls.line_lt, hls.room⟩ hls.buff_eq
    (Nat.le_succ _)

/-- A line end is saved as one character. -/
theorem save_line_ends (hend : isLineEnd c = true) :
    Ends last (save (ch '\n') >>= fun _ => inclinenumber getByte) ⟨buff, d, c :: s⟩ ()
      ⟨buff ++ [ch '\n'], d, lineRest c s⟩ where
  limit := overruns_line hend
  run ls hls := by
    obtain ⟨size, hok⟩ := save_ok (ch '\n') hls
    rw [bind_run hok]
    refine inclinenumber_shown buff hend ?_ rfl (List.length_append ▸ Nat.le_refl _)
    exact ⟨rfl, hls.decpoint_eq, hls.current_eq, hls.z_eq, hls.last_eq, hls.line_lt, hls.room⟩

end Luaxx.Lexer
