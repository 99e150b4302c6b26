import Mathlib.Data.List.Count
import Luaxx.Format.Format
import Luaxx.Lexer.Chunks

/-!
# Strings that are quoted by `%q` are read again

One step of the loop of `read_string` reads what `addquoted` adds for one character, whatever comes
behind it. The lexer counts the lines, and its buffer is at most doubled to 2 ^ 63 bytes.
-/

namespace Luaxx.Lexer

open Luaxx.Ctype Luaxx.Vm

/-! ## Steps on the characters before the lexer -/

section

variable {v : LexVars} {s : List UInt8}

theorem next_run (c : UInt8) : (next getByte).run (showing v (c :: s)) = .ok ((), showing v s) :=
  next_eq (getByte_eq s)

/-- There is room for `n` more bytes in the buffer, which grows by doubling. -/
structure LexVars.Room (v : LexVars) (n : Nat) : Prop where
  doubled : ∃ k, v.buffsize = 2 ^ k
  length_le : v.buff.length + n ≤ 2 ^ 63

def LexVars.saved (v : LexVars) (c : UInt8) : LexVars :=
  { v with
    buff := v.buff ++ [c]
    buffsize := if v.buff.length + 1 > v.buffsize then v.buffsize * 2 else v.buffsize }

theorem LexVars.Room.saved {n : Nat} (h : v.Room (n + 1)) (c : UInt8) : (v.saved c).Room n := by
  obtain ⟨k, hk⟩ := h.doubled
  refine ⟨?_, ?_⟩
  · rw [LexVars.saved]
    split_ifs
    · exact ⟨k + 1, by rw [hk, Nat.pow_succ]⟩
    · exact ⟨k, hk⟩
  · have hlen := h.length_le
    show (v.buff ++ [c]).length + n ≤ 2 ^ 63
    rw [List.length_append, List.length_singleton]
    omega

theorem LexVars.Room.mono {m n : Nat} (h : v.Room n) (hmn : m ≤ n) : v.Room m :=
  ⟨h.doubled, (Nat.add_le_add_left hmn _).trans h.length_le⟩

/-- A buffer that is full and cannot be doubled has 2 ^ 63 bytes or more. -/
theorem save_run (h : v.Room 1) (c : UInt8) :
    (save c).run (showing v s) = .ok ((), showing (v.saved c) s) := by
  rw [save, look_run, LexVars.saved]
  by_cases hfull : v.buff.length + 1 > v.buffsize
  · have hlimit : ¬ v.buffsize ≥ MAX_SIZET / 2 := by
      obtain ⟨k, hk⟩ := h.doubled
      have hlen := h.length_le
      intro hge
      rw [hk] at hge hfull
      have hpow : 63 ≤ k := by
        by_contra hlt
        have := Nat.pow_le_pow_right (show 0 < 2 by decide) (show k ≤ 62 by omega)
        rw [MAX_SIZET] at hge
        omega
      have := Nat.pow_le_pow_right (show 0 < 2 by decide) hpow
      omega
    rw [if_pos (show (showing v s).buff.length + 1 > (showing v s).buffsize from hfull),
      if_neg (show ¬ (showing v s).buffsize ≥ MAX_SIZET / 2 from hlimit), change_run, if_pos hfull]
    rfl
  · rw [if_neg (show ¬ (showing v s).buff.length + 1 > (showing v s).buffsize from hfull), change_run,
      if_neg hfull]
    rfl

theorem save_and_next_run (h : v.Room 1) (c : UInt8) :
    (save_and_next getByte).run (showing v (c :: s)) = .ok ((), showing (v.saved c) s) := by
  rw [save_and_next, look_run]
  show (save c >>= fun _ => next getByte).run (showing v (c :: s)) = _
  rw [bind_run (save_run h c)]
  exact next_run c

/-- No newline is before the lexer. -/
def NotNewline (s : List UInt8) : Prop := s.head? ≠ some (ch '\n') ∧ s.head? ≠ some (ch '\r')

theorem currIsNewline_showing (h : NotNewline s) : currIsNewline (showing v s).toLexVars = false := by
  rw [currIsNewline, Bool.or_eq_false_iff]
  exact ⟨beq_false_of_ne h.1, beq_false_of_ne h.2⟩

def LexVars.counted (v : LexVars) : LexVars := { v with linenumber := v.linenumber + 1 }

theorem inclinenumber_run (c : UInt8) (hs : NotNewline s) :
    (inclinenumber getByte).run (showing v (c :: s)) =
      if v.linenumber + 1 ≥ MAX_INT then
        (luaX_syntaxerror "chunk has too many lines").run (showing v.counted s)
      else .ok ((), showing v.counted s) := by
  rw [inclinenumber, look_run, bind_run (next_run c), look_run,
    if_neg (fun h => Bool.noConfusion ((currIsNewline_showing hs).symm.trans h.1)),
    bind_run (change_run _ _), look_run]
  show (if v.linenumber + 1 ≥ MAX_INT then _ else _ : LexM (List UInt8) Unit).run _ = _
  split_ifs <;> rfl

/-! ## What `addquoted` adds is read -/

/-- The variables behind a character of a string. -/
def LexVars.kept (v : LexVars) (c : UInt8) : LexVars :=
  if c = ch '\n' then (v.saved c).counted else v.saved c

theorem kept_buff (c : UInt8) : (v.kept c).buff = v.buff ++ [c] := by
  rw [LexVars.kept]
  split_ifs <;> rfl

theorem kept_linenumber (c : UInt8) :
    (v.kept c).linenumber = v.linenumber + if c = ch '\n' then 1 else 0 := by
  rw [LexVars.kept]
  split_ifs <;> rfl

theorem LexVars.Room.kept {n : Nat} (h : v.Room (n + 1)) (c : UInt8) : (v.kept c).Room n := by
  rw [LexVars.kept]
  split_ifs
  · exact ⟨(h.saved c).doubled, (h.saved c).length_le⟩
  · exact h.saved c

/-- A character that is neither a letter of an escape nor a digit nor a newline is itself. -/
theorem read_escape_itself (c : UInt8) (hroom : v.Room 1) (hletter : escapes.lookup c = none)
    (hnewline : ¬ (c = ch '\n' ∨ c = ch '\r')) (hdigit : isdigit c = false) :
    (read_escape getByte).run (showing v (ch '\\' :: c :: s)) = .ok ((), showing (v.saved c) s) := by
  rw [read_escape, bind_run (next_run _), look_run]
  have hcurrent : (showing v (c :: s)).toLexVars.current = some c := rfl
  rw [hcurrent]
  dsimp only
  rw [hletter]
  dsimp only
  rw [if_neg hnewline, hdigit, if_neg Bool.false_ne_true]
  exact save_and_next_run hroom c

/-- `\r`. -/
theorem read_escape_return (hroom : v.Room 1) :
    (read_escape getByte).run (showing v (ch '\\' :: ch 'r' :: s)) =
      .ok ((), showing (v.saved (ch '\r')) s) := by
  rw [read_escape, bind_run (next_run _), look_run]
  show (do
    save (ch '\r')
    next getByte : LexM (List UInt8) Unit).run _ = _
  rw [bind_run (save_run hroom _)]
  exact next_run _

theorem decimalEscape_digit {d : UInt8} (hd : isdigit d = true) (k n : Nat) :
    (decimalEscape getByte (k + 1) n).run (showing v (d :: s)) =
      (decimalEscape getByte k (10 * n + (d.toNat - 48))).run (showing v s) := by
  rw [decimalEscape, look_run]
  show (if isdigit d then do
      next getByte
      decimalEscape getByte k (10 * n + (d.toNat - 48))
    else pure n : LexM (List UInt8) Nat).run _ = _
  rw [if_pos hd, bind_run (next_run d)]

/-- `\000`, whatever the next character is. -/
theorem read_escape_zero (hroom : v.Room 1) :
    (read_escape getByte).run (showing v (ch '\\' :: ch '0' :: ch '0' :: ch '0' :: s)) =
      .ok ((), showing (v.saved 0) s) := by
  have hdigits : (decimalEscape getByte 3 0).run (showing v (ch '0' :: ch '0' :: ch '0' :: s)) =
      .ok (0, showing v s) := by
    have hd : isdigit (ch '0') = true := by decide
    rw [decimalEscape_digit hd, decimalEscape_digit hd, decimalEscape_digit hd]
    rfl
  rw [read_escape, bind_run (next_run _), look_run]
  show (do
    let c ← decimalEscape getByte 3 0
    if c > 255 then luaX_lexerror "escape sequence too large" TK_STRING
    else save (UInt8.ofNat c) : LexM (List UInt8) Unit).run _ = _
  rw [bind_run hdigits, if_neg (by decide)]
  exact save_run hroom 0

/-- A newline behind the backslash. -/
theorem read_escape_newline (hroom : v.Room 1) (hs : NotNewline s) :
    (read_escape getByte).run (showing v (ch '\\' :: ch '\n' :: s)) =
      if v.linenumber + 1 ≥ MAX_INT then
        (luaX_syntaxerror "chunk has too many lines").run (showing (v.kept (ch '\n')) s)
      else .ok ((), showing (v.kept (ch '\n')) s) := by
  rw [read_escape, bind_run (next_run _), look_run]
  show (do
    save (ch '\n')
    inclinenumber getByte : LexM (List UInt8) Unit).run _ = _
  rw [bind_run (save_run hroom _), inclinenumber_run _ hs]
  rfl

theorem stringLoop_backslash (k : Nat) :
    (stringLoop getByte (ch '"') (k + 1)).run (showing v (ch '\\' :: s)) =
      (read_escape getByte >>= fun _ => stringLoop getByte (ch '"') k).run
        (showing v (ch '\\' :: s)) := rfl

/-- A character that `read_string` keeps as it is. -/
theorem stringLoop_plain {c : UInt8} (hroom : v.Room 1) (hquote : c ≠ ch '"')
    (hnewline : ¬ (c = ch '\n' ∨ c = ch '\r')) (hback : c ≠ ch '\\') (k : Nat) :
    (stringLoop getByte (ch '"') (k + 1)).run (showing v (c :: s)) =
      (stringLoop getByte (ch '"') k).run (showing (v.saved c) s) := by
  rw [stringLoop, look_run]
  show (if c = ch '"' then pure ()
    else if c = ch '\n' ∨ c = ch '\r' then luaX_lexerror "unfinished string" TK_STRING
    else if c = ch '\\' then do
      read_escape getByte
      stringLoop getByte (ch '"') k
    else do
      save_and_next getByte
      stringLoop getByte (ch '"') k : LexM (List UInt8) Unit).run _ = _
  rw [if_neg hquote, if_neg hnewline, if_neg hback, bind_run (save_and_next_run hroom c)]

/-- One step of the loop reads what is added for one character. -/
theorem stringLoop_quoteChar (c : UInt8) (hroom : v.Room 1) (hs : NotNewline s)
    (hlines : (v.kept c).linenumber < MAX_INT) (k : Nat) :
    (stringLoop getByte (ch '"') (k + 1)).run (showing v (Format.quoteChar c ++ s)) =
      (stringLoop getByte (ch '"') k).run (showing (v.kept c) s) := by
  rw [Format.quoteChar, LexVars.kept]
  rw [kept_linenumber] at hlines
  by_cases hline : c = ch '\n'
  · subst hline
    rw [if_pos rfl] at hlines ⊢
    show (stringLoop getByte (ch '"') (k + 1)).run (showing v (ch '\\' :: ch '\n' :: s)) = _
    have hescape : (read_escape getByte).run (showing v (ch '\\' :: ch '\n' :: s)) =
        .ok ((), showing (v.saved (ch '\n')).counted s) := by
      rw [read_escape_newline hroom hs, if_neg (by omega)]
      rfl
    rw [stringLoop_backslash, bind_run hescape]
  rw [if_neg hline]
  by_cases hquote : c = ch '"'
  · subst hquote
    show (stringLoop getByte (ch '"') (k + 1)).run (showing v (ch '\\' :: ch '"' :: s)) = _
    rw [stringLoop_backslash,
      bind_run (read_escape_itself _ hroom (by decide) (by decide) (by decide))]
  by_cases hback : c = ch '\\'
  · subst hback
    show (stringLoop getByte (ch '"') (k + 1)).run (showing v (ch '\\' :: ch '\\' :: s)) = _
    rw [stringLoop_backslash,
      bind_run (read_escape_itself _ hroom (by decide) (by decide) (by decide))]
  rw [if_neg (fun h => h.elim hquote (fun h => h.elim hback hline))]
  by_cases hreturn : c = ch '\r'
  · subst hreturn
    show (stringLoop getByte (ch '"') (k + 1)).run (showing v (ch '\\' :: ch 'r' :: s)) = _
    rw [stringLoop_backslash, bind_run (read_escape_return hroom)]
  rw [if_neg hreturn]
  by_cases hzero : c = 0
  · subst hzero
    show (stringLoop getByte (ch '"') (k + 1)).run
      (showing v (ch '\\' :: ch '0' :: ch '0' :: ch '0' :: s)) = _
    rw [stringLoop_backslash, bind_run (read_escape_zero hroom)]
  rw [if_neg hzero]
  exact stringLoop_plain hroom hquote (fun h => h.elim hline hreturn) hback k

end

theorem notNewline_backslash (s : List UInt8) : NotNewline (ch '\\' :: s) :=
  ⟨fun h => absurd (Option.some.inj h) (by decide), fun h => absurd (Option.some.inj h) (by decide)⟩

theorem NotNewline.quoted (s : List UInt8) {rest : List UInt8} (hrest : NotNewline rest) :
    NotNewline (s.flatMap Format.quoteChar ++ rest) := by
  cases s with
  | nil => exact hrest
  | cons c s =>
    rw [List.flatMap_cons, Format.quoteChar]
    split_ifs with h1 h2 h3
    · exact notNewline_backslash _
    · exact notNewline_backslash _
    · exact notNewline_backslash _
    · exact ⟨fun h => h1 (.inr (.inr (Option.some.inj h))), fun h => h2 (Option.some.inj h)⟩

/-- The variables behind the characters of a string. -/
def LexVars.keptAll (v : LexVars) (s : List UInt8) : LexVars := s.foldl LexVars.kept v

theorem keptAll_buff (v : LexVars) (s : List UInt8) : (v.keptAll s).buff = v.buff ++ s := by
  induction s generalizing v with
  | nil => exact (List.append_nil _).symm
  | cons c s ih =>
    show ((v.kept c).keptAll s).buff = _
    rw [ih, kept_buff, List.append_assoc, List.singleton_append]

theorem LexVars.Room.keptAll {v : LexVars} {s : List UInt8} {n : Nat} (h : v.Room (s.length + n)) :
    (v.keptAll s).Room n := by
  induction s generalizing v with
  | nil => exact h.mono (by simp)
  | cons c s ih =>
    rw [List.length_cons, Nat.add_right_comm] at h
    exact ih (h.kept c)

theorem stringLoop_quoted (s : List UInt8) {v : LexVars} {rest : List UInt8}
    (hroom : v.Room s.length) (hrest : NotNewline rest)
    (hlines : v.linenumber + s.count (ch '\n') < MAX_INT) (k : Nat) :
    (stringLoop getByte (ch '"') (s.length + k)).run
        (showing v (s.flatMap Format.quoteChar ++ rest)) =
      (stringLoop getByte (ch '"') k).run (showing (v.keptAll s) rest) := by
  induction s generalizing v with
  | nil =>
    rw [List.length_nil, Nat.zero_add]
    rfl
  | cons c s ih =>
    have hcount : (v.kept c).linenumber + s.count (ch '\n') < MAX_INT := by
      rw [List.count_cons] at hlines
      rw [kept_linenumber]
      simp only [beq_iff_eq] at hlines
      omega
    rw [List.length_cons, Nat.add_right_comm, List.flatMap_cons, List.append_assoc,
      stringLoop_quoteChar c (hroom.mono (by simp)) (hrest.quoted s) (by omega)]
    exact ih (hroom.kept c) hcount

theorem luaX_syntaxerror_run {β : Type} {v : LexVars} {s : List UInt8} (hroom : v.Room 1)
    (msg : String) : ∃ near, (luaX_syntaxerror msg : LexM (List UInt8) β).run (showing v s) =
      .error (.lexerror msg v.linenumber near) := by
  rw [luaX_syntaxerror, look_run, luaX_lexerror]
  split_ifs
  · exact ⟨none, rfl⟩
  · rw [look_run, txtToken]
    split_ifs
    · refine ⟨some (cstr (v.saved 0).buff), ?_⟩
      rw [StateT.run_bind, bind_run (save_run hroom 0)]
      rfl
    · exact ⟨some (luaX_token2str v.t.token), rfl⟩

/-- With too many newlines in a string, one of them is the last that the lexer counts. -/
theorem stringLoop_too_many (s : List UInt8) {v : LexVars} {rest : List UInt8}
    (hroom : v.Room (s.length + 1)) (hrest : NotNewline rest) (hlines : v.linenumber < MAX_INT)
    (hmany : MAX_INT ≤ v.linenumber + s.count (ch '\n')) (k : Nat) :
    ∃ line near, (stringLoop getByte (ch '"') (s.length + k)).run
        (showing v (s.flatMap Format.quoteChar ++ rest)) =
      .error (.lexerror "chunk has too many lines" line near) := by
  induction s generalizing v with
  | nil =>
    rw [List.count_nil] at hmany
    omega
  | cons c s ih =>
    rw [List.length_cons, Nat.add_right_comm, List.flatMap_cons, List.append_assoc]
    rw [List.length_cons] at hroom
    by_cases hlast : c = ch '\n' ∧ MAX_INT ≤ v.linenumber + 1
    · obtain ⟨rfl, hge⟩ := hlast
      obtain ⟨near, herror⟩ := luaX_syntaxerror_run (β := Unit)
        (s := s.flatMap Format.quoteChar ++ rest) ((hroom.kept (ch '\n')).mono (by omega))
        "chunk has too many lines"
      refine ⟨(v.kept (ch '\n')).linenumber, near, ?_⟩
      show (stringLoop getByte (ch '"') (s.length + k + 1)).run
        (showing v (ch '\\' :: ch '\n' :: (s.flatMap Format.quoteChar ++ rest))) = _
      rw [stringLoop_backslash, bind_run_error]
      rw [read_escape_newline (hroom.mono (by omega)) (hrest.quoted s), if_pos hge]
      exact herror
    · have hnext : (v.kept c).linenumber < MAX_INT := by
        rw [kept_linenumber]
        split_ifs with hc
        · exact Nat.lt_of_not_le fun hge => hlast ⟨hc, hge⟩
        · exact hlines
      have hcount : MAX_INT ≤ (v.kept c).linenumber + s.count (ch '\n') := by
        rw [List.count_cons] at hmany
        rw [kept_linenumber]
        simp only [beq_iff_eq] at hmany
        omega
      rw [stringLoop_quoteChar c (hroom.mono (by omega)) (hrest.quoted s) hnext]
      exact ih (hroom.kept c) hnext hcount

/-! ## The token -/

theorem initial_room (t : Token) {n : Nat} (h : n ≤ 2 ^ 63) : (LexVars.initial t).Room n :=
  ⟨⟨5, rfl⟩, (Nat.zero_add n).le.trans h⟩

/-- Behind a quoted string, with the characters and both quotes in the buffer. -/
def LexVars.read (v : LexVars) (s : List UInt8) : LexVars :=
  ((v.saved (ch '"')).keptAll s).saved (ch '"')

theorem read_buff {v : LexVars} (hbuff : v.buff = []) (s : List UInt8) :
    (v.read s).buff = ch '"' :: s ++ [ch '"'] := by
  show ((v.saved (ch '"')).keptAll s).buff ++ [ch '"'] = _
  rw [keptAll_buff]
  show v.buff ++ [ch '"'] ++ s ++ [ch '"'] = _
  rw [hbuff]
  rfl

/-- The delimiter ends the loop. -/
theorem stringLoop_quote (v : LexVars) (s : List UInt8) (k : Nat) :
    (stringLoop getByte (ch '"') (k + 1)).run (showing v (ch '"' :: s)) =
      .ok ((), showing v (ch '"' :: s)) := rfl

theorem read_string_quoted {v : LexVars} (s : List UInt8) (hbuff : v.buff = [])
    (hroom : v.Room (s.length + 2)) (hlines : v.linenumber + s.count (ch '\n') < MAX_INT) (k : Nat) :
    (read_string getByte (s.length + (k + 1)) (ch '"')).run (showing v (Format.addquoted s)) =
      .ok (.ts s, showing (v.read s) []) := by
  have hopen : (v.saved (ch '"')).Room (s.length + 1) := hroom.saved (ch '"')
  have hquote : NotNewline [ch '"'] := ⟨by decide, by decide⟩
  have hclose : ((v.saved (ch '"')).keptAll s).Room 1 := hopen.keptAll
  rw [read_string]
  show StateT.run _ (showing v (ch '"' :: (s.flatMap Format.quoteChar ++ [ch '"']))) = _
  rw [bind_run (save_and_next_run (hroom.mono (by omega)) _),
    bind_run ((stringLoop_quoted s (hopen.mono (by omega)) hquote hlines _).trans
      (stringLoop_quote _ _ _)),
    bind_run (save_and_next_run hclose _), look_run]
  show Except.ok (SemInfo.ts (((v.read s).buff.drop 1).take ((v.read s).buff.length - 2)), _) = _
  have htext : ((v.read s).buff.drop 1).take ((v.read s).buff.length - 2) = s := by
    rw [read_buff hbuff, List.cons_append, List.drop_one, List.tail_cons, List.length_cons,
      List.length_append, List.length_singleton]
    exact List.take_left
  rw [htext]
  rfl

/-- `llex` at a quote. -/
theorem llexLoop_quote (locale : Locale) (fuel k : Nat) (v : LexVars) (s : List UInt8) :
    (llexLoop getByte locale fuel (k + 1)).run (showing v (ch '"' :: s)) =
      (read_string getByte fuel (ch '"') >>= fun s => pure ⟨TK_STRING, s⟩).run
        (showing v (ch '"' :: s)) := rfl

theorem llex_quoted (locale : Locale) (t : Token) {s : List UInt8} (hlen : s.length + 2 ≤ 2 ^ 63)
    (hlines : s.count (ch '\n') + 1 < MAX_INT) {fuel : Nat} (hfuel : s.length < fuel) :
    (llex getByte locale fuel).run (showing (LexVars.initial t) (Format.addquoted s)) =
      .ok (⟨TK_STRING, .ts s⟩, showing ((LexVars.initial t).read s) []) := by
  obtain ⟨k, rfl⟩ : ∃ k, fuel = s.length + (k + 1) := ⟨fuel - s.length - 1, by omega⟩
  rw [llex]
  show (llexLoop getByte locale (s.length + (k + 1)) (s.length + k + 1)).run
    (showing (LexVars.initial t) (ch '"' :: (s.flatMap Format.quoteChar ++ [ch '"']))) = _
  rw [llexLoop_quote]
  have hlines' : (LexVars.initial t).linenumber + s.count (ch '\n') < MAX_INT := by
    show 1 + s.count (ch '\n') < MAX_INT
    omega
  exact bind_run (read_string_quoted s rfl (initial_room t hlen) hlines' k)

theorem llex_too_many (locale : Locale) (t : Token) {s : List UInt8} (hlen : s.length + 2 ≤ 2 ^ 63)
    (hmany : MAX_INT ≤ s.count (ch '\n') + 1) {fuel : Nat} (hfuel : s.length < fuel) :
    ∃ line near, (llex getByte locale fuel).run (showing (LexVars.initial t) (Format.addquoted s)) =
      .error (.lexerror "chunk has too many lines" line near) := by
  obtain ⟨k, rfl⟩ : ∃ k, fuel = s.length + (k + 1) := ⟨fuel - s.length - 1, by omega⟩
  have hroom := initial_room t hlen
  obtain ⟨line, near, herror⟩ := @stringLoop_too_many s _ [ch '"'] (hroom.saved (ch '"'))
    ⟨by decide, by decide⟩ (show 1 < MAX_INT by decide)
    (show MAX_INT ≤ 1 + s.count (ch '\n') by omega) (k + 1)
  refine ⟨line, near, ?_⟩
  rw [llex]
  show (llexLoop getByte locale (s.length + (k + 1)) (s.length + k + 1)).run
    (showing (LexVars.initial t) (ch '"' :: (s.flatMap Format.quoteChar ++ [ch '"']))) = _
  rw [llexLoop_quote, bind_run_error]
  rw [read_string, bind_run (save_and_next_run (hroom.mono (by omega)) _), bind_run_error herror]

theorem length_le_quoted (s : List UInt8) : s.length ≤ (s.flatMap Format.quoteChar).length := by
  induction s with
  | nil => exact Nat.le_refl 0
  | cons c s ih =>
    have hchar : 1 ≤ (Format.quoteChar c).length := by
      rw [Format.quoteChar]
      split_ifs
      · exact Nat.le_succ 1
      · decide
      · decide
      · exact Nat.le_refl 1
    rw [List.flatMap_cons, List.length_append, List.length_cons]
    omega

theorem quoted_short {s : List UInt8} {fuel : Nat} (h : (Format.addquoted s).length < fuel) :
    s.length < fuel := by
  have hquoted := length_le_quoted s
  rw [Format.addquoted, List.length_append, List.length_cons] at h
  omega

/-- With the line counter at its limit, the lexer stops. -/
theorem llex_many_lines {ls : LexState ZIO} {s : List UInt8} (locale : Locale) (t : Token)
    (hreads : Reads ls (showing (LexVars.initial t) (Format.addquoted s)))
    (hlen : s.length + 2 ≤ 2 ^ 63) (hmany : MAX_INT ≤ s.count (ch '\n') + 1) {fuel : Nat}
    (hfuel : (Format.addquoted s).length < fuel) :
    ∃ line near, (llex zgetc locale fuel).run ls =
      .error (.lexerror "chunk has too many lines" line near) := by
  have hsize := size_showing (LexVars.initial t) (Format.addquoted s)
  obtain ⟨line, near, herror⟩ := llex_too_many locale t hlen hmany (quoted_short hfuel)
  exact ⟨line, near, ((llex_alike locale (hsize.trans_lt hfuel)).error hreads herror).1⟩

/-- From any pieces, what `addquoted` writes is one string token, and then comes the end. -/
theorem addquoted_roundtrip {z : ZIO} {s : List UInt8} (hz : z.Delivers (Format.addquoted s))
    (hlen : s.length + 2 ≤ 2 ^ 63) (locale : Locale) (t : Token) {fuel : Nat}
    (hfuel : (Format.addquoted s).length < fuel) :
    ∃ ls, luaX_setinput zgetc z t = .ok ls ∧
      (s.count (ch '\n') + 1 < MAX_INT → ∃ ls₁ ls₂,
        (llex zgetc locale fuel).run ls = .ok (⟨TK_STRING, .ts s⟩, ls₁) ∧ ls₁.current = none ∧
        (llex zgetc locale fuel).run ls₁ = .ok (⟨TK_EOS, .none⟩, ls₂)) ∧
      (MAX_INT ≤ s.count (ch '\n') + 1 → ∃ line near, (llex zgetc locale fuel).run ls =
        .error (.lexerror "chunk has too many lines" line near)) := by
  obtain ⟨ls, hset, hreads⟩ := luaX_setinput_spec hz t
  have hsize := size_showing (LexVars.initial t) (Format.addquoted s)
  refine ⟨ls, hset, fun hlines => ?_, fun hmany => llex_many_lines locale t hreads hlen hmany hfuel⟩
  have hstring := llex_quoted locale t hlen hlines (quoted_short hfuel)
  obtain ⟨ls₁, hrun, hreads₁, -⟩ := (llex_alike locale (hsize.trans_lt hfuel)).ok hreads hstring
  have hend := @llex_alike (showing ((LexVars.initial t).read s) []) locale fuel
    (by rw [size_showing]; exact Nat.zero_lt_of_lt hfuel)
  obtain ⟨k, rfl⟩ : ∃ k, fuel = k + 1 := ⟨fuel - 1, by omega⟩
  obtain ⟨ls₂, hrun₂, -⟩ := hend.ok hreads₁ rfl
  exact ⟨ls₁, ls₂, hrun, congrArg LexVars.current hreads₁.vars, hrun₂⟩

/-- Bytes that `addquoted` escapes, before others that could be taken for a part of an escape. -/
def sample : List UInt8 := [ch '"', 0, ch '0', ch '\\', ch '\r', ch '\n', ch '\r', ch '7', 200]

/-- `addquoted sample` in two pieces. -/
def samplePieces : ZIO :=
  ⟨0, [], [(Format.addquoted sample).take 3, (Format.addquoted sample).drop 3]⟩

theorem addquoted_roundtrip_sample :
    ∃ ls ls₁, luaX_setinput zgetc samplePieces ⟨TK_EOS, .none⟩ = .ok ls ∧
      (llex zgetc plainLocale 100).run ls = .ok (⟨TK_STRING, .ts sample⟩, ls₁) ∧
      ls₁.current = none := by
  obtain ⟨ls, hset, hread, -⟩ := @addquoted_roundtrip samplePieces sample
    ⟨rfl, by decide, rfl⟩ (by decide) plainLocale ⟨TK_EOS, .none⟩ 100 (by decide)
  obtain ⟨ls₁, -, hrun, hend, -⟩ := hread (by decide)
  exact ⟨ls, ls₁, hset, hrun, hend⟩

/-- `addquoted s` in one piece. -/
theorem delivers_quoted (s : List UInt8) :
    ZIO.Delivers ⟨0, [], [Format.addquoted s]⟩ (Format.addquoted s) := by
  refine ⟨rfl, fun piece hmem => ?_, ?_⟩
  · rw [List.mem_singleton.mp hmem]
    exact List.cons_ne_nil _ _
  · exact (List.append_nil _).symm

theorem one_piece_many_lines {s : List UInt8} (locale : Locale) (t : Token)
    (hlen : s.length + 2 ≤ 2 ^ 63) (hmany : MAX_INT ≤ s.count (ch '\n') + 1) :
    ∃ ls, luaX_setinput zgetc ⟨0, [], [Format.addquoted s]⟩ t = .ok ls ∧
      ∃ line near, (llex zgetc locale ((Format.addquoted s).length + 1)).run ls =
        .error (.lexerror "chunk has too many lines" line near) := by
  obtain ⟨ls, hset, hreads⟩ := luaX_setinput_spec (delivers_quoted s) t
  exact ⟨ls, hset, llex_many_lines locale t hreads hlen hmany (Nat.lt_succ_self _)⟩

/-- As many newlines as the lexer cannot count. -/
def manyLines : List UInt8 := List.replicate (MAX_INT - 1) (ch '\n')

theorem addquoted_many_lines :
    ∃ ls, luaX_setinput zgetc ⟨0, [], [Format.addquoted manyLines]⟩ ⟨TK_EOS, .none⟩ = .ok ls ∧
      ∃ line near, (llex zgetc plainLocale ((Format.addquoted manyLines).length + 1)).run ls =
        .error (.lexerror "chunk has too many lines" line near) := by
  have hlength : manyLines.length + 2 ≤ 2 ^ 63 := by
    rw [manyLines, List.length_replicate, MAX_INT]
    omega
  have hmany : MAX_INT ≤ manyLines.count (ch '\n') + 1 := by
    rw [manyLines, List.count_replicate_self]
    omega
  exact one_piece_many_lines plainLocale ⟨TK_EOS, .none⟩ hlength hmany

end Luaxx.Lexer
