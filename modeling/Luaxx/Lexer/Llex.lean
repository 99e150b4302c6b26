import Luaxx.Lib.Ctype
import Luaxx.Core.Number
import Luaxx.Vm.Compare

/-!
# The lexical analyzer (`llex.c`)

The input is anything from which a character can be got, and `none` is `EOZ`. Strings are their
bytes. Characters are classified as in the "C" locale, whose decimal point is a parameter, like the
conversion of numerals.
-/

namespace Luaxx.Lexer

open Luaxx.Ctype Luaxx.Vm

/-! ## Tokens -/

def FIRST_RESERVED : Nat := 257

def luaX_tokens : List String :=
  ["and", "break", "do", "else", "elseif", "end", "false", "for", "function", "if", "in", "local",
    "nil", "not", "or", "repeat", "return", "then", "true", "until", "while", "..", "...", "==", ">=",
    "<=", "~=", "<number>", "<name>", "<string>", "<eof>"]

def NUM_RESERVED : Nat := 21

def TK_CONCAT : Nat := 278
def TK_DOTS : Nat := 279
def TK_EQ : Nat := 280
def TK_GE : Nat := 281
def TK_LE : Nat := 282
def TK_NE : Nat := 283
def TK_NUMBER : Nat := 284
def TK_NAME : Nat := 285
def TK_STRING : Nat := 286
def TK_EOS : Nat := 287

/-- The semantics information, where there is any. -/
inductive SemInfo where
  | none
  | r (r : Number)
  | ts (s : List UInt8)
  deriving DecidableEq, Repr

structure Token where
  token : Nat
  seminfo : SemInfo
  deriving DecidableEq, Repr

inductive Stop where
  /-- `luaX_lexerror`: the message, its line, and the text that it is near. -/
  | lexerror (msg : String) (line : Nat) (near : Option (List UInt8))
  /-- The input is read where there is none. -/
  | overread
  | outOfFuel
  deriving DecidableEq, Repr

/-- A `LexState` without its input. -/
structure LexVars where
  current : Option UInt8
  linenumber : Nat
  lastline : Nat
  t : Token
  lookahead : Token
  /-- The bytes in the buffer. -/
  buff : List UInt8
  buffsize : Nat
  decpoint : UInt8
  deriving DecidableEq, Repr

structure LexState (Z : Type) extends LexVars where
  z : Z

/-- What the lexer uses of the C library and of the core. -/
structure Locale where
  /-- `localeconv()->decimal_point[0]`, or `.`. -/
  decimal_point : UInt8
  /-- `luaO_str2d`. -/
  str2d : List UInt8 → Option Number

/-- A locale in which no numeral is read. -/
def plainLocale : Locale := ⟨ch '.', fun _ => none⟩

abbrev LexM (Z α : Type) : Type := StateT (LexState Z) (Except Stop) α

variable {Z : Type} (zgetc : Z → Option (Option UInt8 × Z)) (locale : Locale)

def look : LexM Z LexVars := do
  let ls ← get
  pure ls.toLexVars

def change (f : LexVars → LexVars) : LexM Z Unit :=
  modify fun ls => { ls with toLexVars := f ls.toLexVars }

/-! ## Characters -/

def next : LexM Z Unit := do
  let ls ← get
  match zgetc ls.z with
  | some (c, z) => set { ls with current := c, z := z }
  | none => throw .overread

theorem next_eq {zgetc : Z → Option (Option UInt8 × Z)} {ls : LexState Z} {c : Option UInt8} {z : Z}
    (h : zgetc ls.z = some (c, z)) :
    (next zgetc).run ls = .ok ((), { ls with current := c, z := z }) := by
  simp only [next, StateT.run_bind, StateT.run_get, pure_bind, h]
  rfl

def currIsNewline (ls : LexVars) : Bool :=
  ls.current == some (ch '\n') || ls.current == some (ch '\r')

/-- A class of characters, to which `EOZ` does not belong. -/
def curIs (p : UInt8 → Bool) (ls : LexVars) : Bool := ls.current.any p

def MAX_SIZET : Nat := 2 ^ 64 - 3

def LUA_MINBUFFER : Nat := 32

def MAX_INT : Nat := 2 ^ 31 - 3

/-- `luaX_lexerror` without a token. -/
def plainerror {α : Type} (msg : String) : LexM Z α := do
  let ls ← look
  throw (.lexerror msg ls.linenumber none)

def save (c : UInt8) : LexM Z Unit := do
  let ls ← look
  if ls.buff.length + 1 > ls.buffsize then
    if ls.buffsize ≥ MAX_SIZET / 2 then plainerror "lexical element too long"
    else change fun ls => { ls with buffsize := ls.buffsize * 2, buff := ls.buff ++ [c] }
  else change fun ls => { ls with buff := ls.buff ++ [c] }

/-- The cast of `EOZ` to a `char` is 255. -/
def save_and_next : LexM Z Unit := do
  let ls ← look
  save (ls.current.getD 255)
  next zgetc

def luaX_token2str (token : Nat) : List UInt8 :=
  if token < FIRST_RESERVED then
    if iscntrl (UInt8.ofNat token) then chars ("char(" ++ toString token ++ ")")
    else [UInt8.ofNat token]
  else chars (luaX_tokens.getD (token - FIRST_RESERVED) "")

def txtToken (token : Nat) : LexM Z (List UInt8) :=
  if token = TK_NAME ∨ token = TK_STRING ∨ token = TK_NUMBER then do
    save 0
    let ls ← look
    pure (cstr ls.buff)
  else pure (luaX_token2str token)

def luaX_lexerror {α : Type} (msg : String) (token : Nat) : LexM Z α :=
  if token = 0 then plainerror msg
  else do
    let ls ← look
    let near ← txtToken token
    throw (.lexerror msg ls.linenumber (some near))

def luaX_syntaxerror {α : Type} (msg : String) : LexM Z α := do
  let ls ← look
  luaX_lexerror msg ls.t.token

def inclinenumber : LexM Z Unit := do
  let ls ← look
  let old := ls.current
  next zgetc
  let ls ← look
  if currIsNewline ls ∧ ls.current ≠ old then next zgetc
  change fun ls => { ls with linenumber := ls.linenumber + 1 }
  let ls ← look
  if ls.linenumber ≥ MAX_INT then luaX_syntaxerror "chunk has too many lines"

def luaZ_resetbuffer : LexM Z Unit := change fun ls => { ls with buff := [] }

/-- `luaX_setinput`; the current token is not set yet. -/
def luaX_setinput (z : Z) (t : Token) : Except Stop (LexState Z) := do
  let ((), ls) ← (next zgetc).run
    { current := none, linenumber := 1, lastline := 1, t := t, lookahead := ⟨TK_EOS, .none⟩, z := z,
      buff := [], buffsize := LUA_MINBUFFER, decpoint := ch '.' }
  pure ls

/-! ## Numerals -/

/-- `check_next`; `strchr` finds the NUL that ends the set, too. -/
def check_next (set : List UInt8) : LexM Z Bool := do
  let ls ← look
  if curIs (fun c => c == 0 || set.contains c) ls then do
    save_and_next zgetc
    pure true
  else pure false

def buffreplace (c c' : UInt8) : LexM Z Unit :=
  change fun ls => { ls with buff := ls.buff.map fun b => if b = c then c' else b }

def trydecpoint : LexM Z SemInfo := do
  let ls ← look
  let old := ls.decpoint
  change fun ls => { ls with decpoint := locale.decimal_point }
  buffreplace old locale.decimal_point
  let ls ← look
  match locale.str2d (cstr ls.buff) with
  | some r => pure (.r r)
  | none => do
    buffreplace locale.decimal_point (ch '.')
    luaX_lexerror "malformed number" TK_NUMBER

/-- `while (…) save_and_next(ls);` -/
def saveWhile (p : UInt8 → Bool) : Nat → LexM Z Unit
  | 0 => throw .outOfFuel
  | fuel + 1 => do
    let ls ← look
    if curIs p ls then do
      save_and_next zgetc
      saveWhile p fuel
    else pure ()

/-- A character of a name. -/
def isname (c : UInt8) : Bool := isalnum c || c == ch '_'

variable (fuel : Nat)

/-- `read_numeral`, from behind the exponent sign. -/
def numeralEnd : LexM Z SemInfo := do
  saveWhile zgetc isname fuel
  save 0
  let ls ← look
  -- follow locale for decimal point
  buffreplace (ch '.') ls.decpoint
  let ls ← look
  match locale.str2d (cstr ls.buff) with
  | some r => pure (.r r)
  | none => trydecpoint locale

def read_numeral : LexM Z SemInfo := do
  save_and_next zgetc
  saveWhile zgetc (fun c => isdigit c || c == ch '.') fuel
  let exponent ← check_next zgetc (chars "Ee")
  if exponent then do
    -- optional exponent sign
    let _ ← check_next zgetc (chars "+-")
    numeralEnd zgetc locale fuel
  else numeralEnd zgetc locale fuel

/-! ## Strings -/

/-- `while (ls->current == '=') …`, with the count, for which an `int` has room. -/
def countSep : Nat → Int → LexM Z Int
  | 0, _ => throw .outOfFuel
  | k + 1, count => do
    let ls ← look
    if curIs (· == ch '=') ls then do
      save_and_next zgetc
      countSep k (count + 1)
    else pure count

def skip_sep : LexM Z Int := do
  let ls ← look
  let s := ls.current
  save_and_next zgetc
  let count ← countSep zgetc fuel 0
  let ls ← look
  pure (if ls.current = s then count else -count - 1)

/-- The loop of `read_long_string`, in a string or in a comment. -/
def longStringLoop (seminfo : Bool) (sep : Int) : Nat → LexM Z Unit
  | 0 => throw .outOfFuel
  | k + 1 => do
    let ls ← look
    match ls.current with
    | none =>
      luaX_lexerror (if seminfo then "unfinished long string" else "unfinished long comment") TK_EOS
    | some c =>
      if c = ch '[' then do
        let n ← skip_sep zgetc fuel
        if n = sep then do
          save_and_next zgetc
          if sep = 0 then luaX_lexerror "nesting of [[...]] is deprecated" (ch '[').toNat
          else longStringLoop seminfo sep k
        else longStringLoop seminfo sep k
      else if c = ch ']' then do
        let n ← skip_sep zgetc fuel
        if n = sep then save_and_next zgetc
        else longStringLoop seminfo sep k
      else if c = ch '\n' ∨ c = ch '\r' then do
        save (ch '\n')
        inclinenumber zgetc
        -- avoid wasting space
        if seminfo then longStringLoop seminfo sep k
        else do
          luaZ_resetbuffer
          longStringLoop seminfo sep k
      else if seminfo then do
        save_and_next zgetc
        longStringLoop seminfo sep k
      else do
        next zgetc
        longStringLoop seminfo sep k

/-- `read_long_string`, from its loop. -/
def longStringEnd (seminfo : Bool) (sep : Int) : LexM Z SemInfo := do
  longStringLoop zgetc fuel seminfo sep fuel
  let ls ← look
  let cut := (2 + sep).toNat
  pure (if seminfo then .ts ((ls.buff.drop cut).take (ls.buff.length - 2 * cut)) else .none)

/-- `read_long_string`, with the string that is stored where there is a `seminfo`. -/
def read_long_string (seminfo : Bool) (sep : Int) : LexM Z SemInfo := do
  -- skip 2nd `[`
  save_and_next zgetc
  let ls ← look
  if currIsNewline ls then do
    inclinenumber zgetc
    longStringEnd zgetc fuel seminfo sep
  else longStringEnd zgetc fuel seminfo sep

/-- The digits of `\ddd`, of which at most `k` are left. -/
def decimalEscape : Nat → Nat → LexM Z Nat
  | 0, c => pure c
  | k + 1, c => do
    let ls ← look
    match ls.current with
    | some d =>
      if isdigit d then do
        next zgetc
        decimalEscape k (10 * c + (d.toNat - 48))
      else pure c
    | none => pure c

/-- The letters of escapes, and what they stand for. -/
def escapes : List (UInt8 × UInt8) :=
  [(ch 'a', 7), (ch 'b', 8), (ch 'f', 12), (ch 'n', 10), (ch 'r', 13), (ch 't', 9), (ch 'v', 11)]

/-- What follows a backslash in a string. -/
def read_escape : LexM Z Unit := do
  -- do not save the `\`
  next zgetc
  let ls ← look
  match ls.current with
  -- will raise an error next loop
  | none => pure ()
  | some e =>
    match escapes.lookup e with
    | some c => do
      save c
      next zgetc
    | none =>
      if e = ch '\n' ∨ e = ch '\r' then do
        save (ch '\n')
        inclinenumber zgetc
      else if isdigit e then do
        let c ← decimalEscape zgetc 3 0
        if c > 255 then luaX_lexerror "escape sequence too large" TK_STRING
        else save (UInt8.ofNat c)
      else save_and_next zgetc

/-- The loop of `read_string`. -/
def stringLoop (del : UInt8) : Nat → LexM Z Unit
  | 0 => throw .outOfFuel
  | k + 1 => do
    let ls ← look
    match ls.current with
    | none => luaX_lexerror "unfinished string" TK_EOS
    | some c =>
      if c = del then pure ()
      else if c = ch '\n' ∨ c = ch '\r' then luaX_lexerror "unfinished string" TK_STRING
      else if c = ch '\\' then do
        read_escape zgetc
        stringLoop del k
      else do
        save_and_next zgetc
        stringLoop del k

def read_string (del : UInt8) : LexM Z SemInfo := do
  save_and_next zgetc
  stringLoop zgetc del fuel
  -- skip delimiter
  save_and_next zgetc
  let ls ← look
  pure (.ts ((ls.buff.drop 1).take (ls.buff.length - 2)))

/-! ## The analyzer -/

/-- The rest of a short comment. -/
def skipLine : Nat → LexM Z Unit
  | 0 => throw .outOfFuel
  | k + 1 => do
    let ls ← look
    if ¬ currIsNewline ls ∧ ls.current ≠ none then do
      next zgetc
      skipLine k
    else pure ()

/-- The rest of a comment, from behind its second `-`. -/
def skipComment : LexM Z Unit := do
  let ls ← look
  if curIs (· == ch '[') ls then do
    let sep ← skip_sep zgetc fuel
    -- `skip_sep` may dirty the buffer
    luaZ_resetbuffer
    if sep ≥ 0 then do
      let _ ← read_long_string zgetc fuel false sep
      luaZ_resetbuffer
    else skipLine zgetc fuel
  else skipLine zgetc fuel

/-- The token that begins with a character, and one with a `=` behind it. -/
def withEqual (c : UInt8) (token : Nat) : LexM Z Token := do
  next zgetc
  let ls ← look
  if curIs (· == ch '=') ls then do
    next zgetc
    pure ⟨token, .none⟩
  else pure ⟨c.toNat, .none⟩

/-- An identifier or a reserved word. -/
def read_name : LexM Z Token := do
  save_and_next zgetc
  saveWhile zgetc isname fuel
  let ls ← look
  match ((luaX_tokens.take NUM_RESERVED).map chars).idxOf? ls.buff with
  | some i => pure ⟨FIRST_RESERVED + i, .none⟩
  | none => pure ⟨TK_NAME, .ts ls.buff⟩

/-- The token that begins with a dot. -/
def read_dots : LexM Z Token := do
  save_and_next zgetc
  let two ← check_next zgetc (chars ".")
  if two then do
    let three ← check_next zgetc (chars ".")
    pure ⟨if three then TK_DOTS else TK_CONCAT, .none⟩
  else do
    let ls ← look
    if curIs isdigit ls then do
      let r ← read_numeral zgetc locale fuel
      pure ⟨TK_NUMBER, r⟩
    else pure ⟨(ch '.').toNat, .none⟩

/-- The loop of `llex`. -/
def llexLoop : Nat → LexM Z Token
  | 0 => throw .outOfFuel
  | k + 1 => do
    let ls ← look
    match ls.current with
    | none => pure ⟨TK_EOS, .none⟩
    | some c =>
      if c = ch '\n' ∨ c = ch '\r' then do
        inclinenumber zgetc
        llexLoop k
      else if c = ch '-' then do
        next zgetc
        let ls ← look
        if ls.current ≠ some (ch '-') then pure ⟨(ch '-').toNat, .none⟩
        else do
          next zgetc
          skipComment zgetc fuel
          llexLoop k
      else if c = ch '[' then do
        let sep ← skip_sep zgetc fuel
        if sep ≥ 0 then do
          let s ← read_long_string zgetc fuel true sep
          pure ⟨TK_STRING, s⟩
        else if sep = -1 then pure ⟨(ch '[').toNat, .none⟩
        else luaX_lexerror "invalid long string delimiter" TK_STRING
      else if c = ch '=' then withEqual zgetc c TK_EQ
      else if c = ch '<' then withEqual zgetc c TK_LE
      else if c = ch '>' then withEqual zgetc c TK_GE
      else if c = ch '~' then withEqual zgetc c TK_NE
      else if c = ch '"' ∨ c = ch '\'' then do
        let s ← read_string zgetc fuel c
        pure ⟨TK_STRING, s⟩
      else if c = ch '.' then read_dots zgetc locale fuel
      else if isspace c then do
        next zgetc
        llexLoop k
      else if isdigit c then do
        let r ← read_numeral zgetc locale fuel
        pure ⟨TK_NUMBER, r⟩
      else if isalpha c ∨ c = ch '_' then read_name zgetc fuel
      -- single-char tokens (+ - / ...)
      else do
        next zgetc
        pure ⟨c.toNat, .none⟩

def llex : LexM Z Token := do
  luaZ_resetbuffer
  llexLoop zgetc locale fuel fuel

def luaX_next : LexM Z Unit := do
  change fun ls => { ls with lastline := ls.linenumber }
  let ls ← look
  if ls.lookahead.token ≠ TK_EOS then
    -- use the look-ahead token and discharge it
    change fun ls => { ls with t := ls.lookahead, lookahead := ⟨TK_EOS, ls.lookahead.seminfo⟩ }
  else do
    let t ← llex zgetc locale fuel
    change fun ls => { ls with t := t }

def luaX_lookahead : LexM Z Unit := do
  let t ← llex zgetc locale fuel
  change fun ls => { ls with lookahead := t }

end Luaxx.Lexer
