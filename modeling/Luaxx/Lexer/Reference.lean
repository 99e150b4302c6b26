import Mathlib.Data.List.Infix
import Luaxx.Lexer.Llex

/-!
# A reference lexer

What the tokens of a text are, as a function of the text alone: each token is the longest one that
the text goes on with, behind spaces and comments. A text that goes on with no token is malformed.
-/

namespace Luaxx.Lexer.Reference

open Luaxx.Ctype Luaxx.Vm

/-! ## Lines -/

def isLineEnd (c : UInt8) : Bool := c == ch '\n' || c == ch '\r'

/-- What is behind the line end `c`, of which a different one is a part. -/
def lineRest (c : UInt8) : List UInt8 → List UInt8
  | [] => []
  | d :: s => if isLineEnd d ∧ d ≠ c then s else d :: s

/-- The text with `\n` for each line end, where `prev` is a line end before it. -/
def lines : Option UInt8 → List UInt8 → List UInt8
  | _, [] => []
  | prev, c :: s =>
    if isLineEnd c then
      if prev.any (· ≠ c) then lines none s else ch '\n' :: lines (some c) s
    else c :: lines none s

/-- The number of line ends. -/
def lineEnds (s : List UInt8) : Nat := (lines none s).count (ch '\n')

/-- A line end that a long string begins with is not a part of it. -/
def contents : List UInt8 → List UInt8
  | [] => []
  | c :: s => if isLineEnd c then lines (some c) s else lines none (c :: s)

/-! ## Long brackets -/

/-- The level of a long bracket whose first `[` is before the text, and what is behind it. -/
def opening (s : List UInt8) : Option (Nat × List UInt8) :=
  match s.dropWhile (· == ch '=') with
  | [] => none
  | c :: rest => if c = ch '[' then some ((s.takeWhile (· == ch '=')).length, rest) else none

def closing (level : Nat) : List UInt8 := ch ']' :: (List.replicate level (ch '=') ++ [ch ']'])

/-- The text before and behind the first place where `mark` is. -/
def cutAt (mark : List UInt8) : List UInt8 → Option (List UInt8 × List UInt8)
  | [] => none
  | c :: s =>
    if mark <+: c :: s then some ([], (c :: s).drop mark.length)
    else (cutAt mark s).map fun (text, rest) => (c :: text, rest)

/-- The text within a long bracket that is open, and what is behind it. A bracket `[[` is not nested
in another. -/
def longBracket (level : Nat) (s : List UInt8) : Option (List UInt8 × List UInt8) :=
  (cutAt (closing level) s).bind fun cut =>
    if level = 0 ∧ [ch '[', ch '['] <:+: cut.1 then none else some cut

/-! ## Strings -/

/-- The number that a string of digits is. -/
def decimal (digits : List UInt8) : Nat := digits.foldl (fun n d => 10 * n + (d.toNat - 48)) 0

/-- The character that an escape stands for, and what is behind it. -/
def escape : List UInt8 → Option (UInt8 × List UInt8)
  | [] => none
  | c :: s =>
    match escapes.lookup c with
    | some b => some (b, s)
    | none =>
      if isLineEnd c then some (ch '\n', lineRest c s)
      else if isdigit c then
        let digits := ((c :: s).take 3).takeWhile isdigit
        if decimal digits > 255 then none
        else some (UInt8.ofNat (decimal digits), (c :: s).drop digits.length)
      else some (c, s)

/-- The text of a string that `del` ends, and what is behind it. -/
def quoted (del : UInt8) : Nat → List UInt8 → Option (List UInt8 × List UInt8)
  | 0, _ => none
  | _, [] => none
  | k + 1, c :: s =>
    if c = del then some ([], s)
    else if isLineEnd c then none
    else if c = ch '\\' then
      (escape s).bind fun (b, s) => (quoted del k s).map fun (text, rest) => (b :: text, rest)
    else (quoted del k s).map fun (text, rest) => (c :: text, rest)

/-! ## Numerals -/

def isFraction (c : UInt8) : Bool := isdigit c || c == ch '.'

def isExponent (c : UInt8) : Bool := (chars "Ee").contains c

def isSign (c : UInt8) : Bool := (chars "+-").contains c

/-- The letters and digits of a numeral behind its exponent letter, with a sign before them. -/
def exponent : List UInt8 → List UInt8
  | [] => []
  | c :: s => if isSign c then c :: s.takeWhile isname else (c :: s).takeWhile isname

/-- What a numeral has behind its digits and points. -/
def numeralTail : List UInt8 → List UInt8
  | [] => []
  | c :: s => if isExponent c then c :: exponent s else (c :: s).takeWhile isname

/-- The longest text of digits and points, an exponent, and letters and digits. -/
def numeral (s : List UInt8) : List UInt8 :=
  s.takeWhile isFraction ++ numeralTail (s.dropWhile isFraction)

def point (p : UInt8) (text : List UInt8) : List UInt8 :=
  text.map fun b => if b = ch '.' then p else b

variable (locale : Locale)

/-- The number that a numeral stands for, with the decimal point that was right last or, if this is
wrong, with that of the locale. -/
def numeralValue (decpoint : UInt8) (text : List UInt8) : Option (Number × UInt8) :=
  match locale.str2d (cstr (point decpoint text)) with
  | some r => some (r, decpoint)
  | none =>
    (locale.str2d (cstr (point locale.decimal_point text))).map fun r => (r, locale.decimal_point)

/-! ## Separators -/

/-- What is behind a comment, from behind its dashes. -/
def comment (s : List UInt8) : Option (List UInt8) :=
  match s with
  | [] => some []
  | c :: rest =>
    match if c = ch '[' then opening rest else none with
    | some (level, body) => (longBracket level body).map fun (_, rest) => rest
    | none => some (s.dropWhile fun d => !isLineEnd d)

/-- What is behind spaces and comments. -/
def skip : Nat → List UInt8 → Option (List UInt8)
  | 0, s => some s
  | _, [] => some []
  | k + 1, c :: s =>
    if isLineEnd c then skip k (lineRest c s)
    else if isspace c then skip k s
    else if c = ch '-' ∧ s.head? = some (ch '-') then (comment s.tail).bind (skip k)
    else some (c :: s)

/-! ## Tokens -/

structure Item where
  /-- The token's own text. -/
  text : List UInt8
  token : Token
  rest : List UInt8
  decpoint : UInt8
  deriving DecidableEq, Repr

/-- A numeral of digits and points, or one that ends in its exponent letter. -/
def openNumeral (text : List UInt8) : Bool :=
  match text.dropWhile isFraction with
  | [] => true
  | [c] => isExponent c
  | _ => false

/-- A NUL is behind the token, where `check_next` looks for a point or for a part of an exponent. -/
def Item.TakesNul (i : Item) : Prop :=
  i.rest.head? = some 0 ∧
    (i.token.token = (ch '.').toNat ∨ i.token.token = TK_CONCAT ∨
      i.token.token = TK_NUMBER ∧ openNumeral i.text = true)

instance (i : Item) : Decidable i.TakesNul :=
  inferInstanceAs (Decidable (_ ∧ _))

/-- The item of a token that is all of its text. -/
def symbol (text : List UInt8) (token : Nat) (rest : List UInt8) (decpoint : UInt8) : Item :=
  ⟨text, ⟨token, .none⟩, rest, decpoint⟩

/-- The item of a token with what is behind it. -/
def behind (s rest : List UInt8) (token : Token) (decpoint : UInt8) : Item :=
  ⟨s.take (s.length - rest.length), token, rest, decpoint⟩

def numeralItem (decpoint : UInt8) (s : List UInt8) : Option Item :=
  (numeralValue locale decpoint (numeral s)).map fun (r, decpoint) =>
    ⟨numeral s, ⟨TK_NUMBER, .r r⟩, s.drop (numeral s).length, decpoint⟩

/-- The item of a name or a reserved word. -/
def nameItem (decpoint : UInt8) (s : List UInt8) : Item :=
  let name := s.takeWhile isname
  let token : Token :=
    match ((luaX_tokens.take NUM_RESERVED).map chars).idxOf? name with
    | some i => ⟨FIRST_RESERVED + i, .none⟩
    | none => ⟨TK_NAME, .ts name⟩
  ⟨name, token, s.dropWhile isname, decpoint⟩

/-- The tokens that are a character with a `=` behind it. -/
def equals : List (UInt8 × Nat) :=
  [(ch '=', TK_EQ), (ch '<', TK_LE), (ch '>', TK_GE), (ch '~', TK_NE)]

/-- The item of a text that begins with a `[`, from behind it: a long string or the character. -/
def bracketItem (decpoint : UInt8) (s : List UInt8) : Option Item :=
  match opening s with
  | some (level, body) =>
    (longBracket level body).map fun (text, rest) =>
      behind (ch '[' :: s) rest ⟨TK_STRING, .ts (contents text)⟩ decpoint
  | none =>
    if s.head? = some (ch '=') then none else some (symbol [ch '['] (ch '[').toNat s decpoint)

/-- The item of a text that begins with a `.`, from behind it. -/
def dotItem (decpoint : UInt8) (s : List UInt8) : Option Item :=
  if chars ".." <+: s then some (symbol (chars "...") TK_DOTS (s.drop 2) decpoint)
  else if s.head? = some (ch '.') then some (symbol (chars "..") TK_CONCAT s.tail decpoint)
  else if s.head?.any isdigit then numeralItem locale decpoint (ch '.' :: s)
  else some (symbol [ch '.'] (ch '.').toNat s decpoint)

/-- The item of the token that a text without spaces and comments before it begins with. -/
def item (decpoint : UInt8) (s : List UInt8) : Option Item :=
  match s with
  | [] => some (symbol [] TK_EOS [] decpoint)
  | c :: s' =>
    if c = ch '[' then bracketItem decpoint s'
    else if c = ch '"' ∨ c = ch '\'' then
      (quoted c (s'.length + 1) s').map fun (text, rest) =>
        behind s rest ⟨TK_STRING, .ts text⟩ decpoint
    else if c = ch '.' then dotItem locale decpoint s'
    else if isdigit c then numeralItem locale decpoint s
    else if isalpha c ∨ c = ch '_' then some (nameItem decpoint s)
    else
      match equals.lookup c with
      | some token =>
        if s'.head? = some (ch '=') then some (symbol [c, ch '='] token s'.tail decpoint)
        else some (symbol [c] c.toNat s' decpoint)
      | none => some (symbol [c] c.toNat s' decpoint)

/-- The item of the next token. -/
def next (decpoint : UInt8) (s : List UInt8) : Option Item :=
  (skip (s.length + 1) s).bind (item locale decpoint)

/-- The items of a text, and whether it is malformed behind them. -/
def items : Nat → UInt8 → List UInt8 → List Item × Bool
  | 0, _, _ => ([], true)
  | k + 1, decpoint, s =>
    match next locale decpoint s with
    | none => ([], true)
    | some i =>
      if i.token.token = TK_EOS then ([i], false)
      else (i :: (items k i.decpoint i.rest).1, (items k i.decpoint i.rest).2)

/-- The items of a chunk. -/
def chunk (s : List UInt8) : List Item × Bool := items locale (s.length + 1) (ch '.') s

end Luaxx.Lexer.Reference
