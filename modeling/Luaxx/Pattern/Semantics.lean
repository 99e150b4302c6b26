import Luaxx.Lib.Ctype

/-!
# The meaning of Lua patterns

A pattern is a sequence of items. `successes` lists the ways in which it matches from a position
of the subject, in the order in which backtracking tries them: each with the end of the match and
the captures. `Denotes p ast` is the grammar: the bytes `p` are well formed and say `ast`. The
captures a pattern uses are checked on the items alone (`Pattern.check`), since every match passes
through all the items in their order.
-/

namespace Luaxx.Pattern

open Luaxx.Ctype

/-! ## Syntax -/

inductive SetItem where
  | char (x : UInt8)
  | range (x y : UInt8)
  /-- `%x` -/
  | cls (x : UInt8)
  deriving DecidableEq, Repr

/-- What matches a single character. -/
inductive CharClass where
  | any
  | char (x : UInt8)
  /-- `%x` -/
  | cls (x : UInt8)
  | set (complement : Bool) (items : List SetItem)
  deriving DecidableEq, Repr

inductive Quantifier where
  | once | optional | star | plus | lazy
  deriving DecidableEq, Repr

inductive Item where
  | open_
  | position
  | close
  | balanced (x y : UInt8)
  | frontier (complement : Bool) (items : List SetItem)
  /-- `%1` is `reference 0`. -/
  | reference (l : Nat)
  | single (c : CharClass) (q : Quantifier)
  | atEnd
  deriving DecidableEq, Repr

abbrev Ast := List Item

/-! ## Characters -/

def letterClasses : List (Char × (UInt8 → Bool)) :=
  [('a', isalpha), ('c', iscntrl), ('d', isdigit), ('l', islower), ('p', ispunct), ('s', isspace),
   ('u', isupper), ('w', isalnum), ('x', isxdigit), ('z', fun c => c == 0)]

/-- The class of a letter, in upper or lower case. -/
def letterClass (x : UInt8) : Option (UInt8 → Bool) :=
  (letterClasses.find? fun e => tolower x == ch e.1).map (·.2)

/-- `%x`: the class of a letter, its complement for the upper case, the character itself for all
others. -/
def classMatches (x c : UInt8) : Bool :=
  match letterClass x with
  | some f => f c == islower x
  | none => c == x

def SetItem.matches (c : UInt8) : SetItem → Bool
  | char x => c == x
  | range x y => x ≤ c && c ≤ y
  | cls x => classMatches x c

def setMatches (complement : Bool) (items : List SetItem) (c : UInt8) : Bool :=
  items.any (SetItem.matches c) != complement

def CharClass.matches (c : UInt8) : CharClass → Bool
  | any => true
  | char x => c == x
  | cls x => classMatches x c
  | set complement items => setMatches complement items c

/-! ## Captures -/

inductive Capture where
  | unfinished (start : Nat)
  | position (start : Nat)
  | substring (start stop : Nat)
  deriving DecidableEq, Repr

/-- The captures so far, the newest first. -/
abbrev Captures := List Capture

/-- The newest unfinished capture ends at `stop`. -/
def Captures.close (stop : Nat) : Captures → Captures
  | [] => []
  | .unfinished start :: cs => .substring start stop :: cs
  | c :: cs => c :: Captures.close stop cs

/-! ## Matching -/

section Matching

variable (src : List UInt8)

/-- There are `cont` more `y` than there are `x`. A `y` counts as such also when it is `x`. -/
def excess (x y : UInt8) (cont : Nat) (text : List UInt8) : Bool :=
  text.count y == (if x = y then 0 else text.count x) + cont

/-- The end of the balanced string from `s`: the first position up to which there is, after the
character at `s`, one `y` more than there are `x`. -/
def balancedEnd (x y : UInt8) (s : Nat) : Option Nat :=
  if src[s]? = some x then
    (List.range (src.length + 1)).find? fun j => excess x y 1 ((src.take j).drop (s + 1))
  else none

/-- The character on one side of a position, and NUL beyond the ends. -/
def frontierAt (complement : Bool) (items : List SetItem) (s : Nat) : Bool :=
  let previous := if s = 0 then 0 else src.getD (s - 1) 0
  !setMatches complement items previous && setMatches complement items (src.getD s 0)

/-- The end of another occurrence at `s` of what a capture holds; a position holds nothing. -/
def occurrence (s : Nat) : Option Capture → Option Nat
  | some (.substring start stop) =>
    let text := (src.take stop).drop start
    if text <+: src.drop s then some (s + text.length) else none
  | _ => none

/-- The number of characters of the class from `s` on. -/
def runLength (c : CharClass) (s : Nat) : Nat :=
  ((src.drop s).takeWhile (CharClass.matches · c)).length

/-- The numbers of repetitions from `s`, in the order in which they are tried. -/
def repetitions (c : CharClass) (s : Nat) : Quantifier → List Nat
  | .once => if runLength src c s ≥ 1 then [1] else []
  | .optional => if runLength src c s ≥ 1 then [1, 0] else [0]
  | .star => (List.range (runLength src c s + 1)).reverse
  | .plus => (List.range' 1 (runLength src c s)).reverse
  | .lazy => List.range (runLength src c s + 1)

/-- All matches from `s`, in the order of priority. -/
def successes : Ast → Nat → Captures → List (Nat × Captures)
  | [], s, cs => [(s, cs)]
  | .open_ :: ast, s, cs => successes ast s (.unfinished s :: cs)
  | .position :: ast, s, cs => successes ast s (.position s :: cs)
  | .close :: ast, s, cs => successes ast s (Captures.close s cs)
  | .balanced x y :: ast, s, cs =>
    (balancedEnd src x y s).toList.flatMap fun e => successes ast e cs
  | .frontier complement items :: ast, s, cs =>
    if frontierAt src complement items s then successes ast s cs else []
  | .reference l :: ast, s, cs =>
    (occurrence src s cs.reverse[l]?).toList.flatMap fun e => successes ast e cs
  | .single c q :: ast, s, cs =>
    (repetitions src c s q).flatMap fun n => successes ast (s + n) cs
  | .atEnd :: ast, s, cs => if s = src.length then successes ast s cs else []

end Matching

/-! ## Grammar -/

/-- `SetBody first p items rest`: the items of a set up to its `]`. A `]` in the first place is a
character. A range has no meaning when its end is written as an escape. -/
inductive SetBody : Bool → List UInt8 → List SetItem → List UInt8 → Prop
  | close {rest : List UInt8} : SetBody false (ch ']' :: rest) [] rest
  | cls {first : Bool} {x : UInt8} {p rest : List UInt8} {items : List SetItem} :
      SetBody false p items rest → SetBody first (ch '%' :: x :: p) (.cls x :: items) rest
  | range {first : Bool} {x y : UInt8} {p rest : List UInt8} {items : List SetItem} :
      x ≠ ch '%' → (x = ch ']' → first = true) → y ≠ ch '%' → y ≠ ch ']' →
      SetBody false p items rest → SetBody first (x :: ch '-' :: y :: p) (.range x y :: items) rest
  | char {first : Bool} {x : UInt8} {p rest : List UInt8} {items : List SetItem} :
      x ≠ ch '%' → (x = ch ']' → first = true) →
      (∀ y q, p = ch '-' :: y :: q → y = ch ']') →
      SetBody false p items rest → SetBody first (x :: p) (.char x :: items) rest

/-- A set from its `[` on. -/
inductive SetDenotes : List UInt8 → Bool → List SetItem → List UInt8 → Prop
  | plain {p rest : List UInt8} {items : List SetItem} :
      p.head? ≠ some (ch '^') → SetBody true p items rest → SetDenotes (ch '[' :: p) false items rest
  | complement {p rest : List UInt8} {items : List SetItem} :
      SetBody true p items rest → SetDenotes (ch '[' :: ch '^' :: p) true items rest

inductive ClassDenotes : List UInt8 → CharClass → List UInt8 → Prop
  | any {p : List UInt8} : ClassDenotes (ch '.' :: p) .any p
  | cls {x : UInt8} {p : List UInt8} : ClassDenotes (ch '%' :: x :: p) (.cls x) p
  | set {p rest : List UInt8} {complement : Bool} {items : List SetItem} :
      SetDenotes p complement items rest → ClassDenotes p (.set complement items) rest
  | char {x : UInt8} {p : List UInt8} : x ≠ ch '%' → x ≠ ch '[' → x ≠ ch '.' →
      ClassDenotes (x :: p) (.char x) p

inductive QuantifierDenotes : List UInt8 → Quantifier → List UInt8 → Prop
  | optional {p : List UInt8} : QuantifierDenotes (ch '?' :: p) .optional p
  | star {p : List UInt8} : QuantifierDenotes (ch '*' :: p) .star p
  | plus {p : List UInt8} : QuantifierDenotes (ch '+' :: p) .plus p
  | lazy {p : List UInt8} : QuantifierDenotes (ch '-' :: p) .lazy p
  | once {p : List UInt8} :
      (∀ x ∈ p.head?, x ≠ ch '?' ∧ x ≠ ch '*' ∧ x ≠ ch '+' ∧ x ≠ ch '-') →
      QuantifierDenotes p .once p

/-- What a pattern that begins with a single character does not begin with. -/
def Special (p : List UInt8) : Prop :=
  p.head? = some (ch '(') ∨ p.head? = some (ch ')') ∨ p = [ch '$'] ∨
    (p.head? = some (ch '%') ∧
      ∃ x ∈ p.tail.head?, x = ch 'b' ∨ x = ch 'f' ∨ isdigit x = true)

/-- The bytes of a pattern, and its items. -/
inductive Denotes : List UInt8 → Ast → Prop
  | nil : Denotes [] []
  | open_ {p : List UInt8} {ast : Ast} : p.head? ≠ some (ch ')') →
      Denotes p ast → Denotes (ch '(' :: p) (.open_ :: ast)
  | position {p : List UInt8} {ast : Ast} :
      Denotes p ast → Denotes (ch '(' :: ch ')' :: p) (.position :: ast)
  | close {p : List UInt8} {ast : Ast} :
      Denotes p ast → Denotes (ch ')' :: p) (.close :: ast)
  | balanced {x y : UInt8} {p : List UInt8} {ast : Ast} :
      Denotes p ast → Denotes (ch '%' :: ch 'b' :: x :: y :: p) (.balanced x y :: ast)
  | frontier {p rest : List UInt8} {complement : Bool} {items : List SetItem} {ast : Ast} :
      SetDenotes p complement items rest → Denotes rest ast →
      Denotes (ch '%' :: ch 'f' :: p) (.frontier complement items :: ast)
  | reference {x : UInt8} {p : List UInt8} {ast : Ast} : ch '1' ≤ x → x ≤ ch '9' →
      Denotes p ast →
      Denotes (ch '%' :: x :: p) (.reference (x.toNat - (ch '1').toNat) :: ast)
  | single {p ep rest : List UInt8} {c : CharClass} {q : Quantifier} {ast : Ast} : ¬ Special p →
      ClassDenotes p c ep → QuantifierDenotes ep q rest → Denotes rest ast →
      Denotes p (.single c q :: ast)
  | atEnd : Denotes [ch '$'] [.atEnd]

/-! ## The use of captures -/

/-- The greatest number of captures. -/
def maxCaptures : Nat := 32

/-- The newest unfinished capture is finished. -/
def finish : List Bool → List Bool
  | [] => []
  | true :: open_ => false :: open_
  | false :: open_ => false :: finish open_

/-- The captures are not too many, a `)` has one to close, and a reference is to a finished one;
`open_` says of the captures so far, the newest first, which are unfinished. -/
def Ast.check : List Bool → Ast → Bool
  | _, [] => true
  | open_, .open_ :: ast => open_.length < maxCaptures && Ast.check (true :: open_) ast
  | open_, .position :: ast => open_.length < maxCaptures && Ast.check (false :: open_) ast
  | open_, .close :: ast => open_.contains true && Ast.check (finish open_) ast
  | open_, .reference l :: ast => open_.reverse[l]? == some false && Ast.check open_ ast
  | open_, _ :: ast => Ast.check open_ ast

end Luaxx.Pattern
