import Luaxx.Lib.Ctype
import Luaxx.Lib.Result

/-!
# The pattern matcher (`lstrlib.c`)

A pointer into the subject is a position in it. A pointer into the pattern is what is left of the
pattern, and reads the terminating NUL when nothing is left. `match` calls itself, and the
functions that call it back take that call as their parameter; every call is made on a shorter
pattern.
-/

namespace Luaxx.Pattern

open Luaxx.Ctype

/-- `*p`. -/
def deref (p : List UInt8) : UInt8 := p.headD 0

@[simp] theorem deref_nil : deref [] = 0 := rfl

@[simp] theorem deref_cons (x : UInt8) (p : List UInt8) : deref (x :: p) = x := rfl

abbrev L_ESC : Char := '%'

def LUA_MAXCAPTURES : Nat := 32

def CAP_UNFINISHED : Int := -1
def CAP_POSITION : Int := -2

/-- An element of the array `capture`. -/
structure CaptureSlot where
  init : Nat
  len : Int
  deriving DecidableEq, Repr

/-- The part of `MatchState` that changes: `src_init` and `src_end` are the ends of `src`. -/
structure MatchState where
  level : Nat
  capture : Nat → CaptureSlot

/-- The captures of a state. -/
def MatchState.captures (ms : MatchState) : List CaptureSlot :=
  (List.range ms.level).map ms.capture

/-- An error, or the end of the match or `NULL`, with the state left behind. -/
abbrev Result := Except String (Option Nat × MatchState)

/-! ## Single characters -/

/-- The loop in `classend`, from the first character of a set; `p+1` for the `]` it stops at. -/
def setEnd : List UInt8 → Except String (List UInt8)
  | [] => .error "malformed pattern (missing ']')"
  | x :: p =>
    if x = 0 then .error "malformed pattern (missing ']')"
    else
      match p with
      | [] => .error "malformed pattern (missing ']')"
      | y :: q =>
        -- skip escapes (e.g. '%]')
        if x = ch L_ESC ∧ y ≠ 0 then
          if deref q = ch ']' then .ok q.tail else setEnd q
        else if y = ch ']' then .ok q else setEnd (y :: q)

def classend (p : List UInt8) : Except String (List UInt8) :=
  if deref p = ch L_ESC then
    if deref p.tail = 0 then .error "malformed pattern (ends with '%')" else .ok p.tail.tail
  else if deref p = ch '[' then
    setEnd (if deref p.tail = ch '^' then p.tail.tail else p.tail)
  else .ok p.tail

def match_class (c cl : UInt8) : Bool :=
  let sense (res : Bool) : Bool := if islower cl then res else !res
  if tolower cl = ch 'a' then sense (isalpha c)
  else if tolower cl = ch 'c' then sense (iscntrl c)
  else if tolower cl = ch 'd' then sense (isdigit c)
  else if tolower cl = ch 'l' then sense (islower c)
  else if tolower cl = ch 'p' then sense (ispunct c)
  else if tolower cl = ch 's' then sense (isspace c)
  else if tolower cl = ch 'u' then sense (isupper c)
  else if tolower cl = ch 'w' then sense (isalnum c)
  else if tolower cl = ch 'x' then sense (isxdigit c)
  else if tolower cl = ch 'z' then sense (c == 0)
  else cl == c

/-- The loop of `matchbracketclass`, from `++p` on; `p < ec` compares what is left of both. -/
def bracketLoop (c : UInt8) (sig : Bool) (ec : List UInt8) : List UInt8 → Bool
  | [] => !sig
  | x :: p =>
    if ec.length < p.length + 1 then
      if x = ch L_ESC then
        match p with
        | [] => if match_class c 0 then sig else !sig
        | y :: q => if match_class c y then sig else bracketLoop c sig ec q
      else
        match p with
        | y :: z :: q =>
          if y = ch '-' ∧ ec.length < q.length + 1 then
            if x ≤ c ∧ c ≤ z then sig else bracketLoop c sig ec q
          else if x = c then sig else bracketLoop c sig ec (y :: z :: q)
        | p => if x = c then sig else bracketLoop c sig ec p
    else !sig

def matchbracketclass (c : UInt8) (p ec : List UInt8) : Bool :=
  if deref p.tail = ch '^' then bracketLoop c false ec p.tail.tail else bracketLoop c true ec p.tail

/-- `ep-1`, for an `ep` behind `p`. -/
def before (p ep : List UInt8) : List UInt8 := p.drop (p.length - (ep.length + 1))

def singlematch (c : UInt8) (p ep : List UInt8) : Bool :=
  if deref p = ch '.' then true
  else if deref p = ch L_ESC then match_class c (deref p.tail)
  else if deref p = ch '[' then matchbracketclass c p (before p ep)
  else deref p == c

/-! ## Captures -/

def check_capture (ms : MatchState) (l : UInt8) : Except String Nat :=
  let l : Int := (l.toNat : Int) - (ch '1').toNat
  if l < 0 ∨ l ≥ ms.level ∨ (ms.capture l.toNat).len = CAP_UNFINISHED then
    .error "invalid capture index"
  else .ok l.toNat

/-- The loop of `capture_to_close`. -/
def unfinishedBelow (ms : MatchState) : Nat → Except String Nat
  | 0 => .error "invalid pattern capture"
  | level + 1 =>
    if (ms.capture level).len = CAP_UNFINISHED then .ok level else unfinishedBelow ms level

def capture_to_close (ms : MatchState) : Except String Nat := unfinishedBelow ms ms.level

def MatchState.setCapture (ms : MatchState) (l : Nat) (slot : CaptureSlot) : MatchState :=
  { ms with capture := Function.update ms.capture l slot }

section Match

variable (src : List UInt8)

/-- `*s`. -/
def srcAt (s : Nat) : UInt8 := src.getD s 0

/-- The loop of `matchbalance`: what follows `s`, and the position after `s`. -/
def balanceLoop (b e : UInt8) : List UInt8 → Nat → Nat → Option Nat
  | [], _, _ => none
  | x :: rest, s, cont =>
    if x = e then
      if cont = 1 then some (s + 1) else balanceLoop b e rest (s + 1) (cont - 1)
    else if x = b then balanceLoop b e rest (s + 1) (cont + 1)
    else balanceLoop b e rest (s + 1) cont

def matchbalance (s : Nat) (p : List UInt8) : Except String (Option Nat) :=
  if deref p = 0 ∨ deref p.tail = 0 then .error "unbalanced pattern"
  else if srcAt src s ≠ deref p then .ok none
  else .ok (balanceLoop (deref p) (deref p.tail) (src.drop (s + 1)) (s + 1) 1)

def match_capture (ms : MatchState) (s : Nat) (l : UInt8) : Except String (Option Nat) := do
  let l ← check_capture ms l
  let len := (ms.capture l).len
  -- as a `size_t` a negative length is larger than every string
  if len < 0 then pure none
  else if src.length - s ≥ len.toNat ∧
      (src.drop (ms.capture l).init).take len.toNat = (src.drop s).take len.toNat then
    pure (some (s + len.toNat))
  else pure none

section Callbacks

variable (rec : MatchState → Nat → List UInt8 → Result)

/-- The first loop of `max_expand`: maximum expand for the item from `s`. -/
def expandCount (p ep : List UInt8) : List UInt8 → Nat
  | [] => 0
  | c :: rest => if singlematch c p ep then expandCount p ep rest + 1 else 0

/-- The second loop of `max_expand`. -/
def maxTry (ms : MatchState) (s : Nat) (p : List UInt8) : Nat → Result
  | 0 => rec ms s p
  | i + 1 => do
    let (res, ms) ← rec ms (s + (i + 1)) p
    if res.isSome then pure (res, ms) else maxTry ms s p i

def max_expand (ms : MatchState) (s : Nat) (p ep : List UInt8) : Result :=
  maxTry rec ms s ep.tail (expandCount p ep (src.drop s))

/-- The loop of `min_expand`; its second argument is what is left of the subject. -/
def minTry (p ep : List UInt8) : MatchState → List UInt8 → Nat → Result
  | ms, [], s => rec ms s ep.tail
  | ms, c :: rest, s => do
    let (res, ms) ← rec ms s ep.tail
    if res.isSome then pure (res, ms)
    else if singlematch c p ep then minTry p ep ms rest (s + 1)
    else pure (none, ms)

def min_expand (ms : MatchState) (s : Nat) (p ep : List UInt8) : Result :=
  minTry rec p ep ms (src.drop s) s

def start_capture (ms : MatchState) (s : Nat) (p : List UInt8) (what : Int) : Result :=
  if ms.level ≥ LUA_MAXCAPTURES then .error "too many captures"
  else do
    let ms := ms.setCapture ms.level ⟨s, what⟩
    let (res, ms) ← rec { ms with level := ms.level + 1 } s p
    -- match failed? undo capture
    pure (res, if res.isNone then { ms with level := ms.level - 1 } else ms)

def end_capture (ms : MatchState) (s : Nat) (p : List UInt8) : Result := do
  let l ← capture_to_close ms
  let ms := ms.setCapture l ⟨(ms.capture l).init, (s : Int) - (ms.capture l).init⟩
  let (res, ms) ← rec ms s p
  -- match failed? undo capture
  pure (res, if res.isNone then ms.setCapture l ⟨(ms.capture l).init, CAP_UNFINISHED⟩ else ms)

/-- The label `dflt` of `match`: a pattern item. -/
def matchItem (ms : MatchState) (s : Nat) (p : List UInt8) : Result := do
  let ep ← classend p
  let m := decide (s < src.length) && singlematch (srcAt src s) p ep
  if deref ep = ch '?' then
    if m then do
      let (res, ms) ← rec ms (s + 1) ep.tail
      if res.isSome then pure (res, ms) else rec ms s ep.tail
    else rec ms s ep.tail
  else if deref ep = ch '*' then max_expand src rec ms s p ep
  else if deref ep = ch '+' then
    if m then max_expand src rec ms (s + 1) p ep else pure (none, ms)
  else if deref ep = ch '-' then min_expand src rec ms s p ep
  else if m then rec ms (s + 1) ep else pure (none, ms)

/-- The frontier in `match`, with `p` behind the `%f`. -/
def matchFrontier (ms : MatchState) (s : Nat) (p : List UInt8) : Result :=
  if deref p ≠ ch '[' then .error "missing '[' after '%f' in pattern"
  else do
    let ep ← classend p
    let previous := if s = 0 then 0 else srcAt src (s - 1)
    if matchbracketclass previous p (before p ep) ∨
        ¬ matchbracketclass (srcAt src s) p (before p ep) then pure (none, ms)
    else rec ms s ep

/-- The body of `match`. -/
def matchBody (ms : MatchState) (s : Nat) (p : List UInt8) : Result :=
  if deref p = ch '(' then
    if deref p.tail = ch ')' then start_capture rec ms s p.tail.tail CAP_POSITION
    else start_capture rec ms s p.tail CAP_UNFINISHED
  else if deref p = ch ')' then end_capture rec ms s p.tail
  else if deref p = ch L_ESC then
    if deref p.tail = ch 'b' then do
      match ← matchbalance src s p.tail.tail with
      | none => pure (none, ms)
      | some s => rec ms s (p.drop 4)
    else if deref p.tail = ch 'f' then matchFrontier src rec ms s p.tail.tail
    else if isdigit (deref p.tail) then do
      match ← match_capture src ms s (deref p.tail) with
      | none => pure (none, ms)
      | some s => rec ms s p.tail.tail
    else matchItem src rec ms s p
  else if deref p = 0 then pure (some s, ms)
  else if deref p = ch '$' then
    if deref p.tail = 0 then pure (if s = src.length then some s else none, ms)
    else matchItem src rec ms s p
  else matchItem src rec ms s p

end Callbacks

/-- `match` with at most `fuel` nested calls. -/
def matchFuel : Nat → MatchState → Nat → List UInt8 → Result
  | 0 => fun _ _ _ => .error "out of fuel"
  | fuel + 1 => matchBody src (matchFuel fuel)

/-- `match`: a call for every character of the pattern, and one for its end, are enough. -/
def do_match (ms : MatchState) (s : Nat) (p : List UInt8) : Result :=
  matchFuel src (p.length + 1) ms s p

end Match

end Luaxx.Pattern
