import Luaxx.Lib.Int32
import Luaxx.Pattern.Traces
import Luaxx.Vm.Concat

/-!
# Searching and replacing (`lstrlib.c`)

A pointer into the subject is a position in it, and the pattern is its bytes before the terminating
NUL. What a `MatchState` on the C stack holds at first is arbitrary (`garbage`). The loops have
fuel, which is shown to suffice.
-/

namespace Luaxx.Pattern

open Luaxx.Ctype Luaxx.Int32 Luaxx.Vm

/-- `lua_pushinteger`. -/
def integer (n : Int) : TValue := .number (cast_num n)

/-- The bytes from `s` to `e`. -/
def slice (src : List UInt8) (s e : Nat) : List UInt8 := (src.drop s).take (e - s)

/-! ## Captures -/

section Captures

variable (src : List UInt8) (ms : MatchState)

def push_onecapture (i : Nat) (s e : Nat) : Except String TValue :=
  if i ≥ ms.level then
    -- ms->level == 0, too: add whole match
    if i = 0 then .ok (.string (slice src s e)) else .error "invalid capture index"
  else
    let l := (ms.capture i).len
    if l = CAP_UNFINISHED then .error "unfinished capture"
    else if l = CAP_POSITION then .ok (integer ((ms.capture i).init + 1))
    else .ok (.string ((src.drop (ms.capture i).init).take l.toNat))

/-- `push_captures`; `s` is `none` for `NULL`. There is room for 32 values on the stack. -/
def push_captures (s : Option Nat) (e : Nat) : Except String (List TValue) :=
  let nlevels := if ms.level = 0 ∧ s.isSome then 1 else ms.level
  (List.range nlevels).mapM fun i => push_onecapture src ms i (s.getD 0) e

end Captures

/-! ## `find` and `match` -/

def SPECIALS : List UInt8 := chars "^$*+?.([%-"

/-- `strpbrk(p, accept) != NULL`. -/
def strpbrk (p accept : List UInt8) : Bool := (cstr p).any fun c => accept.contains c

/-- `memchr`, as an offset. -/
def memchr (s : List UInt8) (c : UInt8) (n : Nat) : Option Nat := (s.take n).findIdx? (· == c)

/-- The loop of `lmemfind`, from `at` on; `s1` is what is left there. -/
def lmemfindLoop (s2 : List UInt8) : Nat → Nat → List UInt8 → Nat → Option Nat
  | 0, _, _, _ => none
  | fuel + 1, pos, s1, l1 =>
    if l1 > 0 then
      match memchr s1 (deref s2) l1 with
      | none => none
      | some k =>
        -- 1st char is already checked
        if (s1.drop (k + 1)).take s2.tail.length = s2.tail then some (pos + k)
        else lmemfindLoop s2 fuel (pos + (k + 1)) (s1.drop (k + 1)) (l1 - (k + 1))
    else none

/-- `lmemfind`, as an offset. -/
def lmemfind (s1 s2 : List UInt8) : Option Nat :=
  if s2.length = 0 then some 0
  else if s2.length > s1.length then none
  else
    let l1 := s1.length - s2.tail.length
    lmemfindLoop s2 l1 0 s1 l1

def posrelat (pos : Int) (len : Nat) : Int :=
  let pos := if pos < 0 then pos + (len + 1) else pos
  if pos ≥ 0 then pos else 0

section Find

variable (garbage : Nat → CaptureSlot) (src p : List UInt8)

/-- `init` of `str_find_aux`. -/
def searchStart (init : Int) : Nat :=
  let init := posrelat init src.length - 1
  if init < 0 then 0 else if init > src.length then src.length else init.toNat

/-- The plain search of `str_find_aux`. -/
def plainSearch (init : Nat) : List TValue :=
  match lmemfind (src.drop init) p with
  | some k => [integer (init + k + 1 : Nat), integer (init + k + p.length : Nat)]
  | none => [.nil]

/-- The loop of `str_find_aux`. -/
def searchLoop (find anchor : Bool) (p : List UInt8) :
    Nat → MatchState → Nat → Except String (List TValue)
  | 0, _, _ => .error OUT_OF_FUEL
  | fuel + 1, ms, s1 => do
    let (res, ms) ← do_match src { ms with level := 0 } s1 p
    match res with
    | some e =>
      if find then do
        let captures ← push_captures src ms none 0
        pure (integer (s1 + 1 : Nat) :: integer e :: captures)
      else push_captures src ms (some s1) e
    | none => if s1 < src.length ∧ !anchor then searchLoop find anchor p fuel ms (s1 + 1) else pure [.nil]

/-- The general search of `str_find_aux`. -/
def patternSearch (find : Bool) (init : Nat) : Except String (List TValue) :=
  let anchor := deref p == ch '^'
  searchLoop src find anchor (if anchor then p.tail else p) (src.length + 1) ⟨0, garbage⟩ init

/-- `str_find_aux`, with its arguments: the third and the fourth may be missing, which is 1 and
false. -/
def str_find_aux (find : Bool) (init : Int) (plain : Bool) : Except String (List TValue) :=
  let start := searchStart src init
  if find ∧ (plain ∨ strpbrk p SPECIALS = false) then .ok (plainSearch src p start)
  else patternSearch garbage src p find start

end Find

/-! ## `gmatch` -/

/-- What `gmatch_aux` returns, with where it was found. -/
structure Matched where
  start : Nat
  stop : Nat
  captures : List TValue
  deriving DecidableEq, Repr

section Gmatch

variable (src p : List UInt8)

/-- The loop of `gmatch_aux`: the new third upvalue and the match, or nothing. -/
def gmatchLoop : Nat → MatchState → Nat → Except String (Option (Number × Matched))
  | 0, _, _ => .error OUT_OF_FUEL
  | fuel + 1, ms, s =>
    if s ≤ src.length then do
      let (res, ms) ← do_match src { ms with level := 0 } s p
      match res with
      | some e => do
        -- empty match? go at least one position
        let newstart := if e = s then e + 1 else e
        let captures ← push_captures src ms (some s) e
        pure (some (cast_num newstart, ⟨s, e, captures⟩))
      | none => gmatchLoop fuel ms (s + 1)
    else pure none

/-- `gmatch_aux`, with its third upvalue. -/
def gmatch_aux (garbage : Nat → CaptureSlot) (upvalue : Number) :
    Except String (Option (Number × Matched)) :=
  gmatchLoop src p (src.length + 2) ⟨0, garbage⟩ (lua_number2integer upvalue).toNat

/-- The calls of `gmatch_aux` until it finds nothing, from the `k`-th on. -/
def gmatchCalls (garbage : Nat → Nat → CaptureSlot) :
    Nat → Nat → Number → Except String (List Matched)
  | 0, _, _ => .error OUT_OF_FUEL
  | fuel + 1, k, upvalue => do
    match ← gmatch_aux src p (garbage k) upvalue with
    | none => pure []
    | some (upvalue, m) => do
      let ms ← gmatchCalls garbage fuel (k + 1) upvalue
      pure (m :: ms)

/-- `gmatch`, iterated to exhaustion. -/
def gmatch (garbage : Nat → Nat → CaptureSlot) : Except String (List Matched) :=
  gmatchCalls src p garbage (src.length + 2) 0 (cast_num 0)

end Gmatch

/-! ## `gsub` -/

/-- The third argument of `gsub`: a string or a number, a function or a table. -/
inductive Repl (σ ε : Type) where
  | string (news : List UInt8)
  | function (call : List TValue → LuaM σ ε TValue)
  | table (get : TValue → LuaM σ ε TValue)

section Gsub

variable {σ ε : Type} (host : Host σ ε)

/-- An error of the library. -/
def raise {α : Type} : Except String α → LuaM σ ε α
  | .ok a => pure a
  | .error msg => throw (host.runerror msg)

variable (repl : Repl σ ε) (src : List UInt8)

/-- `add_s`: what it adds. -/
def add_s (ms : MatchState) (s e : Nat) : List UInt8 → Except String (List UInt8)
  | [] => pure []
  | c :: news =>
    if c ≠ ch L_ESC then do
      let rest ← add_s ms s e news
      pure (c :: rest)
    else
      -- skip ESC
      match news with
      | [] => pure [0]
      | d :: news => do
        let piece ←
          if !isdigit d then pure [d]
          else if d = ch '0' then pure (slice src s e)
          else do
            let v ← push_onecapture src ms (d.toNat - (ch '1').toNat) s e
            pure ((tostring host v).getD [])
        let rest ← add_s ms s e news
        pure (piece ++ rest)

/-- The end of `add_value`, with the value that was got for a match. -/
def addResult (s e : Nat) (v : TValue) : LuaM σ ε (List UInt8) :=
  -- nil or false? keep original text
  if v.l_isfalse then pure (slice src s e)
  else
    match tostring host v with
    | some text => pure text
    | none =>
      throw (host.runerror
        ("invalid replacement value (a " ++ luaT_typenames.getD v.ttype "" ++ ")"))

/-- `add_value`: what it adds. -/
def add_value (ms : MatchState) (s e : Nat) : LuaM σ ε (List UInt8) :=
  match repl with
  | .string news => raise host (add_s host src ms s e news)
  | .function call => do
    let captures ← raise host (push_captures src ms (some s) e)
    let v ← call captures
    addResult host src s e v
  | .table get => do
    let key ← raise host (push_onecapture src ms 0 s e)
    let v ← get key
    addResult host src s e v

variable (max_s : Int) (anchor : Bool) (p : List UInt8)

/-- The loop of `str_gsub`, with the text `b` of the buffer: that text, the position and the number
of substitutions at the end; or the fuel was not enough. -/
def gsubLoop : Nat → Nat → MatchState → Nat → List UInt8 →
    LuaM σ ε (Option (List UInt8 × Nat × Nat))
  | 0, _, _, _, _ => pure none
  | fuel + 1, n, ms, s, b =>
    if (n : Int) < max_s then do
      let (res, ms) ← raise host (do_match src { ms with level := 0 } s p)
      let (n, b) ←
        match res with
        | some e => do
          let piece ← add_value host repl src ms s e
          pure (n + 1, b ++ piece)
        | none => pure (n, b)
      if res.any (s < ·) then
        -- non empty match: skip it
        let s := res.getD s
        if anchor then pure (some (b, s, n)) else gsubLoop fuel n ms s b
      else if s < src.length then
        let b := b ++ [srcAt src s]
        if anchor then pure (some (b, s + 1, n)) else gsubLoop fuel n ms (s + 1) b
      else pure (some (b, s, n))
    else pure (some (b, s, n))

end Gsub

/-- `str_gsub`: the text of the buffer and the number of substitutions. The last argument may be
missing. -/
def str_gsub {σ ε : Type} (host : Host σ ε) (garbage : Nat → CaptureSlot) (src p : List UInt8)
    (repl : Repl σ ε) (max_s : Option Int) : LuaM σ ε (Option (List UInt8 × Nat)) := do
  let anchor := deref p == ch '^'
  let p := if anchor then p.tail else p
  let max_s := wrap (max_s.getD (src.length + 1))
  let out ← gsubLoop host repl src max_s anchor p (src.length + 2) 0 ⟨0, garbage⟩ 0 []
  pure (out.map fun (b, s, n) => (b ++ src.drop s, n))

end Luaxx.Pattern
