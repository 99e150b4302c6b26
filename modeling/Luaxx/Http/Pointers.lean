import Luaxx.Http.Http
import Luaxx.Lib.Cstring
import Luaxx.Lib.Memory

/-!
# The buffers of `concat_url` (`lhttplib.c`)

`concat_url` with the blocks it allocates. A pointer into the copy of the base is an index, and one
into the reference, which is not written to, is the block from there on. A read or a write outside of
a block has no result.
-/

namespace Luaxx.Http.Pointers

open Luaxx.Ctype Luaxx.Cstring Luaxx.Memory

/-- `if(p) *p = 0`. -/
def cutAt (x : List UInt8) : Option Nat → Option (List UInt8)
  | none => some x
  | some p => put x p 0

/-- Just skip the `"./"`. -/
def passDot : List UInt8 → Option (List UInt8)
  | [] => none
  | [a] => if a = ch '.' then none else some [a]
  | a :: b :: s => if a = ch '.' ∧ b = ch '/' then some s else some (a :: b :: s)

/-- The loop that passes each `"../"`: their number, and `useurl`. -/
def passLevels : List UInt8 → Option (Nat × List UInt8)
  | [] => none
  | [a] => if a = ch '.' then none else some (0, [a])
  | [a, b] => if a = ch '.' ∧ b = ch '.' then none else some (0, [a, b])
  | a :: b :: c :: s =>
    if a = ch '.' ∧ b = ch '.' ∧ c = ch '/' then do
      let (level, useurl) ← passLevels s
      return (level + 1, useurl)
    else some (0, a :: b :: c :: s)

/-- The loop that cuts off one more level from the right. -/
def dropLevels : Nat → List UInt8 → Nat → Option (List UInt8)
  | 0, x, _ => some x
  | level + 1, x, protsep => do
    match ← Cstring.strrchr x protsep (ch '/') with
    | some pathsep => dropLevels level (← put x pathsep 0) protsep
    | none => put x protsep 0

/-- The last segment is cut off unless the new URL is just a query string. -/
def cutSegment (x : List UInt8) (protsep : Nat) (relurl : List UInt8) : Option (List UInt8) :=
  if relurl.head? ≠ some (ch '?') then do cutAt x (← Cstring.strrchr x protsep (ch '/')) else some x

/-- `if(protsep) while(level--)`. -/
def dropFrom (level : Nat) (x : List UInt8) : Option Nat → Option (List UInt8)
  | none => some x
  | some protsep => dropLevels level x protsep

/-- A relative path: the copy of the base, `protsep` and `useurl`. -/
def relativePath (x : List UInt8) (protsep : Nat) (relurl : List UInt8) :
    Option (List UInt8 × Option Nat × List UInt8) := do
  let x ← cutAt x (← Cstring.strchr x protsep (ch '?'))
  let x ← cutSegment x protsep relurl
  let pathsep ← Cstring.strchr x protsep (ch '/')
  let protsep := pathsep.map (· + 1)
  let (level, useurl) ← passLevels (← passDot relurl)
  let x ← dropFrom level x protsep
  return (x, protsep, useurl)

/-- An absolute path on the server: the copy of the base. -/
def rootedPath (x : List UInt8) (protsep : Nat) : Option (List UInt8) := do
  match ← Cstring.strchr x protsep (ch '/') with
  | some pathsep =>
    match ← Cstring.strchr x protsep (ch '?') with
    | some sep => put x (if sep < pathsep then sep else pathsep) 0
    | none => put x pathsep 0
  | none => cutAt x (← Cstring.strchr x protsep (ch '?'))

/-- The copy of the base, `protsep`, `useurl` and `host_changed`. -/
def resolve (x : List UInt8) (protsep : Nat) (relurl : List UInt8) :
    Option (List UInt8 × Option Nat × List UInt8 × Bool) := do
  let first ← relurl[0]?
  if first ≠ ch '/' then do
    let (x, protsep, useurl) ← relativePath x protsep relurl
    return (x, protsep, useurl, false)
  else do
    let second ← relurl[1]?
    if second = ch '/' then return (← put x protsep 0, some protsep, relurl.drop 2, true)
    else return (← rootedPath x protsep, some protsep, relurl, false)

/-- The first `/` or `?` from `sep` on, or the end of the string. -/
def hostEnd (useurl : List UInt8) (length sep : Nat) : Option Nat := do
  let query ← Cstring.strchr useurl sep (ch '?')
  let slash ← Cstring.strchr useurl sep (ch '/')
  let sep := slash.getD length
  let query := query.getD length
  return (if sep < query then sep else query)

/-- The number of characters before `host_sep`. -/
def hostSep (host_changed : Bool) (useurl : List UInt8) : Option Nat :=
  if host_changed then do
    let s ← stringAt useurl 0
    match strstr s (chars "//") with
    | none => hostEnd useurl s.length 0
    | some i => hostEnd useurl s.length (i + 2)
  else some 0

/-- The loop that counts; `host_sep` is so many characters away. -/
def countNew : Nat → Bool → List UInt8 → Option Nat
  | _, _, [] => none
  | host_sep, left, c :: s =>
    if c = 0 then some 0
    else match host_sep with
    | host_sep + 1 => (countNew host_sep left s).map (1 + ·)
    | 0 =>
      if c = ch ' ' then (countNew 0 left s).map ((if left then 3 else 1) + ·)
      else (countNew 0 (left && c ≠ ch '?') s).map ((if unescaped c then 1 else 3) + ·)

/-- Bytes that are stored one after the other at `optr`. -/
def store : Block → Nat → List UInt8 → Option Block
  | x, _, [] => some x
  | x, optr, c :: s => do store (← write x optr c) (optr + 1) s

/-- The loop that copies: the new block and `optr`. A bounded `printf` also writes a NUL. -/
def copyNew : Nat → Bool → List UInt8 → Block → Nat → Option (Block × Nat)
  | _, _, [], _, _ => none
  | host_sep, left, c :: s, x, optr =>
    if c = 0 then some (x, optr)
    else match host_sep with
    | host_sep + 1 => do copyNew host_sep left s (← write x optr c) (optr + 1)
    | 0 =>
      if c = ch ' ' then
        if left then do copyNew 0 left s (← store x optr (chars "%20")) (optr + 3)
        else do copyNew 0 left s (← write x optr (ch '+')) (optr + 1)
      else if unescaped c then do
        copyNew 0 (left && c ≠ ch '?') s (← write x optr c) (optr + 1)
      else do copyNew 0 (left && c ≠ ch '?') s (← store x optr (escape c ++ [0])) (optr + 3)

/-- `protsep && !*protsep`. -/
def isAtEnd (x : List UInt8) : Option Nat → Option Bool
  | none => some false
  | some protsep => x[protsep]?.map (· == 0)

/-- What is allocated and written for the result. -/
def assemble (x : List UInt8) (protsep : Option Nat) (useurl : List UInt8) (host_changed : Bool) :
    Option Block := do
  let host_sep ← hostSep host_changed useurl
  let newlen ← countNew host_sep true useurl
  let urllen := (← stringAt x 0).length
  let newest ← move (malloc (urllen + 1 + newlen + 1)) 0 (x.map some) urllen
  let first ← useurl[0]?
  let atEnd ← isAtEnd x protsep
  -- check if we need to append a slash
  let slash := if first = ch '/' ∨ atEnd = true ∨ first = ch '?' then [] else [ch '/']
  let newest ← store newest urllen slash
  let (newest, optr) ← copyNew host_sep true useurl newest (urllen + slash.length)
  write newest optr 0

/-- The index of `protsep`, which points to the start of the host name. -/
def hostStart (url : List UInt8) : Nat :=
  match strstr url (chars "//") with
  | none => 0
  | some i => i + 2

/-- `concat_url` of two C strings: the block of the result. -/
def concat_url (base relurl : List UInt8) : Option Block :=
  if marks.any fun mark => (strstr relurl mark).isSome then some ((relurl ++ [0]).map some)
  else do
    let url_clone := base ++ [0]
    let url ← stringAt url_clone 0
    let (url_clone, protsep, useurl, host_changed) ←
      resolve url_clone (hostStart url) (relurl ++ [0])
    assemble url_clone protsep useurl host_changed

end Luaxx.Http.Pointers
