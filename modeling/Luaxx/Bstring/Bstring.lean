import Luaxx.Lib.Int32
import Luaxx.Lib.Memory

/-!
# Strings with a length and a capacity (`bstring.c`)

Every allocation succeeds. A function gives its result code and the bstring after the call, and
nothing if it accesses a block outside of its bounds. A C string is its characters without the NUL.
-/

namespace Luaxx.Bstr

open Luaxx.Int32 Luaxx.Memory

def BSTR_OK : Int := 0
def BSTR_ERR : Int := -1

/-- `struct tagbstring`. The capacity of a string that is not to be written is -1. -/
structure Bstring where
  mlen : Int
  slen : Int
  data : Block
  deriving DecidableEq, Repr

/-- Characters of a C string. -/
abbrev CString : Type := { s : List UInt8 // 0 ∉ s }

def withNul (s : List UInt8) : Block := (s ++ [0]).map some

/-- Just a length safe wrapper for memmove. -/
def bBlockCopy (x : Block) (d : Int) (src : Block) (l : Int) : Option Block :=
  if 0 < l then move x d.toNat src l.toNat else some x

/-- Least power of two greater than `i`, or `i` where that is no `int`. -/
def snapUpSize (i : Int) : Int :=
  if i < 8 then 8
  else
    let j := i.toNat
    let j := j ||| (j >>> 1)
    let j := j ||| (j >>> 2)
    let j := j ||| (j >>> 4)
    let j := j ||| (j >>> 8)
    let j := j ||| (j >>> 16)
    let j := wrap ((j + 1 : Nat) : Int)
    if i ≤ j then j else i

/-- A new block with the characters of the string. -/
def copied (b : Bstring) (len : Int) : Option Block :=
  if b.slen ≠ 0 then move (malloc len.toNat) 0 b.data b.slen.toNat else some (malloc len.toNat)

/-- `realloc` where `slen` is close to `mlen`. -/
def moved (b : Bstring) (len : Int) : Option Block :=
  if wrap (7 * b.mlen) < wrap (8 * b.slen) then some (realloc b.data len.toNat) else copied b len

def balloc (b : Bstring) (len : Int) : Option (Int × Bstring) :=
  if b.slen < 0 ∨ b.mlen ≤ 0 ∨ b.mlen < b.slen ∨ len ≤ 0 then some (BSTR_ERR, b)
  else if len < b.mlen then some (BSTR_OK, b)
  else
    let len := snapUpSize len
    if len ≤ b.mlen then some (BSTR_OK, b)
    else do
      let x ← moved b len
      let x ← write x b.slen.toNat 0
      return (BSTR_OK, { b with data := x, mlen := len })

/-- A copy, of a string that is valid. -/
def bstrcpy (b : Bstring) : Option Bstring := do
  let j := snapUpSize (wrap (b.slen + 1))
  let x ← copied b j
  let x ← write x b.slen.toNat 0
  return ⟨j, b.slen, x⟩

/-- The capacity for a C string of length `j`. -/
def roomFor (j : Nat) : Int := snapUpSize (wrap ((j + (2 - if j ≠ 0 then 1 else 0) : Nat) : Int))

/-- `NULL` for a string that is too long. -/
def bfromcstr (str : CString) : Option (Option Bstring) :=
  let j := str.val.length
  let i := roomFor j
  if i ≤ wrap j then some none
  else do
    let x ← move (malloc i.toNat) 0 (withNul str.val) (j + 1)
    return some ⟨i, wrap j, x⟩

def bfromcstralloc (mlen : Int) (str : CString) : Option (Option Bstring) :=
  let j := str.val.length
  let i := roomFor j
  if i ≤ wrap j then some none
  else do
    let i := if i < mlen then mlen else i
    let x ← move (malloc i.toNat) 0 (withNul str.val) (j + 1)
    return some ⟨i, wrap j, x⟩

/-- Room in `b0` for the characters of `b1`: the string to copy them from, the code of `balloc` and
the new `b0`. -/
def makeRoom (b0 b1 : Bstring) (aliased : Bool) : Option (Bstring × Int × Bstring) :=
  let n := wrap (wrap (b0.slen + b1.slen) + 1)
  if b0.mlen ≤ n then do
    let aux ← (if aliased then bstrcpy b1 else some b1)
    let (code, b0) ← balloc b0 n
    return (aux, code, b0)
  else some (b1, BSTR_OK, b0)

/-- `aliased` is whether `b1` begins in the block of `b0`; it is then `b0` itself. -/
def bconcat (b0 b1 : Bstring) (aliased : Bool) : Option (Int × Bstring) :=
  let d := b0.slen
  let len := b1.slen
  if d < 0 ∨ wrap (b0.mlen - d) < 0 ∨ len < 0 then some (BSTR_ERR, b0)
  else do
    let (aux, code, b0) ← makeRoom b0 b1 aliased
    if code ≠ BSTR_OK then return (BSTR_ERR, b0)
    else do
      let x ← bBlockCopy b0.data d aux.data len
      let x ← write x (wrap (d + len)).toNat 0
      return (BSTR_OK, { b0 with data := x, slen := wrap (b0.slen + len) })

def bconchar (b : Bstring) (c : UInt8) : Option (Int × Bstring) :=
  let d := b.slen
  if d < 0 ∨ wrap (b.mlen - d) < 0 then some (BSTR_ERR, b)
  else do
    let (code, b) ← balloc b (wrap (d + 2))
    if code ≠ BSTR_OK then return (BSTR_ERR, b)
    else do
      let x ← write b.data d.toNat c
      let x ← write x (wrap (d + 1)).toNat 0
      return (BSTR_OK, { b with data := x, slen := wrap (b.slen + 1) })

/-- The loop of `bcatcstr`, for at most `l` characters to position `d`: the block, how many
characters have been copied, and what is left of the string unless its NUL has been copied. -/
def catLoop : Nat → Nat → Block → List UInt8 → Option (Block × Nat × Option (List UInt8))
  | 0, _, x, s => some (x, 0, some s)
  | _ + 1, d, x, [] => do
    let x ← write x d 0
    return (x, 0, none)
  | l + 1, d, x, c :: s => do
    let x ← write x d c
    let (x, i, rest) ← catLoop l (d + 1) x s
    return (x, i + 1, rest)

def bcatcstr (b : Bstring) (s : CString) : Option (Int × Bstring) :=
  if b.slen < 0 ∨ b.mlen < b.slen ∨ b.mlen ≤ 0 then some (BSTR_ERR, b)
  else do
    let l := wrap (b.mlen - b.slen)
    let (x, i, rest) ← catLoop l.toNat b.slen.toNat b.data s.val
    let b := { b with data := x, slen := wrap (b.slen + i) }
    match rest with
    | none => return (BSTR_OK, b)
    | some s => bconcat b ⟨-1, wrap s.length, withNul s⟩ false

def bcatblk (b : Bstring) (s : List UInt8) (len : Int) : Option (Int × Bstring) :=
  if b.slen < 0 ∨ b.mlen < b.slen ∨ b.mlen ≤ 0 ∨ len < 0 then some (BSTR_ERR, b)
  else
    let nl := wrap (b.slen + len)
    if nl < 0 then some (BSTR_ERR, b)
    else if nl < b.mlen then do
      let x ← bBlockCopy b.data b.slen (s.map some) len
      let x ← write x nl.toNat 0
      return (BSTR_OK, { b with data := x, slen := nl })
    else bconcat b ⟨-1, len, s.map some⟩ false

/-- What `bdelete` does to the characters within the string. -/
def removed (b : Bstring) (pos len : Int) : Option Bstring :=
  let tail := wrap (pos + len)
  if b.slen ≤ tail then some { b with slen := pos }
  else do
    -- a pointer plus two `int`s does not wrap around
    let x ← bBlockCopy b.data pos (b.data.drop (pos + len).toNat) (wrap (b.slen - tail))
    return { b with data := x, slen := wrap (b.slen - len) }

/-- `b->data[b->slen] = '\0'`. -/
def terminate (b : Bstring) : Option Bstring :=
  if 0 ≤ b.slen then do
    let x ← write b.data b.slen.toNat 0
    return { b with data := x }
  else none

def bdelete (b : Bstring) (pos len : Int) : Option (Int × Bstring) :=
  let len := if pos < 0 then wrap (len + pos) else len
  let pos := if pos < 0 then 0 else pos
  if len < 0 ∨ b.slen < 0 ∨ b.mlen < b.slen ∨ b.mlen ≤ 0 then some (BSTR_ERR, b)
  else if 0 < len ∧ pos < b.slen then do
    let b ← removed b pos len
    let b ← terminate b
    return (BSTR_OK, b)
  else some (BSTR_OK, b)

def btrunc (b : Bstring) (n : Int) : Option (Int × Bstring) :=
  if n < 0 ∨ b.mlen < b.slen ∨ b.slen < 0 ∨ b.mlen ≤ 0 then some (BSTR_ERR, b)
  else if n < b.slen then do
    let x ← write b.data n.toNat 0
    return (BSTR_OK, { b with data := x, slen := n })
  else some (BSTR_OK, b)

end Luaxx.Bstr
