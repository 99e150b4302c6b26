import Luaxx.Bstring.Refinement

/-!
# Bstrings when allocations fail (`bstring.c`)

The results of the allocations to come are a list, after whose end they all succeed. What does not
allocate is that of `Bstring`. The blocks that are given to a function do not overlap the block of
the bstring, but for a bstring that is appended to itself.
-/

namespace Luaxx.Bstr.Failing

open Luaxx.Int32 Luaxx.Memory

/-- Nothing is returned if a block is accessed outside of its bounds. -/
abbrev A (α : Type) : Type := StateT (List Bool) Option α

/-- `bstr__alloc` or `bstr__realloc`: whether there is memory. -/
def alloc : A Bool := fun results => some (results.headD true, results.tail)

/-- An access to memory. -/
def access {α : Type} (x : Option α) : A α := fun results => x.map fun a => (a, results)

/-- A byte at an index that may be negative. -/
def writeAt (x : Block) (i : Int) (c : UInt8) : A Block :=
  access (if 0 ≤ i then write x i.toNat c else none)

/-- The larger block of `balloc`, and nothing if there is no memory. -/
def enlarged (b : Bstring) (len : Int) : A (Option Block) := do
  if wrap (7 * b.mlen) < wrap (8 * b.slen) then
    if ← alloc then return some (realloc b.data len.toNat) else return none
  else if ← alloc then return some (← access (copied b len))
  else if ← alloc then return some (realloc b.data len.toNat)
  else return none

def balloc (b : Bstring) (len : Int) : A (Int × Bstring) :=
  if b.slen < 0 ∨ b.mlen ≤ 0 ∨ b.mlen < b.slen ∨ len ≤ 0 then return (BSTR_ERR, b)
  else if len < b.mlen then return (BSTR_OK, b)
  else
    let len := snapUpSize len
    if len ≤ b.mlen then return (BSTR_OK, b)
    else do
      match ← enlarged b len with
      | none => return (BSTR_ERR, b)
      | some x => do
        let x ← writeAt x b.slen 0
        return (BSTR_OK, { b with data := x, mlen := len })

/-- The block of a copy, and its capacity. -/
def copyBlock (b : Bstring) : A (Option (Int × Block)) := do
  let j := snapUpSize (wrap (b.slen + 1))
  if ← alloc then return some (j, ← access (copied b j))
  else
    let j := wrap (b.slen + 1)
    if ← alloc then return some (j, ← access (copied b j)) else return none

def bstrcpy (b : Bstring) : A (Option Bstring) := do
  if ← alloc then
    match ← copyBlock b with
    | none => return none
    | some (j, x) => do
      let x ← writeAt x b.slen 0
      return some ⟨j, b.slen, x⟩
  else return none

/-- A header and a block for a C string, in a capacity of `i`. -/
def created (i : Int) (str : CString) : A (Option Bstring) := do
  let j := str.val.length
  if ← alloc then
    if ← alloc then
      let x ← access (move (malloc i.toNat) 0 (withNul str.val) (j + 1))
      return some ⟨i, wrap j, x⟩
    else return none
  else return none

def bfromcstr (str : CString) : A (Option Bstring) :=
  let j := str.val.length
  let i := roomFor j
  if i ≤ wrap j then return none else created i str

def bfromcstralloc (mlen : Int) (str : CString) : A (Option Bstring) :=
  let j := str.val.length
  let i := roomFor j
  if i ≤ wrap j then return none else created (if i < mlen then mlen else i) str

/-- Room in `b0` for the characters of `b1`: the string to copy them from, unless there is no memory
for it, the code of `balloc` and the new `b0`. -/
def makeRoom (b0 b1 : Bstring) (aliased : Bool) : A (Option Bstring × Int × Bstring) := do
  let n := wrap (wrap (b0.slen + b1.slen) + 1)
  if b0.mlen ≤ n then
    match ← (if aliased then bstrcpy b1 else return some b1) with
    | none => return (none, BSTR_ERR, b0)
    | some aux => do
      let (code, b0) ← balloc b0 n
      return (some aux, code, b0)
  else return (some b1, BSTR_OK, b0)

/-- `bconcat`, from where there is room. -/
def copyBehind (b0 : Bstring) (d : Int) (aux : Bstring) (len : Int) : A (Int × Bstring) := do
  let x ← access (bBlockCopy b0.data d aux.data len)
  let x ← writeAt x (wrap (d + len)) 0
  return (BSTR_OK, { b0 with data := x, slen := wrap (b0.slen + len) })

def bconcat (b0 b1 : Bstring) (aliased : Bool) : A (Int × Bstring) :=
  let d := b0.slen
  let len := b1.slen
  if d < 0 ∨ wrap (b0.mlen - d) < 0 ∨ len < 0 then return (BSTR_ERR, b0)
  else do
    let (aux, code, b0) ← makeRoom b0 b1 aliased
    match aux with
    | none => return (BSTR_ERR, b0)
    | some aux =>
      if code ≠ BSTR_OK then return (BSTR_ERR, b0) else copyBehind b0 d aux len

def bconchar (b : Bstring) (c : UInt8) : A (Int × Bstring) :=
  let d := b.slen
  if d < 0 ∨ wrap (b.mlen - d) < 0 then return (BSTR_ERR, b)
  else do
    let (code, b) ← balloc b (wrap (d + 2))
    if code ≠ BSTR_OK then return (BSTR_ERR, b)
    else do
      let x ← writeAt b.data d c
      let x ← writeAt x (wrap (d + 1)) 0
      return (BSTR_OK, { b with data := x, slen := wrap (b.slen + 1) })

def bcatcstr (b : Bstring) (s : CString) : A (Int × Bstring) :=
  if b.slen < 0 ∨ b.mlen < b.slen ∨ b.mlen ≤ 0 then return (BSTR_ERR, b)
  else do
    let l := wrap (b.mlen - b.slen)
    let (x, i, rest) ← access (catLoop l.toNat b.slen.toNat b.data s.val)
    let b := { b with data := x, slen := wrap (b.slen + i) }
    match rest with
    | none => return (BSTR_OK, b)
    | some s => bconcat b ⟨-1, wrap s.length, withNul s⟩ false

def bcatblk (b : Bstring) (s : List UInt8) (len : Int) : A (Int × Bstring) :=
  if b.slen < 0 ∨ b.mlen < b.slen ∨ b.mlen ≤ 0 ∨ len < 0 then return (BSTR_ERR, b)
  else
    let nl := wrap (b.slen + len)
    if nl < 0 then return (BSTR_ERR, b)
    else if nl < b.mlen then do
      let x ← access (bBlockCopy b.data b.slen (s.map some) len)
      let x ← writeAt x nl 0
      return (BSTR_OK, { b with data := x, slen := nl })
    else bconcat b ⟨-1, len, s.map some⟩ false

/-! ## `bformata` -/

/-- What `vsnprintf` writes to the buffer, for its size, and what it returns. -/
abbrev Vsnprintf := Int → List UInt8 × Int

/-- `strlen` of a block, up to the first zero byte. -/
def strlen (x : Block) : Option Nat := x.findIdx? (· = some 0)

/-- The loop of `bformata`: the buffer with the text, unless there is no memory for it. -/
def formatLoop (vsnprintf : Vsnprintf) : Nat → Int → Bstring → A (Option Bstring)
  | 0, _, _ => access none
  | fuel + 1, n, buff => do
    let (text, r) := vsnprintf (wrap (n + 1))
    let x ← access (move buff.data 0 (text.map some) text.length)
    let x ← writeAt x n 0
    let slen ← access (strlen x)
    let buff := { buff with data := x, slen := wrap slen }
    if buff.slen < n then return some buff
    else
      let n := if r > n then r else wrap (n + n)
      let (code, buff) ← balloc buff (wrap (n + 2))
      if code ≠ BSTR_OK then return none else formatLoop vsnprintf fuel n buff

section

variable {α β : Type} {x : A α} {f : α → A β} {results : List Bool}

theorem run_bind {a : α} {results' : List Bool} (h : x.run results = some (a, results')) :
    (x >>= f).run results = (f a).run results' := by
  rw [StateT.run_bind, h]
  rfl

theorem run_bind_none (h : x.run results = none) : (x >>= f).run results = none := by
  rw [StateT.run_bind, h]
  rfl

theorem access_run (y : Option α) : (access y).run results = y.map fun a => (a, results) := rfl

end

end Luaxx.Bstr.Failing
