import Mathlib.Tactic.Ring
import Luaxx.Gc.Marks
import Luaxx.Lib.Buckets

/-!
# String table (`lstring.c`)

Keeps all strings handled by Lua. The chains of the table are lists of strings, each with its
address. What the collector does to strings (`lgc.c`) is modelled with the marks that it sets taken
as given; an allocation has its result given.
-/

namespace Luaxx.Intern

open Luaxx.Gc Luaxx.Buckets

def MAX_SIZET : Nat := 2 ^ 64 - 3

def INT_MAX : Nat := 2 ^ 31 - 1

def MAX_INT : Nat := INT_MAX - 2

def MINSTRTABSIZE : Nat := 32

/-- `sizeof(TString)` -/
def sizeofTString : Nat := 24

/-- A string at its address; `fixed` is the bit `FIXEDBIT` of `marked`. -/
structure TString where
  ptr : Nat
  marked : Marked
  fixed : Bool
  hash : UInt32
  bytes : List UInt8
  deriving DecidableEq, Repr

def TString.len (ts : TString) : Nat := ts.bytes.length

/-- The fields of `global_State` that are about strings. -/
structure GlobalState where
  /-- `strt.hash`, an array of `strt.size` chains -/
  hash : List (List TString)
  nuse : UInt32
  gcstate : GCState
  currentwhite : White
  sweepstrgc : Nat
  deriving DecidableEq, Repr

def GlobalState.size (g : GlobalState) : Nat := g.hash.length

def GlobalState.strings (g : GlobalState) : List TString := g.hash.flatten

inductive Error where
  | errmem
  /-- `luaM_toobig` -/
  | toobig
  deriving DecidableEq, Repr

def lmod (s : UInt32) (size : Nat) : Nat := s.toNat &&& (size - 1)

/-- The chain of a string. -/
def place (size : Nat) (ts : TString) : Nat := lmod ts.hash size

/-! ## Making strings -/

/-- An error leaves the state that it was raised in. -/
def luaS_resize (newsize : Nat) (newvector : Bool) (g : GlobalState) :
    GlobalState × Except Error Unit :=
  -- cannot resize during GC traverse
  if g.gcstate = .GCSsweepstring then (g, .ok ())
  else if newvector then ({ g with hash := rehash place newsize g.hash }, .ok ())
  else (g, .error .errmem)

def newlstr (str : List UInt8) (h : UInt32) (malloc : Option Nat) (newvector : Bool)
    (g : GlobalState) : GlobalState × Except Error Nat :=
  if str.length + 1 > MAX_SIZET - sizeofTString then (g, .error .toobig)
  else match malloc with
    | none => (g, .error .errmem)
    | some ptr =>
      let ts : TString := {
        ptr := ptr
        marked := Marked.luaC_white g.currentwhite
        fixed := false
        hash := h
        bytes := str }
      -- chain new entry
      let g := { g with hash := push place g.hash ts, nuse := g.nuse + 1 }
      if g.nuse.toNat > g.size ∧ g.size ≤ MAX_INT / 2 then
        -- too crowded
        let (g, result) := luaS_resize (g.size * 2) newvector g
        (g, result.map fun _ => ptr)
      else (g, .ok ptr)

/-- The loop that computes a hash; `l1` goes down by `step`, which is not 0. -/
def hashLoop (str : List UInt8) (step : Nat) : Nat → Nat → UInt32 → UInt32
  | 0, _, h => h
  | k + 1, l1, h =>
    if l1 ≥ step then
      hashLoop str step k (l1 - step)
        (h ^^^ ((h <<< 5) + (h >>> 2) + (str.getD (l1 - 1) 0).toUInt32))
    else h

/-- If a string is too long, not all its characters are hashed. -/
def hash (str : List UInt8) : UInt32 :=
  hashLoop str ((str.length >>> 5) + 1) str.length str.length (UInt32.ofNat str.length)

/-- The loop over a chain: the address of a string with the bytes, and the chain behind the call. -/
def findLoop (currentwhite : White) (str : List UInt8) : List TString → Option (Nat × List TString)
  | [] => none
  | o :: rest =>
    if o.len = str.length ∧ o.bytes.take str.length = str then
      -- string may be dead
      if o.marked.isdead currentwhite then
        some (o.ptr, { o with marked := o.marked.changewhite } :: rest)
      else some (o.ptr, o :: rest)
    else (findLoop currentwhite str rest).map fun (ptr, rest) => (ptr, o :: rest)

def luaS_newlstr (str : List UInt8) (malloc : Option Nat) (newvector : Bool) (g : GlobalState) :
    GlobalState × Except Error Nat :=
  let h := hash str
  match findLoop g.currentwhite str (g.hash.getD (lmod h g.size) []) with
  | some (ptr, chain) => ({ g with hash := g.hash.modify (lmod h g.size) fun _ => chain }, .ok ptr)
  -- not found
  | none => newlstr str h malloc newvector g

/-! ## The collector on strings -/

/-- A change of the string at an address. -/
def GlobalState.change (g : GlobalState) (ptrs : List Nat) (f : TString → TString) : GlobalState :=
  { g with hash := g.hash.map (List.map fun ts => if ts.ptr ∈ ptrs then f ts else ts) }

def luaS_fix (ptr : Nat) (g : GlobalState) : GlobalState :=
  g.change [ptr] fun ts => { ts with fixed := true }

/-- `stringmark` (or `white2gray`): the bits of both whites are reset. -/
def stringmark (ts : TString) : TString :=
  { ts with marked := { ts.marked with white0 := false, white1 := false } }

def markroot (marks : List Nat) (g : GlobalState) : GlobalState :=
  { g.change marks stringmark with gcstate := .GCSpropagate }

def atomic (marks : List Nat) (g : GlobalState) : GlobalState :=
  { g.change marks stringmark with
    -- flip current white
    currentwhite := g.currentwhite.other
    sweepstrgc := 0
    gcstate := .GCSsweepstring }

/-- The test of `sweeplist`: `otherwhite` has the bit `FIXEDBIT`, as `currentwhite` has. -/
def TString.survives (currentwhite : White) (ts : TString) : Bool :=
  !ts.marked.hasWhite currentwhite.other || ts.fixed

/-- `freeobj` counts a string less. -/
def sweeplist (currentwhite : White) : List TString → UInt32 → List TString × UInt32
  | [], nuse => ([], nuse)
  | curr :: rest, nuse =>
    if curr.survives currentwhite then
      let (rest, nuse) := sweeplist currentwhite rest nuse
      -- make it white (for next cycle)
      ({ curr with marked := curr.marked.makewhite currentwhite } :: rest, nuse)
    else sweeplist currentwhite rest (nuse - 1)

def checkSizes (newvector resizebuffer : Bool) (g : GlobalState) :
    GlobalState × Except Error Unit :=
  -- check size of string hash
  let resized :=
    if g.nuse.toNat < g.size / 4 ∧ g.size > MINSTRTABSIZE * 2 then
      luaS_resize (g.size / 2) newvector g
    else (g, .ok ())
  (resized.1, do
    resized.2
    -- check size of buffer
    if resizebuffer then pure () else throw .errmem)

/-- The step marks the strings at `marks`. The list that it works on (`gray`, `sweepgc` or
`tmudata`) has come to its end where `last`. -/
def singlestep (marks : List Nat) (last newvector resizebuffer : Bool) (g : GlobalState) :
    GlobalState × Except Error Unit :=
  match g.gcstate with
  | .GCSpause => (markroot marks g, .ok ())
  | .GCSpropagate =>
    if last then (atomic marks g, .ok ())
    else (g.change marks stringmark, .ok ())
  | .GCSsweepstring =>
    let (chain, nuse) := sweeplist g.currentwhite (g.hash.getD g.sweepstrgc []) g.nuse
    let g := { g with
      hash := g.hash.modify g.sweepstrgc fun _ => chain
      nuse := nuse
      sweepstrgc := g.sweepstrgc + 1 }
    -- nothing more to sweep?
    if g.sweepstrgc ≥ g.size then ({ g with gcstate := .GCSsweep }, .ok ()) else (g, .ok ())
  | .GCSsweep =>
    if last then
      match checkSizes newvector resizebuffer g with
      | (g, .ok ()) => ({ g with gcstate := .GCSfinalize }, .ok ())
      | (g, .error e) => (g, .error e)
    else (g, .ok ())
  | .GCSfinalize => if last then ({ g with gcstate := .GCSpause }, .ok ()) else (g, .ok ())

/-- What `luaC_fullgc` does before its steps. -/
def restart (g : GlobalState) : GlobalState :=
  -- reset sweep marks to sweep all elements (returning them to white)
  if g.gcstate = .GCSpause ∨ g.gcstate = .GCSpropagate then
    { g with sweepstrgc := 0, gcstate := .GCSsweepstring }
  else g

/-- The state in which `lua_newstate` calls `f_luaopen`, which gives the table its initial size. -/
def newstate : GlobalState where
  hash := []
  nuse := 0
  gcstate := .GCSpause
  currentwhite := .white0
  sweepstrgc := 0

def f_luaopen : GlobalState := (luaS_resize MINSTRTABSIZE true newstate).1

end Luaxx.Intern
