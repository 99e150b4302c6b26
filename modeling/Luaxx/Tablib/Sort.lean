import Luaxx.Lib.Int32
import Luaxx.Lib.Traced
import Luaxx.Vm.Compare
import Mathlib.Logic.Function.Basic

/-!
# `table.sort` (`ltablib.c`)

The table is the map of its elements, which the comparator does not change: what it may change is a
state `σ` of its own. The values that `auxsort` has on the stack are a list, the last one first. The
run leaves a trace of the places in the table that are read and written, of the calls of `auxsort`
and of where its first inner loop ends.
-/

namespace Luaxx.Tablib

open Luaxx.Int32 Luaxx.Tracing Luaxx.Vm

inductive Event where
  /-- `lua_rawgeti`. -/
  | read (i : Int)
  /-- `lua_rawseti`. -/
  | write (i : Int)
  /-- `auxsort` is called with so many values on the stack. -/
  | call (top : Nat)
  /-- `auxsort` returns with so many values on the stack. -/
  | leave (top : Nat)
  /-- The loop that looks upwards ends at `i`, in a segment up to `u`. -/
  | stopped (i u : Int)
  deriving DecidableEq, Repr

inductive Stop (ε : Type) where
  /-- `luaL_error`. -/
  | error (msg : String)
  /-- An error of the comparator, or of the comparison. -/
  | raised (e : ε)
  | outOfFuel
  /-- More calls of `auxsort` in each other than there are levels. -/
  | outOfLevels
  deriving DecidableEq, Repr

structure State (σ : Type) where
  rest : σ
  t : Int → TValue
  stack : List TValue

/-- The second argument of `sort`. -/
inductive Comparator (σ ε : Type) where
  | nil
  | function (f : TValue) (call : TValue → TValue → LuaM σ ε TValue)

variable {σ ε : Type}

abbrev M (σ ε α : Type) : Type := Traced (Stop ε) Event (State σ) α

/-! ## The stack and the table -/

def push (v : TValue) : M σ ε Unit := update fun s => { s with stack := v :: s.stack }

def lua_pop (n : Nat) : M σ ε Unit := update fun s => { s with stack := s.stack.drop n }

/-- The value at a negative index. -/
def index2adr (idx : Int) : M σ ε TValue := do
  let s ← look
  pure (s.stack.getD (-idx - 1).toNat .nil)

def lua_pushvalue (idx : Int) : M σ ε Unit := do
  let v ← index2adr idx
  push v

/-- `lua_rawgeti(L, 1, i)` -/
def lua_rawgeti (i : Int) : M σ ε Unit := do
  record (.read i)
  let s ← look
  push (s.t i)

/-- `lua_rawseti(L, 1, i)` -/
def lua_rawseti (i : Int) : M σ ε Unit := do
  record (.write i)
  update fun s =>
    { s with t := Function.update s.t i (s.stack.getD 0 .nil), stack := s.stack.drop 1 }

/-- A computation of the rest of the system. -/
def lift {α : Type} (x : LuaM σ ε α) : M σ ε α := fun s =>
  match x.run s.rest with
  | (.ok a, rest) => ⟨.ok a, { s with rest := rest }, []⟩
  | (.error e, rest) => ⟨.error (.raised e), { s with rest := rest }, []⟩

section

variable (s : State σ) (idx i j : Int) (v : TValue)

theorem push_eq : (push v : M σ ε Unit) s = ⟨.ok (), { s with stack := v :: s.stack }, []⟩ := rfl

theorem lua_pop_eq (n : Nat) :
    (lua_pop n : M σ ε Unit) s = ⟨.ok (), { s with stack := s.stack.drop n }, []⟩ := rfl

theorem index2adr_eq :
    (index2adr idx : M σ ε TValue) s = ⟨.ok (s.stack.getD (-idx - 1).toNat .nil), s, []⟩ := rfl

theorem lua_pushvalue_eq :
    (lua_pushvalue idx : M σ ε Unit) s =
      ⟨.ok (), { s with stack := s.stack.getD (-idx - 1).toNat .nil :: s.stack }, []⟩ := rfl

theorem lua_rawgeti_eq :
    (lua_rawgeti i : M σ ε Unit) s =
      ⟨.ok (), { s with stack := s.t i :: s.stack }, [.read i]⟩ := rfl

end

/-- `lua_call(L, 2, 1)` -/
def lua_call (call : TValue → TValue → LuaM σ ε TValue) : M σ ε Unit := do
  let a ← index2adr (-2)
  let b ← index2adr (-1)
  let v ← lift (call a b)
  lua_pop 3
  push v

/-! ## Sorting -/

def set2 (i j : Int) : M σ ε Unit := do
  lua_rawseti i
  lua_rawseti j

theorem set2_eq (i j : Int) (x y : TValue) (rest : σ) (t : Int → TValue) (st : List TValue) :
    (set2 i j : M σ ε Unit) ⟨rest, t, y :: x :: st⟩ =
      ⟨.ok (), ⟨rest, Function.update (Function.update t i y) j x, st⟩, [.write i, .write j]⟩ := rfl

variable (host : Host σ ε) (comparator : Comparator σ ε)

def sort_comp (a b : Int) : M σ ε Bool :=
  match comparator with
  | .function f call => do
    push f
    -- one less to compensate the function, and the first argument
    lua_pushvalue (a - 1)
    lua_pushvalue (b - 2)
    lua_call call
    let v ← index2adr (-1)
    lua_pop 1
    pure !v.l_isfalse
  | .nil => do
    let x ← index2adr a
    let y ← index2adr b
    lift (luaV_lessthan host x y)

variable (fuel : Nat)

/-- Repeat `++i` until `a[i] >= P`. -/
def scanUp (u : Int) : Nat → Int → M σ ε Int
  | 0, _ => fail .outOfFuel
  | k + 1, i => do
    let i := i + 1
    lua_rawgeti i
    let less ← sort_comp host comparator (-1) (-2)
    if less then
      if i > u then fail (.error "invalid order function for sorting")
      else do
        lua_pop 1
        scanUp u k i
    else do
      record (.stopped i u)
      pure i

/-- Repeat `--j` until `a[j] <= P`. -/
def scanDown (l : Int) : Nat → Int → M σ ε Int
  | 0, _ => fail .outOfFuel
  | k + 1, j => do
    let j := j - 1
    lua_rawgeti j
    let less ← sort_comp host comparator (-3) (-1)
    if less then
      if j < l then fail (.error "invalid order function for sorting")
      else do
        lua_pop 1
        scanDown l k j
    else pure j

/-- The inner `for` of `auxsort`, up to where the pivot goes. -/
def partitionLoop (l u : Int) : Nat → Int → Int → M σ ε Int
  | 0, _, _ => fail .outOfFuel
  | k + 1, i, j => do
    let i ← scanUp host comparator u fuel i
    let j ← scanDown host comparator l fuel j
    if j < i then do
      lua_pop 3
      pure i
    else do
      set2 i j
      partitionLoop l u k i j

/-- Sort elements `a[l]` and `a[u]`. -/
def sortEnds (l u : Int) : M σ ε Unit := do
  lua_rawgeti l
  lua_rawgeti u
  let less ← sort_comp host comparator (-1) (-2)
  if less then set2 l u else lua_pop 2

/-- Sort `a[i]` between `a[l]` and `a[u]`. -/
def sortMiddle (l i u : Int) : M σ ε Unit := do
  lua_rawgeti i
  lua_rawgeti l
  let less ← sort_comp host comparator (-2) (-1)
  if less then set2 i l
  else do
    lua_pop 1
    lua_rawgeti u
    let less ← sort_comp host comparator (-1) (-2)
    if less then set2 i u else lua_pop 2

/-- The partition by the pivot `a[i]`, and where the pivot is then. -/
def partition (l i u : Int) : M σ ε Int := do
  lua_rawgeti i
  lua_pushvalue (-1)
  lua_rawgeti (u - 1)
  set2 i (u - 1)
  let i ← partitionLoop host comparator fuel l u fuel l (u - 1)
  lua_rawgeti (u - 1)
  lua_rawgeti i
  set2 (u - 1) i
  pure i

/-- The loop of `auxsort`, which calls `auxsort` for the smaller half. -/
def auxsortLoop (auxsort : Int → Int → M σ ε Unit) : Nat → Int → Int → M σ ε Unit
  | 0, _, _ => fail .outOfFuel
  | k + 1, l, u =>
    if l < u then do
      sortEnds host comparator l u
      if u - l = 1 then pure ()
      else do
        let i := (wrap (l + u)).tdiv 2
        sortMiddle host comparator l i u
        if u - l = 2 then pure ()
        else do
          let i ← partition host comparator fuel l i u
          if i - l < u - i then do
            auxsort l (i - 1)
            auxsortLoop auxsort k (i + 1) u
          else do
            auxsort (i + 1) u
            auxsortLoop auxsort k l (i - 1)
    else pure ()

def auxsort : Nat → Int → Int → M σ ε Unit
  | 0, _, _ => fail .outOfLevels
  | levels + 1, l, u => do
    let s ← look
    record (.call s.stack.length)
    auxsortLoop host comparator fuel (auxsort levels) fuel l u
    let s ← look
    record (.leave s.stack.length)

/-- `sort`, for a table of length `n`. -/
def sort (levels : Nat) (n : Nat) : M σ ε Unit := auxsort host comparator fuel levels 1 n

end Luaxx.Tablib
