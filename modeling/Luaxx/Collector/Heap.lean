import Mathlib.Logic.Function.Basic
import Mathlib.Logic.Relation
import Luaxx.Gc.Marks

/-!
# The heap of the collector (`lobject.h`, `lstate.h`, `lgc.h`)

Objects by kind and address, with what the collector reads of them. Their colours are in a map of
their own, which also says what is allocated. The lists that run through the objects are lists of
references.
-/

namespace Luaxx.Collector

open Luaxx.Gc (White GCState)

/-- The bits of `marked` that tell the colour. -/
inductive Colour where
  | white (w : White)
  | gray
  | black
  deriving DecidableEq, Repr

namespace Colour

def iswhite : Colour → Bool
  | white _ => true
  | _ => false

def white2gray : Colour → Colour
  | white _ => gray
  | c => c

def black2gray : Colour → Colour
  | black => gray
  | c => c

def gray2black : Colour → Colour
  | gray => black
  | c => c

def changewhite : Colour → Colour
  | white w => white w.other
  | c => c

end Colour

/-- A collectable object. -/
inductive Ref where
  | string (a : Nat)
  | udata (a : Nat)
  | table (a : Nat)
  | function (a : Nat)
  | thread (a : Nat)
  | proto (a : Nat)
  | upval (a : Nat)
  deriving DecidableEq, Repr

/-- A value; `data` is one that is not collectable. -/
inductive Val where
  | nil
  | data (n : Nat)
  | string (a : Nat)
  | udata (a : Nat)
  | table (a : Nat)
  | function (a : Nat)
  | thread (a : Nat)
  | proto (a : Nat)
  deriving DecidableEq, Repr

def Val.ref : Val → Option Ref
  | nil => none
  | data _ => none
  | string a => some (.string a)
  | udata a => some (.udata a)
  | table a => some (.table a)
  | function a => some (.function a)
  | thread a => some (.thread a)
  | proto a => some (.proto a)

/-- The type of the key of a `dead` node is `LUA_TDEADKEY`. -/
structure Node where
  key : Val
  val : Val
  dead : Bool
  deriving DecidableEq, Repr

structure Table where
  metatable : Option Nat
  array : List Val
  node : List Node
  /-- The bits `KEYWEAK` and `VALUEWEAK` of `marked`. -/
  keyweak : Bool
  valueweak : Bool
  deriving DecidableEq, Repr

structure Udata where
  metatable : Option Nat
  env : Nat
  finalized : Bool
  deriving DecidableEq, Repr

inductive Closure where
  | c (env : Nat) (upvalue : List Val)
  | l (env p : Nat) (upvals : List Nat)
  deriving DecidableEq, Repr

/-- Strings and functions that are not yet set are `none`. -/
structure Proto where
  source : Option Nat
  k : List Val
  upvalues : List (Option Nat)
  p : List (Option Nat)
  locvars : List (Option Nat)
  deriving DecidableEq, Repr

/-- An open upvalue refers to a slot of a thread. -/
inductive UpVal where
  | stack (t slot : Nat)
  | closed (v : Val)
  deriving DecidableEq, Repr

/-- The slots of the stack are those up to the highest `ci->top`. -/
structure Thread where
  gt : Nat
  stack : List Val
  top : Nat
  openupval : List Nat
  deriving DecidableEq, Repr

structure State where
  marked : Ref → Option Colour
  /-- The bit `FIXEDBIT` of `marked`. -/
  fixed : Ref → Bool
  str : Nat → List UInt8
  udata : Nat → Udata
  table : Nat → Table
  function : Nat → Closure
  thread : Nat → Thread
  proto : Nat → Proto
  upval : Nat → UpVal
  currentwhite : White
  gcstate : GCState
  /-- The chains of the string table. -/
  strt : List (List Nat)
  sweepstrgc : Nat
  /-- The list of all other objects: before `*g->sweepgc`, and from there on. The userdata are behind
  the main thread. -/
  rootgc : List Ref
  sweepgc : List Ref
  gray : List Ref
  grayagain : List Ref
  weak : List Nat
  /-- From the first element of the circular list to the last one. -/
  tmudata : List Nat
  uvhead : List Nat
  mainthread : Nat
  registry : Nat
  mt : List (Option Nat)
  /-- The thread that runs. -/
  L : Nat
  /-- The strings `__mode` and `__gc`. -/
  tm_mode : Nat
  tm_gc : Nat

namespace State

variable (s : State)

def recolour (r : Ref) (f : Colour → Colour) : State :=
  { s with marked := Function.update s.marked r ((s.marked r).map f) }

def iswhite (r : Ref) : Bool := (s.marked r).any Colour.iswhite

def isblack (r : Ref) : Bool := s.marked r = some .black

def isgray (r : Ref) : Bool := s.marked r = some .gray

def isdead (r : Ref) : Bool := s.marked r = some (.white s.currentwhite.other)

def makewhite (r : Ref) : State := s.recolour r fun _ => .white s.currentwhite

def setTable (h : Nat) (t : Table) : State := { s with table := Function.update s.table h t }

def setUdata (u : Nat) (x : Udata) : State := { s with udata := Function.update s.udata u x }

def setFunction (f : Nat) (cl : Closure) : State :=
  { s with function := Function.update s.function f cl }

def setThread (t : Nat) (th : Thread) : State := { s with thread := Function.update s.thread t th }

def setProto (f : Nat) (p : Proto) : State := { s with proto := Function.update s.proto f p }

def setUpval (a : Nat) (uv : UpVal) : State := { s with upval := Function.update s.upval a uv }

/-- `*uv->v` -/
def upvalue (a : Nat) : Val :=
  match s.upval a with
  | .stack t slot => (s.thread t).stack.getD slot .nil
  | .closed v => v

/-- Everything that is allocated. -/
def objects : List Ref :=
  s.strt.flatten.map .string ++ s.rootgc ++ s.sweepgc ++ s.tmudata.map .udata ++ s.uvhead.map .upval

end State

/-! ## Tag methods -/

/-- `luaH_getstr`: a key is in one node at most, and an entry whose value is nil is none. -/
def luaH_getstr (t : Table) (key : Nat) : Val :=
  ((t.node.find? fun n => !n.dead && n.key = .string key && n.val ≠ .nil).map (·.val)).getD .nil

/-- `fasttm(L, metatable, event)`, where the cache agrees with the table. -/
def fasttm (s : State) (metatable : Option Nat) (event : Nat) : Val :=
  match metatable with
  | none => .nil
  | some mt => luaH_getstr (s.table mt) event

/-- The weak mode of a table with this metatable: of its keys and of its values. -/
def weakmode (s : State) (metatable : Option Nat) : Bool × Bool :=
  match fasttm s metatable s.tm_mode with
  | .string a =>
    let svalue := (s.str a).takeWhile (· ≠ 0)
    (svalue.contains 'k'.toUInt8, svalue.contains 'v'.toUInt8)
  | _ => (false, false)

/-! ## References -/

/-- Keys that are marked dead are not referred to. -/
def Node.refs (n : Node) : List Ref := (if n.dead then none else n.key.ref).toList ++ n.val.ref.toList

/-- What is found in a table: an entry whose value is nil is none. -/
def Table.refs (t : Table) : List Ref :=
  t.metatable.toList.map .table ++ t.array.filterMap Val.ref ++
    t.node.flatMap fun n => if n.val = .nil then [] else n.refs

def Udata.refs (u : Udata) : List Ref := u.metatable.toList.map .table ++ [.table u.env]

def Closure.refs : Closure → List Ref
  | .c env upvalue => .table env :: upvalue.filterMap Val.ref
  | .l env p upvals => .table env :: .proto p :: upvals.map .upval

def Proto.refs (p : Proto) : List Ref :=
  (p.source.toList ++ p.upvalues.reduceOption ++ p.locvars.reduceOption).map .string ++
    p.k.filterMap Val.ref ++ p.p.reduceOption.map .proto

/-- A thread does not keep its open upvalues. -/
def Thread.refs (th : Thread) : List Ref := .table th.gt :: th.stack.filterMap Val.ref

/-- What an object refers to. -/
def State.refs (s : State) : Ref → List Ref
  | .string _ => []
  | .udata u => (s.udata u).refs
  | .table h => (s.table h).refs
  | .function f => (s.function f).refs
  | .thread t => (s.thread t).refs
  | .proto f => (s.proto f).refs
  | .upval a => (s.upvalue a).ref.toList

/-- Userdata that wait for their finalizers are kept as well. -/
def State.IsRoot (s : State) (o : Ref) : Prop :=
  o = .thread s.mainthread ∨ o = .table s.registry ∨ o = .thread s.L ∨
    (∃ mt ∈ s.mt.reduceOption, o = .table mt) ∨ (∃ u ∈ s.tmudata, o = .udata u) ∨
    s.fixed o = true

def State.Refers (s : State) (o o' : Ref) : Prop := o' ∈ s.refs o

/-- The program can come to an object. -/
def Reach (s : State) (o : Ref) : Prop :=
  ∃ root, s.IsRoot root ∧ Relation.ReflTransGen s.Refers root o

def Held (s : State) (v : Val) : Prop := ∀ o ∈ v.ref, Reach s o

end Luaxx.Collector
