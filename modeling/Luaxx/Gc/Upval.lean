import Luaxx.Gc.Marks

/-!
# Upvalues (`lfunc.c`, `lgc.c`, `lvm.c`)

The upvalues of all threads, by address. An open upvalue refers to a slot of a thread's stack and is
in two lists: that of the open upvalues of its thread, and the ring from `uvhead`. A closed one has
its own value, in the place of the links of the ring. The lists of a thread and `rootgc` are lists of
addresses; of `rootgc` only the upvalues are kept.
-/

namespace Luaxx.Gc

/-- What a link of the ring refers to. -/
inductive Node where
  | uvhead
  | uv (a : Nat)
  deriving DecidableEq, Repr

/-- Where `v` points to, with the member of the union that goes with it. -/
inductive Place (V : Type) where
  | stack (t level : Nat) (prev next : Node)
  | own (value : V)
  deriving DecidableEq, Repr

structure UpVal (V : Type) where
  marked : Marked
  v : Place V
  deriving DecidableEq, Repr

structure State (V : Type) where
  heap : Nat → Option (UpVal V)
  stack : Nat → Nat → V
  openupval : Nat → List Nat
  headPrev : Node
  headNext : Node
  rootgc : List Nat
  currentwhite : White
  gcstate : GCState
  /-- The upvalues of the closures that the program can still use. -/
  closures : List (List Nat)

namespace State

variable {V : Type} (s : State V)

/-- The slot that an open upvalue refers to. -/
def slot (a : Nat) : Option (Nat × Nat) :=
  match s.heap a with
  | some ⟨_, .stack t level _ _⟩ => some (t, level)
  | _ => none

def level (a : Nat) : Nat := ((s.slot a).map (·.2)).getD 0

def marked (a : Nat) : Option Marked := (s.heap a).map (·.marked)

def isdead (a : Nat) : Bool := (s.marked a).any (·.isdead s.currentwhite)

/-- The upvalue is allocated, and not dead. -/
def live (a : Nat) : Bool := (s.marked a).any fun m => !m.isdead s.currentwhite

def nextOf : Node → Node
  | .uvhead => s.headNext
  | .uv a =>
    match s.heap a with
    | some ⟨_, .stack _ _ _ next⟩ => next
    | _ => .uvhead

def prevOf : Node → Node
  | .uvhead => s.headPrev
  | .uv a =>
    match s.heap a with
    | some ⟨_, .stack _ _ prev _⟩ => prev
    | _ => .uvhead

def setHeap (a : Nat) (uv : Option (UpVal V)) : State V :=
  { s with heap := Function.update s.heap a uv }

def setOpen (t : Nat) (l : List Nat) : State V :=
  { s with openupval := Function.update s.openupval t l }

def mark (a : Nat) (f : Marked → Marked) : State V :=
  s.setHeap a ((s.heap a).map fun uv => { uv with marked := f uv.marked })

/-- `n->u.l.next = x` -/
def setNext (n x : Node) : State V :=
  match n with
  | .uvhead => { s with headNext := x }
  | .uv a =>
    match s.heap a with
    | some ⟨m, .stack t level prev _⟩ => s.setHeap a (some ⟨m, .stack t level prev x⟩)
    | _ => s

/-- `n->u.l.prev = x` -/
def setPrev (n x : Node) : State V :=
  match n with
  | .uvhead => { s with headPrev := x }
  | .uv a =>
    match s.heap a with
    | some ⟨m, .stack t level _ next⟩ => s.setHeap a (some ⟨m, .stack t level x next⟩)
    | _ => s

/-- `*uv->v` -/
def value (a : Nat) : Option V :=
  match s.heap a with
  | some ⟨_, .stack t level _ _⟩ => some (s.stack t level)
  | some ⟨_, .own value⟩ => some value
  | none => none

def setStack (t i : Nat) (v : V) : State V :=
  { s with stack := Function.update s.stack t (Function.update (s.stack t) i v) }

/-- `*uv->v = v` -/
def setValue (a : Nat) (v : V) : State V :=
  match s.heap a with
  | some ⟨_, .stack t level _ _⟩ => s.setStack t level v
  | some ⟨m, .own _⟩ => s.setHeap a (some ⟨m, .own v⟩)
  | none => s

end State

variable {V : Type}

/-- The state of a new universe, with no upvalue. -/
def lua_newstate (stack : Nat → Nat → V) : State V where
  heap _ := none
  stack := stack
  openupval _ := []
  headPrev := .uvhead
  headNext := .uvhead
  rootgc := []
  currentwhite := .white0
  gcstate := .GCSpause
  closures := []

/-- The search of `luaF_findupval` in a list: what is found, or the list with `new` in its place. -/
def findOpen (s : State V) (level new : Nat) : List Nat → Option Nat × List Nat
  | [] => (none, [new])
  | p :: rest =>
    if s.level p ≥ level then
      if s.level p = level then (some p, p :: rest)
      else
        let (found, rest) := findOpen s level new rest
        (found, p :: rest)
    else (none, new :: p :: rest)

/-- `new` is the address of the upvalue that is allocated if there is none yet. -/
def luaF_findupval (s : State V) (t level new : Nat) : Nat × State V :=
  match findOpen s level new (s.openupval t) with
  | (some p, _) => (p, if s.isdead p then s.mark p Marked.changewhite else s)
  | (none, l) =>
    let uv : UpVal V := ⟨.luaC_white s.currentwhite, .stack t level .uvhead s.headNext⟩
    let s := (s.setHeap new (some uv)).setOpen t l
    let s := s.setPrev s.headNext (.uv new)
    (new, { s with headNext := .uv new })

def unlinkupval (s : State V) (a : Nat) : State V :=
  let prev := s.prevOf (.uv a)
  let next := s.nextOf (.uv a)
  (s.setPrev next prev).setNext prev next

def luaF_freeupval (s : State V) (a : Nat) : State V :=
  let s := if (s.slot a).isSome then unlinkupval s a else s
  s.setHeap a none

/-- The barrier for the value of the upvalue changes the colour of another object. -/
def luaC_linkupval (s : State V) (a : Nat) : State V :=
  let s := { s with rootgc := a :: s.rootgc }
  if (s.marked a).any (·.isgray) then
    if s.gcstate = .GCSpropagate then s.mark a Marked.gray2black
    else s.mark a (Marked.makewhite s.currentwhite)
  else s

/-- One upvalue is closed, or freed if it is dead. -/
def closeOne (s : State V) (a : Nat) : State V :=
  if s.isdead a then luaF_freeupval s a
  else
    let s := unlinkupval s a
    let s := match s.heap a with
      | some ⟨m, .stack t level _ _⟩ => s.setHeap a (some ⟨m, .own (s.stack t level)⟩)
      | _ => s
    luaC_linkupval s a

/-- The loop of `luaF_close`, with the list that is left. -/
def closeLoop (t level : Nat) : List Nat → State V → State V
  | [], s => s
  | a :: rest, s =>
    if s.level a ≥ level then closeLoop t level rest (closeOne (s.setOpen t rest) a) else s

def luaF_close (s : State V) (t level : Nat) : State V := closeLoop t level (s.openupval t) s

/-- `sweepwholelist` on the open upvalues of a thread, with the upvalues that stay. -/
def sweepLoop : List Nat → State V → List Nat × State V
  | [], s => ([], s)
  | a :: rest, s =>
    if s.isdead a then sweepLoop rest (luaF_freeupval s a)
    else
      let (kept, s) := sweepLoop rest (s.mark a (Marked.makewhite s.currentwhite))
      (a :: kept, s)

def sweepOpen (s : State V) (t : Nat) : State V :=
  let (kept, s) := sweepLoop (s.openupval t) s
  s.setOpen t kept

/-- A pseudo-instruction after `OP_CLOSURE`. -/
inductive Capture where
  | GETUPVAL (b : Nat)
  /-- With the address that is allocated if it has to be. -/
  | MOVE (b new : Nat)
  deriving DecidableEq, Repr

/-- The loop of `OP_CLOSURE`, in a closure with the upvalues `cl`. -/
def captureLoop (t base : Nat) (cl : List Nat) :
    List Capture → State V → Option (List Nat × State V)
  | [], s => some ([], s)
  | .GETUPVAL b :: rest, s => do
    let a ← cl[b]?
    let (ncl, s) ← captureLoop t base cl rest s
    some (a :: ncl, s)
  | .MOVE b new :: rest, s => do
    -- nothing is allocated twice
    guard (s.heap new).isNone
    let (a, s) := luaF_findupval s t (base + b) new
    let (ncl, s) ← captureLoop t base cl rest s
    some (a :: ncl, s)

end Luaxx.Gc
