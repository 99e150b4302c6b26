import Luaxx.Collector.Mark

/-!
# The sweep phase, the barriers and the steps of the collector (`lgc.c`, `lfunc.c`)

The list of all objects is divided where the sweep stands, so an object that is linked in front of it
is swept if the sweep has not begun.
-/

namespace Luaxx.Collector

open Luaxx.Gc (White GCState)

def GCSWEEPMAX : Nat := 40

/-! ## Barriers -/

def luaC_barrierf (o v : Ref) (s : State) : State :=
  -- must keep invariant?
  if s.gcstate = .GCSpropagate then reallymarkobject v s
  -- mark as white just to avoid other barriers
  else s.makewhite o

def luaC_barrierback (t : Nat) (s : State) : State :=
  { s.recolour (.table t) Colour.black2gray with grayagain := .table t :: s.grayagain }

def luaC_objbarrier (p o : Ref) (s : State) : State :=
  if s.iswhite o && s.isblack p then luaC_barrierf p o s else s

def luaC_objbarriert (t : Nat) (o : Ref) (s : State) : State :=
  if s.iswhite o && s.isblack (.table t) then luaC_barrierback t s else s

def luaC_barrier (p : Ref) (v : Val) (s : State) : State :=
  match v.ref with
  | some o => luaC_objbarrier p o s
  | none => s

def luaC_barriert (t : Nat) (v : Val) (s : State) : State :=
  match v.ref with
  | some o => luaC_objbarriert t o s
  | none => s

/-! ## Linking -/

/-- An object is put in front of the list. -/
def linkroot (o : Ref) (s : State) : State :=
  if s.rootgc = [] then { s with sweepgc := o :: s.sweepgc } else { s with rootgc := o :: s.rootgc }

def luaC_link (o : Ref) (s : State) : State :=
  { linkroot o s with marked := Function.update s.marked o (some (.white s.currentwhite)) }

def luaC_linkupval (a : Nat) (s : State) : State :=
  let s := linkroot (.upval a) s
  if s.isgray (.upval a) then
    if s.gcstate = .GCSpropagate then
      -- closed upvalues need barrier
      luaC_barrier (.upval a) (s.upvalue a) (s.recolour (.upval a) Colour.gray2black)
    -- sweep phase: sweep it
    else s.makewhite (.upval a)
  else s

/-- An object is put behind another one. -/
def insertafter (m o : Ref) : List Ref → List Ref
  | [] => []
  | x :: rest => if x = m then x :: o :: rest else x :: insertafter m o rest

/-- A userdata is linked behind the main thread. -/
def linkudata (u : Nat) (s : State) : State :=
  let m := Ref.thread s.mainthread
  if s.rootgc.getLast? = some m then { s with sweepgc := .udata u :: s.sweepgc }
  else
    { s with
      rootgc := insertafter m (.udata u) s.rootgc
      sweepgc := insertafter m (.udata u) s.sweepgc }

/-! ## Upvalues -/

/-- An open upvalue is not referred to by its slot any more. -/
def unlinkupval (a : Nat) (s : State) : State := { s with uvhead := s.uvhead.erase a }

def freemem (o : Ref) (s : State) : State := { s with marked := Function.update s.marked o none }

def luaF_freeupval (a : Nat) (s : State) : State :=
  let s := match s.upval a with
    | .stack _ _ => unlinkupval a s
    | .closed _ => s
  freemem (.upval a) s

def State.level (s : State) (a : Nat) : Nat :=
  match s.upval a with
  | .stack _ slot => slot
  | .closed _ => 0

/-- One round of the loop of `luaF_close`. -/
def closeone (t a : Nat) (rest : List Nat) (s : State) : State :=
  let s := s.setThread t { s.thread t with openupval := rest }
  if s.isdead (.upval a) then luaF_freeupval a s
  else
    let s := unlinkupval a s
    luaC_linkupval a (s.setUpval a (.closed (s.upvalue a)))

def closeLoop (t level : Nat) : List Nat → State → State
  | [], s => s
  | a :: rest, s =>
    if s.level a ≥ level then closeLoop t level rest (closeone t a rest s) else s

def luaF_close (t level : Nat) (s : State) : State := closeLoop t level (s.thread t).openupval s

/-! ## Sweeping -/

/-- `(curr->gch.marked ^ WHITEBITS) & deadmask`: the object is not dead. The main thread and some
strings are never freed. -/
def survives (s : State) (o : Ref) : Bool := !s.isdead o || s.fixed o

def freeobj (o : Ref) (s : State) : State :=
  match o with
  | .upval a => luaF_freeupval a s
  -- close all upvalues for this thread
  | .thread t => freemem o (luaF_close t 0 s)
  | o => freemem o s

/-- `sweepwholelist` on the open upvalues of a thread, of which `kept` have been seen. -/
def sweepopenLoop (t : Nat) : List Nat → List Nat → State → State
  | _, [], s => s
  | kept, a :: rest, s =>
    if survives s (.upval a) then sweepopenLoop t (kept ++ [a]) rest (s.makewhite (.upval a))
    else
      let s := s.setThread t { s.thread t with openupval := kept ++ rest }
      sweepopenLoop t kept rest (freeobj (.upval a) s)

def sweepopen (t : Nat) (s : State) : State := sweepopenLoop t [] (s.thread t).openupval s

/-- One object of the list. -/
def sweepone (s : State) : State :=
  match s.sweepgc with
  | [] => s
  | curr :: rest =>
    let s := match curr with
      -- sweep open upvalues of each thread
      | .thread t => sweepopen t s
      | _ => s
    if survives s curr then
      -- make it white (for next cycle)
      { s.makewhite curr with rootgc := s.rootgc ++ [curr], sweepgc := rest }
    else freeobj curr { s with sweepgc := rest }

def sweeplist : Nat → State → State
  | 0, s => s
  | count + 1, s => if s.sweepgc.isEmpty then s else sweeplist count (sweepone s)

/-- `sweepwholelist` on a chain of the string table, of which `kept` have been seen. -/
def sweepchain (i : Nat) : List Nat → List Nat → State → State
  | _, [], s => s
  | kept, a :: rest, s =>
    if survives s (.string a) then sweepchain i (kept ++ [a]) rest (s.makewhite (.string a))
    else
      sweepchain i kept rest (freeobj (.string a) { s with strt := s.strt.set i (kept ++ rest) })

/-! ## Finalizers -/

/-- A store in a slot of a stack, which grows where needed. -/
def setstack (t slot : Nat) (v : Val) (s : State) : State :=
  let th := s.thread t
  s.setThread t { th with
    stack := (th.stack ++ List.replicate (slot + 1 - th.stack.length) Val.nil).set slot v }

def settop (t top : Nat) (s : State) : State := s.setThread t { s.thread t with top := top }

/-- `GCTM`, up to the call of the finalizer. -/
def GCTM (s : State) : State :=
  match s.tmudata with
  | [] => s
  | u :: tmudata =>
    -- remove udata from tmudata, and return it to root list
    let s := (linkudata u { s with tmudata := tmudata }).makewhite (.udata u)
    match fasttm s (s.udata u).metatable s.tm_gc with
    | .nil => s
    | tm =>
      let top := (s.thread s.L).top
      settop s.L (top + 2) (setstack s.L (top + 1) (.udata u) (setstack s.L top tm s))

/-! ## Steps -/

def sweepstring (s : State) : State :=
  let s := sweepchain s.sweepstrgc [] (s.strt.getD s.sweepstrgc []) s
  let s := { s with sweepstrgc := s.sweepstrgc + 1 }
  -- nothing more to sweep?
  if s.sweepstrgc ≥ s.strt.length then { s with gcstate := .GCSsweep } else s

def sweep (s : State) : State :=
  let s := sweeplist GCSWEEPMAX s
  if s.sweepgc.isEmpty then { s with gcstate := .GCSfinalize } else s

def singlestep (s : State) : State :=
  match s.gcstate with
  | .GCSpause => markroot s
  | .GCSpropagate => if s.gray.isEmpty then atomic s else propagatemark s
  | .GCSsweepstring => sweepstring s
  | .GCSsweep => sweep s
  | .GCSfinalize => if s.tmudata.isEmpty then { s with gcstate := .GCSpause } else GCTM s

/-- What `luaC_fullgc` does first when a collection has not yet come to its sweep phase: all elements
are returned to white. -/
def resetsweep (s : State) : State :=
  { s with
    sweepstrgc := 0
    rootgc := []
    sweepgc := s.rootgc ++ s.sweepgc
    gray := []
    grayagain := []
    weak := []
    gcstate := .GCSsweepstring }

end Luaxx.Collector
