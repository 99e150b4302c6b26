import Luaxx.Collector.Sweep

/-!
# Programs and the collector (`lapi.c`, `lvm.c`, `lfunc.c`, `lstring.c`, `lstate.c`)

A program has what it can reach from its threads, the registry and the basic metatables, through weak
tables as well. It makes objects and stores what it has in objects that it has; every kind of store
has the barrier of the code. The collector may take a step between any two of these.
-/

namespace Luaxx.Collector

open Luaxx.Gc (White GCState)

/-! ## Objects that are made -/

/-- `newlstr`, in a chain of the string table. -/
def newlstr (a chain : Nat) (str : List UInt8) (s : State) : State :=
  { s with
    marked := Function.update s.marked (.string a) (some (.white s.currentwhite))
    fixed := Function.update s.fixed (.string a) false
    str := Function.update s.str a str
    strt := s.strt.modify chain (a :: ·) }

/-- `luaS_newlstr` that finds its string, which may be dead. -/
def foundstr (a : Nat) (s : State) : State :=
  if s.isdead (.string a) then s.recolour (.string a) Colour.changewhite else s

def luaS_fix (a : Nat) (s : State) : State :=
  { s with fixed := Function.update s.fixed (.string a) true }

def luaS_newudata (u env : Nat) (s : State) : State :=
  let s := { s with marked := Function.update s.marked (.udata u) (some (.white s.currentwhite)) }
  linkudata u (s.setUdata u ⟨none, env, false⟩)

def luaH_new (h : Nat) (s : State) : State :=
  luaC_link (.table h) (s.setTable h ⟨none, [], [], false, false⟩)

def newclosure (f : Nat) (cl : Closure) (s : State) : State :=
  luaC_link (.function f) (s.setFunction f cl)

def luaF_newupval (a : Nat) (s : State) : State :=
  luaC_link (.upval a) (s.setUpval a (.closed .nil))

def newproto (f : Nat) (p : Proto) (s : State) : State := luaC_link (.proto f) (s.setProto f p)

/-- The new thread shares the table of globals. -/
def luaE_newthread (t : Nat) (s : State) : State :=
  luaC_link (.thread t) (s.setThread t ⟨(s.thread s.L).gt, [.nil], 1, []⟩)

/-! ## Upvalues -/

/-- The search of `luaF_findupval` in the list of the thread: what is found, or the list with `new`
in its place. -/
def findLoop (s : State) (level new : Nat) : List Nat → Option Nat × List Nat
  | [] => (none, [new])
  | p :: rest =>
    if s.level p ≥ level then
      if s.level p = level then (some p, p :: rest)
      else
        let (found, rest) := findLoop s level new rest
        (found, p :: rest)
    else (none, new :: p :: rest)

def luaF_findupval (t level new : Nat) (s : State) : State :=
  match findLoop s level new (s.thread t).openupval with
  | (some p, _) =>
    -- is it dead? resurrect it
    if s.isdead (.upval p) then s.recolour (.upval p) Colour.changewhite else s
  | (none, openupval) =>
    let s := s.setThread t { s.thread t with openupval := openupval }
    { s.setUpval new (.stack t level) with
      marked := Function.update s.marked (.upval new) (some (.white s.currentwhite))
      uvhead := new :: s.uvhead }

/-! ## Stores -/

def setarray (h i : Nat) (v : Val) (s : State) : State :=
  luaC_barriert h v (s.setTable h { s.table h with array := (s.table h).array.set i v })

/-- An existing entry gets a value. -/
def setnode (h i : Nat) (v : Val) (s : State) : State :=
  luaC_barriert h v (s.setTable h { s.table h with
    node := (s.table h).node.modify i fun n => { n with val := v } })

/-- The last lines of `newkey`: the node is a free one. -/
def newkey (h i : Nat) (key : Val) (s : State) : State :=
  luaC_barriert h key (s.setTable h { s.table h with node := (s.table h).node.set i ⟨key, .nil, false⟩ })

/-- The entries are in other places. -/
structure Rearranged (t t' : Table) : Prop where
  metatable : t'.metatable = t.metatable
  keyweak : t'.keyweak = t.keyweak
  valueweak : t'.valueweak = t.valueweak
  array : ∀ v ∈ t'.array, v = .nil ∨ v ∈ t.array ∨ ∃ n ∈ t.node, n.val = v
  node : ∀ n ∈ t'.node, (n.val = .nil ∧ n.key.ref = none) ∨ (n.key.ref = none ∧ n.val ∈ t.array) ∨
    n ∈ t.node

def setmetatable (h : Nat) (mt : Option Nat) (s : State) : State :=
  let s := s.setTable h { s.table h with metatable := mt }
  match mt with
  | some mt => luaC_objbarriert h (.table mt) s
  | none => s

def setudatamt (u : Nat) (mt : Option Nat) (s : State) : State :=
  let s := s.setUdata u { s.udata u with metatable := mt }
  match mt with
  | some mt => luaC_objbarrier (.udata u) (.table mt) s
  | none => s

def setudataenv (u env : Nat) (s : State) : State :=
  luaC_objbarrier (.udata u) (.table env) (s.setUdata u { s.udata u with env := env })

def Closure.setenv (env : Nat) : Closure → Closure
  | .c _ upvalue => .c env upvalue
  | .l _ p upvals => .l env p upvals

def setfenv (f env : Nat) (s : State) : State :=
  luaC_objbarrier (.function f) (.table env) (s.setFunction f ((s.function f).setenv env))

def setthreadenv (t env : Nat) (s : State) : State :=
  luaC_objbarrier (.thread t) (.table env) (s.setThread t { s.thread t with gt := env })

def Closure.setupvalue (i : Nat) (v : Val) : Closure → Closure
  | .c env upvalue => .c env (upvalue.set i v)
  | cl => cl

/-- A store in an upvalue of a C function. -/
def setCupvalue (f i : Nat) (v : Val) (s : State) : State :=
  luaC_barrier (.function f) v (s.setFunction f ((s.function f).setupvalue i v))

/-- `setobj(L, uv->v, v)` -/
def setuv (a : Nat) (v : Val) (s : State) : State :=
  match s.upval a with
  | .stack t slot => setstack t slot v s
  | .closed _ => s.setUpval a (.closed v)

def op_setupval (a : Nat) (v : Val) (s : State) : State := luaC_barrier (.upval a) v (setuv a v s)

/-- `lua_setupvalue`, of a Lua function: the barrier is that of the function. -/
def lua_setupvalue (f a : Nat) (v : Val) (s : State) : State :=
  luaC_barrier (.function f) v (setuv a v s)

/-- A prototype gets a constant, a function, or a name. -/
def setproto (f : Nat) (p : Proto) (o : Ref) (s : State) : State :=
  luaC_objbarrier (.proto f) o (s.setProto f p)

/-! ## Steps -/

inductive Event where
  | other
  | newudata (u : Nat)
  /-- The finalizer of a userdata is called. -/
  | gctm (u : Nat)
  deriving DecidableEq, Repr

/-- The finalizer that `GCTM` calls. -/
def gctmEvent (s : State) : Event :=
  match s.tmudata with
  | [] => .other
  | u :: _ => if fasttm s (s.udata u).metatable s.tm_gc = .nil then .other else .gctm u

inductive Step : State → Event → State → Prop
  -- the collector
  | singlestep {s : State} (h : s.gcstate ≠ .GCSfinalize ∨ s.tmudata = []) :
    Step s .other (singlestep s)
  | finalize {s : State} (h : s.gcstate = .GCSfinalize) (hu : s.tmudata ≠ []) :
    Step s (gctmEvent s) (singlestep s)
  | resetsweep {s : State} (h : s.gcstate = .GCSpause ∨ s.gcstate = .GCSpropagate) :
    Step s .other (resetsweep s)
  | markroot {s : State} (h : s.gcstate = .GCSfinalize) : Step s .other (markroot s)
  -- objects, which the program has on its stack
  | newlstr {s : State} {a chain slot : Nat} {str : List UInt8} (ha : s.marked (.string a) = none)
      (hc : chain < s.strt.length) :
    Step s .other (setstack s.L slot (.string a) (newlstr a chain str s))
  | foundstr {s : State} {a slot : Nat} (ha : s.marked (.string a) ≠ none) :
    Step s .other (setstack s.L slot (.string a) (foundstr a s))
  | luaS_fix {s : State} {a : Nat} (ha : Reach s (.string a)) : Step s .other (luaS_fix a s)
  | luaS_resize {s : State} {strt : List (List Nat)} (h : s.gcstate ≠ .GCSsweepstring)
      (hp : strt.flatten.Perm s.strt.flatten) : Step s .other { s with strt := strt }
  | luaS_newudata {s : State} {u env slot : Nat} (hu : s.marked (.udata u) = none)
      (henv : Reach s (.table env)) :
    Step s (.newudata u) (setstack s.L slot (.udata u) (luaS_newudata u env s))
  | luaH_new {s : State} {h slot : Nat} (hh : s.marked (.table h) = none) :
    Step s .other (setstack s.L slot (.table h) (luaH_new h s))
  | newCclosure {s : State} {f env slot : Nat} {upvalue : List Val}
      (hf : s.marked (.function f) = none) (henv : Reach s (.table env))
      (hv : ∀ v ∈ upvalue, Held s v) :
    Step s .other (setstack s.L slot (.function f) (newclosure f (.c env upvalue) s))
  /-- The upvalues that were found or made for the function are not held yet. -/
  | newLclosure {s : State} {f env p slot : Nat} {upvals : List Nat}
      (hf : s.marked (.function f) = none) (henv : Reach s (.table env)) (hp : Reach s (.proto p))
      (hv : ∀ a ∈ upvals, s.marked (.upval a) ≠ none ∧ s.isdead (.upval a) = false) :
    Step s .other (setstack s.L slot (.function f) (newclosure f (.l env p upvals) s))
  | luaF_newupval {s : State} {a : Nat} (ha : s.marked (.upval a) = none) :
    Step s .other (luaF_newupval a s)
  | newproto {s : State} {f slot : Nat} {p : Proto} (hf : s.marked (.proto f) = none)
      (hp : ∀ o ∈ p.refs, Reach s o) :
    Step s .other (setstack s.L slot (.proto f) (newproto f p s))
  | luaE_newthread {s : State} {t slot : Nat} (ht : s.marked (.thread t) = none) :
    Step s .other (setstack s.L slot (.thread t) (luaE_newthread t s))
  -- upvalues
  | luaF_findupval {s : State} {t level new : Nat} (ht : Reach s (.thread t))
      (hnew : s.marked (.upval new) = none) : Step s .other (luaF_findupval t level new s)
  | luaF_close {s : State} {t level : Nat} (ht : Reach s (.thread t)) :
    Step s .other (luaF_close t level s)
  -- threads
  | setstack {s : State} {t slot : Nat} {v : Val} (ht : Reach s (.thread t)) (hv : Held s v) :
    Step s .other (setstack t slot v s)
  | settop {s : State} {t top : Nat} (ht : Reach s (.thread t)) : Step s .other (settop t top s)
  /-- The frames above a slot are left. -/
  | truncate {s : State} {t size : Nat} (ht : Reach s (.thread t)) :
    Step s .other (s.setThread t { s.thread t with stack := (s.thread t).stack.take size })
  | switch {s : State} {t : Nat} (ht : Reach s (.thread t)) : Step s .other { s with L := t }
  -- tables
  | setarray {s : State} {h i : Nat} {v : Val} (hh : Reach s (.table h)) (hv : Held s v) :
    Step s .other (setarray h i v s)
  | setnode {s : State} {h i : Nat} {n : Node} {v : Val} (hh : Reach s (.table h))
      (hn : (s.table h).node[i]? = some n) (hdead : n.dead = false) (hk : Held s n.key)
      (hv : Held s v) : Step s .other (setnode h i v s)
  | newkey {s : State} {h i : Nat} {key : Val} (hh : Reach s (.table h)) (hk : Held s key) :
    Step s .other (newkey h i key s)
  | rehash {s : State} {h : Nat} {t : Table} (hh : Reach s (.table h))
      (ht : Rearranged (s.table h) t) : Step s .other (s.setTable h t)
  | setmetatable {s : State} {h : Nat} {mt : Option Nat} (hh : Reach s (.table h))
      (hm : ∀ m ∈ mt, Reach s (.table m)) : Step s .other (setmetatable h mt s)
  -- other objects
  | setudatamt {s : State} {u : Nat} {mt : Option Nat} (hu : Reach s (.udata u))
      (hm : ∀ m ∈ mt, Reach s (.table m)) : Step s .other (setudatamt u mt s)
  | setmt {s : State} {i : Nat} {mt : Option Nat} (hm : ∀ m ∈ mt, Reach s (.table m)) :
    Step s .other { s with mt := s.mt.set i mt }
  | setudataenv {s : State} {u env : Nat} (hu : Reach s (.udata u)) (henv : Reach s (.table env)) :
    Step s .other (setudataenv u env s)
  | setfenv {s : State} {f env : Nat} (hf : Reach s (.function f)) (henv : Reach s (.table env)) :
    Step s .other (setfenv f env s)
  | setthreadenv {s : State} {t env : Nat} (ht : Reach s (.thread t)) (henv : Reach s (.table env)) :
    Step s .other (setthreadenv t env s)
  | setCupvalue {s : State} {f i : Nat} {v : Val} (hf : Reach s (.function f)) (hv : Held s v) :
    Step s .other (setCupvalue f i v s)
  | op_setupval {s : State} {a : Nat} {v : Val} (ha : Reach s (.upval a)) (hv : Held s v) :
    Step s .other (op_setupval a v s)
  /-- The barrier is enough where no upvalue is black whose function is not. -/
  | lua_setupvalue {s : State} {f a : Nat} {v : Val} (hf : Reach s (.function f))
      (ha : .upval a ∈ s.refs (.function f)) (hv : Held s v)
      (hblack : s.isblack (.upval a) = true → s.isblack (.function f) = true) :
    Step s .other (lua_setupvalue f a v s)
  | setproto {s : State} {f : Nat} {p : Proto} {o : Ref} (hf : Reach s (.proto f)) (ho : Reach s o)
      (hp : ∀ r ∈ p.refs, r ∈ (s.proto f).refs ∨ r = o) : Step s .other (setproto f p o s)

end Luaxx.Collector
