import Luaxx.Table.Refinement

/-!
# Tag methods (`ltm.c`, `lvm.c`, `lapi.c`)

The tables of a state, with what looks tag methods up in them and what stores into them. A table is
known by its address. The names of the events are strings that are never collected. An assignment
whose key is refused raises an error and leaves the table with its flags reset; one that makes the
table too large ends the run.
-/

namespace Luaxx.Tm

open Luaxx.Tables

/-- The tag methods with "fast" access. -/
inductive TMS where
  | TM_INDEX | TM_NEWINDEX | TM_GC | TM_MODE | TM_EQ
  deriving DecidableEq, Repr

/-- `cast_byte(1u << e)`. -/
def TMS.bit : TMS → UInt8
  | .TM_INDEX => 1
  | .TM_NEWINDEX => 2
  | .TM_GC => 4
  | .TM_MODE => 8
  | .TM_EQ => 16

structure Heap where
  /-- The `hash` field of the string at an address. -/
  hashes : Nat → UInt32
  table : Nat → Table
  /-- The metatable of a table or a userdata, and for the other values that of their type. -/
  metatable : Value → Option Nat

namespace Heap

def put (H : Heap) (h : Nat) (t : Table) : Heap := { H with table := Function.update H.table h t }

def setFlags (H : Heap) (h : Nat) (flags : UInt8) : Heap := H.put h { H.table h with flags }

end Heap

section

variable (tmname : TMS → Nat)

/-- What the name of the event has in `events`, without the cache. -/
def getevent (H : Heap) (events : Nat) (event : TMS) : Value :=
  (H.table events).read (luaH_getstr H.hashes (H.table events) (tmname event))

/-- `none` is `NULL`. -/
def luaT_gettm (H : Heap) (events : Nat) (event : TMS) : Option Value × Heap :=
  let tm := getevent tmname H events event
  if tm.ttisnil then
    -- cache this fact
    (none, H.setFlags events ((H.table events).flags ||| event.bit))
  else (some tm, H)

def gfasttm (H : Heap) (et : Option Nat) (e : TMS) : Option Value × Heap :=
  match et with
  | none => (none, H)
  | some et =>
    if (H.table et).flags &&& e.bit ≠ 0 then (none, H) else luaT_gettm tmname H et e

/-- The lookup that does not use the flags. -/
def uncached (H : Heap) (et : Option Nat) (e : TMS) : Option Value :=
  match et with
  | none => none
  | some et =>
    let tm := getevent tmname H et e
    if tm.ttisnil then none else some tm

def luaT_gettmbyobj (H : Heap) (o : Value) (event : TMS) : Value :=
  match H.metatable o with
  | none => .nil
  | some mt => getevent tmname H mt event

/-! ## Stores -/

/-- `luaH_set` on the table `h`: the place, or the error about the key. -/
def setKey (H : Heap) (h : Nat) (key : Value) : M ((Slot ⊕ String) × Heap) :=
  match luaH_set H.hashes (H.table h) key with
  | .ok (p, t) => .ok (.inl p, H.put h t)
  | .error (.error msg) =>
    if key.IsKey then .error (.error msg) else .ok (.inr msg, H.setFlags h 0)
  | .error e => .error e

/-- `setobj2t` through a pointer into the table `h`. -/
def setobj2t (H : Heap) (h : Nat) (p : Slot) (v : Value) : M Heap := do
  let t ← (H.table h).store v p
  return H.put h t

def lua_rawset (H : Heap) (h : Nat) (key v : Value) : M Heap := do
  let (p, H) ← setKey H h key
  match p with
  | .inl p => setobj2t H h p v
  | .inr _ => return H

def lua_rawseti (H : Heap) (h : Nat) (n : Int) (v : Value) : M Heap := do
  let (p, t) ← luaH_setnum H.hashes (H.table h) n
  setobj2t (H.put h t) h p v

def MAXTAGLOOP : Nat := 100

/-- How `luaV_settable` ends: with a store, a call of a tag method, or an error. -/
inductive Settled where
  | stored
  | callTM (tm t : Value)
  /-- `luaG_typeerror(L, t, op)`. -/
  | typeerror (t : Value) (op : String)
  | error (msg : String)
  deriving DecidableEq, Repr

/-- The loop of `luaV_settable`. -/
def settableLoop : Nat → Heap → Value → Value → Value → M (Settled × Heap)
  | 0, H, _, _, _ => .ok (.error "loop in settable", H)
  | loop + 1, H, t, key, val =>
    match t with
    | .object .table h => do
      let (p, H) ← setKey H h key
      match p with
      | .inr msg => return (.error msg, H)
      | .inl p =>
        -- do a primitive set
        let oldval := (H.table h).read (some p)
        let (tm, H) :=
          if oldval.ttisnil then gfasttm tmname H (H.metatable t) .TM_NEWINDEX else (none, H)
        match tm with
        | none =>
          let H ← setobj2t H h p val
          return (.stored, H.setFlags h 0)
        | some tm =>
          match tm with
          | .object .function _ => return (.callTM tm t, H)
          | _ => settableLoop loop H tm key val
    | _ =>
      match luaT_gettmbyobj tmname H t .TM_NEWINDEX with
      | .nil => .ok (.typeerror t "index", H)
      | .object .function f => .ok (.callTM (.object .function f) t, H)
      | tm => settableLoop loop H tm key val

def luaV_settable (H : Heap) (t key val : Value) : M (Settled × Heap) :=
  settableLoop tmname MAXTAGLOOP H t key val

end

/-! ## What the collector clears -/

/-- `setnilvalue` of an element of the array part. -/
def clearArray (H : Heap) (h i : Nat) : M Heap := setobj2t H h (.array i) .nil

/-- `setnilvalue(gval(n))` and `removeentry(n)`. -/
def clearNode (H : Heap) (h i : Nat) : M Heap := do
  let H ← setobj2t H h (.node i) .nil
  let t ← removeentry (H.table h) i
  return H.put h t

end Luaxx.Tm
