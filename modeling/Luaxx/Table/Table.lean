import Luaxx.Core.Value
import Luaxx.Lib.Links

/-!
# Tables (`ltable.c`)

A table with its array part and its node part. A pointer to a node is its index, a pointer to a
value is a `Slot`, and `luaO_nilobject` is no slot. `lastfree` is counted from the first node and
may fall below it. Allocations succeed.

`dummynode` is shared and constant: to write it is an undefined step. So is the use of a pointer
into the array part after the array has been reallocated, which is why an array is known by the
number of its `block`. `newkey` calls itself through `rehash`; it has fuel for `maxRehash` nested
rehashes.
-/

namespace Luaxx.Tables

open Luaxx.Links

def MAXBITS : Nat := 26
def MAXASIZE : Nat := 2 ^ MAXBITS

structure Node where
  val : Value
  key : Value
  next : Option Nat
  deriving DecidableEq, Repr

def dummynode_ : Node := ⟨.nil, .nil, none⟩

structure Table where
  flags : UInt8
  array : List Value
  block : Nat
  node : List Node
  /-- `t->node == dummynode` -/
  isDummy : Bool
  lsizenode : Nat
  lastfree : Int
  deriving DecidableEq, Repr

inductive Slot where
  | array (i : Nat)
  | node (i : Nat)
  deriving DecidableEq, Repr

inductive Stop where
  | error (msg : String)
  | undefined
  | outOfFuel
  deriving DecidableEq, Repr

abbrev M := Except Stop

def luaG_runerror {α : Type} (msg : String) : M α := .error (.error msg)

namespace Table

def sizearray (t : Table) : Nat := t.array.length

def sizenode (t : Table) : Nat := 2 ^ t.lsizenode

def gnode (t : Table) (i : Nat) : Node := t.node.getD i dummynode_

def gkey (t : Table) (i : Nat) : Value := (t.gnode i).key

def gval (t : Table) (i : Nat) : Value := (t.gnode i).val

def gnext (t : Table) (i : Nat) : Option Nat := (t.gnode i).next

def setNode (t : Table) (i : Nat) (n : Node) : M Table :=
  if t.isDummy then .error .undefined else pure { t with node := t.node.set i n }

/-- What a pointer that `luaH_get` returns points to. -/
def read (t : Table) : Option Slot → Value
  | none => .nil
  | some (.array i) => t.array.getD i .nil
  | some (.node i) => t.gval i

/-- `setobj` through a pointer that `luaH_set` returns. -/
def store (t : Table) (v : Value) : Slot → M Table
  | .array i => pure { t with array := t.array.set i v }
  | .node i => t.setNode i { t.gnode i with val := v }

end Table

/-! ## Main positions -/

/-- `IntPoint`. -/
def IntPoint (p : Nat) : Nat := p % 2 ^ 32

section Hash

variable (hashes : Nat → UInt32)

def hashpow2 (t : Table) (n : Nat) : Nat := n % t.sizenode

def hashmod (t : Table) (n : Nat) : Nat := n % ((t.sizenode - 1) ||| 1)

def hashnum (t : Table) (n : Number) : Nat :=
  if luai_numeq n 0 then 0
  else hashmod t ((n.toNat % 2 ^ 32 + n.toNat / 2 ^ 32) % 2 ^ 32)

def mainposition (t : Table) : Value → Nat
  | .number n => hashnum t n
  | .string p => hashpow2 t (hashes p).toNat
  | .boolean b => hashpow2 t b.toNat
  | .lightuserdata p => hashmod t (IntPoint p)
  | .object _ p => hashmod t (IntPoint p)
  | .deadkey p => hashmod t (IntPoint p)
  | .nil => hashmod t 0

/-- The `int` that a key is, or -1. -/
def arrayindex : Value → Int
  | .number n =>
    let k := lua_number2int n
    if luai_numeq (cast_num k) n then k else -1
  | _ => -1

/-! ## Search -/

/-- The loop of the search functions: the node from `n` on with a key for which `p` holds. -/
def findNode (t : Table) (p : Value → Bool) (n : Nat) : Option Slot :=
  (walk t.gnext (fun i => p (t.gkey i)) t.node.length n).map .node

def luaH_getnum (t : Table) (key : Int) : Option Slot :=
  -- `cast(unsigned int, key-1) < cast(unsigned int, t->sizearray)`
  if ((key - 1) % 2 ^ 32).toNat < t.sizearray then some (.array (key - 1).toNat)
  else
    findNode t (fun k => match k with | .number n => luai_numeq n (cast_num key) | _ => false)
      (hashnum t (cast_num key))

def luaH_getstr (t : Table) (key : Nat) : Option Slot :=
  findNode t (fun k => match k with | .string p => p == key | _ => false)
    (hashpow2 t (hashes key).toNat)

def luaH_get (t : Table) (key : Value) : Option Slot :=
  match key with
  | .nil => none
  | .string p => luaH_getstr hashes t p
  | .number n =>
    if luai_numeq (cast_num (lua_number2int n)) n then luaH_getnum t (lua_number2int n)
    else findNode t (Value.rawequal · key) (mainposition hashes t key)
  | _ => findNode t (Value.rawequal · key) (mainposition hashes t key)

/-! ## Rehash -/

/-- `log_2` in `luaO_log2`. -/
def log_2 : List Nat :=
  [0, 1, 2, 2] ++ List.replicate 4 3 ++ List.replicate 8 4 ++ List.replicate 16 5 ++
    List.replicate 32 6 ++ List.replicate 64 7 ++ List.replicate 128 8

/-- The loop of `luaO_log2`; a number of 32 bits is shifted at most three times. -/
def log2Loop : Nat → Nat → Int → Int
  | 0, x, l => l + log_2.getD x 0
  | n + 1, x, l => if x ≥ 256 then log2Loop n (x / 256) (l + 8) else l + log_2.getD x 0

def luaO_log2 (x : Nat) : Int := log2Loop 3 x (-1)

def ceillog2 (x : Nat) : Nat := (luaO_log2 (x - 1) + 1).toNat

/-- `nums` of `rehash`. -/
abbrev Nums := Nat → Nat

/-- The loop of `computesizes`, from `i` on: `n` and `na`. -/
def computesizesLoop (nums : Nums) (narray : Nat) : Nat → Nat → Nat → Nat → Nat → Nat × Nat
  | 0, _, _, n, na => (n, na)
  | fuel + 1, i, a, n, na =>
    if 2 ^ i / 2 < narray then
      let a' := a + nums i
      let better := 0 < nums i ∧ 2 ^ i / 2 < a'
      let n := if better then 2 ^ i else n
      let na := if better then a' else na
      if a' = narray then (n, na) else computesizesLoop nums narray fuel (i + 1) a' n na
    else (n, na)

/-- The new size of the array part, and the number of elements that go to it. -/
def computesizes (nums : Nums) (narray : Nat) : Nat × Nat :=
  computesizesLoop nums narray (MAXBITS + 1) 0 0 0 0

/-- The counts, and 1 if `key` is an appropriate array index. -/
def countint (key : Value) (nums : Nums) : Nat × Nums :=
  let k := arrayindex key
  if 0 < k ∧ k ≤ MAXASIZE then
    (1, Function.update nums (ceillog2 k.toNat) (nums (ceillog2 k.toNat) + 1))
  else (0, nums)

/-- The outer loop of `numusearray`, from slice `lg` and element `i` on. -/
def sliceLoop (t : Table) : Nat → Nat → Nat → Nat → Nums → Nat × Nums
  | 0, _, _, ause, nums => (ause, nums)
  | slices + 1, lg, i, ause, nums =>
    let lim := if 2 ^ lg > t.sizearray then t.sizearray else 2 ^ lg
    if 2 ^ lg > t.sizearray ∧ i > lim then (ause, nums)
    else
      -- count elements in range (2^(lg-1), 2^lg]
      let lc := ((t.array.take lim).drop (i - 1)).countP (!·.ttisnil)
      sliceLoop t slices (lg + 1) (max i (lim + 1)) (ause + lc)
        (Function.update nums lg (nums lg + lc))

def numusearray (t : Table) (nums : Nums) : Nat × Nums := sliceLoop t (MAXBITS + 1) 0 1 0 nums

/-- The loop of `numusehash` over the nodes, from the last one on. -/
def hashLoop : List Node → Nat → Nat → Nums → Nat × Nat × Nums
  | [], totaluse, ause, nums => (totaluse, ause, nums)
  | n :: rest, totaluse, ause, nums =>
    if n.val.ttisnil then hashLoop rest totaluse ause nums
    else
      let (c, nums) := countint n.key nums
      hashLoop rest (totaluse + 1) (ause + c) nums

/-- `totaluse`, what is added to `*pnasize`, and the counts. -/
def numusehash (t : Table) (nums : Nums) : Nat × Nat × Nums := hashLoop t.node.reverse 0 0 nums

def setarrayvector (t : Table) (size : Nat) : Table :=
  { t with
    array := t.array.take size ++ List.replicate (size - t.sizearray) .nil, block := t.block + 1 }

def setnodevector (t : Table) (size : Nat) : M Table :=
  if size = 0 then
    pure { t with node := [dummynode_], isDummy := true, lsizenode := 0, lastfree := 0 }
  else if ceillog2 size > MAXBITS then luaG_runerror "table overflow"
  else
    let size' := 2 ^ ceillog2 size
    pure { t with
      node := List.replicate size' ⟨.nil, .nil, none⟩, isDummy := false,
      lsizenode := ceillog2 size, lastfree := size' }

/-! ## Insertion -/

/-- The loop of `getfreepos`, with `lastfree` above the first node. -/
def freeLoop (t : Table) : Nat → Option Nat × Int
  | 0 => (none, -1)
  | l + 1 => if (t.gkey l).ttisnil then (some l, l) else freeLoop t l

def getfreepos (t : Table) : Option Nat × Table :=
  if 0 < t.lastfree then
    ((freeLoop t t.lastfree.toNat).1, { t with lastfree := (freeLoop t t.lastfree.toNat).2 })
  else (none, { t with lastfree := t.lastfree - 1 })

section Callbacks

variable (newkey : Table → Value → M (Slot × Table))

def setWith (t : Table) (key : Value) : M (Slot × Table) :=
  let p := luaH_get hashes t key
  let t := { t with flags := 0 }
  match p with
  | some p => pure (p, t)
  | none =>
    match key with
    | .nil => luaG_runerror "table index is nil"
    | .number n => if luai_numisnan n then luaG_runerror "table index is NaN" else newkey t key
    | _ => newkey t key

def setnumWith (t : Table) (key : Int) : M (Slot × Table) :=
  match luaH_getnum t key with
  | some p => pure (p, t)
  | none => newkey t (.number (cast_num key))

/-- The first loop of `resize`: the elements of the vanishing slice, from index `i` on. -/
def reinsertSlice (block : Nat) : Table → Nat → List Value → M Table
  | t, _, [] => pure t
  | t, i, v :: rest =>
    if v.ttisnil then reinsertSlice block t (i + 1) rest
    else do
      let (p, t) ← setnumWith newkey t (i + 1)
      -- `&t->array[i]` was computed before the call
      if t.block ≠ block then .error .undefined
      else do
        let t ← t.store v p
        reinsertSlice block t (i + 1) rest

/-- The second loop of `resize`: the old nodes, from the last one on. -/
def reinsertNodes : Table → List Node → M Table
  | t, [] => pure t
  | t, old :: rest =>
    if old.val.ttisnil then reinsertNodes t rest
    else do
      let (p, t) ← setWith hashes newkey t old.key
      let t ← t.store old.val p
      reinsertNodes t rest

def resize (t : Table) (nasize nhsize : Nat) : M Table := do
  let oldasize := t.sizearray
  let nold := t.node
  let t := if nasize > oldasize then setarrayvector t nasize else t
  let t ← setnodevector t nhsize
  let t ← if nasize < oldasize then do
      let t ← reinsertSlice newkey t.block { t with array := t.array.take nasize } nasize
        (t.array.drop nasize)
      -- shrink array
      pure { t with block := t.block + 1 }
    else pure t
  reinsertNodes hashes newkey t nold.reverse

def rehash (t : Table) (ek : Value) : M Table :=
  let (nasize, nums) := numusearray t fun _ => 0
  let (hashuse, hasize, nums) := numusehash t nums
  let (extra, nums) := countint ek nums
  let totaluse := nasize + hashuse + 1
  let (nasize, na) := computesizes nums (nasize + hasize + extra)
  resize hashes newkey t nasize (totaluse - na)

end Callbacks

/-- The end of `newkey`. -/
def setKey (t : Table) (mp : Nat) (key : Value) : M (Slot × Table) := do
  let t ← t.setNode mp { t.gnode mp with key := key }
  pure (.node mp, t)

/-- The colliding node moves to the free position `n`. -/
def moveNode (t : Table) (othern mp n : Nat) : M Table :=
  match findPrevious t.gnext mp t.node.length othern with
  | none => .error .undefined
  | some prev => do
    let t ← t.setNode prev { t.gnode prev with next := some n }
    let t ← t.setNode n (t.gnode mp)
    t.setNode mp { t.gnode mp with next := none, val := .nil }

/-- The free position `n` is linked in after the main position. -/
def chainNode (t : Table) (mp n : Nat) : M Table := do
  let t ← t.setNode n { t.gnode n with next := t.gnext mp }
  t.setNode mp { t.gnode mp with next := some n }

def newkey : Nat → Table → Value → M (Slot × Table)
  | 0, _, _ => .error .outOfFuel
  | fuel + 1, t, key =>
    let mp := mainposition hashes t key
    if (t.gval mp).ttisnil && !t.isDummy then setKey t mp key
    else
      match getfreepos t with
      | (none, t) => do
        let t ← rehash hashes (newkey fuel) t key
        setWith hashes (newkey fuel) t key
      | (some n, t) =>
        let othern := mainposition hashes t (t.gkey mp)
        if othern ≠ mp then do
          let t ← moveNode t othern mp n
          setKey t mp key
        else do
          let t ← chainNode t mp n
          setKey t n key

def maxRehash : Nat := 4

def luaH_set (t : Table) (key : Value) : M (Slot × Table) :=
  setWith hashes (newkey hashes maxRehash) t key

def luaH_setnum (t : Table) (key : Int) : M (Slot × Table) :=
  setnumWith (newkey hashes maxRehash) t key

def luaH_setstr (t : Table) (key : Nat) : M (Slot × Table) :=
  match luaH_getstr hashes t key with
  | some p => pure (p, t)
  | none => newkey hashes maxRehash t (.string key)

def luaH_resizearray (t : Table) (nasize : Nat) : M Table :=
  resize hashes (newkey hashes maxRehash) t nasize (if t.isDummy then 0 else t.sizenode)

end Hash

def luaH_new (narray nhash : Nat) : M Table :=
  setnodevector
    (setarrayvector ⟨255, [], 0, [dummynode_], true, 0, 0⟩ narray) nhash

/-- `removeentry` of `lgc.c`, for a node without a value. -/
def removeentry (t : Table) (i : Nat) : M Table :=
  match t.gkey i with
  | .string p => t.setNode i { t.gnode i with key := .deadkey p }
  | .object _ p => t.setNode i { t.gnode i with key := .deadkey p }
  | _ => pure t

end Luaxx.Tables
