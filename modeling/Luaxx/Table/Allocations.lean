import Luaxx.Lib.Failures
import Luaxx.Table.Table

/-!
# Tables when allocations fail (`ltable.c`, `lmem.c`)

The functions that allocate, on a table in memory: an error leaves it as it is at that point. The
results of the allocations to come are a list, after whose end they all succeed. A reallocation to
an equal or smaller size cannot fail.

What does not allocate is that of `Table`.
-/

namespace Luaxx.Tables.Allocating

structure Memory where
  table : Table
  results : List Bool

abbrev F := EStateM Stop Memory

/-- An allocation, or a reallocation to a larger size, in `luaM_realloc_`. -/
def luaM_realloc_ : F Unit := fun m =>
  match m.results with
  | [] => .ok () m
  | true :: results => .ok () { m with results }
  | false :: results => .error (.error "not enough memory") { m with results }

def getTable : F Table := return (← get).table

def putTable (table : Table) : F Unit := modify fun m => { m with table }

/-- A function that does not allocate. -/
def inPlace {α : Type} : M (α × Table) → F α
  | .ok (a, t) => do
    putTable t
    return a
  | .error e => throw e

def store (v : Value) (p : Slot) : F Unit := do
  let t ← getTable
  inPlace ((t.store v p).map fun t => ((), t))

def setarrayvector (size : Nat) : F Unit := do
  luaM_realloc_
  putTable (Tables.setarrayvector (← getTable) size)

def setnodevector (size : Nat) : F Unit := do
  let t ← getTable
  match Tables.setnodevector t size with
  | .error e => throw e
  | .ok t => do
    (if size = 0 then pure () else luaM_realloc_)
    putTable t

section Hash

variable (hashes : Nat → UInt32)

section Callbacks

variable (newkey : Value → F Slot)

def setWith (key : Value) : F Slot := do
  let t ← getTable
  let p := luaH_get hashes t key
  putTable { t with flags := 0 }
  match p with
  | some p => return p
  | none =>
    match key with
    | .nil => throw (.error "table index is nil")
    | .number n =>
      if luai_numisnan n then throw (.error "table index is NaN") else newkey key
    | _ => newkey key

def setnumWith (key : Int) : F Slot := do
  match luaH_getnum (← getTable) key with
  | some p => return p
  | none => newkey (.number (cast_num key))

/-- The first loop of `resize`: the elements of the vanishing slice, from index `i` on. -/
def reinsertSlice (block : Nat) : Nat → List Value → F Unit
  | _, [] => return
  | i, v :: rest =>
    if v.ttisnil then reinsertSlice block (i + 1) rest
    else do
      let p ← setnumWith newkey (i + 1)
      -- `&t->array[i]` was computed before the call
      if (← getTable).block ≠ block then throw .undefined
      else do
        store v p
        reinsertSlice block (i + 1) rest

/-- The second loop of `resize`: the old nodes, from the last one on. -/
def reinsertNodes : List Node → F Unit
  | [] => return
  | old :: rest =>
    if old.val.ttisnil then reinsertNodes rest
    else do
      let p ← setWith hashes newkey old.key
      store old.val p
      reinsertNodes rest

def resize (nasize nhsize : Nat) : F Unit := do
  let t ← getTable
  let oldasize := t.sizearray
  let nold := t.node
  (if nasize > oldasize then setarrayvector nasize else pure ())
  setnodevector nhsize
  (if nasize < oldasize then do
      let t ← getTable
      putTable { t with array := t.array.take nasize }
      reinsertSlice newkey t.block nasize (t.array.drop nasize)
      -- shrink array
      let t ← getTable
      putTable { t with block := t.block + 1 }
    else pure ())
  reinsertNodes hashes newkey nold.reverse

def rehash (ek : Value) : F Unit := do
  let t ← getTable
  let (nasize, nums) := numusearray t fun _ => 0
  let (hashuse, hasize, nums) := numusehash t nums
  let (extra, nums) := countint ek nums
  let totaluse := nasize + hashuse + 1
  let (nasize, na) := computesizes nums (nasize + hasize + extra)
  resize hashes newkey nasize (totaluse - na)

end Callbacks

def newkey : Nat → Value → F Slot
  | 0, _ => throw .outOfFuel
  | fuel + 1, key => do
    let t ← getTable
    let mp := mainposition hashes t key
    if (t.gval mp).ttisnil && !t.isDummy then inPlace (setKey t mp key)
    else
      match getfreepos t with
      | (none, t) => do
        putTable t
        rehash hashes (newkey fuel) key
        setWith hashes (newkey fuel) key
      | (some n, t) =>
        let othern := mainposition hashes t (t.gkey mp)
        if othern ≠ mp then inPlace do
          let t ← moveNode t othern mp n
          setKey t mp key
        else inPlace do
          let t ← chainNode t mp n
          setKey t n key

def luaH_set (key : Value) : F Slot := setWith hashes (newkey hashes maxRehash) key

def luaH_setnum (key : Int) : F Slot := setnumWith (newkey hashes maxRehash) key

def luaH_setstr (key : Nat) : F Slot := do
  match luaH_getstr hashes (← getTable) key with
  | some p => return p
  | none => newkey hashes maxRehash (.string key)

def luaH_resizearray (nasize : Nat) : F Unit := do
  let t ← getTable
  resize hashes (newkey hashes maxRehash) nasize (if t.isDummy then 0 else t.sizenode)

end Hash

/-! ## All allocations succeed -/

open Failures

@[simp] theorem getTable_bind {α : Type} (f : Table → F α) (m : Memory) :
    (getTable >>= f) m = f m.table m := rfl

@[simp] theorem putTable_bind {α : Type} (t : Table) (f : Unit → F α) (m : Memory) :
    (putTable t >>= f) m = f () { m with table := t } := rfl

/-- The call ends as the function of `Table` does, with the same result and table or the same error. -/
def Matches {α ρ : Type} (out : ρ → α × Table) (x : EStateM.Result Stop Memory α) : M ρ → Prop
  | .ok r => x = .ok (out r).1 ⟨(out r).2, []⟩
  | .error e => ∃ m, x = .error e m

/-- Where the function of `Table` only returns a table. -/
abbrev onTable (t : Table) : Unit × Table := ((), t)

section Matches

variable {α β ρ ρ' : Type} {out : ρ → α × Table} {out' : ρ' → β × Table}

theorem Matches.bind {x : F α} {m : Memory} {y : M ρ} {f : α → F β} {g : ρ → M ρ'}
    (h : Matches out (x m) y) (hf : ∀ r, Matches out' (f (out r).1 ⟨(out r).2, []⟩) (g r)) :
    Matches out' ((x >>= f) m) (y >>= g) := by
  cases y with
  | ok r =>
    rw [seq_of_ok h]
    exact hf r
  | error e =>
    obtain ⟨m', h⟩ := h
    exact ⟨m', seq_of_error h⟩

theorem matches_inPlace (y : M (α × Table)) (m : Memory) (h : m.results = []) :
    Matches id (inPlace y m) y := by
  obtain ⟨t, results⟩ := m
  obtain rfl : results = [] := h
  cases y with
  | ok r => rfl
  | error e => exact ⟨_, rfl⟩

end Matches

theorem matches_store (t : Table) (v : Value) (p : Slot) :
    Matches onTable (store v p ⟨t, []⟩) (t.store v p) := by
  rw [store, getTable_bind]
  cases t.store v p with
  | ok t' => rfl
  | error e => exact ⟨_, rfl⟩

theorem matches_setnodevector (t : Table) (size : Nat) :
    Matches onTable (setnodevector size ⟨t, []⟩) (Tables.setnodevector t size) := by
  rw [setnodevector, getTable_bind]
  cases Tables.setnodevector t size with
  | ok t' =>
    by_cases h0 : size = 0
    · simp only [h0, if_true]
      rfl
    · simp only [h0, if_false]
      rfl
  | error e => exact ⟨_, rfl⟩

section Callbacks

variable {hashes : Nat → UInt32} {newkeyF : Value → F Slot}
  {newkey : Table → Value → M (Slot × Table)}
  (hnewkey : ∀ t key, Matches id (newkeyF key ⟨t, []⟩) (newkey t key))

include hnewkey

theorem matches_setWith (t : Table) (key : Value) :
    Matches id (setWith hashes newkeyF key ⟨t, []⟩) (Tables.setWith hashes newkey t key) := by
  unfold setWith Tables.setWith
  rw [getTable_bind, putTable_bind]
  cases luaH_get hashes t key with
  | some p => rfl
  | none =>
    cases key with
    | nil => exact ⟨_, rfl⟩
    | number n =>
      simp only
      split_ifs
      · exact ⟨_, rfl⟩
      · exact hnewkey _ _
    | _ => exact hnewkey _ _

theorem matches_setnumWith (t : Table) (key : Int) :
    Matches id (setnumWith newkeyF key ⟨t, []⟩) (Tables.setnumWith newkey t key) := by
  rw [setnumWith, getTable_bind, Tables.setnumWith]
  cases luaH_getnum t key with
  | some p => rfl
  | none => exact hnewkey _ _

theorem matches_reinsertSlice (block : Nat) (t : Table) (i : Nat) (vs : List Value) :
    Matches onTable (reinsertSlice newkeyF block i vs ⟨t, []⟩)
      (Tables.reinsertSlice newkey block t i vs) := by
  induction vs generalizing t i with
  | nil => rfl
  | cons v vs ih =>
    rw [reinsertSlice, Tables.reinsertSlice]
    split_ifs
    · exact ih t (i + 1)
    · refine (matches_setnumWith hnewkey t (i + 1)).bind fun r => ?_
      rw [getTable_bind]
      simp only [id]
      split_ifs
      · exact ⟨_, rfl⟩
      · exact (matches_store r.2 v r.1).bind fun t' => ih t' (i + 1)

theorem matches_reinsertNodes (t : Table) (ns : List Node) :
    Matches onTable (reinsertNodes hashes newkeyF ns ⟨t, []⟩)
      (Tables.reinsertNodes hashes newkey t ns) := by
  induction ns generalizing t with
  | nil => rfl
  | cons n ns ih =>
    rw [reinsertNodes, Tables.reinsertNodes]
    split_ifs
    · exact ih t
    · exact (matches_setWith hnewkey t n.key).bind fun r =>
        (matches_store r.2 n.val r.1).bind fun t' => ih t'

theorem matches_resize (t : Table) (nasize nhsize : Nat) :
    Matches onTable (resize hashes newkeyF nasize nhsize ⟨t, []⟩)
      (Tables.resize hashes newkey t nasize nhsize) := by
  have harray : ((if nasize > t.sizearray then setarrayvector nasize else pure ()) : F Unit) ⟨t, []⟩ =
      .ok () ⟨if nasize > t.sizearray then Tables.setarrayvector t nasize else t, []⟩ := by
    split_ifs <;> rfl
  rw [resize, getTable_bind, seq_of_ok harray, Tables.resize]
  refine (matches_setnodevector _ nhsize).bind fun t₂ => ?_
  by_cases hlt : nasize < t.sizearray
  · simp only [hlt, if_true, bind_assoc, getTable_bind, putTable_bind]
    refine (matches_reinsertSlice hnewkey _ _ nasize _).bind fun t₃ => ?_
    exact matches_reinsertNodes hnewkey _ _
  · simp only [hlt, if_false, pure_bind]
    exact matches_reinsertNodes hnewkey _ _

theorem matches_rehash (t : Table) (ek : Value) :
    Matches onTable (rehash hashes newkeyF ek ⟨t, []⟩) (Tables.rehash hashes newkey t ek) := by
  rw [rehash, getTable_bind, Tables.rehash]
  exact matches_resize hnewkey t _ _

end Callbacks

/-- With all its allocations, an insertion is that of `Table`. -/
theorem matches_newkey (hashes : Nat → UInt32) (fuel : Nat) (t : Table) (key : Value) :
    Matches id (newkey hashes fuel key ⟨t, []⟩) (Tables.newkey hashes fuel t key) := by
  induction fuel generalizing t key with
  | zero => exact ⟨_, rfl⟩
  | succ fuel ih =>
    rw [newkey, getTable_bind, Tables.newkey]
    simp only
    split_ifs
    · exact matches_inPlace _ _ rfl
    · cases getfreepos t with
      | mk n t' =>
        cases n with
        | none =>
          simp only [putTable_bind]
          exact (matches_rehash ih t' key).bind fun t'' => matches_setWith ih t'' key
        | some n =>
          simp only
          split_ifs
          · exact matches_inPlace _ _ rfl
          · exact matches_inPlace _ _ rfl

end Luaxx.Tables.Allocating
