import Luaxx.Collector.Heap

/-!
# The invariant of the collector

What is not dead refers to nothing that is dead or freed (`Kept`). While marks are propagated, a
marked object refers to white ones only if it is still to be traversed (`Tri`). During a sweep, what
has not yet got the current white is in the part that is still to be swept (`Swept`).
-/

namespace Luaxx.Collector

open Luaxx.Gc (White GCState)

variable {s : State} {r : Ref}

/-! ## Colours -/

namespace State

@[simp] theorem isblack_iff : s.isblack r = true ↔ s.marked r = some .black := decide_eq_true_iff

@[simp] theorem isgray_iff : s.isgray r = true ↔ s.marked r = some .gray := decide_eq_true_iff

theorem iswhite_iff : s.iswhite r = true ↔ ∃ w, s.marked r = some (.white w) := by
  unfold iswhite
  cases h : s.marked r with
  | none => simp
  | some c => cases c <;> simp [Colour.iswhite]

theorem iswhite_eq_false : s.iswhite r = false ↔ ∀ w, s.marked r ≠ some (.white w) := by
  rw [← Bool.not_eq_true, iswhite_iff, not_exists]

/-- An object that is gray or black. -/
def IsMarked (s : State) (r : Ref) : Prop := s.marked r = some .gray ∨ s.marked r = some .black

theorem IsMarked.iswhite (h : s.IsMarked r) : s.iswhite r = false := by
  rw [iswhite_eq_false]
  rcases h with h | h <;> simp [h]

theorem isMarked_of_not_white (hr : s.marked r ≠ none) (h : s.iswhite r = false) : s.IsMarked r := by
  rw [iswhite_eq_false] at h
  unfold IsMarked
  cases hc : s.marked r with
  | none => exact absurd hc hr
  | some c =>
    cases c with
    | white w => exact absurd hc (h w)
    | gray => simp
    | black => simp

theorem IsMarked.ne_none (h : s.IsMarked r) : s.marked r ≠ none := by
  rcases h with h | h <;> simp [h]

theorem ne_none_of_iswhite (h : s.iswhite r = true) : s.marked r ≠ none := by
  obtain ⟨w, hw⟩ := iswhite_iff.mp h
  simp [hw]

theorem isdead_iff : s.isdead r = true ↔ s.marked r = some (.white s.currentwhite.other) :=
  decide_eq_true_iff

theorem isdead_eq_false : s.isdead r = false ↔ s.marked r ≠ some (.white s.currentwhite.other) :=
  decide_eq_false_iff_not

theorem upvalue_stack {a t slot : Nat} (h : s.upval a = .stack t slot) :
    s.upvalue a = (s.thread t).stack.getD slot .nil := by
  unfold upvalue
  rw [h]

theorem upvalue_closed {a : Nat} {v : Val} (h : s.upval a = .closed v) : s.upvalue a = v := by
  unfold upvalue
  rw [h]

/-- The value of an upvalue is that of its place. -/
theorem upvalue_congr {s' : State} {a : Nat} (hupval : s'.upval a = s.upval a)
    (hstack : ∀ t, (s'.thread t).stack = (s.thread t).stack) : s'.upvalue a = s.upvalue a := by
  cases hu : s.upval a with
  | stack t slot => rw [upvalue_stack (hupval.trans hu), upvalue_stack hu, hstack]
  | closed v => rw [upvalue_closed (hupval.trans hu), upvalue_closed hu]

end State

/-! ## What is kept -/

/-- The object is there, and the next sweep leaves it. -/
def Safe (s : State) (r : Ref) : Prop :=
  s.marked r ≠ none ∧ (s.isdead r = false ∨ s.fixed r = true)

structure Kept (s : State) : Prop where
  root : ∀ o, s.IsRoot o → Safe s o
  refs : ∀ o, Safe s o → ∀ o' ∈ s.refs o, Safe s o'
  fixed : ∀ o, s.fixed o = true → (∃ a, o = .string a) ∨ o = .thread s.mainthread

theorem Kept.reach (h : Kept s) (hr : Reach s r) : Safe s r := by
  obtain ⟨root, hroot, hpath⟩ := hr
  induction hpath with
  | refl => exact h.root _ hroot
  | tail _ hrefers ih => exact h.refs _ ih _ hrefers

/-! ## Lists -/

/-- Every object is in one list. -/
structure Listed (s : State) : Prop where
  nodup : s.objects.Nodup
  mem : ∀ r, r ∈ s.objects ↔ s.marked r ≠ none
  string : ∀ a, .string a ∉ s.rootgc ++ s.sweepgc
  closed : ∀ a, .upval a ∈ s.rootgc ++ s.sweepgc → ∃ v, s.upval a = .closed v

/-- The open upvalues are those in the lists of the threads. -/
structure Opened (s : State) : Prop where
  uvhead : ∀ a ∈ s.uvhead, ∃ t slot, s.upval a = .stack t slot ∧ s.marked (.thread t) ≠ none ∧
    a ∈ (s.thread t).openupval
  openupval : ∀ t, s.marked (.thread t) ≠ none → ∀ a ∈ (s.thread t).openupval,
    a ∈ s.uvhead ∧ ∃ slot, s.upval a = .stack t slot
  nodup : ∀ t, s.marked (.thread t) ≠ none → (s.thread t).openupval.Nodup
  black : ∀ a ∈ s.uvhead, s.marked (.upval a) ≠ some .black

/-! ## The sweep -/

def State.Sweeping (s : State) : Prop := s.gcstate = .GCSsweepstring ∨ s.gcstate = .GCSsweep

def Unswept (s : State) : Ref → Prop
  | .string a => s.gcstate = .GCSsweepstring ∧ ∃ i, s.sweepstrgc ≤ i ∧ a ∈ s.strt.getD i []
  | .upval a => s.Sweeping ∧
    (.upval a ∈ s.sweepgc ∨ ∃ t slot, s.upval a = .stack t slot ∧ .thread t ∈ s.sweepgc)
  | r => s.Sweeping ∧ r ∈ s.sweepgc

def Swept (s : State) : Prop :=
  ∀ r c, s.marked r = some c →
    c = .white s.currentwhite ∨ Unswept s r ∨ ∃ u ∈ s.tmudata, r = .udata u

/-! ## The propagation of marks -/

def Node.keyref (n : Node) : Option Ref := if n.dead then none else n.key.ref

/-- What a table with entries refers to, but for what is weak. -/
def Table.parts (t : Table) (weakkey weakvalue : Bool) : List Ref :=
  t.metatable.toList.map .table ++
    ((if weakvalue then [] else t.array.filterMap Val.ref) ++
      t.node.flatMap fun n =>
        if n.val = .nil then []
        else (if weakkey then [] else n.keyref.toList) ++ (if weakvalue then [] else n.val.ref.toList))

/-- What a marked table may refer to only if that is marked as well. Unless the table is in the list
`weak`, the key of an entry without a value counts, since the entry may get one. -/
def Table.strong (t : Table) (weak : Bool) : List Ref :=
  if weak then t.parts t.keyweak t.valueweak
  else
    t.metatable.toList.map .table ++
      (t.array.filterMap Val.ref ++ t.node.flatMap fun n => n.keyref.toList ++ n.val.ref.toList)

def State.strong (s : State) : Ref → List Ref
  | .table h => (s.table h).strong (decide (h ∈ s.weak))
  | r => s.refs r

def Clean (s : State) (r : Ref) : Prop := ∀ o ∈ s.strong r, s.iswhite o = false

/-- A marked object is clean, still to be traversed, or one of `P`. -/
def Tri (P : Ref → Prop) (s : State) : Prop :=
  ∀ r, s.IsMarked r → r ∈ s.gray ∨ P r ∨ Clean s r

/-- What the atomic step looks at again. -/
def Deferred (s : State) (r : Ref) : Prop :=
  r ∈ s.grayagain ∨ (∃ h ∈ s.weak, r = .table h) ∨ (∃ a ∈ s.uvhead, r = .upval a) ∨
    ∃ u ∈ s.tmudata, r = .udata u

/-- The objects with a field `gclist`. -/
def Ref.linked : Ref → Bool
  | .table _ | .function _ | .thread _ | .proto _ => true
  | _ => false

/-- The objects that are linked through `gclist`: each is in one list at most. -/
def State.gclist (s : State) : List Ref := s.gray ++ s.grayagain ++ s.weak.map .table

structure Linked (s : State) : Prop where
  gray : ∀ r, s.marked r = some .gray → (∃ a, r = .string a) ∨ r ∈ s.gray ∨ Deferred s r
  listed : ∀ r ∈ s.gclist, s.marked r = some .gray ∧ r.linked = true
  nodup : s.gclist.Nodup
  black : ∀ t, s.marked (.thread t) ≠ some .black

/-- What a black table names is there, the keys of entries without a value as well. -/
def Keyed (s : State) : Prop :=
  ∀ h, s.marked (.table h) = some .black → ∀ o ∈ (s.table h).strong false, s.marked o ≠ none

structure Propagating (s : State) : Prop where
  tri : Tri (Deferred s) s
  linked : Linked s
  keyed : Keyed s
  white : ∀ r w, s.marked r = some (.white w) → w = s.currentwhite
  mainthread : s.iswhite (.thread s.mainthread) = false
  registry : s.iswhite (.table s.registry) = false

structure Inv (s : State) : Prop where
  kept : Kept s
  listed : Listed s
  opened : Opened s
  swept : s.gcstate ≠ .GCSpropagate → Swept s
  propagating : s.gcstate = .GCSpropagate → Propagating s

end Luaxx.Collector
