import Luaxx.Core.FloatByte
import Luaxx.Parser.Locals

/-!
# Table constructors (`lparser.c`)

How `constructor` counts the items of a table, and what the instructions `OP_NEWTABLE` and
`OP_SETLIST` make of the counts. The code of the expressions is left out.
-/

namespace Luaxx.Parser.Constructor

open Luaxx.FloatByte Luaxx.Int32 Locals

/-! ## The parser -/

inductive Item where
  /-- An expression, and whether it has multiple results (`hasmultret`). -/
  | list (multret : Bool)
  /-- `NAME = exp1` -/
  | name
  /-- `[exp1] = exp1` -/
  | index
  deriving DecidableEq, Repr

/-- A call of `luaK_setlist`; `tostore` is `none` for `LUA_MULTRET`. -/
structure SetList where
  nelems : Nat
  tostore : Option Nat
  deriving DecidableEq, Repr

structure ConsControl where
  /-- The last list item read, by its `hasmultret`, and `none` for `VVOID`. -/
  v : Option Bool
  nh : Int
  na : Nat
  tostore : Nat
  /-- The calls of `luaK_setlist`. The source has no such field. -/
  setlists : List SetList
  deriving DecidableEq, Repr

def closelistfield (cc : ConsControl) : ConsControl :=
  if cc.v = none then cc
  else if cc.tostore = LFIELDS_PER_FLUSH then
    -- flush; no more items pending
    { cc with v := none, tostore := 0, setlists := cc.setlists ++ [⟨cc.na, some cc.tostore⟩] }
  else { cc with v := none }

def lastlistfield (cc : ConsControl) : ConsControl :=
  if cc.tostore = 0 then cc
  else if cc.v = some true then
    -- do not count last expression (unknown number of elements)
    { cc with na := cc.na - 1, setlists := cc.setlists ++ [⟨cc.na, none⟩] }
  else { cc with setlists := cc.setlists ++ [⟨cc.na, some cc.tostore⟩] }

variable (fs : FuncState)

def luaY_checklimit (v : Int) (l : Nat) (m : String) : Except String Unit :=
  if v > l then .error (errorlimit fs l m) else .ok ()

def listfield (multret : Bool) (cc : ConsControl) : Except String ConsControl := do
  luaY_checklimit fs cc.na MAX_INT "items in a constructor"
  .ok { cc with v := some multret, na := cc.na + 1, tostore := cc.tostore + 1 }

/-- `recfield`; only a name is checked. -/
def recfield (isname : Bool) (cc : ConsControl) : Except String ConsControl := do
  if isname then luaY_checklimit fs cc.nh MAX_INT "items in a constructor"
  .ok { cc with nh := wrap (cc.nh + 1) }

def field (cc : ConsControl) : Item → Except String ConsControl
  | .list multret => listfield fs multret cc
  | .name => recfield fs true cc
  | .index => recfield fs false cc

/-- The loop of `constructor`. -/
def fields (cc : ConsControl) : List Item → Except String ConsControl
  | [] => .ok cc
  | item :: items => do
    let cc ← field fs (closelistfield cc) item
    fields cc items

def init : ConsControl := ⟨none, 0, 0, 0, []⟩

def constructor (items : List Item) : Except String ConsControl := do
  let cc ← fields fs init items
  .ok (lastlistfield cc)

/-- What is passed to `luaO_int2fb` as the initial array size. -/
def ConsControl.arraySize (cc : ConsControl) : UInt32 := UInt32.ofNat cc.na

/-- What is passed to `luaO_int2fb` as the initial table size. -/
def ConsControl.tableSize (cc : ConsControl) : UInt32 := UInt32.ofNat (cc.nh % 2 ^ 32).toNat

/-- The instruction of the constructor, with the sizes set. -/
def setsizes (i : Instruction) (cc : ConsControl) : Instruction :=
  SETARG_C (SETARG_B i (luaO_int2fb cc.arraySize)) (luaO_int2fb cc.tableSize)

/-! ## The instructions -/

/-- The sizes with which `OP_NEWTABLE` calls `luaH_new`. -/
def newtable (i : Instruction) : Int × Int :=
  (luaO_fb2int (GETARG_B i), luaO_fb2int (GETARG_C i))

/-- The indices at which `OP_SETLIST` stores a list of known length. -/
def SetList.indices (s : SetList) : List Nat :=
  let c := (s.nelems - 1) / LFIELDS_PER_FLUSH + 1
  List.range' ((c - 1) * LFIELDS_PER_FLUSH + 1) (s.tostore.getD 0)

/-! ## Counting -/

/-- What holds between two items: the flushed items are stored, the others are pending. -/
structure Counts (cc : ConsControl) : Prop where
  na_le : cc.na ≤ MAX_INT + 1
  nh_range : -2 ^ 31 ≤ cc.nh ∧ cc.nh < 2 ^ 31
  tostore_le : cc.tostore ≤ LFIELDS_PER_FLUSH
  closed : cc.v = none → cc.tostore < LFIELDS_PER_FLUSH
  stored : ∃ q, cc.na = q * LFIELDS_PER_FLUSH + cc.tostore ∧
    cc.setlists.flatMap SetList.indices = List.range' 1 (q * LFIELDS_PER_FLUSH)

variable {fs} {cc cc' : ConsControl}

theorem counts_init : Counts init where
  na_le := Nat.zero_le _
  nh_range := by decide
  tostore_le := Nat.zero_le _
  closed _ := by decide
  stored := ⟨0, rfl, rfl⟩

/-- The items that are pending are stored behind the others. -/
theorem indices_append {q : Nat} {lists : List SetList} {tostore : Nat}
    (hpos : 0 < tostore) (hle : tostore ≤ LFIELDS_PER_FLUSH)
    (h : lists.flatMap SetList.indices = List.range' 1 (q * LFIELDS_PER_FLUSH)) :
    (lists ++ [(⟨q * LFIELDS_PER_FLUSH + tostore, some tostore⟩ : SetList)]).flatMap SetList.indices =
      List.range' 1 (q * LFIELDS_PER_FLUSH + tostore) := by
  have hq : (q * LFIELDS_PER_FLUSH + tostore - 1) / LFIELDS_PER_FLUSH = q := by
    rw [LFIELDS_PER_FLUSH] at hle ⊢
    omega
  rw [List.flatMap_append, h, List.flatMap_singleton, SetList.indices]
  dsimp only
  rw [hq, Nat.add_sub_cancel, Option.getD_some, Nat.add_comm _ 1, List.range'_append_1]

theorem Counts.closelistfield (h : Counts cc) :
    Counts (closelistfield cc) ∧ (closelistfield cc).v = none := by
  rw [Constructor.closelistfield]
  split_ifs with hv hfull
  · exact ⟨h, hv⟩
  · obtain ⟨q, hna, hstored⟩ := h.stored
    refine ⟨⟨h.na_le, h.nh_range, Nat.zero_le _, fun _ => Nat.zero_lt_succ _, q + 1, ?_, ?_⟩, rfl⟩
    · show cc.na = (q + 1) * LFIELDS_PER_FLUSH + 0
      rw [hna, hfull]
      ring
    · have happend := indices_append (by rw [hfull]; decide) h.tostore_le hstored
      rw [hna]
      rw [hfull] at happend ⊢
      rw [happend, Nat.add_mul, Nat.one_mul]
  · refine ⟨⟨h.na_le, h.nh_range, h.tostore_le, fun _ => ?_, h.stored⟩, rfl⟩
    exact Nat.lt_of_le_of_ne h.tostore_le hfull

theorem Counts.listfield {multret : Bool} (h : Counts cc) (hv : cc.v = none)
    (hok : listfield fs multret cc = .ok cc') : Counts cc' := by
  rw [Constructor.listfield, luaY_checklimit] at hok
  split_ifs at hok with hlimit
  · cases hok
  · cases hok
    obtain ⟨q, hna, hstored⟩ := h.stored
    refine ⟨?_, h.nh_range, h.closed hv, fun hnone => ?_, q, ?_, hstored⟩
    · exact Nat.succ_le_succ (Int.ofNat_le.1 (Int.not_lt.1 hlimit))
    · cases hnone
    · rw [hna, Nat.add_assoc]

theorem recfield_eq {isname : Bool} (hok : recfield fs isname cc = .ok cc') :
    cc' = { cc with nh := wrap (cc.nh + 1) } := by
  rw [recfield, luaY_checklimit] at hok
  split_ifs at hok with hname hlimit
  · cases hok
  · cases hok
    rfl
  · cases hok
    rfl

theorem Counts.field {item : Item} (h : Counts cc) (hv : cc.v = none)
    (hok : field fs cc item = .ok cc') : Counts cc' := by
  have hrec (isname : Bool) (hok : recfield fs isname cc = .ok cc') : Counts cc' := by
    rw [recfield_eq hok]
    refine ⟨h.na_le, ?_, h.tostore_le, h.closed, h.stored⟩
    show -2 ^ 31 ≤ wrap (cc.nh + 1) ∧ wrap (cc.nh + 1) < 2 ^ 31
    rw [wrap]
    omega
  cases item with
  | list multret => exact h.listfield hv hok
  | name => exact hrec true hok
  | index => exact hrec false hok

theorem Counts.fields {items : List Item} (h : Counts cc) (hok : fields fs cc items = .ok cc') :
    Counts cc' := by
  induction items generalizing cc with
  | nil =>
    cases hok
    exact h
  | cons item items ih =>
    obtain ⟨hclosed, hv⟩ := h.closelistfield
    rw [Constructor.fields] at hok
    obtain ⟨cc₁, hfield, hrest⟩ := Result.bind_ok.1 hok
    exact ih (hclosed.field hv hfield) hrest

/-! ## The whole constructor -/

/-- What holds in the end: the list items are stored, but for those after the last flush where the
last one has multiple results. -/
structure Counted (cc : ConsControl) : Prop where
  na_le : cc.na ≤ MAX_INT + 1
  nh_range : -2 ^ 31 ≤ cc.nh ∧ cc.nh < 2 ^ 31
  stored : cc.setlists.flatMap SetList.indices = List.range' 1 cc.na ∨
    ∃ q lists, cc.setlists = lists ++ [⟨cc.na + 1, none⟩] ∧ q * LFIELDS_PER_FLUSH ≤ cc.na ∧
      lists.flatMap SetList.indices = List.range' 1 (q * LFIELDS_PER_FLUSH)

theorem Counts.lastlistfield (h : Counts cc) : Counted (lastlistfield cc) := by
  obtain ⟨q, hna, hstored⟩ := h.stored
  rw [Constructor.lastlistfield]
  split_ifs with hzero hmultret
  · refine ⟨h.na_le, h.nh_range, .inl ?_⟩
    rw [hstored, hna, hzero, Nat.add_zero]
  · have hpos : 0 < cc.na := by omega
    refine ⟨Nat.le_trans (Nat.sub_le _ _) h.na_le, h.nh_range, .inr ⟨q, cc.setlists, ?_, ?_, hstored⟩⟩
    · dsimp only
      rw [Nat.sub_add_cancel hpos]
    · exact Nat.le_sub_one_of_lt (by omega)
  · refine ⟨h.na_le, h.nh_range, .inl ?_⟩
    dsimp only
    rw [hna]
    exact indices_append (Nat.pos_of_ne_zero hzero) h.tostore_le hstored

theorem constructor_counted {items : List Item} (h : constructor fs items = .ok cc) :
    Counted cc := by
  obtain ⟨cc₁, hfields, hlast⟩ := Result.bind_ok.1 h
  cases hlast
  exact (counts_init.fields hfields).lastlistfield

/-- A list of known length is stored within the array items. -/
theorem Counted.index_le (h : Counted cc) {s : SetList} (hs : s ∈ cc.setlists) {j : Nat}
    (hj : j ∈ s.indices) : j ≤ cc.na := by
  rcases h.stored with hall | ⟨q, lists, hlists, hle, hflushed⟩
  · have hmem : j ∈ List.range' 1 cc.na := hall ▸ List.mem_flatMap.2 ⟨s, hs, hj⟩
    rw [List.mem_range'_1] at hmem
    omega
  · rw [hlists, List.mem_append, List.mem_singleton] at hs
    rcases hs with hs | rfl
    · have hmem : j ∈ List.range' 1 (q * LFIELDS_PER_FLUSH) :=
        hflushed ▸ List.mem_flatMap.2 ⟨s, hs, hj⟩
      rw [List.mem_range'_1] at hmem
      omega
    · cases hj

theorem Counted.arraySize_eq (h : Counted cc) : cc.arraySize.toNat = cc.na := by
  have hna := h.na_le
  rw [ConsControl.arraySize, UInt32.toNat_ofNat']
  rw [MAX_INT] at hna
  omega

theorem Counted.tableSize_eq (h : Counted cc) (hnh : 0 ≤ cc.nh) :
    (cc.tableSize.toNat : Int) = cc.nh := by
  have hrange := h.nh_range
  rw [ConsControl.tableSize, UInt32.toNat_ofNat']
  omega

/-! ## Size hints -/

section

variable (i : Instruction)

/-- The array size that `OP_NEWTABLE` is given. -/
theorem newtable_array (hx : cc.arraySize.toNat ≤ INT_MAX) :
    (newtable (setsizes i cc)).1 = luaO_fb2int (luaO_int2fb cc.arraySize) := by
  have hlt : luaO_int2fb cc.arraySize < 512 := Nat.lt_trans (luaO_int2fb_lt hx) (by decide)
  rw [newtable, setsizes, GETARG_B_SETARG_C, GETARG_B_SETARG_B hlt]

/-- The size of the hash part that it is given. -/
theorem newtable_table (hx : cc.tableSize.toNat ≤ INT_MAX) :
    (newtable (setsizes i cc)).2 = luaO_fb2int (luaO_int2fb cc.tableSize) := by
  have hlt : luaO_int2fb cc.tableSize < 512 := Nat.lt_trans (luaO_int2fb_lt hx) (by decide)
  rw [newtable, setsizes, GETARG_C_SETARG_C hlt]

/-- Where the hint does not overflow, no list of known length makes the array part grow. -/
theorem Counted.setlist_fits (h : Counted cc) (hle : cc.na ≤ MAXHINT) {s : SetList}
    (hs : s ∈ cc.setlists) {j : Nat} (hj : j ∈ s.indices) :
    (j : Int) ≤ (newtable (setsizes i cc)).1 := by
  have hhint : SizeHint cc.arraySize := sizeHint_of_le (h.arraySize_eq.symm ▸ hle)
  have hindex : (j : Int) ≤ cc.na := Int.ofNat_le.2 (h.index_le hs hj)
  have henough := hhint.enough
  rw [h.arraySize_eq] at henough
  rw [newtable_array i (h.arraySize_eq ▸ Nat.le_trans hle (by decide))]
  exact Int.le_trans hindex henough

/-- The code that a constructor stores for a number of items is a good size hint if and only if the
number is at most `MAXHINT`; the instruction is given what the code stands for. -/
theorem size_hint_iff {x : UInt32} (hx : x.toNat ≤ INT_MAX) :
    (SizeHint x ↔ x.toNat ≤ MAXHINT) ∧
      ∀ fs items cc i, constructor fs items = .ok cc →
        (x = cc.arraySize → (newtable (setsizes i cc)).1 = luaO_fb2int (luaO_int2fb x)) ∧
        (x = cc.tableSize → (newtable (setsizes i cc)).2 = luaO_fb2int (luaO_int2fb x)) := by
  refine ⟨⟨fun h => ?_, sizeHint_of_le⟩, fun fs items cc i _ => ⟨?_, ?_⟩⟩
  · by_contra hgt
    exact not_sizeHint_of_gt hx (Nat.lt_of_not_le hgt) h
  · rintro rfl
    exact newtable_array i hx
  · rintro rfl
    exact newtable_table i hx

theorem size_hint_iff_largest : SizeHint 2013265920 :=
  (size_hint_iff (x := 2013265920) (by decide)).1.2 (by decide)

end

/-! ## A list that is too long -/

theorem listfield_ok (fs : FuncState) (multret : Bool) (h : cc.na ≤ MAX_INT) :
    listfield fs multret cc =
      .ok { cc with v := some multret, na := cc.na + 1, tostore := cc.tostore + 1 } := by
  rw [listfield, luaY_checklimit, if_neg (Int.not_lt.2 (Int.ofNat_le.2 h))]
  rfl

theorem closelistfield_na (cc : ConsControl) : (closelistfield cc).na = cc.na := by
  rw [closelistfield]
  split_ifs
  · rfl
  · rfl
  · rfl

/-- List items are counted up to the limit. -/
theorem fields_replicate (fs : FuncState) (cc : ConsControl) (n : Nat)
    (hn : cc.na + n ≤ MAX_INT + 1) (hv : cc.v ≠ some true) :
    ∃ cc', fields fs cc (List.replicate n (.list false)) = .ok cc' ∧ cc'.na = cc.na + n ∧
      cc'.v ≠ some true := by
  induction n generalizing cc with
  | zero => exact ⟨cc, rfl, rfl, hv⟩
  | succ n ih =>
    have hna := closelistfield_na cc
    have hlimit : (closelistfield cc).na ≤ MAX_INT := by omega
    obtain ⟨cc', hok, hcount, hv'⟩ := ih { closelistfield cc with
      v := some false, na := (closelistfield cc).na + 1
      tostore := (closelistfield cc).tostore + 1 } (by dsimp only; omega)
      (show some false ≠ some true by decide)
    refine ⟨cc', ?_, ?_, hv'⟩
    · rw [List.replicate_succ, fields, field, listfield_ok fs false hlimit]
      exact hok
    · rw [hcount]
      dsimp only
      omega

theorem constructor_replicate (fs : FuncState) {n : Nat} (hn : n ≤ MAX_INT + 1) :
    ∃ cc, constructor fs (List.replicate n (.list false)) = .ok cc ∧ cc.na = n := by
  obtain ⟨cc, hok, hna, hv⟩ := fields_replicate fs init n ((Nat.zero_add n).symm ▸ hn) (by decide)
  refine ⟨lastlistfield cc, ?_, ?_⟩
  · rw [constructor, hok]
    rfl
  · rw [lastlistfield, if_neg hv]
    rw [show init.na = 0 from rfl, Nat.zero_add] at hna
    split_ifs
    · exact hna
    · exact hna

/-- The main function of a chunk, before its first statement. -/
def mainFunc : FuncState := open_func 0 (fun _ => ⟨"", 0, 0⟩) (fun _ => 0)

/-- With one item more than `MAXHINT`, the table is created with a negative size. -/
theorem size_hint_negative :
    ∃ cc, constructor mainFunc (List.replicate 2013265921 (.list false)) = .ok cc ∧
      cc.arraySize = 2013265921 ∧ ¬ SizeHint cc.arraySize ∧
      (newtable (setsizes (CREATE_ABC .NEWTABLE 0 0 0) cc)).1 = -2 ^ 31 := by
  obtain ⟨cc, hok, hna⟩ := constructor_replicate mainFunc (n := 2013265921) (by decide)
  have hcounted := constructor_counted hok
  have hsize : cc.arraySize.toNat = 2013265921 := hcounted.arraySize_eq.trans hna
  have hint : cc.arraySize.toNat ≤ INT_MAX := hsize ▸ (by decide)
  have hgt : MAXHINT < cc.arraySize.toNat := hsize ▸ (by decide)
  refine ⟨cc, hok, UInt32.toNat_inj.1 hsize, not_sizeHint_of_gt hint hgt, ?_⟩
  rw [newtable_array _ hint, luaO_fb2int_int2fb hint, if_neg (Nat.not_le.2 hgt)]

end Luaxx.Parser.Constructor
