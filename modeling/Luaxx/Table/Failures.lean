import Luaxx.Table.Allocations
import Luaxx.Table.Sizing
import Luaxx.Table.Traversal

/-!
# Insertions that fail

What a table holds after a call of a function that may insert a key has raised an error. `resize` makes
the array part larger before it makes the new node part, and an error in between hides the elements that
the old node part has in the range of the array part. `resize` gives up the old node part and the end of
the array part before it inserts their elements, and an error in between loses them.
-/

open Luaxx.Value

namespace Luaxx.Tables

open Luaxx.Links Luaxx.Result Luaxx.Failures

variable {hashes : Nat → UInt32} {t t' : Table} {key ek : Value}

/-! ## Statement -/

/-- A call that may insert a key. -/
inductive Call where
  | set (key : { k : Value // Value.isProper k })
  | setnum (key : Int)
  | setstr (key : Nat)
  | resizearray (nasize : Nat)

def Call.run (hashes : Nat → UInt32) : Call → Allocating.F Unit
  | .set key => Allocating.luaH_set hashes key.1 >>= fun _ => return
  | .setnum key => Allocating.luaH_setnum hashes key >>= fun _ => return
  | .setstr key => Allocating.luaH_setstr hashes key >>= fun _ => return
  | .resizearray nasize => Allocating.luaH_resizearray hashes nasize

/-- The arguments are of type `int`. -/
def Call.Allowed : Call → Prop
  | .set _ => True
  | .setnum key => -2 ^ 31 ≤ key ∧ key < 2 ^ 31
  | .setstr _ => True
  | .resizearray nasize => nasize < 2 ^ 31

/-- The table `t'` holds what `t` holds, it satisfies the invariant, and a traversal visits every entry
exactly once. -/
structure Unharmed (hashes : Nat → UInt32) (t t' : Table) : Prop where
  value : ∀ k, value hashes t' k = value hashes t k
  sound : Sound hashes t'
  visits : VisitsOnce hashes t'

/-- Whatever allocation fails, an error that the call raises does no harm. -/
def FailsUnharmed (hashes : Nat → UInt32) (t : Table) (call : Call) : Prop :=
  ∀ results msg m, call.run hashes ⟨t, results⟩ = .error (.error msg) m → Unharmed hashes t m.table

/-- No element of the old node part is in the range by which the array part grows, or no new nodes are
allocated; and the elements that are inserted again have room in the new node part, or it is not even
allocated. -/
def SafeResize (hashes : Nat → UInt32) (t : Table) (nasize nhsize : Nat) : Prop :=
  (nhsize ≠ 0 → ∀ k, (t.sizearray : Int) < arrayindex k → arrayindex k ≤ nasize →
    value hashes t k = .nil) ∧
  (MAXASIZE < nhsize ∨
    costs nasize (slice t nasize) + costs nasize (nodes t) ≤ nodePart nhsize)

/-- The key is new, and there is no free node for it. -/
def MustGrow (hashes : Nat → UInt32) (t : Table) (key : Value) : Prop :=
  key.IsKey ∧ luaH_get hashes t key = none ∧ ∃ l, Crowded hashes t key l

/-- The growth for the key has the sizes that `rehash` chooses. -/
def SafeGrowth (hashes : Nat → UInt32) (t : Table) (key : Value) : Prop :=
  MustGrow hashes t key → ∀ n, Optimal hashes t key n →
    SafeResize hashes t n (remaining t key n - uncounted t)

def Call.Safe (hashes : Nat → UInt32) (t : Table) : Call → Prop
  | .set key => SafeGrowth hashes t key.1
  | .setnum key => SafeGrowth hashes t (.number (cast_num key))
  | .setstr key => SafeGrowth hashes t (.string key)
  | .resizearray nasize => SafeResize hashes t nasize (if t.isDummy then 0 else t.sizenode)

/-! ## Tables that are unharmed -/

theorem Sound.unharmed (hs : Sound hashes t') (hval : ∀ k, value hashes t' k = value hashes t k) :
    Unharmed hashes t t' :=
  ⟨hval, hs, hs.visitsOnce⟩

theorem Unharmed.of_value {t'' : Table} (hu : Unharmed hashes t' t'')
    (hval : ∀ k, Tables.value hashes t' k = Tables.value hashes t k) : Unharmed hashes t t'' :=
  ⟨fun k => (hu.value k).trans (hval k), hu.sound, hu.visits⟩

/-- Other arrays and other counts with the same nodes. -/
theorem Sound.sameNodes (hs : Sound hashes t) (hinv : Inv hashes t') (hnode : t'.node = t.node)
    (hlsize : t'.lsizenode = t.lsizenode) : Sound hashes t' := by
  have hgkey : t'.gkey = t.gkey := funext fun i => by
    rw [Table.gkey, Table.gkey, Table.gnode, Table.gnode, hnode]
  have hgnext : t'.gnext = t.gnext := funext fun i => by
    rw [Table.gnext, Table.gnext, Table.gnode, Table.gnode, hnode]
  refine ⟨hinv, fun i hi => ?_, fun i l hi hl => ?_⟩
  · rw [hgkey] at hi ⊢
    exact (hs.addressed i hi).congr fun j _ => .inr ⟨j, (congrFun hgkey j).symm⟩
  · rw [hgkey] at hi hl ⊢
    rw [hgnext, mainposition_congr hlsize] at hl
    rw [find?_congr fun m _ => isNextKey_congr (congrFun hgkey m) _]
    exact hs.first i l hi hl

theorem Sound.full (hs : Sound hashes t) {l : Int} (hl : l ≤ 0)
    (hfull : t.isDummy = true ∨ freeNodes t = 0) : Sound hashes { t with lastfree := l } :=
  hs.sameNodes (hs.inv.full hl hfull) rfl rfl

theorem getD_setarrayvector (t : Table) {size : Nat} (hsize : t.sizearray < size) (i : Nat) :
    (setarrayvector t size).array.getD i .nil = t.array.getD i .nil := by
  have hle : t.array.length ≤ size := Nat.le_of_lt hsize
  rw [setarrayvector, List.take_of_length_le hle, List.getD_eq_getElem?_getD,
    List.getD_eq_getElem?_getD, List.getElem?_append]
  split_ifs with hi
  · rfl
  · rw [List.getElem?_eq_none (Nat.le_of_not_lt hi), List.getElem?_replicate]
    split_ifs <;> rfl

theorem sizearray_setarrayvector (t : Table) {size : Nat} (hsize : t.sizearray < size) :
    (setarrayvector t size).sizearray = size := by
  have hle : t.array.length ≤ size := Nat.le_of_lt hsize
  rw [Table.sizearray, setarrayvector, List.take_of_length_le hle, List.length_append,
    List.length_replicate, Table.sizearray, Nat.add_sub_cancel' hle]

/-- With no element in its range, a larger array part keeps the invariant. -/
theorem Inv.setarrayvector (h : Inv hashes t) {size : Nat} (hsize : t.sizearray < size)
    (hlt : size < 2 ^ 31)
    (hclear : ∀ k, (t.sizearray : Int) < arrayindex k → arrayindex k ≤ size →
      Tables.value hashes t k = .nil) : Inv hashes (setarrayvector t size) := by
  have hmain : ∀ k, mainposition hashes (Tables.setarrayvector t size) k =
      mainposition hashes t k := mainposition_congr rfl
  have harray := sizearray_setarrayvector t hsize
  refine { h with array := ?_, reach := ?_, occupied := ?_, home := ?_, outside := ?_ }
  · rw [harray]
    exact hlt
  · intro i hi
    rw [hmain]
    exact h.reach i hi
  · intro i hi
    rw [hmain]
    exact h.occupied i hi
  · intro i j hi hj
    rw [hmain, hmain]
    exact h.home i j hi hj
  · intro i hi hin
    rw [InArray, harray] at hin
    show t.gval i = .nil
    by_contra hval
    have hout := h.out_of_live hval
    have hin : 0 < arrayindex (t.gkey i) ∧ arrayindex (t.gkey i) ≤ size := hin
    rw [InArray] at hout
    have hnil := hclear (t.gkey i) (by omega) hin.2
    rw [value_node h hval (rawequal_self (h.live i hval))] at hnil
    exact hval hnil

theorem Sound.setarrayvector (hs : Sound hashes t) {size : Nat} (hsize : t.sizearray < size)
    (hlt : size < 2 ^ 31)
    (hclear : ∀ k, (t.sizearray : Int) < arrayindex k → arrayindex k ≤ size →
      Tables.value hashes t k = .nil) : Unharmed hashes t (setarrayvector t size) := by
  have h := hs.inv
  have h' := h.setarrayvector hsize hlt hclear
  refine (hs.sameNodes h' rfl rfl).unharmed fun k => ?_
  have hiff : ∀ v, v ≠ .nil → (value hashes (Tables.setarrayvector t size) k = v ↔
      value hashes t k = v) := by
    intro v hv
    rw [value_eq_iff h hv, value_eq_iff h' hv, getD_setarrayvector t hsize]
    refine or_congr_left (and_congr_left fun hget => ?_)
    have hlt := lt_of_array (hget ▸ hv)
    rw [InArray, InArray, sizearray_setarrayvector t hsize]
    omega
  by_cases hnil : value hashes t k = .nil
  · by_contra hne
    rw [hnil] at hne
    exact hne ((hiff _ hne).mp rfl ▸ hnil)
  · exact (hiff _ hnil).mpr rfl

/-! ## Running what does not fail -/

namespace Allocating

variable {results : List Bool}

theorem inPlace_ok {α : Type} {x : M (α × Table)} {a : α} (h : x = .ok (a, t')) (m : Memory) :
    inPlace x m = .ok a { m with table := t' } := by
  rw [h]
  rfl

theorem store_ok {v : Value} {p : Slot} (h : t.store v p = .ok t') :
    store v p ⟨t, results⟩ = .ok () ⟨t', results⟩ := by
  show inPlace ((t.store v p).map fun t => ((), t)) ⟨t, results⟩ = _
  rw [h]
  rfl

/-- Both loops of `resize`, on the entries that they come to. -/
def insertAll (set : Value → F Slot) (guard : Table → Bool) : List Entry → F Unit
  | [] => return
  | e :: rest => do
    let p ← set e.1
    if guard (← getTable) then do
      store e.2 p
      insertAll set guard rest
    else throw .undefined

/-- `luaH_setnum` of a key that is a number of the array. -/
def setIndex (nk : Value → F Slot) (key : Value) : F Slot := setnumWith nk (arrayindex key)

theorem reinsertNodes_eq (nk : Value → F Slot) (ns : List Node) :
    reinsertNodes hashes nk ns =
      insertAll (setWith hashes nk) (fun _ => true) (nodeEntries ns) := by
  induction ns with
  | nil => rfl
  | cons n ns ih =>
    rw [reinsertNodes, nodeEntries]
    split_ifs
    · exact ih
    · rw [ih]
      rfl

theorem reinsertSlice_eq (nk : Value → F Slot) (block i : Nat) (vs : List Value)
    (hi : i + vs.length < 2 ^ 31) :
    reinsertSlice nk block i vs =
      insertAll (setIndex nk) (fun t => t.block == block) (sliceEntries i vs) := by
  induction vs generalizing i with
  | nil => rfl
  | cons v vs ih =>
    rw [List.length_cons] at hi
    have ih' := ih (i + 1) (by omega)
    rw [reinsertSlice, sliceEntries]
    split_ifs
    · exact ih'
    · simp only [insertAll, setIndex, arrayindex_cast (k := (i : Int) + 1) (by omega), beq_iff_eq,
        ite_not, ih']

/-- The beginning of `resize`, with the array part brought to its new size. -/
def begin (t : Table) (nasize nhsize : Nat) : F Unit := do
  (if nasize > t.sizearray then setarrayvector nasize else pure ())
  setnodevector nhsize
  (if nasize < t.sizearray then do
      let t ← getTable
      putTable { t with array := t.array.take nasize }
    else pure ())

/-- Both loops of `resize`, with the elements of `t`. -/
def refill (hashes : Nat → UInt32) (nk : Value → F Slot) (t : Table) (nasize : Nat) : F Unit := do
  let t2 ← getTable
  insertAll (setIndex nk) (fun t => t.block == t2.block) (slice t nasize)
  let t3 ← getTable
  putTable (released t nasize t3)
  insertAll (setWith hashes nk) (fun _ => true) (nodes t)

/-! ## The beginning of `resize` -/

def noMemory : Stop := .error "not enough memory"

theorem luaM_realloc_ends (m : Memory) :
    Ends (fun e m' => e = noMemory ∧ m'.table = m.table) (fun _ m' => m'.table = m.table)
      (luaM_realloc_ m) := by
  rw [luaM_realloc_]
  split <;> simp [Ends, noMemory]

theorem setarrayvector_ends (t : Table) (size : Nat) :
    Ends (fun e m => e = noMemory ∧ m.table = t)
      (fun _ m => m.table = Tables.setarrayvector t size) (setarrayvector size ⟨t, results⟩) := by
  refine (luaM_realloc_ends ⟨t, results⟩).bind fun _ m hm => ?_
  show Tables.setarrayvector m.table size = _
  rw [hm]

theorem setnodevector_ends (t : Table) (size : Nat) (results : List Bool) :
    Ends (fun e m => (e = noMemory ∨ e = tableOverflow) ∧ size ≠ 0 ∧ m.table = t)
      (fun _ m => Tables.setnodevector t size = .ok m.table) (setnodevector size ⟨t, results⟩) := by
  rw [setnodevector, getTable_bind]
  cases hnodes : Tables.setnodevector t size with
  | error e =>
    refine ⟨.inr ?_, ?_, rfl⟩
    · rw [Tables.setnodevector] at hnodes
      split_ifs at hnodes
      · cases hnodes
      · cases hnodes
        rfl
      · cases hnodes
    · rintro rfl
      cases hnodes
  | ok t' =>
    by_cases h0 : size = 0
    · simp only [h0, if_true]
      rfl
    · simp only [h0, if_false]
      have halloc := luaM_realloc_ends ⟨t, results⟩
      refine (halloc.error_imp fun e m hm => ⟨.inl hm.1, h0, hm.2⟩).bind fun _ m _ => ?_
      rfl

theorem resize_eq (nk : Value → F Slot) (nasize nhsize : Nat) (hsize : t.sizearray < 2 ^ 31) :
    resize hashes nk nasize nhsize ⟨t, results⟩ =
      (begin t nasize nhsize >>= fun _ => refill hashes nk t nasize) ⟨t, results⟩ := by
  have hlen : t.array.length = t.sizearray := rfl
  rw [resize, getTable_bind, begin]
  simp only [bind_assoc]
  refine seq_congr fun _ m hm => seq_congr fun _ m' hm' => ?_
  by_cases hlt : nasize < t.sizearray
  · -- no growth, so that the array part is that of `t`
    have hge : ¬ nasize > t.sizearray := by omega
    rw [if_neg hge] at hm
    obtain rfl : ⟨t, results⟩ = m := by
      cases hm
      rfl
    have hnodes := setnodevector_ends t nhsize results
    rw [hm'] at hnodes
    have harray : m'.table.array = t.array := setnodevector_ok hnodes
    have hslice : nasize + (m'.table.array.drop nasize).length < 2 ^ 31 := by
      rw [harray, List.length_drop]
      omega
    have hreleased : ∀ t3, released t nasize t3 = { t3 with block := t3.block + 1 } := fun t3 => by
      rw [released, if_pos hlt]
    simp only [hlt, if_true, bind_assoc, getTable_bind, putTable_bind, reinsertSlice_eq _ _ _ _ hslice,
      reinsertNodes_eq, refill, hreleased]
    rw [harray]
    rfl
  · have hslice : slice t nasize = [] := by
      rw [slice, List.drop_eq_nil_of_le (by omega)]
      rfl
    have hreleased : ∀ t3, released t nasize t3 = t3 := fun t3 => by rw [released, if_neg hlt]
    simp only [hlt, if_false, pure_bind, refill, getTable_bind, hslice, insertAll, hreleased,
      putTable_bind, reinsertNodes_eq]
    rfl

theorem begin_ends (t : Table) (nasize nhsize : Nat) :
    Ends
      (fun e m => (e = noMemory ∨ e = tableOverflow) ∧ (m.table = t ∨
        (t.sizearray < nasize ∧ nhsize ≠ 0 ∧ m.table = Tables.setarrayvector t nasize)))
      (fun _ m => Tables.setnodevector (reshaped t nasize) nhsize = .ok m.table)
      (begin t nasize nhsize ⟨t, results⟩) := by
  rw [begin]
  by_cases hgrow : nasize > t.sizearray
  · have hle : ¬ nasize < t.sizearray := by omega
    rw [if_pos hgrow, if_neg hle, reshaped, if_pos hgrow]
    refine ((setarrayvector_ends t nasize).error_imp fun e m hm => ⟨.inl hm.1, .inl hm.2⟩).bind
      fun _ m hm => ?_
    obtain ⟨table, results⟩ := m
    obtain rfl : table = Tables.setarrayvector t nasize := hm
    refine ((setnodevector_ends _ nhsize _).error_imp fun e m hm => ⟨hm.1, .inr ⟨hgrow, hm.2⟩⟩).bind
      fun _ m hm => ?_
    exact hm
  · rw [if_neg hgrow, pure_bind, reshaped, if_neg hgrow]
    refine ((setnodevector_ends t nhsize _).error_imp fun e m hm => ⟨hm.1, .inl hm.2.2⟩).bind
      fun _ m hm => ?_
    rw [setnodevector_array, hm, ok_bind]
    have harray := setnodevector_ok hm
    split_ifs with hlt
    · show Except.ok _ = Except.ok { m.table with array := m.table.array.take nasize }
      rw [harray]
    · show Except.ok _ = Except.ok m.table
      have hlen : t.array.length ≤ nasize := Nat.le_of_not_lt hlt
      rw [List.take_of_length_le hlen, ← harray]

/-- The call raises an error of Lua in such a table. -/
def Raises {α : Type} (P : Table → Prop) (r : EStateM.Result Stop Memory α) : Prop :=
  ∃ msg m, r = .error (.error msg) m ∧ P m.table

theorem Raises.bind {α β : Type} {P : Table → Prop} {x : F α} {m : Memory} (h : Raises P (x m))
    (f : α → F β) : Raises P ((x >>= f) m) := by
  obtain ⟨msg, m', hx, hP⟩ := h
  exact ⟨msg, m', seq_of_error hx, hP⟩

theorem Raises.imp {α : Type} {P Q : Table → Prop} {r : EStateM.Result Stop Memory α}
    (h : Raises P r) (hPQ : ∀ t, P t → Q t) : Raises Q r := by
  obtain ⟨msg, m, hr, hP⟩ := h
  exact ⟨msg, m, hr, hPQ _ hP⟩

theorem setnodevector_refused (t : Table) {size : Nat} (h0 : size ≠ 0) :
    Raises (· = t) (setnodevector size ⟨t, [false]⟩) := by
  rw [setnodevector, getTable_bind]
  cases hnodes : Tables.setnodevector t size with
  | error e =>
    rw [Tables.setnodevector] at hnodes
    split_ifs at hnodes
    · cases hnodes
    · cases hnodes
      exact ⟨_, ⟨t, [false]⟩, rfl, rfl⟩
    · cases hnodes
  | ok t' =>
    simp only [h0, if_false]
    exact ⟨_, _, rfl, rfl⟩

/-- The first allocation fails, or it is not even tried. -/
theorem begin_refused (t : Table) {nasize nhsize : Nat} (h : t.sizearray < nasize ∨ nhsize ≠ 0) :
    Raises (· = t) (begin t nasize nhsize ⟨t, [false]⟩) := by
  rw [begin]
  by_cases hgrow : nasize > t.sizearray
  · rw [if_pos hgrow]
    exact ⟨_, _, rfl, rfl⟩
  · rw [if_neg hgrow, pure_bind]
    exact (setnodevector_refused t (h.resolve_left hgrow)).bind _

/-- The new node part cannot be allocated after the array part has grown. -/
theorem begin_grown (t : Table) {nasize nhsize : Nat} (h : t.sizearray < nasize)
    (h0 : nhsize ≠ 0) :
    Raises (· = Tables.setarrayvector t nasize) (begin t nasize nhsize ⟨t, [true, false]⟩) := by
  have hgrow : nasize > t.sizearray := h
  have harray : setarrayvector nasize ⟨t, [true, false]⟩ =
      .ok () ⟨Tables.setarrayvector t nasize, [false]⟩ := rfl
  rw [begin, if_pos hgrow, seq_of_ok harray]
  exact (setnodevector_refused _ h0).bind _

theorem begin_granted {nasize nhsize : Nat} {t₂ : Table}
    (h : Tables.setnodevector (reshaped t nasize) nhsize = .ok t₂) :
    ∃ results, begin t nasize nhsize ⟨t, results ++ [false]⟩ = .ok () ⟨t₂, [false]⟩ := by
  obtain ⟨granted, hgranted⟩ : ∃ granted, ∀ t t₂, Tables.setnodevector t nhsize = .ok t₂ →
      setnodevector nhsize ⟨t, granted ++ [false]⟩ = .ok () ⟨t₂, [false]⟩ := by
    refine ⟨if nhsize = 0 then [] else [true], fun t t₂ h => ?_⟩
    rw [setnodevector, getTable_bind, h]
    by_cases h0 : nhsize = 0
    · simp only [h0, if_true]
      rfl
    · simp only [h0, if_false]
      rfl
  rw [reshaped] at h
  by_cases hgrow : nasize > t.sizearray
  · have hle : ¬ nasize < t.sizearray := by omega
    have harray : setarrayvector nasize ⟨t, true :: granted ++ [false]⟩ =
        .ok () ⟨Tables.setarrayvector t nasize, granted ++ [false]⟩ := rfl
    rw [if_pos hgrow] at h
    refine ⟨true :: granted, ?_⟩
    rw [begin, if_pos hgrow, if_neg hle, seq_of_ok harray, seq_of_ok (hgranted _ _ h)]
    rfl
  · rw [if_neg hgrow, setnodevector_array] at h
    obtain ⟨t₁, hnodes, h⟩ := Result.bind_ok.mp h
    have harray := setnodevector_ok hnodes
    cases h
    refine ⟨granted, ?_⟩
    rw [begin, if_neg hgrow, pure_bind, seq_of_ok (hgranted _ _ hnodes)]
    split_ifs with hlt
    · show EStateM.Result.ok () (Memory.mk { t₁ with array := t₁.array.take nasize } [false]) = _
      rw [harray]
    · show EStateM.Result.ok () (Memory.mk t₁ [false]) = _
      have hlen : t.array.length ≤ nasize := Nat.le_of_not_lt hlt
      rw [List.take_of_length_le hlen, ← harray]

/-! ## An insertion that does not grow the table -/

theorem newkey_of_ok {fuel : Nat} {r : Slot × Table} (h : newkeyWith hashes stop t key = .ok r) :
    newkey hashes (fuel + 1) key ⟨t, results⟩ = .ok r.1 ⟨r.2, results⟩ := by
  rw [newkeyWith] at h
  rw [newkey, getTable_bind]
  simp only at h ⊢
  split_ifs at h ⊢
  · exact inPlace_ok h _
  · cases hfree : getfreepos t with
    | mk n t₀ =>
      rw [hfree] at h
      cases n with
      | none => cases h
      | some n =>
        simp only at h ⊢
        split_ifs at h ⊢
        · exact inPlace_ok h _
        · exact inPlace_ok h _

theorem newkey_of_crowded {l : Int} (hc : Crowded hashes t key l) (fuel : Nat) :
    newkey hashes (fuel + 1) key ⟨t, results⟩ =
      (rehash hashes (newkey hashes fuel) key >>= fun _ =>
        setWith hashes (newkey hashes fuel) key) ⟨{ t with lastfree := l }, results⟩ := by
  rw [newkey, getTable_bind]
  simp only [hc.taken, Bool.false_eq_true, if_false, hc.none, putTable_bind]

section

variable {nk : Value → F Slot}

theorem setWith_found {p : Slot} (h : luaH_get hashes t key = some p) :
    setWith hashes nk key ⟨t, results⟩ = .ok p ⟨{ t with flags := 0 }, results⟩ := by
  unfold setWith
  rw [getTable_bind, putTable_bind, h]
  rfl

theorem setWith_new (hkey : key.IsKey) (h : luaH_get hashes t key = none) :
    setWith hashes nk key ⟨t, results⟩ = nk key ⟨{ t with flags := 0 }, results⟩ := by
  unfold setWith
  rw [getTable_bind, putTable_bind, h]
  cases key with
  | nil => exact hkey.elim
  | number n =>
    have hn : luai_numisnan n = false := hkey
    simp only [hn, Bool.false_eq_true, if_false]
  | _ => rfl

theorem setnumWith_eq (hashes : Nat → UInt32) {k : Int} (hk : -2 ^ 31 ≤ k ∧ k < 2 ^ 31) :
    setnumWith nk k ⟨t, results⟩ =
      match luaH_get hashes t (.number (cast_num k)) with
      | some p => .ok p ⟨t, results⟩
      | none => nk (.number (cast_num k)) ⟨t, results⟩ := by
  rw [setnumWith, getTable_bind, luaH_getnum_eq hashes t hk]
  cases luaH_get hashes t (.number (cast_num k)) <;> rfl

theorem rehash_eq (t : Table) (ek : Value) :
    rehash hashes nk ek ⟨t, results⟩ =
      resize hashes nk (sizes t ek).1 (totaluse t - (sizes t ek).2) ⟨t, results⟩ := by
  obtain ⟨h1, -⟩ := numusearray_spec t
  obtain ⟨h2, -, -⟩ := hashLoop_spec t.node.reverse 0 0 (numusearray t fun _ => 0).2
  rw [totaluse, ← h1]
  have h2' : (nodes t).length = (numusehash t (numusearray t fun _ => 0).2).1 := by
    rw [numusehash, h2, Nat.zero_add]
    rfl
  rw [h2']
  rfl

end

/-! ## One insertion -/

theorem value_absent (h : Inv hashes t) (ha : Absent t key) : value hashes t key = .nil := by
  by_contra hv
  rcases (value_eq_iff h hv).mp rfl with ⟨hin, -⟩ | ⟨i, -, hi, -⟩
  · exact ha.out hin
  · rw [ha.node i] at hi
    cases hi

/-- The number of nodes is not 0 where the array part does not grow. -/
theorem rehash_allocates (h : Inv hashes t) (ha : Absent t ek) :
    t.sizearray < (sizes t ek).1 ∨ totaluse t - (sizes t ek).2 ≠ 0 := by
  by_contra hno
  rw [not_or, not_lt, not_not] at hno
  obtain ⟨hle, hzero⟩ := hno
  have hmono := arrayCount_add t (sizes_le t ek)
  have hslice := costs_slice h.array (sizes t ek).1
  have hcount := arrayCount_slice t (sizes t ek).1
  have huncounted := arrayCount_slice t MAXASIZE
  have hcost : cost (sizes t ek).1 ek = 1 := by
    rw [cost, if_neg]
    intro hin
    exact ha.out ⟨hin.1, by omega⟩
  rw [counted_remaining h, remaining, uncounted, hcost] at hzero
  omega

/-- The insertion makes the place of the key without a growth, or it needs one, which fails with its first
allocation. -/
def SetsOrGrows (hashes : Nat → UInt32) (set : Table → Value → M (Slot × Table))
    (setF : Value → F Slot) (t : Table) (key : Value) : Prop :=
  (∃ r, set t key = .ok r ∧ (∀ results, setF key ⟨t, results⟩ = .ok r.1 ⟨r.2, results⟩) ∧
    Ungrown hashes t r.2 key r.1) ∨
  ((∃ e, set t key = .error e) ∧
    Raises (fun t' => value hashes t' key = .nil) (setF key ⟨t, [false]⟩))

theorem newkey_setsOrGrows (h : Inv hashes t) (ha : Absent t key) (fuel : Nat) :
    SetsOrGrows hashes (newkeyWith hashes stop) (newkey hashes (fuel + 1)) t key := by
  rcases newkeyWith_insertion h key with ⟨i, t', hnew, hi⟩ | ⟨l, hl, hfull, hcrowded⟩
  · have hto := (hi.grown h ha).setHere ha
    exact .inl ⟨_, hnew stop, fun results => newkey_of_ok (hnew stop), hto.toSetTo, hto.shape⟩
  · refine .inr ⟨⟨_, hcrowded.newkeyWith stop⟩, ?_⟩
    have hl' := h.full hl hfull
    have ha' : Absent { t with lastfree := l } key := ⟨ha.isKey, ha.out, ha.node⟩
    rw [newkey_of_crowded hcrowded]
    refine Raises.bind ?_ _
    rw [rehash_eq, resize_eq _ _ _ hl'.array]
    refine Raises.bind ((begin_refused _ (rehash_allocates hl' ha')).imp fun t' ht' => ?_) _
    rw [ht']
    exact value_absent hl' ha'

theorem setWith_setsOrGrows (h : Inv hashes t) (hkey : key.IsKey) (fuel : Nat) :
    SetsOrGrows hashes (Tables.setWith hashes (newkeyWith hashes stop))
      (setWith hashes (newkey hashes (fuel + 1))) t key := by
  cases hget : luaH_get hashes t key with
  | some p =>
    exact .inl ⟨_, Tables.setWith_found hget, fun results => setWith_found hget,
      SetTo.of_found h hget 0, (sameKeys_flags t 0).shape⟩
  | none =>
    have ha := absent_of_luaH_get h hkey hget
    have hnew := newkey_setsOrGrows (h.flags 0) ⟨ha.isKey, ha.out, ha.node⟩ fuel
    rw [SetsOrGrows, Tables.setWith_new hkey hget]
    simp only [setWith_new hkey hget]
    refine hnew.imp_left fun hnew => ?_
    obtain ⟨r, hr, hF, hto⟩ := hnew
    refine ⟨r, hr, hF, ⟨hto.inv, hto.slot, hto.value⟩, ?_⟩
    exact (sameKeys_flags t 0).shape.trans hto.shape

theorem setIndex_setsOrGrows (h : Inv hashes t) (hkey : key.IsKey)
    (hidx : key = .number (cast_num (arrayindex key))) (fuel : Nat) :
    SetsOrGrows hashes (Tables.setIndex (newkeyWith hashes stop))
      (setIndex (newkey hashes (fuel + 1))) t key := by
  have hrange := arrayindex_range key
  rw [SetsOrGrows, Tables.setIndex, Tables.setnumWith_eq hashes hrange, ← hidx]
  simp only [setIndex, setnumWith_eq hashes hrange, ← hidx]
  cases hget : luaH_get hashes t key with
  | some p => exact .inl ⟨_, rfl, fun _ => rfl, SetTo.of_found h hget t.flags, .refl t⟩
  | none => exact newkey_setsOrGrows h (absent_of_luaH_get h hkey hget) fuel

/-! ## The loops of `resize` -/

/-- Entries are inserted without a growth, or one of them is lost where the first growth fails. -/
theorem insertAll_outcome (set : Table → Value → M (Slot × Table)) (setF : Value → F Slot)
    (guard : Table → Bool) (P : List Entry → Table → Prop)
    (hset : ∀ e rest t, e.1.IsKey → Inv hashes t → P (e :: rest) t →
      SetsOrGrows hashes set setF t e.1 ∧ ∀ r p t', Ungrown hashes t r e.1 p →
        guard r = true ∧ (Stored hashes r t' e.1 e.2 → P rest t'))
    {es : List Entry} (hd : Distinct es) (h : Inv hashes t) (hP : P es t) :
    (∃ t', Tables.insertAll set guard t es = .ok t' ∧
      (∀ results, insertAll setF guard es ⟨t, results⟩ = .ok () ⟨t', results⟩) ∧
      Inv hashes t' ∧ P [] t') ∨
    ((∀ t', Tables.insertAll set guard t es ≠ .ok t') ∧ ∃ e ∈ es,
      Raises (fun t' => value hashes t' e.1 = .nil) (insertAll setF guard es ⟨t, [false]⟩)) := by
  induction es generalizing t with
  | nil => exact .inl ⟨t, rfl, fun _ => rfl, h, hP⟩
  | cons e es ih =>
    have hkey := hd.isKey e (List.mem_cons_self ..)
    obtain ⟨hsets, hnext⟩ := hset e es t hkey h hP
    rcases hsets with ⟨⟨p, r⟩, hr, hF, hto⟩ | ⟨⟨e', he'⟩, hraises⟩
    · obtain ⟨t₁, hstore, hstored⟩ := store_spec hto.inv hkey hto.slot e.2
      obtain ⟨hguard, hP₁⟩ := hnext r p t₁ hto
      have hM : Tables.insertAll set guard t (e :: es) = Tables.insertAll set guard t₁ es := by
        rw [Tables.insertAll, hr, ok_bind]
        simp only [hguard, if_true, hstore, ok_bind]
      have hF' : ∀ results, insertAll setF guard (e :: es) ⟨t, results⟩ =
          insertAll setF guard es ⟨t₁, results⟩ := fun results => by
        rw [insertAll, seq_of_ok (hF results), getTable_bind]
        simp only [hguard, if_true]
        exact seq_of_ok (store_ok hstore)
      rw [hM, hF']
      rcases ih hd.tail hstored.inv (hP₁ hstored) with
        ⟨t', ht', hF₁, hinv⟩ | ⟨hno, e', he', hraises⟩
      · exact .inl ⟨t', ht', fun results => (hF' results).trans (hF₁ results), hinv⟩
      · exact .inr ⟨hno, e', List.mem_cons_of_mem _ he', hraises⟩
    · refine .inr ⟨fun t' ht' => ?_, e, List.mem_cons_self .., hraises.bind _⟩
      rw [Tables.insertAll, he'] at ht'
      cases ht'

theorem value_ne_nil_of_mem (h : Inv hashes t) (nasize : Nat) {e : Entry}
    (he : e ∈ slice t nasize ++ nodes t) : value hashes t e.1 ≠ .nil := by
  rcases List.mem_append.mp he with he | he
  · rw [value_of_mem_slice h he]
    exact ne_nil_of_mem_slice he
  · rw [value_of_mem_nodes h he]
    obtain ⟨i, hv, rfl⟩ := mem_nodes.mp he
    exact hv

section Resize

variable {nasize nhsize : Nat} (hn : nasize < 2 ^ 31) (hsize : nhsize ≤ 2 ^ 32)

include hn hsize

/-- With its new nodes, the table gets all its elements back, or the first growth fails and an element is
lost. -/
theorem refill_outcome (h : Inv hashes t) {t₂ : Table}
    (hnodes : Tables.setnodevector (reshaped t nasize) nhsize = .ok t₂) (fuel : Nat) :
    (∃ t', Tables.resize hashes (newkeyWith hashes stop) t nasize nhsize = .ok t' ∧
      ∀ results, refill hashes (newkey hashes (fuel + 1)) t nasize ⟨t₂, results⟩ =
        .ok () ⟨t', results⟩) ∨
    ((∀ t', Tables.resize hashes (newkeyWith hashes stop) t nasize nhsize ≠ .ok t') ∧
      ∃ k, value hashes t k ≠ .nil ∧ Raises (fun t' => value hashes t' k = .nil)
        (refill hashes (newkey hashes (fuel + 1)) t nasize ⟨t₂, [false]⟩)) := by
  have hb := (begun hashes t hn hsize).ok_of_eq hnodes
  have hstep : ∀ (e : Entry) rest (t₁ : Table), e.1.IsKey → Inv hashes t₁ →
      e :: rest ⊆ slice t nasize ∧ t₁.block = t₂.block →
      SetsOrGrows hashes (Tables.setIndex (newkeyWith hashes stop))
        (setIndex (newkey hashes (fuel + 1))) t₁ e.1 ∧
      ∀ r p t', Ungrown hashes t₁ r e.1 p → (r.block == t₂.block) = true ∧
        (Stored hashes r t' e.1 e.2 → rest ⊆ slice t nasize ∧ t'.block = t₂.block) := by
    intro e rest t₁ hkey h₁ hP
    have hidx := (arrayindex_slice h.array (hP.1 (List.mem_cons_self ..))).1
    refine ⟨setIndex_setsOrGrows h₁ hkey hidx fuel, fun r p t' hto => ?_⟩
    have hblock : r.block = t₂.block := hto.shape.block.trans hP.2
    refine ⟨?_, fun hst => ⟨fun _ he => hP.1 (List.mem_cons_of_mem _ he), ?_⟩⟩
    · rw [hblock, beq_self_eq_true]
    · exact hst.keys.shape.block.trans hblock
  have hslice := insertAll_outcome _ _ (fun t => t.block == t₂.block)
    (fun rest t₁ => rest ⊆ slice t nasize ∧ t₁.block = t₂.block) hstep
    (distinct_slice h.array nasize) hb.inv ⟨List.Subset.refl _, rfl⟩
  rw [Tables.resize_eq _ _ _ _ h.array, hnodes, ok_bind]
  rcases hslice with ⟨t₃, ht₃, hF, h₃, -⟩ | ⟨hno, e, he, hraises⟩
  · have hrest := insertAll_outcome (Tables.setWith hashes (newkeyWith hashes stop))
      (setWith hashes (newkey hashes (fuel + 1))) (fun _ => true) (fun _ _ => True)
      (fun e rest t₁ hkey h₁ _ =>
        ⟨setWith_setsOrGrows h₁ hkey fuel, fun _ _ _ _ => ⟨rfl, fun _ => trivial⟩⟩)
      (distinct_nodes h) (h₃.released t nasize) trivial
    rw [ht₃, ok_bind]
    rcases hrest with ⟨t₄, ht₄, hF₄, -⟩ | ⟨hno, e, he, hraises⟩
    · refine .inl ⟨t₄, ht₄, fun results => ?_⟩
      rw [refill, getTable_bind, seq_of_ok (hF results), getTable_bind, putTable_bind]
      exact hF₄ results
    · refine .inr ⟨hno, e.1, value_ne_nil_of_mem h nasize (List.mem_append_right _ he), ?_⟩
      rw [refill, getTable_bind, seq_of_ok (hF _), getTable_bind, putTable_bind]
      exact hraises
  · refine .inr ⟨fun t' ht' => ?_, e.1, ?_, ?_⟩
    · obtain ⟨t₃, heq, -⟩ := Result.bind_ok.mp ht'
      exact hno t₃ heq
    · exact value_ne_nil_of_mem h nasize (List.mem_append_left _ he)
    · rw [refill, getTable_bind]
      exact hraises.bind _

theorem resize_unharmed (hs : Sound hashes t) (hsafe : SafeResize hashes t nasize nhsize)
    (fuel : Nat) (results : List Bool) :
    Ends (fun _ m => Unharmed hashes t m.table)
      (fun _ m => Tables.resize hashes (newkeyWith hashes stop) t nasize nhsize = .ok m.table)
      (resize hashes (newkey hashes (fuel + 1)) nasize nhsize ⟨t, results⟩) := by
  obtain ⟨hclear, hroom⟩ := hsafe
  rw [resize_eq _ _ _ hs.inv.array]
  refine ((begin_ends t nasize nhsize).error_imp fun e m hm => ?_).bind fun _ m hm => ?_
  · rcases hm.2 with heq | ⟨hgrow, h0, heq⟩
    · rw [heq]
      exact hs.unharmed fun _ => rfl
    · rw [heq]
      exact hs.setarrayvector hgrow hn (hclear h0)
  · obtain ⟨t₂, results⟩ := m
    have hnodes : Tables.setnodevector (reshaped t nasize) nhsize = .ok t₂ := hm
    have hfits : ¬ MAXBITS < ceillog2 nhsize := fun hbig => by
      rw [setnodevector_overflow hbig] at hnodes
      cases hnodes
    have hroom := hroom.resolve_left fun hbig => hfits ((overflow_iff hsize).mpr hbig)
    rcases refill_outcome hn hsize hs.inv hnodes fuel with ⟨t', ht', hF⟩ | ⟨hno, -⟩
    · rw [hF results]
      exact ht'
    · -- with room there is no growth
      have hhere := resize_here hs.inv hn hsize hroom stop
      have hstop := resize_stop hs.inv hn hsize
      cases hresize : Tables.resize hashes (newkeyWith hashes stop) t nasize nhsize with
      | ok t' => exact absurd hresize (hno t')
      | error e =>
        rw [hresize] at hhere hstop
        have he : e = tableOverflow := hhere
        rcases hstop with hfuel | ⟨-, hbig⟩
        · rw [he] at hfuel
          cases hfuel
        · exact absurd hbig hfits

omit hsize in
theorem value_setarrayvector (hgrow : t.sizearray < nasize)
    (hidx : (t.sizearray : Int) < arrayindex key) (hle : arrayindex key ≤ nasize) :
    value hashes (Tables.setarrayvector t nasize) key = .nil := by
  have harray := sizearray_setarrayvector t hgrow
  have hin : InArray (Tables.setarrayvector t nasize) key := by
    rw [InArray, harray]
    omega
  rw [value, luaH_get_array hin (by rw [harray]; exact hn)]
  show (Tables.setarrayvector t nasize).array.getD _ .nil = .nil
  rw [getD_setarrayvector t hgrow]
  by_contra hne
  have := lt_of_array hne
  omega

theorem resize_harmed (h : Inv hashes t) (hrisky : ¬ SafeResize hashes t nasize nhsize)
    (fuel : Nat) :
    ∃ results, Raises (fun t' => ∃ k, value hashes t' k ≠ value hashes t k)
      (resize hashes (newkey hashes (fuel + 1)) nasize nhsize ⟨t, results⟩) := by
  rw [SafeResize, not_and_or] at hrisky
  simp only [resize_eq _ _ _ h.array]
  rcases hrisky with hhidden | hfull
  · -- an element of the node part is hidden by the larger array part
    simp only [Classical.not_imp, not_forall] at hhidden
    obtain ⟨h0, k, hidx, hle, hval⟩ := hhidden
    have hgrow : t.sizearray < nasize := by omega
    refine ⟨[true, false], ((begin_grown t hgrow h0).imp fun t' ht' => ⟨k, ?_⟩).bind _⟩
    rw [ht', value_setarrayvector hn hgrow hidx hle]
    exact Ne.symm hval
  · rw [not_or, not_lt, not_le] at hfull
    obtain ⟨hfits, hfull⟩ := hfull
    cases hnodes : Tables.setnodevector (reshaped t nasize) nhsize with
    | error e =>
      rw [Tables.setnodevector] at hnodes
      split_ifs at hnodes with _ hbig
      · cases hnodes
      · exact absurd ((overflow_iff hsize).mp hbig) (Nat.not_lt.mpr hfits)
      · cases hnodes
    | ok t₂ =>
      obtain ⟨granted, hbegin⟩ := begin_granted hnodes
      refine ⟨granted ++ [false], ?_⟩
      rw [seq_of_ok hbegin]
      rcases refill_outcome hn hsize h hnodes fuel with ⟨t', ht', -⟩ | ⟨-, k, hk, hraises⟩
      · obtain ⟨h', harray, hnew, hval⟩ := (resize_stop h hn hsize).ok_of_eq ht'
        have hle := entries_le h h' hval
        rw [harray] at hle
        exact absurd (hnew.le_nodePart h' hle) (Nat.not_le.mpr hfull)
      · refine hraises.imp fun t' ht' => ⟨k, ?_⟩
        rw [ht']
        exact Ne.symm hk

end Resize

/-! ## The growth for a key -/

/-- A table that holds the same gets the same array part. -/
theorem sizes_of_value (h : Inv hashes t) (ha : Absent t ek) (h' : Inv hashes t')
    (ha' : Absent t' ek) (hval : ∀ k, value hashes t' k = value hashes t k) :
    (sizes t' ek).1 = (sizes t ek).1 := by
  have hsame : ∀ k, inUse hashes t' ek k = inUse hashes t ek k := fun k => by
    rw [inUse, inUse, hval]
  exact sizes_stable h ha h' ha' (fun k _ _ hk => hsame k ▸ hk) fun k _ _ hk => hsame k ▸ hk

theorem Sound.of_resize (hs : Sound hashes t) {nasize nhsize : Nat}
    (h : Tables.resize hashes (newkeyWith hashes stop) t nasize nhsize = .ok t')
    (hinv : Inv hashes t') : Sound hashes t' := by
  have hkeeps : Keeps (Kept t (.boolean false)) (Tables.newkey hashes 1) :=
    newkey_keeps hashes (fun _ => .inl rfl) 1
  have hresize : Tables.resize hashes (Tables.newkey hashes 1) t nasize nhsize = .ok t' := by
    refine resize_mono (fun t key r hr => ?_) hs.inv.array h
    rw [newkey_eq]
    exact newkeyWith_mono hr _
  have hkey : (Value.boolean false).IsKey := trivial
  refine hs.of_keysFrom hkey (fun _ _ hne => absurd rfl hne) hinv ?_
  exact .of_resize hkeeps (fun _ => .inl rfl) (kept_of_live hs.inv) hresize

/-- The growth in `newkey`. -/
def regrow (hashes : Nat → UInt32) (nk : Value → F Slot) (key : Value) : F Slot :=
  rehash hashes nk key >>= fun _ => setWith hashes nk key

/-- The sizes of the growth are safe. -/
def SafeSizes (hashes : Nat → UInt32) (t : Table) (key : Value) : Prop :=
  SafeResize hashes t (sizes t key).1 (totaluse t - (sizes t key).2)

theorem safeSizes_iff (h : Inv hashes t) (ha : Absent t key) : SafeSizes hashes t key ↔
    ∀ n, Optimal hashes t key n → SafeResize hashes t n (remaining t key n - uncounted t) := by
  rw [SafeSizes, counted_remaining h]
  constructor
  · intro hsafe n hn
    rw [hn.unique (optimal_sizes h ha)]
    exact hsafe
  · exact fun hsafe => hsafe _ (optimal_sizes h ha)

theorem safeSizes_congr (harray : t'.array = t.array) (hnode : t'.node = t.node)
    (hval : ∀ k, value hashes t' k = value hashes t k) (key : Value) :
    SafeSizes hashes t' key ↔ SafeSizes hashes t key := by
  have hslice : ∀ n, slice t' n = slice t n := fun n => by rw [slice, slice, harray]
  have hnodes : nodes t' = nodes t := by rw [nodes, nodes, hnode]
  have htotal : totaluse t' = totaluse t := by
    rw [totaluse, totaluse, arrayCount, arrayCount, harray, hnodes]
  have hsize : t'.sizearray = t.sizearray := by rw [Table.sizearray, Table.sizearray, harray]
  simp only [SafeSizes, SafeResize, sizes_congr harray hnode, htotal, hslice, hnodes, hsize, hval]

theorem safeSizes_lastfree (t : Table) (l : Int) (key : Value) :
    SafeSizes hashes { t with lastfree := l } key ↔ SafeSizes hashes t key := by
  refine safeSizes_congr ?_ ?_ (fun k => ?_) key
  · rfl
  · rfl
  · rfl

theorem safeSizes_flags (t : Table) (flags : UInt8) (key : Value) :
    SafeSizes hashes { t with flags } key ↔ SafeSizes hashes t key := by
  refine safeSizes_congr ?_ ?_ (fun k => ?_) key
  · rfl
  · rfl
  · rfl

theorem sizes_lt (t : Table) (ek : Value) : (sizes t ek).1 < 2 ^ 31 := by
  have hn := sizes_le t ek
  have hmax : MAXASIZE = 2 ^ 26 := rfl
  omega

/-- The growth of a table all of whose elements are counted. -/
theorem regrow_counted (hs : Sound hashes t) (hkey : key.IsKey) (hsize : t.sizearray ≤ MAXASIZE)
    (hsafe : SafeSizes hashes t key) (fuel : Nat) :
    Ends (fun _ m => Unharmed hashes t m.table) (fun _ _ => True)
      (regrow hashes (newkey hashes (fuel + 1)) key ⟨t, results⟩) := by
  have hresize := resize_unharmed (sizes_lt t key) (remaining_bound hs.inv key) hs hsafe fuel results
  rw [← rehash_eq] at hresize
  refine hresize.bind fun _ m ht₁ => ?_
  obtain ⟨t₁, results⟩ := m
  have hhere := rehash_here hs.inv hsize key stop
  rw [Tables.rehash_eq] at hhere
  obtain ⟨h₁, -, hroom, -, -⟩ := hhere.ok_of_eq ht₁
  obtain ⟨p, t₂, hset, -⟩ := setWith_here h₁ hkey hroom stop
  rcases setWith_setsOrGrows h₁ hkey fuel with ⟨r, -, hF, -⟩ | ⟨⟨e, he⟩, -⟩
  · exact ends_of_ok (hF results) trivial
  · rw [hset] at he
    cases he

/-- With its elements counted and its array part of the size that it would get, a table grows safely. -/
theorem safeSizes_of_counted (h : Inv hashes t) (hsize : t.sizearray ≤ MAXASIZE)
    (hstable : (sizes t key).1 = t.sizearray) : SafeSizes hashes t key := by
  have hzero : uncounted t = 0 := by
    rw [uncounted, slice, List.drop_eq_nil_of_le hsize]
    rfl
  refine ⟨fun _ k hgt hle => ?_, .inr ?_⟩
  · rw [hstable] at hle
    omega
  · refine Nat.le_trans ?_ (le_nodePart (remaining_bound h key))
    rw [counted_remaining h, hzero, remaining]
    omega

theorem regrow_unharmed (hs : Sound hashes t) (ha : Absent t key)
    (hsafe : SafeSizes hashes t key) (fuel : Nat) :
    Ends (fun _ m => Unharmed hashes t m.table) (fun _ _ => True)
      (regrow hashes (newkey hashes (fuel + 2)) key ⟨t, results⟩) := by
  have hkey := ha.isKey
  have hresize := resize_unharmed (sizes_lt t key) (remaining_bound hs.inv key) hs hsafe (fuel + 1)
    results
  rw [← rehash_eq] at hresize
  refine hresize.bind fun _ m ht₁ => ?_
  obtain ⟨t₁, results⟩ := m
  obtain ⟨h₁, harray, -, hval⟩ :=
    (resize_stop hs.inv (sizes_lt t key) (remaining_bound hs.inv key)).ok_of_eq ht₁
  have hs₁ : Sound hashes t₁ := Sound.of_resize hs ht₁ h₁
  cases hget : luaH_get hashes t₁ key with
  | some p => exact ends_of_ok (setWith_found hget) trivial
  | none =>
    have ha₁ := absent_of_luaH_get h₁ hkey hget
    rw [setWith_new hkey hget]
    rcases newkeyWith_insertion (h₁.flags 0) key with ⟨i, t', hnew, -⟩ | ⟨l, hl, hfull, hcrowded⟩
    · exact ends_of_ok (newkey_of_ok (hnew stop)) trivial
    · -- the array part has the size that it would get, so that this growth does no harm
      have hs₂ := (hs₁.flags 0).full hl hfull
      have ha₂ : Absent { t₁ with flags := 0, lastfree := l } key := ⟨ha₁.isKey, ha₁.out, ha₁.node⟩
      have hstable := sizes_of_value hs.inv ha hs₂.inv ha₂ hval
      have hsize : t₁.sizearray ≤ MAXASIZE := by
        rw [harray]
        exact sizes_le t key
      rw [newkey_of_crowded hcrowded]
      refine (regrow_counted hs₂ hkey hsize ?_ fuel).error_imp fun _ m hm => hm.of_value hval
      exact safeSizes_of_counted hs₂.inv hsize (hstable.trans harray.symm)

theorem newkey_unharmed (hs : Sound hashes t) (ha : Absent t key)
    (hsafe : ∀ l, Crowded hashes t key l → SafeSizes hashes t key) (fuel : Nat) :
    Ends (fun _ m => Unharmed hashes t m.table) (fun _ _ => True)
      (newkey hashes (fuel + 3) key ⟨t, results⟩) := by
  rcases newkeyWith_insertion hs.inv key with ⟨i, t', hnew, -⟩ | ⟨l, hl, hfull, hcrowded⟩
  · exact ends_of_ok (newkey_of_ok (hnew stop)) trivial
  · have ha' : Absent { t with lastfree := l } key := ⟨ha.isKey, ha.out, ha.node⟩
    have hsame := (safeSizes_lastfree t l key).mpr (hsafe l hcrowded)
    rw [newkey_of_crowded hcrowded]
    exact (regrow_unharmed (hs.full hl hfull) ha' hsame fuel).error_imp fun _ m hm =>
      hm.of_value fun _ => rfl

theorem newkey_harmed (h : Inv hashes t) {l : Int}
    (hcrowded : Crowded hashes t key l) (hrisky : ¬ SafeSizes hashes t key) (fuel : Nat) :
    ∃ results, Raises (fun t' => ∃ k, value hashes t' k ≠ value hashes t k)
      (newkey hashes (fuel + 2) key ⟨t, results⟩) := by
  rcases newkeyWith_insertion h key with ⟨i, t', hnew, -⟩ | ⟨l', hl, hfull, hcrowded'⟩
  · have hgrow := (hcrowded.newkeyWith stop).symm.trans (hnew stop)
    cases hgrow
  · have hinv := h.full hl hfull
    have hsame := (safeSizes_lastfree t l' key).not.mpr hrisky
    obtain ⟨results, hraises⟩ :=
      resize_harmed (sizes_lt _ key) (remaining_bound hinv key) hinv hsame fuel
    refine ⟨results, ?_⟩
    rw [newkey_of_crowded hcrowded']
    rw [← rehash_eq] at hraises
    exact hraises.bind _

theorem freeLoop_flags (t : Table) (flags : UInt8) (l : Nat) :
    freeLoop { t with flags } l = freeLoop t l := by
  induction l with
  | zero => rfl
  | succ l ih =>
    rw [freeLoop, freeLoop, ih]
    rfl

theorem Crowded.flags {l : Int} (hc : Crowded hashes t key l) (flags : UInt8) :
    Crowded hashes { t with flags } key l := by
  have hmain : mainposition hashes { t with flags } key = mainposition hashes t key :=
    mainposition_congr rfl key
  have hfree : getfreepos { t with flags } =
      ((getfreepos t).1, { (getfreepos t).2 with flags }) := by
    have hloop : freeLoop { t with flags } = freeLoop t := funext (freeLoop_flags t flags)
    rw [getfreepos, getfreepos, hloop]
    split_ifs <;> rfl
  refine ⟨?_, by rw [hfree, hc.none]⟩
  rw [hmain]
  exact hc.taken

theorem mustGrow_flags (hkey : key.IsKey) (hget : luaH_get hashes t key = none) {l : Int}
    {flags : UInt8} (hc : Crowded hashes { t with flags } key l) : MustGrow hashes t key :=
  ⟨hkey, hget, l, Crowded.flags hc t.flags⟩

/-! ## The calls -/

/-- What inserts a key that `luaH_get` does not find. -/
theorem absent_unharmed (hs : Sound hashes t) (hkey : key.IsKey)
    (hget : luaH_get hashes t key = none) (hsafe : SafeGrowth hashes t key) (flags : UInt8)
    (results : List Bool) :
    Ends (fun _ m => Unharmed hashes t m.table) (fun _ _ => True)
      (newkey hashes maxRehash key ⟨{ t with flags }, results⟩) := by
  have ha := absent_of_luaH_get hs.inv hkey hget
  have ha' : Absent { t with flags } key := ⟨ha.isKey, ha.out, ha.node⟩
  refine (newkey_unharmed (hs.flags flags) ha' (fun l hc => ?_) 1).error_imp
    fun _ m hm => hm.of_value fun _ => rfl
  rw [safeSizes_flags, safeSizes_iff hs.inv ha]
  exact hsafe (mustGrow_flags hkey hget hc)

theorem absent_harmed (h : Inv hashes t) (hrisky : ¬ SafeGrowth hashes t key) (flags : UInt8) :
    key.IsKey ∧ luaH_get hashes t key = none ∧
      ∃ results, Raises (fun t' => ∃ k, value hashes t' k ≠ value hashes t k)
        (newkey hashes maxRehash key ⟨{ t with flags }, results⟩) := by
  rw [SafeGrowth, Classical.not_imp] at hrisky
  obtain ⟨⟨hkey, hget, l, hc⟩, hrisky⟩ := hrisky
  have ha := absent_of_luaH_get h hkey hget
  rw [← safeSizes_iff h ha, ← safeSizes_flags t flags] at hrisky
  exact ⟨hkey, hget, newkey_harmed (h.flags flags) (Crowded.flags hc flags) hrisky 2⟩

theorem luaH_set_refused (h : Inv hashes t) (hproper : Value.isProper key) (hkey : ¬ key.IsKey)
    (results : List Bool) :
    ∃ e, luaH_set hashes key ⟨t, results⟩ = .error e ⟨{ t with flags := 0 }, results⟩ := by
  unfold luaH_set setWith
  rw [getTable_bind, putTable_bind]
  cases key with
  | nil => exact ⟨_, rfl⟩
  | number n =>
    have hn : luai_numisnan n = true := by simpa [IsKey] using hkey
    rw [luaH_get_nan h hn]
    simp only [hn, if_true]
    exact ⟨_, rfl⟩
  | deadkey p => cases hproper
  | _ => exact absurd trivial hkey

end Allocating

open Allocating

theorem Call.Safe.unharmed (hs : Sound hashes t) {call : Call} (hcall : call.Allowed)
    (hsafe : call.Safe hashes t) (results : List Bool) :
    Ends (fun _ m => Unharmed hashes t m.table) (fun _ _ => True)
      (call.run hashes ⟨t, results⟩) := by
  have hreturn : ∀ m : Memory, Ends (fun _ m => Unharmed hashes t m.table) (fun _ _ => True)
      ((return : F Unit) m) := fun _ => trivial
  cases call with
  | set key =>
    refine Ends.bind (Q := fun _ _ => True) ?_ fun _ m _ => hreturn m
    by_cases hkey : key.1.IsKey
    · rw [Allocating.luaH_set]
      cases hget : luaH_get hashes t key.1 with
      | some p => exact ends_of_ok (Allocating.setWith_found hget) trivial
      | none =>
        rw [Allocating.setWith_new hkey hget]
        exact absent_unharmed hs hkey hget hsafe 0 results
    · obtain ⟨e, he⟩ := luaH_set_refused hs.inv key.2 hkey results
      rw [he]
      exact (hs.flags 0).unharmed fun _ => rfl
  | setnum key =>
    refine Ends.bind (Q := fun _ _ => True) ?_ fun _ m _ => hreturn m
    rw [Allocating.luaH_setnum, Allocating.setnumWith_eq hashes hcall]
    cases hget : luaH_get hashes t (.number (cast_num key)) with
    | some p => trivial
    | none => exact absent_unharmed hs (isKey_cast_num hcall) hget hsafe t.flags results
  | setstr key =>
    refine Ends.bind (Q := fun _ _ => True) ?_ fun _ m _ => hreturn m
    rw [Allocating.luaH_setstr, getTable_bind]
    show Ends _ _ ((match luaH_getstr hashes t key with
      | some p => return p
      | none => Allocating.newkey hashes maxRehash (.string key)) (Memory.mk t results))
    cases hget : luaH_getstr hashes t key with
    | some p => trivial
    | none =>
      have hkey : (Value.string key).IsKey := trivial
      exact absent_unharmed hs hkey hget hsafe t.flags results
  | resizearray nasize =>
    have hsmall : t.sizenode ≤ 2 ^ 26 := Nat.pow_le_pow_right (by decide) hs.inv.small
    have hsize : (if t.isDummy then 0 else t.sizenode) ≤ 2 ^ 32 := by split_ifs <;> omega
    show Ends _ _ (Allocating.luaH_resizearray hashes nasize ⟨t, results⟩)
    rw [Allocating.luaH_resizearray, getTable_bind]
    exact (resize_unharmed hcall hsize hs hsafe 3 results).imp fun _ _ _ => trivial

theorem Call.harmed (hs : Sound hashes t) {call : Call} (hcall : call.Allowed)
    (hrisky : ¬ call.Safe hashes t) :
    ∃ results, Raises (fun t' => ∃ k, value hashes t' k ≠ value hashes t k)
      (call.run hashes ⟨t, results⟩) := by
  cases call with
  | set key =>
    obtain ⟨hkey, hget, results, hraises⟩ := absent_harmed hs.inv hrisky 0
    refine ⟨results, Raises.bind ?_ _⟩
    rw [Allocating.luaH_set, Allocating.setWith_new hkey hget]
    exact hraises
  | setnum key =>
    obtain ⟨hkey, hget, results, hraises⟩ := absent_harmed hs.inv hrisky t.flags
    refine ⟨results, Raises.bind ?_ _⟩
    rw [Allocating.luaH_setnum, Allocating.setnumWith_eq hashes hcall, hget]
    exact hraises
  | setstr key =>
    obtain ⟨hkey, hget, results, hraises⟩ := absent_harmed hs.inv hrisky t.flags
    have hget' : luaH_getstr hashes t key = none := hget
    refine ⟨results, Raises.bind ?_ _⟩
    rw [Allocating.luaH_setstr, getTable_bind]
    simp only [hget']
    exact hraises
  | resizearray nasize =>
    have hsmall : t.sizenode ≤ 2 ^ 26 := Nat.pow_le_pow_right (by decide) hs.inv.small
    have hsize : (if t.isDummy then 0 else t.sizenode) ≤ 2 ^ 32 := by split_ifs <;> omega
    obtain ⟨results, hraises⟩ := resize_harmed hcall hsize hs.inv hrisky 3
    refine ⟨results, ?_⟩
    show Raises _ (Allocating.luaH_resizearray hashes nasize ⟨t, results⟩)
    rw [Allocating.luaH_resizearray, getTable_bind]
    exact hraises

/-- A call that raises an error leaves the table as it was, whatever allocation fails, exactly when its
sizes are safe. -/
theorem failsUnharmed_iff_safe (hs : Sound hashes t) {call : Call} (hcall : call.Allowed) :
    FailsUnharmed hashes t call ↔ call.Safe hashes t := by
  constructor
  · intro hfails
    by_contra hrisky
    obtain ⟨results, msg, m, hrun, k, hk⟩ := Call.harmed hs hcall hrisky
    exact hk ((hfails results msg m hrun).value k)
  · intro hsafe results msg m hrun
    exact (hsafe.unharmed hs hcall results).error_of_eq hrun

/-- The number 1 in the node part of a table without an array part. -/
def oneNumber : Table :=
  ⟨255, [], 1, [⟨.boolean true, .number (cast_num 1), none⟩], false, 0, 1⟩

theorem reachable_oneNumber : Reachable (fun _ => 0) oneNumber := by
  have h0 : Reachable (fun _ => 0) ⟨255, [], 1, [dummynode_], false, 0, 1⟩ :=
    @Reachable.new _ 0 1 _ (by decide) (by decide) (by decide +kernel)
  refine @Reachable.step _ _ _ (.setnum 1 (.boolean true)) h0 (by decide) ?_ (by decide +kernel)
  intro i hi
  exact absurd hi (by rcases i with _ | i <;> exact id)

/-- Where the new node part for a second key cannot be allocated, the array part already has the place of
the number 1. -/
theorem setstr_hides_number :
    Reachable (fun _ => 0) oneNumber ∧ ¬ FailsUnharmed (fun _ => 0) oneNumber (.setstr 7) := by
  refine ⟨reachable_oneNumber, fun hfails => ?_⟩
  have hrun : (match Call.run (fun _ => 0) (.setstr 7) ⟨oneNumber, [true, false]⟩ with
      | .error (.error _) m => value (fun _ => 0) m.table (.number (cast_num 1)) == .nil
      | _ => false) = true := by
    decide +kernel
  have hvalue : value (fun _ => 0) oneNumber (.number (cast_num 1)) = .boolean true := by
    decide +kernel
  cases hresult : Call.run (fun _ => 0) (.setstr 7) ⟨oneNumber, [true, false]⟩ with
  | ok a m =>
    rw [hresult] at hrun
    cases hrun
  | error e m =>
    rw [hresult] at hrun
    cases e with
    | error msg =>
      have hsame := (hfails _ _ _ hresult).value (.number (cast_num 1))
      rw [beq_iff_eq.mp hrun, hvalue] at hsame
      cases hsame
    | undefined => cases hrun
    | outOfFuel => cases hrun

/-- Nothing is in the range by which the array part grows for the number 1. -/
theorem failsUnharmed_twoStrings :
    FailsUnharmed (fun _ => 0) Traversal.twoStrings (.setnum 1) := by
  have hs := Traversal.reachable_twoStrings.sound
  have hcall : (Call.setnum 1).Allowed := ⟨by decide, by decide⟩
  refine (failsUnharmed_iff_safe hs hcall).mpr fun hgrow => ?_
  have ha := absent_of_luaH_get hs.inv hgrow.1 hgrow.2.1
  refine (safeSizes_iff hs.inv ha).mp ⟨fun _ k hgt hle => ?_, .inr (by decide +kernel)⟩
  have hsize : (sizes Traversal.twoStrings (.number (cast_num 1))).1 = 1 := by decide +kernel
  have hone : arrayindex k = 1 := by
    rw [hsize] at hle
    have : Traversal.twoStrings.sizearray = 0 := rfl
    omega
  have hraw := rawequal_cast (show arrayindex k ≠ -1 by omega)
  rw [hone] at hraw
  rw [← value_rawequal hs.inv hraw]
  decide +kernel

/-! ## Runs that go on after a failure -/

/-- The tables that a program can have, also after calls with safe sizes that failed. -/
inductive Survives : (Nat → UInt32) → Table → Prop
  | reachable {hashes : Nat → UInt32} {t : Table} (h : Reachable hashes t) : Survives hashes t
  | step {hashes : Nat → UInt32} {t t' : Table} {op : Op} (h : Survives hashes t)
      (hop : op.Allowed t) (haddr : Addressed t op.assigned) (ht : step hashes t op = .ok t') :
      Survives hashes t'
  | failed {hashes : Nat → UInt32} {t : Table} {call : Call} {results : List Bool} {e : Stop}
      {m : Memory} (h : Survives hashes t) (hcall : call.Allowed) (hsafe : call.Safe hashes t)
      (hrun : call.run hashes ⟨t, results⟩ = .error e m) : Survives hashes m.table
  | collect {hashes : Nat → UInt32} {t t' : Table} {i : Nat} (h : Survives hashes t)
      (hval : t.gval i = .nil) (ht : removeentry t i = .ok t') : Survives hashes t'
  | reuse {hashes hashes' : Nat → UInt32} {t : Table} (h : Survives hashes t)
      (hh : Rehashed hashes hashes' t) : Survives hashes' t

theorem Survives.sound (h : Survives hashes t) : Sound hashes t := by
  induction h with
  | reachable h => exact h.sound
  | step h hop haddr ht ih => exact ih.step hop haddr ht
  | failed h hcall hsafe hrun ih => exact ((hsafe.unharmed ih hcall _).error_of_eq hrun).sound
  | collect h hval ht ih => exact ih.removeentry hval ht
  | reuse h hh ih => exact ih.rehashed hh

end Luaxx.Tables
