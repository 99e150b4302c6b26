import Luaxx.Table.Rehash

/-!
# A table is a finite map

Every run of assignments and of calls of `luaH_resizearray` that make the array part no smaller
leaves a table that holds what was last stored under each key. The part that is left is a table
with more than `MAXASIZE` elements in its array part: `rehash` does not count them all, so that the
node part can become full again while they are re-inserted. That is harmless, because the nested
`rehash` keeps the size of the array part (`sizes_stable`).
-/

namespace Luaxx.Tables

open Luaxx.Links Luaxx.Result Value

variable {hashes : Nat → UInt32} {t t' : Table} {key : Value}

/-! ## Any array part -/

theorem setWith_counted (h : Inv hashes t) (hkey : key.IsKey) (hsize : t.sizearray ≤ MAXASIZE)
    (fuel : Nat) :
    Yields (· = tableOverflow)
      (fun r => SetTo hashes t r.2 key r.1 ∧ r.2.sizearray ≤ MAXASIZE)
      (setWith hashes (newkey hashes (fuel + 2)) t key) := by
  cases hget : luaH_get hashes t key with
  | some p => exact yields_of_eq (setWith_found hget) ⟨SetTo.of_found h hget 0, hsize⟩
  | none =>
    have ha := absent_of_luaH_get h hkey hget
    rw [setWith_new hkey hget]
    refine (newkey_counted (h.flags 0) ⟨ha.isKey, ha.out, ha.node⟩ hsize fuel).imp fun r hr => ?_
    exact ⟨⟨hr.1.inv, hr.1.slot, hr.1.value⟩, hr.2.1⟩

/-- What the re-insertion of a slice of an array part that was not counted relies on. -/
structure Filling (hashes : Nat → UInt32) (t t2 : Table) (n : Nat) (rest : List Entry)
    (t1 : Table) : Prop where
  subset : rest ⊆ slice t n
  array : SameArray t2 t1
  held : ∀ k, value hashes t1 k ≠ .nil → value hashes t k ≠ .nil
  kept : ∀ k, 0 < arrayindex k → arrayindex k ≤ n → value hashes t1 k = value hashes t2 k

section Large

variable {ek : Value} {t1 t2 : Table} {e : Entry} {rest : List Entry} {nhsize : Nat}

theorem ne_nil_of_mem_slice {n : Nat} (he : e ∈ slice t n) : e.2 ≠ .nil := by
  obtain ⟨i, -, hv, rfl⟩ := mem_slice.mp he
  exact hv

theorem Filling.stored {n : Nat} {r : Table} {p : Slot} (h : Inv hashes t)
    (hf : Filling hashes t t2 n (e :: rest) t1) (hto : SetTo hashes t1 r e.1 p)
    (harray : SameArray t1 r) (hs : Stored hashes r t' e.1 e.2) :
    Filling hashes t t2 n rest t' := by
  have he := hf.subset (List.mem_cons_self ..)
  refine ⟨fun _ he' => hf.subset (List.mem_cons_of_mem _ he'), ⟨?_, ?_⟩, fun k hk => ?_,
    fun k h1 h2 => ?_⟩
  · rw [hs.keys.shape.sizearray, harray.sizearray, hf.array.sizearray]
  · rw [hs.keys.shape.block, harray.block, hf.array.block]
  · rw [hs.value, hto.value] at hk
    split_ifs at hk with heq
    · rw [value_rawequal h heq, value_of_mem_slice h he]
      exact hk
    · exact hf.held k hk
  · rw [hs.value, hto.value, if_neg, hf.kept k h1 h2]
    intro heq
    have := (arrayindex_slice h.array he).2.1
    rw [arrayindex_eq heq] at h2
    omega

/-- The nested `rehash` would choose the size that the array part has. -/
theorem Filling.stable (h : Inv hashes t) (ha : Absent t ek) (hbig : MAXASIZE < t.sizearray)
    (hb : Begun hashes t t2 (sizes t ek).1 nhsize)
    (hf : Filling hashes t t2 (sizes t ek).1 (e :: rest) t1) (h1 : Inv hashes t1)
    (ha1 : Absent t1 e.1) : (sizes t1 e.1).1 = t1.sizearray := by
  have hn := sizes_le t ek
  have hmax : MAXASIZE = 2 ^ 26 := rfl
  have he := hf.subset (List.mem_cons_self ..)
  rw [hf.array.sizearray, hb.sizearray]
  refine sizes_stable h ha h1 ha1 (fun k hpos hk hu => ?_) (fun k hpos hk hu => ?_)
  · rw [inUse, decide_eq_true_eq] at hu ⊢
    rcases hu with hu | hu
    · exact .inl (hf.held _ hu)
    · have heq := rawequal_cast (show arrayindex e.1 ≠ -1 by omega)
      rw [hu] at heq
      rw [value_rawequal h heq, value_of_mem_slice h he]
      exact .inl (ne_nil_of_mem_slice he)
  · have hidx := arrayindex_cast (k := (k : Int)) (by omega)
    rw [inUse, decide_eq_true_eq] at hu ⊢
    rcases hu with hu | hu
    · rw [hf.kept _ (by omega) (by omega), hb.value, if_pos (by omega)]
      rw [value_array h (by rw [InArray, hidx]; omega)] at hu
      exact .inl hu
    · refine absurd ?_ ha.out
      rw [InArray, hu]
      omega

/-- `rehash` of an array part that is larger than it counts. -/
theorem rehash_large (h : Inv hashes t) (ha : Absent t ek) (hbig : MAXASIZE < t.sizearray)
    (fuel : Nat) :
    Yields (· = tableOverflow)
      (fun t' => Inv hashes t' ∧ t'.sizearray ≤ MAXASIZE ∧
        ∀ key, value hashes t' key = value hashes t key)
      (rehash hashes (newkey hashes (fuel + 2)) t ek) := by
  have hn := sizes_le t ek
  have hmax : MAXASIZE = 2 ^ 26 := rfl
  have hle := arrayCount_le t MAXASIZE
  have hle' := length_nodes_le h
  rw [rehash_eq, resize_eq _ _ _ _ h.array]
  refine (begun hashes t (by omega) (by rw [totaluse]; omega)).bind fun t2 hb => ?_
  -- the slice, with the array part of its size throughout
  refine (insertAll_spec (P := Filling hashes t t2 (sizes t ek).1)
    (fun e rest t1 hkey h1 hf => ?_) (distinct_slice h.array _) hb.inv
    ⟨List.Subset.refl _, ⟨rfl, rfl⟩, fun k hk => ?_, fun _ _ _ => rfl⟩).bind
    fun t3 ht3 => ?_
  · have hidx := (arrayindex_slice h.array (hf.subset (List.mem_cons_self ..))).1
    have hguard : ∀ r : Table, SameArray t1 r → (r.block == t2.block) = true := fun r hr => by
      rw [hr.block, hf.array.block, beq_self_eq_true]
    rw [setIndex, setnumWith_eq hashes (arrayindex_range e.1), ← hidx]
    cases hget : luaH_get hashes t1 e.1 with
    | some p =>
      have hto := SetTo.of_found h1 hget t1.flags
      exact ⟨hguard t1 ⟨rfl, rfl⟩, hto, fun t' hs => hf.stored h hto ⟨rfl, rfl⟩ hs⟩
    | none =>
      have ha1 := absent_of_luaH_get h1 hkey hget
      have hsize1 : t1.sizearray ≤ MAXASIZE := by
        rw [hf.array.sizearray, hb.sizearray]
        exact hn
      refine (newkey_counted h1 ha1 hsize1 fuel).imp fun r hr => ?_
      obtain ⟨hto, -, hstable⟩ := hr
      have harray := hstable (hf.stable h ha hbig hb h1 ha1)
      exact ⟨hguard r.2 harray, hto, fun t' hs => hf.stored h hto harray hs⟩
  · rw [hb.value] at hk
    split_ifs at hk with hin
    · have hin' : InArray t k := ⟨hin.1, by omega⟩
      rw [value_array h hin']
      exact hk
    · exact absurd rfl hk
  -- the nodes
  obtain ⟨h3, hf3, hs⟩ := ht3
  have hsize3 : (released t (sizes t ek).1 t3).sizearray ≤ MAXASIZE := by
    have heq : (released t (sizes t ek).1 t3).sizearray = t3.sizearray := by
      unfold released
      split_ifs <;> rfl
    rw [heq, hf3.array.sizearray, hb.sizearray]
    exact hn
  refine (insertAll_spec (P := fun _ t1 => t1.sizearray ≤ MAXASIZE)
    (fun e rest t1 hkey h1 hsize1 => ?_) (distinct_nodes h) (h3.released ..) hsize3).imp
    fun t4 ht4 => ⟨ht4.1, ht4.2.1, resized_value h hb h3 ht4.1 hs ht4.2.2⟩
  refine (setWith_counted h1 hkey hsize1 fuel).imp fun r hr => ⟨rfl, hr.1, fun t' hs => ?_⟩
  rw [hs.keys.shape.sizearray]
  exact hr.2

end Large

/-- `newkey` inserts the key, or the node part would be too large. An array part of more than
`MAXASIZE` elements does not grow. -/
theorem newkey_sized (h : Inv hashes t) (ha : Absent t key) (fuel : Nat) :
    Yields (· = tableOverflow)
      (fun r => SetTo hashes t r.2 key r.1 ∧ r.2.sizearray ≤ max t.sizearray MAXASIZE)
      (newkey hashes (fuel + 3) t key) := by
  rcases Nat.lt_or_ge MAXASIZE t.sizearray with hbig | hsize
  · rcases newkey_cases h ha (fuel + 2) with ⟨i, t', hnew, hg⟩ | ⟨l, hl, hfull, hnew⟩
    · refine yields_of_eq hnew ⟨hg.setTo ha, ?_⟩
      rw [(hg.setHere ha).shape.sizearray]
      exact Nat.le_max_left ..
    · rw [hnew]
      refine (rehash_large (h.full hl hfull) ⟨ha.isKey, ha.out, ha.node⟩ hbig fuel).bind
        fun t1 ⟨h1, hsize1, hval⟩ => ?_
      refine (setWith_counted h1 ha.isKey hsize1 fuel).imp fun r ⟨hto, hr⟩ => ?_
      refine ⟨⟨hto.inv, hto.slot, fun k => (hto.value k).trans (hval k)⟩, ?_⟩
      exact hr.trans (Nat.le_max_right ..)
  · refine (newkey_counted h ha hsize (fuel + 1)).imp fun r hr => ⟨hr.1, ?_⟩
    exact hr.2.1.trans (Nat.le_max_right ..)

theorem newkey_spec (h : Inv hashes t) (ha : Absent t key) (fuel : Nat) :
    Yields (· = tableOverflow) (fun r => SetTo hashes t r.2 key r.1)
      (newkey hashes (fuel + 3) t key) :=
  (newkey_sized h ha fuel).imp fun _ hr => hr.1

/-! ## Operations -/

/-- A value that a program can have: no dead key. -/
def Value.isProper : Value → Bool
  | .deadkey _ => false
  | _ => true

/-- An assignment, which is a call followed by a store, or a call of `luaH_resizearray`. -/
inductive Op where
  | set (key : { k : Value // Value.isProper k }) (v : Value)
  | setnum (key : Int) (v : Value)
  | setstr (key : Nat) (v : Value)
  | resizearray (nasize : Nat)

/-- The storing through the pointer that a call returns. -/
def storeAt (v : Value) (r : Slot × Table) : M Table := r.2.store v r.1

def step (hashes : Nat → UInt32) (t : Table) : Op → M Table
  | .set key v => luaH_set hashes t key.1 >>= storeAt v
  | .setnum key v => luaH_setnum hashes t key >>= storeAt v
  | .setstr key v => luaH_setstr hashes t key >>= storeAt v
  | .resizearray nasize => luaH_resizearray hashes t nasize

def run (hashes : Nat → UInt32) (t : Table) : List Op → M Table
  | [] => pure t
  | op :: ops => do
    let t ← step hashes t op
    run hashes t ops

/-- The finite map that a table stands for. -/
abbrev Contents : Type := Value → Value

def Contents.update (c : Contents) (key v : Value) : Contents := fun k =>
  if rawequal k key then v else c k

def Op.apply (c : Contents) : Op → Contents
  | .set key v => c.update key.1 v
  | .setnum key v => c.update (.number (cast_num key)) v
  | .setstr key v => c.update (.string key) v
  | .resizearray _ => c

/-- The arguments are of type `int`, and the array part does not shrink. -/
def Op.Allowed (t : Table) : Op → Prop
  | .set _ _ => True
  | .setnum key _ => -2 ^ 31 ≤ key ∧ key < 2 ^ 31
  | .setstr _ _ => True
  | .resizearray nasize => t.sizearray ≤ nasize ∧ nasize < 2 ^ 31

instance (t : Table) (op : Op) : Decidable (op.Allowed t) := by
  cases op <;> unfold Op.Allowed <;> infer_instance

/-- The table that a call leaves, if it raises no error, satisfies `p`. -/
def leaves (p : Table → Bool) : M Table → Bool
  | .ok t => p t
  | .error _ => true

/-- Every operation of the run is allowed when it is called. -/
def allowed (hashes : Nat → UInt32) : List Op → Table → Bool
  | [], _ => true
  | op :: ops, t => decide (op.Allowed t) && leaves (allowed hashes ops) (step hashes t op)

/-- The errors that an assignment can raise. -/
def SetError (e : Stop) : Prop :=
  e = .error "table index is nil" ∨ e = .error "table index is NaN" ∨ e = tableOverflow

theorem Yields.setError {α : Type} {Q : α → Prop} {x : M α} (h : Yields (· = tableOverflow) Q x) :
    Yields SetError Q x := by
  cases x with
  | ok a => exact h
  | error e => exact .inr (.inr h)

theorem luaH_get_nan (h : Inv hashes t) {n : Number} (hn : luai_numisnan n = true) :
    luaH_get hashes t (.number n) = none := by
  have hself : luai_numeq n n = false := by rwa [luai_numisnan, Bool.not_eq_true'] at hn
  have hnan : ∀ a, luai_numeq a n = false := fun a => Bool.eq_false_iff.mpr fun ha =>
    absurd (luai_numeq_trans (by rw [luai_numeq_comm]; exact ha) ha)
      (by rw [hself]; exact Bool.false_ne_true)
  have hout : ¬ InArray t (.number n) := by
    simp [InArray, arrayindex, hnan]
  obtain ⟨p, hp, hget⟩ := luaH_get_node hashes h.array (by simp) hout
  rw [hget]
  refine findNode_eq_none h (fun _ => hp _) fun i => ?_
  cases t.gkey i <;> simp only [Value.rawequal, hnan]

theorem luaH_set_spec (h : Inv hashes t) (hproper : Value.isProper key) :
    Yields SetError (fun r => key.IsKey ∧ SetTo hashes t r.2 key r.1) (luaH_set hashes t key) := by
  by_cases hkey : key.IsKey
  · rw [luaH_set]
    refine Yields.setError ?_
    cases hget : luaH_get hashes t key with
    | some p => exact yields_of_eq (setWith_found hget) ⟨hkey, SetTo.of_found h hget 0⟩
    | none =>
      have ha := absent_of_luaH_get h hkey hget
      rw [setWith_new hkey hget]
      refine (newkey_spec (h.flags 0) ⟨ha.isKey, ha.out, ha.node⟩ 1).imp fun r hr => ?_
      exact ⟨hkey, hr.inv, hr.slot, hr.value⟩
  · cases key with
    | nil => exact .inl rfl
    | number n =>
      have hn : luai_numisnan n = true := by simpa [IsKey] using hkey
      have herr : luaH_set hashes t (.number n) = .error (.error "table index is NaN") := by
        unfold luaH_set setWith
        rw [luaH_get_nan h hn]
        simp only [hn, if_true]
        rfl
      rw [herr]
      exact .inr (.inl rfl)
    | deadkey p => cases hproper
    | _ => exact absurd trivial hkey

theorem luaH_setnum_spec (h : Inv hashes t) {k : Int} (hk : -2 ^ 31 ≤ k ∧ k < 2 ^ 31) :
    Yields SetError (fun r => SetTo hashes t r.2 (.number (cast_num k)) r.1)
      (luaH_setnum hashes t k) := by
  refine Yields.setError ?_
  rw [luaH_setnum, setnumWith_eq hashes hk]
  cases hget : luaH_get hashes t (.number (cast_num k)) with
  | some p => exact SetTo.of_found h hget t.flags
  | none => exact newkey_spec h (absent_of_luaH_get h (isKey_cast_num hk) hget) 1

theorem luaH_setstr_spec (h : Inv hashes t) (s : Nat) :
    Yields SetError (fun r => SetTo hashes t r.2 (.string s) r.1) (luaH_setstr hashes t s) := by
  refine Yields.setError ?_
  have hkey : (Value.string s).IsKey := trivial
  have hstr : luaH_get hashes t (.string s) = luaH_getstr hashes t s := rfl
  rw [luaH_setstr]
  cases hget : luaH_getstr hashes t s with
  | some p => exact SetTo.of_found h (hstr.trans hget) t.flags
  | none => exact newkey_spec h (absent_of_luaH_get h hkey (hstr.trans hget)) 1

theorem nodes_eq_nil (h : Inv hashes t) (hd : t.isDummy = true) : nodes t = [] := by
  rw [nodes, (h.dummy hd).1]
  rfl

theorem luaH_resizearray_spec (h : Inv hashes t) {nasize : Nat} (hle : t.sizearray ≤ nasize)
    (hn : nasize < 2 ^ 31) :
    Yields SetError (fun t' => Inv hashes t' ∧ ∀ k, value hashes t' k = value hashes t k)
      (luaH_resizearray hashes t nasize) := by
  refine Yields.setError ?_
  have hslice : slice t nasize = [] := by
    rw [slice, List.drop_eq_nil_of_le hle]
    rfl
  have hnodes : (nodes t).length ≤ if t.isDummy then 0 else t.sizenode := by
    split_ifs with hd
    · rw [nodes_eq_nil h hd, List.length_nil]
    · have := length_nodeEntries_le t.node.reverse
      rwa [List.length_reverse, h.length] at this
  have hcosts := costs_add_countP nasize (nodes t)
  have hsmall : t.sizenode ≤ 2 ^ 26 := Nat.pow_le_pow_right (by decide) h.small
  have hfit : costs nasize (slice t nasize) + costs nasize (nodes t) ≤
      if t.isDummy then 0 else t.sizenode := by
    rw [hslice, costs, List.map_nil, List.sum_nil]
    omega
  have hsize : (if t.isDummy then 0 else t.sizenode) ≤ 2 ^ 32 := by split_ifs <;> omega
  rw [luaH_resizearray, maxRehash, newkey_eq hashes 3]
  refine (resize_here h hn hsize (hfit.trans (le_nodePart hsize)) _).imp fun t' ht' => ?_
  exact ⟨ht'.1, ht'.2.2.2.2.1⟩

theorem SetTo.storeAt {r : Slot × Table} (hto : SetTo hashes t r.2 key r.1) (hkey : key.IsKey)
    (v : Value) {E : Stop → Prop} :
    Yields E (fun t' => Inv hashes t' ∧
      ∀ k, Tables.value hashes t' k = Contents.update (Tables.value hashes t) key v k)
      (Tables.storeAt v r) := by
  obtain ⟨t', heq, hs⟩ := store_spec hto.inv hkey hto.slot v
  refine yields_of_eq heq ⟨hs.inv, fun k => ?_⟩
  rw [hs.value, hto.value, Contents.update]

/-- One operation on the table is one on the map. -/
theorem step_refines (h : Inv hashes t) {op : Op} (hop : op.Allowed t) :
    Yields SetError
      (fun t' => Inv hashes t' ∧ ∀ k, value hashes t' k = op.apply (value hashes t) k)
      (step hashes t op) := by
  cases op with
  | set key v =>
    exact (luaH_set_spec h key.2).bind fun r ⟨hkey, hto⟩ => hto.storeAt hkey v
  | setnum key v =>
    exact (luaH_setnum_spec h hop).bind fun r hto => hto.storeAt (isKey_cast_num hop) v
  | setstr key v => exact (luaH_setstr_spec h key).bind fun r hto => hto.storeAt trivial v
  | resizearray nasize => exact luaH_resizearray_spec h hop.1 hop.2

theorem run_refines (h : Inv hashes t) {ops : List Op} (hops : allowed hashes ops t = true) :
    Yields SetError
      (fun t' => Inv hashes t' ∧ ∀ k, value hashes t' k = ops.foldl Op.apply (value hashes t) k)
      (run hashes t ops) := by
  induction ops generalizing t with
  | nil => exact ⟨h, fun _ => rfl⟩
  | cons op ops ih =>
    rw [allowed, Bool.and_eq_true, decide_eq_true_eq] at hops
    obtain ⟨hop, hrest⟩ := hops
    have hfirst := step_refines h hop
    rw [run]
    cases hstep : step hashes t op with
    | error e =>
      rw [hstep] at hfirst
      exact hfirst
    | ok t1 =>
      obtain ⟨h1, hval⟩ := hfirst.ok_of_eq hstep
      rw [hstep] at hrest
      rw [ok_bind]
      refine (ih h1 hrest).imp fun t' ⟨h', hval'⟩ => ⟨h', fun k => ?_⟩
      rw [hval', List.foldl_cons, ← funext hval]

/-! ## The finite map -/

/-- The representation invariant. -/
structure Represented (hashes : Nat → UInt32) (t : Table) : Prop where
  /-- Links stay in the node part. -/
  next_lt : ∀ i j, t.gnext i = some j → j < t.node.length
  /-- A node with a value is in the acyclic chain from the main position of its key. -/
  reach : ∀ i, t.gval i ≠ .nil →
    ∃ l, Chain t.gnext (mainposition hashes t (t.gkey i)) l ∧ i ∈ l
  /-- No key is in two nodes, or in a node and in the array part. -/
  node : ∀ i j, t.gval i ≠ .nil → t.gval j ≠ .nil → rawequal (t.gkey i) (t.gkey j) = true → i = j
  array : ∀ i j, t.gval i ≠ .nil → t.array.getD j .nil ≠ .nil →
    rawequal (t.gkey i) (.number (cast_num (j + 1))) = false
  pred : ∀ i j k, t.gnext i = some k → t.gnext j = some k → i = j
  /-- `dummynode` is as it was. -/
  dummy : t.isDummy = true → t.node = [dummynode_]
  lastfree : t.isDummy = false → ∀ i < t.node.length, t.lastfree ≤ i → t.gkey i ≠ .nil

theorem Inv.represented (h : Inv hashes t) : Represented hashes t where
  next_lt := h.next_lt
  reach := fun i hi => h.reach i (h.live i hi)
  node := fun i j hi _ heq => h.unique i j (h.live i hi) heq
  array := fun i j hi hj => by
    have hsize := h.array
    have hlt := lt_of_array hj
    refine Bool.eq_false_iff.mpr fun heq => h.out_of_live hi ?_
    rw [InArray, arrayindex_eq heq, arrayindex_cast (by omega)]
    omega
  pred := h.pred
  dummy := fun hd => (h.dummy hd).1
  lastfree := h.above

/-- What the search functions read is in the map. -/
structure Reads (hashes : Nat → UInt32) (t : Table) (c : Contents) : Prop where
  get : ∀ key, t.read (luaH_get hashes t key) = c key
  getnum : ∀ k : Int, -2 ^ 31 ≤ k → k < 2 ^ 31 →
    t.read (luaH_getnum t k) = c (.number (cast_num k))
  getstr : ∀ s, t.read (luaH_getstr hashes t s) = c (.string s)

theorem reads_of_value {c : Contents} (h : ∀ key, value hashes t key = c key) :
    Reads hashes t c where
  get := h
  getnum := fun k h1 h2 => by
    rw [luaH_getnum_eq hashes t ⟨h1, h2⟩]
    exact h _
  getstr := fun s => h (.string s)

theorem luaH_new_spec {narray nhash : Nat} (hn : narray < 2 ^ 31) (hh : nhash < 2 ^ 31) :
    Yields SetError (fun t => Inv hashes t ∧ ∀ k, value hashes t k = .nil)
      (luaH_new narray nhash) := by
  rw [luaH_new]
  refine Yields.setError ((setnodevector_spec _ (by omega)).imp fun t ⟨harray, _, hf, _⟩ => ?_)
  have hnil : ∀ i, t.array.getD i .nil = .nil := fun i => by
    rw [harray, setarrayvector]
    simp only [List.take_nil, List.nil_append, List.getD_eq_getElem?_getD, List.getElem?_replicate]
    split_ifs <;> rfl
  have h : Inv hashes t := by
    refine hf.inv ?_
    rw [Table.sizearray, harray, setarrayvector]
    simpa [Table.sizearray] using hn
  refine ⟨h, fun k => ?_⟩
  rw [hf.value h, hnil]
  split_ifs <;> rfl

/-- A table is a finite map: after any run it holds what was last stored under each key. -/
theorem table_refines_map {narray nhash : Nat} (hn : narray < 2 ^ 31) (hh : nhash < 2 ^ 31)
    {ops : List Op} (hops : leaves (allowed hashes ops) (luaH_new narray nhash) = true) :
    Yields SetError
      (fun t => Represented hashes t ∧ Reads hashes t (ops.foldl Op.apply fun _ => .nil))
      (luaH_new narray nhash >>= fun t => run hashes t ops) := by
  cases hnew : luaH_new narray nhash with
  | error e =>
    have := @luaH_new_spec hashes _ _ hn hh
    rw [hnew] at this
    exact this
  | ok t =>
    obtain ⟨h, hval⟩ := (luaH_new_spec hn hh).ok_of_eq hnew
    rw [hnew] at hops
    refine (run_refines h hops).imp fun t' ⟨h', hval'⟩ => ?_
    refine ⟨h'.represented, reads_of_value fun key => ?_⟩
    rw [hval', funext hval]

/-- A run in which elements move from the node part to the array part. -/
def growing : List Op :=
  [.setnum 2 (.boolean true), .setstr 7 (.boolean false), .setnum 1 (.boolean true),
    .set ⟨.boolean true, rfl⟩ (.boolean true), .resizearray 4, .setstr 7 .nil]

theorem table_refines_map_growing :
    Yields SetError
      (fun t => Represented (fun _ => 5) t ∧
        Reads (fun _ => 5) t (growing.foldl Op.apply fun _ => .nil))
      (luaH_new 0 0 >>= fun t => run (fun _ => 5) t growing) :=
  @table_refines_map (fun _ => 5) 0 0 (by decide) (by decide) growing (by decide +kernel)

/-- `luaH_resizearray` must not shrink the array part. The node part keeps its size, so that there
is no room for the elements that vanish: the nested `rehash` reallocates the array while a pointer
into it is in use. -/
theorem resizearray_shrinking :
    (luaH_new 4 0 >>= fun t =>
      run (fun _ => 0) t [.setnum 1 (.boolean true), .resizearray 0]) = .error .undefined := by
  decide +kernel

end Luaxx.Tables
