import Luaxx.Table.Store

/-!
# `resize`

Both loops of `resize` insert a list of entries, so that they share one run lemma
(`insertAll_spec`): the entries are in the table afterwards, and what is under other keys is
unchanged. What is needed for the insertions to succeed is a parameter, since `resize` is called
with exactly the room for them but once: after the array part has lost elements that `rehash` did
not count.
-/

namespace Luaxx.Tables

open Luaxx.Links Luaxx.Result Value

abbrev Entry : Type := Value × Value

variable {hashes : Nat → UInt32} {t t' : Table} {key : Value} {E : Stop → Prop}

/-! ## Insertion of entries -/

section Insert

variable (set : Table → Value → M (Slot × Table)) (guard : Table → Bool)

/-- Both loops of `resize`, on the entries that they come to. -/
def insertAll : Table → List Entry → M Table
  | t, [] => pure t
  | t, e :: rest => do
    let (p, t) ← set t e.1
    if guard t then do
      let t ← t.store e.2 p
      insertAll t rest
    else .error .undefined

end Insert

/-- The table `t'` holds the entries, and what `t` holds under other keys. -/
structure Holds (hashes : Nat → UInt32) (t t' : Table) (es : List Entry) : Prop where
  entry : ∀ e ∈ es, value hashes t' e.1 = e.2
  other : ∀ k, (∀ e ∈ es, rawequal e.1 k = false) → value hashes t' k = value hashes t k

/-- The entries can be inserted one after the other. -/
structure Distinct (es : List Entry) : Prop where
  isKey : ∀ e ∈ es, e.1.IsKey
  pairwise : es.Pairwise fun a b => rawequal a.1 b.1 = false

theorem Distinct.tail {e : Entry} {es : List Entry} (h : Distinct (e :: es)) : Distinct es :=
  ⟨fun e' he' => h.isKey e' (List.mem_cons_of_mem _ he'), (List.pairwise_cons.mp h.pairwise).2⟩

theorem Holds.cons {t1 : Table} {e : Entry} {es : List Entry} (hd : Distinct (e :: es))
    (hfirst : ∀ k, value hashes t1 k = if rawequal k e.1 then e.2 else value hashes t k)
    (hrest : Holds hashes t1 t' es) : Holds hashes t t' (e :: es) := by
  obtain ⟨hnew, -⟩ := List.pairwise_cons.mp hd.pairwise
  constructor
  · intro e' he'
    rcases List.mem_cons.mp he' with rfl | he'
    · rw [hrest.other _ fun e'' he'' => by rw [rawequal_comm]; exact hnew e'' he'', hfirst,
        if_pos (rawequal_self (hd.isKey _ (List.mem_cons_self ..)))]
    · exact hrest.entry e' he'
  · intro k hk
    rw [hrest.other k fun e' he' => hk e' (List.mem_cons_of_mem _ he'), hfirst, if_neg]
    rw [rawequal_comm, hk e (List.mem_cons_self ..)]
    exact Bool.false_ne_true

section Run

variable {set : Table → Value → M (Slot × Table)} {guard : Table → Bool}
  {P : List Entry → Table → Prop}

/-- The run lemma of the loops, with `P` for what the insertions rely on. -/
theorem insertAll_spec
    (hset : ∀ e rest t, e.1.IsKey → Inv hashes t → P (e :: rest) t →
      Yields E (fun r => guard r.2 = true ∧ SetTo hashes t r.2 e.1 r.1 ∧
        ∀ t', Stored hashes r.2 t' e.1 e.2 → P rest t') (set t e.1))
    {es : List Entry} (hd : Distinct es) (h : Inv hashes t) (hP : P es t) :
    Yields E (fun t' => Inv hashes t' ∧ P [] t' ∧ Holds hashes t t' es)
      (insertAll set guard t es) := by
  induction es generalizing t with
  | nil => exact ⟨h, hP, fun e he => absurd he List.not_mem_nil, fun k _ => rfl⟩
  | cons e es ih =>
    have hkey := hd.isKey e (List.mem_cons_self ..)
    refine (hset e es t hkey h hP).bind fun r ⟨hguard, hto, hnext⟩ => ?_
    obtain ⟨t1, hstore, hstored⟩ := store_spec hto.inv hkey hto.slot e.2
    show Yields E _ (if guard r.2 then _ else _)
    rw [if_pos hguard, hstore, ok_bind]
    refine (ih hd.tail hstored.inv (hnext t1 hstored)).imp fun t2 ⟨h2, hP2, hh⟩ => ?_
    refine ⟨h2, hP2, .cons hd (fun k => ?_) hh⟩
    rw [hstored.value, hto.value]

/-- How many nodes the keys of the entries take. -/
def costs (n : Nat) (es : List Entry) : Nat := (es.map fun e => cost n e.1).sum

variable (set guard) in
/-- With room for all entries there is no rehash. -/
theorem insertAll_here
    {es : List Entry}
    (hset : ∀ e ∈ es, ∀ t, Inv hashes t → e.1.IsKey → cost t.sizearray e.1 ≤ room t →
      ∃ p t', set t e.1 = .ok (p, t') ∧ SetHere hashes t t' e.1 p)
    (hguard : ∀ t1, SameShape t t1 → guard t1 = true) (hd : Distinct es) (h : Inv hashes t) (hroom : costs t.sizearray es ≤ room t) :
    ∃ t', insertAll set guard t es = .ok t' ∧ Inv hashes t' ∧ SameShape t t' ∧
      room t ≤ room t' + costs t.sizearray es ∧ Holds hashes t t' es := by
  let P : List Entry → Table → Prop := fun rest t1 =>
    rest ⊆ es ∧ SameShape t t1 ∧ costs t.sizearray rest ≤ room t1 ∧ room t + costs t.sizearray rest ≤ room t1 + costs t.sizearray es
  have hstep : ∀ e rest t1, e.1.IsKey → Inv hashes t1 → P (e :: rest) t1 →
      Yields (fun _ => False) (fun r => guard r.2 = true ∧ SetTo hashes t1 r.2 e.1 r.1 ∧
        ∀ t', Stored hashes r.2 t' e.1 e.2 → P rest t') (set t1 e.1) := by
    intro e rest t1 hkey h1 ⟨hsub, hshape, hfit, hleft⟩
    have hsize := hshape.sizearray
    rw [costs, List.map_cons, List.sum_cons] at hfit hleft
    obtain ⟨p, t2, heq, hto⟩ := hset e (hsub (List.mem_cons_self ..)) t1 h1 hkey (by rw [hsize]; omega)
    have hroom2 := hto.room
    rw [hsize] at hroom2
    refine yields_of_eq heq ⟨hguard _ (hshape.trans hto.shape), hto.toSetTo, fun t3 hs => ?_⟩
    have hroom3 : room t3 = room t2 := hs.keys.room
    exact ⟨fun _ he => hsub (List.mem_cons_of_mem _ he), (hshape.trans hto.shape).trans hs.keys.shape, by rw [costs]; omega, by rw [costs]; omega⟩
  obtain ⟨t', heq, h', ⟨-, hshape, -, hleft⟩, hh⟩ :=
    (insertAll_spec hstep hd h ⟨List.Subset.refl _, .refl t, hroom, Nat.le_refl _⟩).exists_ok
  refine ⟨t', heq, h', hshape, ?_, hh⟩
  rw [costs, List.map_nil, List.sum_nil] at hleft
  omega

end Run

/-! ## The entries of a table -/

def nodeEntries : List Node → List Entry
  | [] => []
  | n :: rest => if n.val.ttisnil then nodeEntries rest else (n.key, n.val) :: nodeEntries rest

/-- The elements of an array part from index `i` on, counted from 0. -/
def sliceEntries : Nat → List Value → List Entry
  | _, [] => []
  | i, v :: rest =>
    if v.ttisnil then sliceEntries (i + 1) rest
    else (.number (cast_num (i + 1)), v) :: sliceEntries (i + 1) rest

theorem mem_nodeEntries {ns : List Node} {e : Entry} :
    e ∈ nodeEntries ns ↔ ∃ n ∈ ns, n.val ≠ .nil ∧ e = (n.key, n.val) := by
  induction ns with
  | nil => simp [nodeEntries]
  | cons n ns ih =>
    rw [nodeEntries]
    by_cases hn : n.val = .nil
    · rw [if_pos (ttisnil_iff.mpr hn), ih]
      simp [hn]
    · rw [if_neg (mt ttisnil_iff.mp hn), List.mem_cons, ih]
      simp [hn]

theorem mem_sliceEntries {i : Nat} {vs : List Value} {e : Entry} :
    e ∈ sliceEntries i vs ↔
      ∃ j, vs.getD j .nil ≠ .nil ∧ e = (.number (cast_num ((i + j : Nat) + 1)), vs.getD j .nil) := by
  induction vs generalizing i with
  | nil => simp [sliceEntries]
  | cons v vs ih =>
    have hsplit : (∃ j, (v :: vs).getD j .nil ≠ .nil ∧
        e = (.number (cast_num ((i + j : Nat) + 1)), (v :: vs).getD j .nil)) ↔
        (v ≠ .nil ∧ e = (.number (cast_num (i + 1)), v)) ∨
        ∃ j, vs.getD j .nil ≠ .nil ∧
          e = (.number (cast_num ((i + 1 + j : Nat) + 1)), vs.getD j .nil) := by
      constructor
      · rintro ⟨j, hj⟩
        cases j with
        | zero => exact .inl hj
        | succ j =>
          rw [List.getD_cons_succ, Nat.add_comm j 1, ← Nat.add_assoc] at hj
          exact .inr ⟨j, hj⟩
      · rintro (hj | ⟨j, hj⟩)
        · exact ⟨0, hj⟩
        · refine ⟨j + 1, ?_⟩
          rw [List.getD_cons_succ, Nat.add_comm j 1, ← Nat.add_assoc]
          exact hj
    rw [hsplit, sliceEntries]
    by_cases hv : v = .nil
    · rw [if_pos (ttisnil_iff.mpr hv), ih]
      simp [hv]
    · rw [if_neg (mt ttisnil_iff.mp hv), List.mem_cons, ih]
      simp [hv]

section Loops

variable {nk : Table → Value → M (Slot × Table)}

theorem reinsertNodes_eq (t : Table) (ns : List Node) :
    reinsertNodes hashes nk t ns =
      insertAll (setWith hashes nk) (fun _ => true) t (nodeEntries ns) := by
  induction ns generalizing t with
  | nil => rfl
  | cons n ns ih =>
    rw [reinsertNodes, nodeEntries]
    split_ifs
    · exact ih t
    · simp only [insertAll, if_true, ih]

/-- `luaH_setnum` of a key that is a number of the array. -/
def setIndex (nk : Table → Value → M (Slot × Table)) (t : Table) (key : Value) : M (Slot × Table) :=
  setnumWith nk t (arrayindex key)

theorem reinsertSlice_eq (block : Nat) (t : Table) (i : Nat) (vs : List Value)
    (hi : i + vs.length < 2 ^ 31) :
    reinsertSlice nk block t i vs =
      insertAll (setIndex nk) (fun t => t.block == block) t (sliceEntries i vs) := by
  induction vs generalizing t i with
  | nil => rfl
  | cons v vs ih =>
    rw [List.length_cons] at hi
    have ih' := fun t => ih t (i + 1) (by omega)
    rw [reinsertSlice, sliceEntries]
    split_ifs
    · exact ih' t
    · simp only [insertAll, setIndex, arrayindex_cast (k := (i : Int) + 1) (by omega), beq_iff_eq,
        ite_not, ih']

end Loops

/-! ## The new node part -/

def tableOverflow : Stop := .error "table overflow"

/-- A table with no key in its node part. -/
structure Fresh (t : Table) : Prop where
  length : t.node.length = t.sizenode
  small : t.lsizenode ≤ MAXBITS
  dummy : t.isDummy = true → t.node = [dummynode_] ∧ t.lastfree ≤ 0
  lastfree : t.isDummy = false → t.lastfree = t.node.length
  blank : ∀ n ∈ t.node, n = dummynode_

theorem Fresh.gnode (hf : Fresh t) (i : Nat) : t.gnode i = dummynode_ := by
  by_cases hi : i < t.node.length
  · rw [gnode_eq_getElem hi]
    exact hf.blank _ (List.getElem_mem hi)
  · exact gnode_eq_default (Nat.not_lt.mp hi)

theorem Fresh.inv (hf : Fresh t) (harray : t.sizearray < 2 ^ 31) : Inv hashes t := by
  have hkey : ∀ i, t.gkey i = .nil := fun i => by rw [Table.gkey, hf.gnode]; rfl
  have hval : ∀ i, t.gval i = .nil := fun i => by rw [Table.gval, hf.gnode]; rfl
  have hnext : ∀ i, t.gnext i = none := fun i => by rw [Table.gnext, hf.gnode]; rfl
  have hno : ∀ i, ¬ (t.gkey i).IsKey := fun i => by rw [hkey]; exact id
  constructor
  case length => exact hf.length
  case small => exact hf.small
  case dummy => exact hf.dummy
  case lastfree =>
    cases hd : t.isDummy with
    | true =>
      have := (hf.dummy hd).2
      omega
    | false => rw [hf.lastfree hd]
  case above =>
    intro hd i hi hle
    rw [hf.lastfree hd] at hle
    omega
  case array => exact harray
  case next_lt => intro i j hij; rw [hnext] at hij; cases hij
  case pred => intro i j k hik; rw [hnext] at hik; cases hik
  case unused => exact fun i _ => ⟨hval i, hnext i, fun j => by rw [hnext]; simp⟩
  case key => exact fun i => .inl (hkey i)
  case live => exact fun i hi => absurd (hval i) hi
  case acyclic => exact fun i => ⟨[i], .last (hnext i)⟩
  case reach => exact fun i hi => absurd hi (hno i)
  case occupied => exact fun i hi => absurd hi (hno i)
  case home => exact fun i _ hi => absurd hi (hno i)
  case unique => exact fun i _ hi => absurd hi (hno i)
  case outside => exact fun i hi => absurd hi (hno i)

theorem Fresh.value (hf : Fresh t) (h : Inv hashes t) (key : Value) :
    value hashes t key =
      if InArray t key then t.array.getD (arrayindex key - 1).toNat .nil else .nil := by
  split_ifs with hin
  · exact value_array h hin
  · by_contra hv
    rcases (value_eq_iff h hv).mp rfl with ⟨hin', -⟩ | ⟨i, hi, -⟩
    · exact hin hin'
    · rw [Table.gkey, hf.gnode] at hi
      exact hi

theorem setnodevector_spec (t : Table) {size : Nat} (hsize : size ≤ 2 ^ 32) :
    Yields (· = tableOverflow)
      (fun t' => t'.array = t.array ∧ t'.block = t.block ∧ Fresh t' ∧ size ≤ room t')
      (setnodevector t size) := by
  rw [setnodevector]
  split_ifs with h0 hbig
  · refine ⟨rfl, rfl, ⟨rfl, Nat.zero_le _, fun _ => ⟨rfl, Int.le_refl 0⟩, ?_, ?_⟩, ?_⟩
    · intro hd
      cases hd
    · intro n hn
      exact List.mem_singleton.mp hn
    · rw [h0]
      exact Nat.zero_le _
  · rfl
  · have hle := (ceillog2_spec (Nat.pos_of_ne_zero h0) hsize).1
    refine ⟨rfl, rfl, ⟨List.length_replicate, Nat.not_lt.mp hbig, ?_, ?_, ?_⟩, ?_⟩
    · intro hd
      cases hd
    · intro _
      exact congrArg Nat.cast List.length_replicate.symm
    · intro n hn
      exact List.eq_of_mem_replicate hn
    · have hfree : room { t with
          node := List.replicate (2 ^ ceillog2 size) ⟨.nil, .nil, none⟩, isDummy := false,
          lsizenode := ceillog2 size, lastfree := (2 ^ ceillog2 size : Nat) } =
          2 ^ ceillog2 size := by
        rw [room, if_neg Bool.false_ne_true, freeNodes, List.countP_eq_length.mpr,
          List.length_range, List.length_replicate]
        intro i _
        rw [ttisnil_iff, Table.gkey, Table.gnode, List.getD_eq_getElem?_getD,
          List.getElem?_replicate]
        split_ifs <;> rfl
      exact hle.trans (Nat.le_of_eq hfree.symm)

/-- The number of nodes that `setnodevector` makes room for. -/
def nodePart (size : Nat) : Nat := if size = 0 then 0 else 2 ^ ceillog2 size

theorem le_nodePart {size : Nat} (hsize : size ≤ 2 ^ 32) : size ≤ nodePart size := by
  rw [nodePart]
  split_ifs with h0
  · exact Nat.le_of_eq h0
  · exact (ceillog2_spec (Nat.pos_of_ne_zero h0) hsize).1

/-- The node part has the size that `setnodevector` gives it. -/
structure NewNodes (t : Table) (size : Nat) : Prop where
  isDummy : t.isDummy = decide (size = 0)
  lsizenode : size ≠ 0 → t.lsizenode = ceillog2 size

structure SameNodes (t t' : Table) : Prop where
  isDummy : t'.isDummy = t.isDummy
  lsizenode : t'.lsizenode = t.lsizenode

theorem SameNodes.trans {t'' : Table} (h : SameNodes t t') (h' : SameNodes t' t'') :
    SameNodes t t'' :=
  ⟨h'.isDummy.trans h.isDummy, h'.lsizenode.trans h.lsizenode⟩

theorem SameShape.sameNodes (h : SameShape t t') : SameNodes t t' := ⟨h.isDummy, h.lsizenode⟩

theorem NewNodes.congr {size : Nat} (h : NewNodes t size) (hs : SameNodes t t') : NewNodes t' size :=
  ⟨hs.isDummy.trans h.isDummy, fun h0 => hs.lsizenode.trans (h.lsizenode h0)⟩

theorem setnodevector_room {size : Nat} (h : setnodevector t size = .ok t') :
    room t' = nodePart size ∧ NewNodes t' size := by
  rw [setnodevector] at h
  rw [nodePart]
  split_ifs at h ⊢ with h0 hbig
  · cases h
    exact ⟨rfl, by simp [h0], fun hne => absurd h0 hne⟩
  · cases h
  · cases h
    refine ⟨?_, by simp [h0], fun _ => rfl⟩
    rw [room, if_neg Bool.false_ne_true, freeNodes, List.countP_eq_length.mpr, List.length_range,
      List.length_replicate]
    intro i _
    rw [ttisnil_iff, Table.gkey, Table.gnode, List.getD_eq_getElem?_getD, List.getElem?_replicate]
    split_ifs <;> rfl

/-! ## The whole of `resize` -/

/-- The array part brought to its new size. -/
def reshaped (t : Table) (nasize : Nat) : Table :=
  if nasize > t.sizearray then setarrayvector t nasize
  else { t with array := t.array.take nasize }

theorem reshaped_sizearray (t : Table) (nasize : Nat) : (reshaped t nasize).sizearray = nasize := by
  rw [reshaped]
  split_ifs with h
  · rw [setarrayvector, Table.sizearray, List.length_append, List.length_take,
      List.length_replicate]
    rw [Table.sizearray] at h ⊢
    omega
  · rw [Table.sizearray, List.length_take]
    rw [Table.sizearray] at h
    omega

theorem reshaped_getD (t : Table) {nasize i : Nat} (hi : i < nasize) :
    (reshaped t nasize).array.getD i .nil = t.array.getD i .nil := by
  rw [reshaped]
  split_ifs with h
  · rw [setarrayvector]
    simp only [List.getD_eq_getElem?_getD, List.getElem?_append, List.length_take,
      List.getElem?_take, List.getElem?_replicate]
    split_ifs with h1 h2
    · rfl
    · rw [List.getElem?_eq_none (by omega)]
      rfl
    · rw [List.getElem?_eq_none (by omega)]
  · simp only [List.getD_eq_getElem?_getD, List.getElem?_take, if_pos hi]

theorem setnodevector_array (t : Table) (array : List Value) (size : Nat) :
    setnodevector { t with array } size =
      (setnodevector t size >>= fun t' => .ok { t' with array }) := by
  rw [setnodevector, setnodevector]
  split_ifs <;> rfl

theorem setnodevector_ok {size : Nat} (h : setnodevector t size = .ok t') : t'.array = t.array := by
  rw [setnodevector] at h
  split_ifs at h
  · cases h
    rfl
  · cases h
  · cases h
    rfl

/-- The elements of the array part that vanish. -/
def slice (t : Table) (nasize : Nat) : List Entry := sliceEntries nasize (t.array.drop nasize)

/-- The entries of the old node part, in the order in which they are inserted. -/
def nodes (t : Table) : List Entry := nodeEntries t.node.reverse

theorem resize_eq (nk : Table → Value → M (Slot × Table)) (t : Table) (nasize nhsize : Nat)
    (h : t.sizearray < 2 ^ 31) :
    resize hashes nk t nasize nhsize = (do
      let t2 ← setnodevector (reshaped t nasize) nhsize
      let t3 ← insertAll (setIndex nk) (fun t => t.block == t2.block) t2 (slice t nasize)
      insertAll (setWith hashes nk) (fun _ => true)
        (if nasize < t.sizearray then { t3 with block := t3.block + 1 } else t3) (nodes t)) := by
  have hlen : t.array.length = t.sizearray := rfl
  unfold resize reshaped
  simp only [reinsertNodes_eq]
  by_cases hlt : nasize < t.sizearray
  · have hge : ¬ nasize > t.sizearray := by omega
    simp only [hlt, hge, if_true, if_false, setnodevector_array]
    cases hs : setnodevector t nhsize with
    | error e => rfl
    | ok t2 =>
      have hslice : nasize + (t2.array.drop nasize).length < 2 ^ 31 := by
        rw [setnodevector_ok hs, List.length_drop]
        omega
      simp only [ok_bind, reinsertSlice_eq _ _ _ _ hslice]
      rw [setnodevector_ok hs]
      rfl
  · have hslice : slice t nasize = [] := by
      rw [slice, List.drop_eq_nil_of_le (by omega)]
      rfl
    simp only [hlt, if_false, hslice]
    split_ifs with hgt
    · rfl
    · have heq : nasize = t.array.length := by omega
      rw [heq, List.take_length]
      rfl

/-! ## What `resize` inserts -/

section Entries

variable {nasize : Nat} {e : Entry}

theorem mem_slice :
    e ∈ slice t nasize ↔ ∃ i, nasize ≤ i ∧ t.array.getD i .nil ≠ .nil ∧
      e = (.number (cast_num (i + 1)), t.array.getD i .nil) := by
  have hdrop : ∀ j, (t.array.drop nasize).getD j .nil = t.array.getD (nasize + j) .nil := fun j => by
    rw [List.getD_eq_getElem?_getD, List.getElem?_drop, ← List.getD_eq_getElem?_getD]
  rw [slice, mem_sliceEntries]
  constructor
  · rintro ⟨j, hj, he⟩
    rw [hdrop] at hj he
    exact ⟨nasize + j, Nat.le_add_right .., hj, he⟩
  · rintro ⟨i, hi, hv, he⟩
    refine ⟨i - nasize, ?_⟩
    rw [hdrop, Nat.add_sub_cancel' hi]
    exact ⟨hv, he⟩

theorem lt_of_array {i : Nat} (hi : t.array.getD i .nil ≠ .nil) : i < t.sizearray := by
  by_contra hge
  rw [List.getD_eq_getElem?_getD, List.getElem?_eq_none (Nat.not_lt.mp hge)] at hi
  exact hi rfl

/-- The element of the array part is under its index. -/
theorem value_index (h : Inv hashes t) {i : Nat} (hi : i < t.sizearray) :
    value hashes t (.number (cast_num (i + 1))) = t.array.getD i .nil := by
  have hsize := h.array
  have hidx := arrayindex_cast (k := (i : Int) + 1) (by omega)
  rw [value_array h (by rw [InArray, hidx]; omega), hidx]
  congr 1
  omega

theorem mem_nodes : e ∈ nodes t ↔ ∃ i, t.gval i ≠ .nil ∧ e = (t.gkey i, t.gval i) := by
  rw [nodes, mem_nodeEntries]
  constructor
  · rintro ⟨n, hn, hv, rfl⟩
    obtain ⟨i, hi, rfl⟩ := List.getElem_of_mem (List.mem_reverse.mp hn)
    exact ⟨i, by rwa [Table.gval, gnode_eq_getElem hi],
      by rw [Table.gkey, Table.gval, gnode_eq_getElem hi]⟩
  · rintro ⟨i, hv, rfl⟩
    have hi : i < t.node.length := by
      by_contra hge
      rw [Table.gval, gnode_eq_default (Nat.not_lt.mp hge)] at hv
      exact hv rfl
    rw [Table.gval, gnode_eq_getElem hi] at hv
    rw [Table.gval, Table.gkey, gnode_eq_getElem hi]
    exact ⟨t.node[i], List.mem_reverse.mpr (List.getElem_mem hi), hv, rfl⟩

theorem distinct_nodes (h : Inv hashes t) : Distinct (nodes t) := by
  have hpair : t.node.Pairwise fun a b =>
      a.val ≠ .nil → b.val ≠ .nil → rawequal b.key a.key = false := by
    rw [List.pairwise_iff_getElem]
    intro i j hi hj hlt ha hb
    rw [← gnode_eq_getElem hi] at ha ⊢
    rw [← gnode_eq_getElem hj] at hb ⊢
    refine Bool.eq_false_iff.mpr fun heq => ?_
    have := h.unique j i (h.live j hb) heq
    omega
  refine ⟨fun e he => ?_, ?_⟩
  · obtain ⟨i, hv, rfl⟩ := mem_nodes.mp he
    exact h.live i hv
  · rw [nodes]
    rw [← List.pairwise_reverse] at hpair
    generalize t.node.reverse = ns at hpair
    induction ns with
    | nil => exact List.Pairwise.nil
    | cons n ns ih =>
      obtain ⟨hfirst, hrest⟩ := List.pairwise_cons.mp hpair
      rw [nodeEntries]
      by_cases hn : n.val = .nil
      · rw [if_pos (ttisnil_iff.mpr hn)]
        exact ih hrest
      · rw [if_neg (mt ttisnil_iff.mp hn)]
        refine List.pairwise_cons.mpr ⟨fun e he => ?_, ih hrest⟩
        obtain ⟨m, hm, hv, rfl⟩ := mem_nodeEntries.mp he
        exact hfirst m hm hv hn

theorem pairwise_sliceEntries {i : Nat} {vs : List Value} (h : i + vs.length < 2 ^ 31) :
    (sliceEntries i vs).Pairwise fun a b => rawequal a.1 b.1 = false := by
  induction vs generalizing i with
  | nil => exact List.Pairwise.nil
  | cons v vs ih =>
    rw [List.length_cons] at h
    rw [sliceEntries]
    split_ifs
    · exact ih (by omega)
    · refine List.pairwise_cons.mpr ⟨fun e he => Bool.eq_false_iff.mpr fun heq => ?_, ih (by omega)⟩
      obtain ⟨j, hv, rfl⟩ := mem_sliceEntries.mp he
      have hj : j < vs.length := by
        by_contra hge
        rw [List.getD_eq_getElem?_getD, List.getElem?_eq_none (Nat.not_lt.mp hge)] at hv
        exact hv rfl
      have hidx := arrayindex_eq heq
      rw [arrayindex_cast (by omega), arrayindex_cast (by omega)] at hidx
      omega

theorem distinct_slice (h : t.sizearray < 2 ^ 31) (nasize : Nat) : Distinct (slice t nasize) := by
  refine ⟨fun e he => ?_, ?_⟩
  · obtain ⟨i, -, hv, rfl⟩ := mem_slice.mp he
    have := lt_of_array hv
    exact isKey_cast_num (by omega)
  · rw [Table.sizearray] at h
    rcases Nat.le_total t.array.length nasize with hle | hle
    · rw [slice, List.drop_eq_nil_of_le hle]
      exact List.Pairwise.nil
    · exact pairwise_sliceEntries (by rw [List.length_drop]; omega)

theorem value_of_mem_nodes (h : Inv hashes t) (he : e ∈ nodes t) : value hashes t e.1 = e.2 := by
  obtain ⟨i, hv, rfl⟩ := mem_nodes.mp he
  have hkey := h.live i hv
  exact value_node h hv (rawequal_self hkey)

theorem value_of_mem_slice (h : Inv hashes t) (he : e ∈ slice t nasize) :
    value hashes t e.1 = e.2 := by
  obtain ⟨i, -, hv, rfl⟩ := mem_slice.mp he
  exact value_index h (lt_of_array hv)

/-- A key that is not re-inserted is in the part of the array that stays. -/
theorem kept (h : Inv hashes t) {key : Value} (hval : value hashes t key ≠ .nil)
    (hnodes : ∀ e ∈ nodes t, rawequal e.1 key = false)
    (hslice : ∀ e ∈ slice t nasize, rawequal e.1 key = false) :
    InArray t key ∧ arrayindex key ≤ nasize := by
  rcases (value_eq_iff h hval).mp rfl with ⟨hin, hv⟩ | ⟨i, -, hik, hv⟩
  · refine ⟨hin, ?_⟩
    by_contra hgt
    have hpos := hin.1
    have hidx : (((arrayindex key - 1).toNat : Nat) : Int) + 1 = arrayindex key := by omega
    have hmem := hslice _ (mem_slice.mpr ⟨(arrayindex key - 1).toNat, by omega, hv ▸ hval, rfl⟩)
    rw [hidx, rawequal_cast (by omega)] at hmem
    cases hmem
  · have hmem := hnodes _ (mem_nodes.mpr ⟨i, hv ▸ hval, rfl⟩)
    rw [hik] at hmem
    cases hmem

/-- The table that `resize` begins with, with new nodes and the array part reshaped. -/
structure Begun (hashes : Nat → UInt32) (t t2 : Table) (nasize nhsize : Nat) : Prop where
  inv : Inv hashes t2
  sizearray : t2.sizearray = nasize
  room : nhsize ≤ room t2
  block : nasize ≤ t.sizearray → t2.block = t.block
  value : ∀ key, value hashes t2 key =
    if 0 < arrayindex key ∧ arrayindex key ≤ nasize then
      t.array.getD (arrayindex key - 1).toNat .nil
    else .nil

theorem begun (hashes : Nat → UInt32) (t : Table) {nhsize : Nat} (hn : nasize < 2 ^ 31)
    (hsize : nhsize ≤ 2 ^ 32) :
    Yields (· = tableOverflow) (fun t2 => Begun hashes t t2 nasize nhsize)
      (setnodevector (reshaped t nasize) nhsize) := by
  refine (setnodevector_spec (reshaped t nasize) hsize).imp fun t2 ⟨harray, hblock, hf, hroom⟩ => ?_
  have hsizearray : t2.sizearray = nasize := by
    rw [Table.sizearray, harray]
    exact reshaped_sizearray t nasize
  have h2 : Inv hashes t2 := hf.inv (by rw [hsizearray]; exact hn)
  refine ⟨h2, hsizearray, hroom, fun hle => ?_, fun key => ?_⟩
  · rw [hblock, reshaped, if_neg (by omega)]
  · rw [hf.value h2]
    by_cases hin : 0 < arrayindex key ∧ arrayindex key ≤ nasize
    · rw [if_pos hin, if_pos (by rwa [InArray, hsizearray]), harray, reshaped_getD t (by omega)]
    · rw [if_neg hin, if_neg (by rwa [InArray, hsizearray])]

theorem begun_room (hashes : Nat → UInt32) (t : Table) {nhsize : Nat} (hn : nasize < 2 ^ 31)
    (hsize : nhsize ≤ 2 ^ 32) :
    Yields (· = tableOverflow)
      (fun t2 => Begun hashes t t2 nasize nhsize ∧ room t2 = nodePart nhsize ∧ NewNodes t2 nhsize)
      (setnodevector (reshaped t nasize) nhsize) := by
  have hbegun := begun hashes t hn hsize
  cases hs : setnodevector (reshaped t nasize) nhsize with
  | error e =>
    rw [hs] at hbegun
    exact hbegun
  | ok t2 => exact ⟨hbegun.ok_of_eq hs, setnodevector_room hs⟩

/-- The memory block of an array that has shrunk is another one. -/
def released (t : Table) (nasize : Nat) (t3 : Table) : Table :=
  if nasize < t.sizearray then { t3 with block := t3.block + 1 } else t3

theorem Inv.released {t3 : Table} (h : Inv hashes t3) (t : Table) (nasize : Nat) :
    Inv hashes (released t nasize t3) := by
  unfold Tables.released
  split_ifs
  · exact { h with }
  · exact h

theorem released_value (t : Table) (nasize : Nat) (t3 : Table) (key : Value) :
    value hashes (released t nasize t3) key = value hashes t3 key := by
  unfold released
  split_ifs <;> rfl

/-- After both loops the table holds what it held. -/
theorem resized_value {t2 t3 t4 : Table} {nhsize : Nat} (h : Inv hashes t)
    (hb : Begun hashes t t2 nasize nhsize) (h3 : Inv hashes t3) (h4 : Inv hashes t4)
    (hs : Holds hashes t2 t3 (slice t nasize))
    (hn : Holds hashes (released t nasize t3) t4 (nodes t)) (key : Value) :
    value hashes t4 key = value hashes t key := by
  by_cases hnodes : ∃ e ∈ nodes t, rawequal e.1 key = true
  · obtain ⟨e, he, heq⟩ := hnodes
    rw [← value_rawequal h4 heq, ← value_rawequal h heq, hn.entry e he, value_of_mem_nodes h he]
  have hnodes : ∀ e ∈ nodes t, rawequal e.1 key = false := fun e he =>
    Bool.eq_false_iff.mpr fun heq => hnodes ⟨e, he, heq⟩
  rw [hn.other key hnodes, released_value]
  by_cases hslice : ∃ e ∈ slice t nasize, rawequal e.1 key = true
  · obtain ⟨e, he, heq⟩ := hslice
    rw [← value_rawequal h3 heq, ← value_rawequal h heq, hs.entry e he, value_of_mem_slice h he]
  have hslice : ∀ e ∈ slice t nasize, rawequal e.1 key = false := fun e he =>
    Bool.eq_false_iff.mpr fun heq => hslice ⟨e, he, heq⟩
  rw [hs.other key hslice, hb.value]
  by_cases hval : value hashes t key = .nil
  · rw [hval]
    split_ifs with hin
    · by_contra hv
      have hlt := lt_of_array hv
      have hin' : InArray t key := ⟨hin.1, by omega⟩
      rw [value_array h hin'] at hval
      exact hv hval
    · rfl
  · obtain ⟨hin, hle⟩ := kept h hval hnodes hslice
    rw [if_pos ⟨hin.1, hle⟩, value_array h hin]

end Entries

/-! ## `resize` with room -/

section Here

variable {nasize nhsize : Nat}

theorem arrayindex_slice (h : t.sizearray < 2 ^ 31) {e : Entry} (he : e ∈ slice t nasize) :
    e.1 = .number (cast_num (arrayindex e.1)) ∧ (nasize : Int) < arrayindex e.1 ∧
      arrayindex e.1 ≤ t.sizearray := by
  obtain ⟨i, hi, hv, rfl⟩ := mem_slice.mp he
  have hlt := lt_of_array hv
  have hidx := arrayindex_cast (k := (i : Int) + 1) (by omega)
  show Value.number _ = .number (cast_num (arrayindex (.number _))) ∧
    (nasize : Int) < arrayindex (.number _) ∧ arrayindex (.number _) ≤ _
  rw [hidx]
  exact ⟨rfl, by omega, by omega⟩

theorem setIndex_here (h : Inv hashes t) (hkey : key.IsKey)
    (hidx : key = .number (cast_num (arrayindex key))) (hroom : cost t.sizearray key ≤ room t)
    (grow : Table → Value → M (Slot × Table)) :
    ∃ p t', setIndex (newkeyWith hashes grow) t key = .ok (p, t') ∧
      SetHere hashes t t' key p := by
  rw [setIndex, setnumWith_eq hashes (arrayindex_range key), ← hidx]
  cases hget : luaH_get hashes t key with
  | some p => exact ⟨p, t, rfl, SetHere.of_found h hget t.flags⟩
  | none =>
    have ha := absent_of_luaH_get h hkey hget
    rw [cost_out ha.out] at hroom
    exact newkey_here h ha hroom grow

/-- `resize` with room for everything that it re-inserts. -/
theorem resize_here (h : Inv hashes t) (hn : nasize < 2 ^ 31) (hsize : nhsize ≤ 2 ^ 32)
    (hfit : costs nasize (slice t nasize) + costs nasize (nodes t) ≤ nodePart nhsize)
    (grow : Table → Value → M (Slot × Table)) :
    Yields (· = tableOverflow)
      (fun t' => Inv hashes t' ∧ t'.sizearray = nasize ∧
        nodePart nhsize ≤ room t' + costs nasize (slice t nasize) + costs nasize (nodes t) ∧
        (nasize = t.sizearray → t'.block = t.block) ∧
        (∀ key, value hashes t' key = value hashes t key) ∧ NewNodes t' nhsize)
      (resize hashes (newkeyWith hashes grow) t nasize nhsize) := by
  rw [resize_eq _ _ _ _ h.array]
  refine (begun_room hashes t hn hsize).bind fun t2 ⟨hb, hroom, hnew⟩ => ?_
  obtain ⟨t3, heq3, h3, hshape3, hroom3, hs⟩ :=
    insertAll_here (setIndex (newkeyWith hashes grow)) (fun t => t.block == t2.block)
      (fun e he t1 h1 hkey hroom =>
        setIndex_here h1 hkey (arrayindex_slice h.array he).1 hroom grow)
      (fun t1 hshape => by simp only [hshape.block, beq_self_eq_true])
      (distinct_slice h.array nasize) hb.inv (by rw [hb.sizearray]; omega)
  rw [hb.sizearray] at hroom3
  have hroom3' : room (released t nasize t3) = room t3 := by
    unfold released
    split_ifs <;> rfl
  have hsize3 : (released t nasize t3).sizearray = nasize := by
    have : (released t nasize t3).sizearray = t3.sizearray := by
      unfold released
      split_ifs <;> rfl
    rw [this, hshape3.sizearray, hb.sizearray]
  obtain ⟨t4, heq4, h4, hshape4, hroom4, hn'⟩ :=
    insertAll_here (setWith hashes (newkeyWith hashes grow)) (fun _ => true)
      (fun e _ t1 h1 hkey hroom => setWith_here h1 hkey hroom grow) (fun _ _ => rfl)
      (distinct_nodes h) (h3.released t nasize) (by rw [hsize3]; omega)
  rw [hsize3] at hroom4
  rw [heq3, ok_bind]
  have hshape : SameNodes t2 t4 := by
    refine (hshape3.sameNodes.trans ?_).trans hshape4.sameNodes
    unfold released
    split_ifs <;> exact ⟨rfl, rfl⟩
  refine yields_of_eq heq4 ⟨h4, hshape4.sizearray.trans hsize3, by omega, fun heq => ?_,
    resized_value h hb h3 h4 hs hn', hnew.congr hshape⟩
  rw [hshape4.block, released, if_neg (by omega), hshape3.block, hb.block (Nat.le_of_eq heq)]

end Here

end Luaxx.Tables
