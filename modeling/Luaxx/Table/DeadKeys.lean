import Luaxx.Table.Refinement
import Luaxx.Table.Next

/-!
# Dead keys

A dead key in a chain must not pass for a live key with the same address that comes later in the
chain: a new key is linked in at the front, and a chain keeps its order. A rehash leaves no dead
keys. An address is that of one object at a time, so that the live keys of a table have different
addresses (`Sound`).
-/

open Luaxx.Value

namespace Luaxx.Tables

open Luaxx.Links Luaxx.Result

/-! ## The keys of a table that `newkey` leaves -/

section Keys

variable {hashes : Nat → UInt32} {K : Value → Prop} {t t' : Table} {key : Value}

/-- Every node is unused or has a key in `K`. -/
def KeysFrom (K : Value → Prop) (t : Table) : Prop := ∀ i, t.gkey i = .nil ∨ K (t.gkey i)

theorem KeysFrom.withNode (h : KeysFrom K t) {i : Nat} {n : Node} (hn : n.key = .nil ∨ K n.key) :
    KeysFrom K (withNode t i n) := by
  intro j
  by_cases hi : i < t.node.length
  · rw [Table.gkey, Tables.withNode, gnode_set hi]
    split_ifs
    · exact hn
    · exact h j
  · have hsame : Tables.withNode t i n = t := by
      rw [Tables.withNode, List.set_eq_of_length_le (Nat.le_of_not_lt hi)]
    rw [hsame]
    exact h j

theorem KeysFrom.setNode (h : KeysFrom K t) {i : Nat} {n : Node}
    (ht : t.setNode i n = .ok t') (hn : n.key = .nil ∨ K n.key) : KeysFrom K t' := by
  cases hd : t.isDummy with
  | true =>
    rw [Table.setNode, if_pos hd] at ht
    cases ht
  | false =>
    rw [setNode_ok hd] at ht
    cases ht
    exact h.withNode hn

theorem KeysFrom.setKey (h : KeysFrom K t) (hkey : K key) {mp : Nat} {r : Slot × Table}
    (hr : setKey t mp key = .ok r) : KeysFrom K r.2 := by
  obtain ⟨t1, h1, hr⟩ := bind_ok.mp hr
  cases hr
  exact h.setNode h1 (.inr hkey)

theorem KeysFrom.moveNode (h : KeysFrom K t) {othern mp n : Nat}
    (ht : moveNode t othern mp n = .ok t') : KeysFrom K t' := by
  rw [Tables.moveNode] at ht
  split at ht
  · cases ht
  · next prev _ =>
    obtain ⟨t1, h1, ht⟩ := bind_ok.mp ht
    obtain ⟨t2, h2, ht⟩ := bind_ok.mp ht
    have hk1 := h.setNode h1 (h prev)
    have hk2 := hk1.setNode h2 (hk1 mp)
    exact hk2.setNode ht (hk2 mp)

theorem KeysFrom.chainNode (h : KeysFrom K t) {mp n : Nat} (ht : chainNode t mp n = .ok t') :
    KeysFrom K t' := by
  obtain ⟨t1, h1, ht⟩ := bind_ok.mp ht
  have hk1 := h.setNode h1 (h n)
  exact hk1.setNode ht (hk1 mp)

theorem KeysFrom.store (h : KeysFrom K t) {v : Value} {p : Slot} (ht : t.store v p = .ok t') :
    KeysFrom K t' := by
  cases p with
  | array i =>
    cases ht
    exact h
  | node i => exact h.setNode ht (h i)

theorem KeysFrom.of_setnodevector {size : Nat} (ht : setnodevector t size = .ok t') :
    KeysFrom K t' := by
  intro i
  refine .inl ?_
  rw [setnodevector] at ht
  split_ifs at ht
  · cases ht
    rcases i with _ | i <;> rfl
  · cases ht
  · obtain rfl := Except.ok.inj ht
    show (List.getD (List.replicate _ ⟨.nil, .nil, none⟩) i dummynode_).key = _
    rw [List.getD_eq_getElem?_getD, List.getElem?_replicate]
    split_ifs <;> rfl

section Callback

variable {nk : Table → Value → M (Slot × Table)}

/-- The insertion keeps to the keys. -/
def Keeps (K : Value → Prop) (nk : Table → Value → M (Slot × Table)) : Prop :=
  ∀ t key r, K key → KeysFrom K t → nk t key = .ok r → KeysFrom K r.2

variable (hnk : Keeps K nk)

include hnk

theorem KeysFrom.setWith (h : KeysFrom K t) (hkey : K key) {r : Slot × Table}
    (hr : setWith hashes nk t key = .ok r) : KeysFrom K r.2 := by
  have hflags : KeysFrom K { t with flags := 0 } := h
  simp only [Tables.setWith] at hr
  split at hr
  · cases hr
    exact h
  · split at hr
    · cases hr
    · split_ifs at hr
      · cases hr
      · exact hnk _ _ _ hkey hflags hr
    · exact hnk _ _ _ hkey hflags hr

theorem KeysFrom.setnumWith (hnum : ∀ k : Int, K (.number (cast_num k))) (h : KeysFrom K t)
    {k : Int} {r : Slot × Table} (hr : setnumWith nk t k = .ok r) : KeysFrom K r.2 := by
  simp only [Tables.setnumWith] at hr
  split at hr
  · cases hr
    exact h
  · exact hnk _ _ _ (hnum k) h hr

theorem KeysFrom.reinsertSlice (hnum : ∀ k : Int, K (.number (cast_num k))) {block i : Nat}
    {rest : List Value} (h : KeysFrom K t) (ht : reinsertSlice nk block t i rest = .ok t') :
    KeysFrom K t' := by
  induction rest generalizing t i with
  | nil =>
    cases ht
    exact h
  | cons v rest ih =>
    rw [Tables.reinsertSlice] at ht
    split_ifs at ht
    · exact ih h ht
    · obtain ⟨r, hr, ht⟩ := bind_ok.mp ht
      have hk := h.setnumWith hnk hnum hr
      simp only at ht
      split_ifs at ht
      obtain ⟨t1, h1, ht⟩ := bind_ok.mp ht
      exact ih (hk.store h1) ht

theorem KeysFrom.reinsertNodes {rest : List Node}
    (hrest : ∀ n ∈ rest, n.val ≠ .nil → n.key = .nil ∨ K n.key)
    (h : KeysFrom K t) (ht : reinsertNodes hashes nk t rest = .ok t') : KeysFrom K t' := by
  induction rest generalizing t with
  | nil =>
    cases ht
    exact h
  | cons n rest ih =>
    obtain ⟨hn, hrest⟩ := List.forall_mem_cons.mp hrest
    rw [Tables.reinsertNodes] at ht
    split_ifs at ht with hval
    · exact ih hrest h ht
    · obtain ⟨r, hr, ht⟩ := bind_ok.mp ht
      obtain ⟨t1, h1, ht⟩ := bind_ok.mp ht
      rcases hn (mt ttisnil_iff.mpr hval) with hnil | hkey
      · rw [hnil] at hr
        cases hr
      · exact ih hrest ((h.setWith hnk hkey hr).store h1) ht

/-- The nodes are new, and the keys of live nodes are inserted again. -/
theorem KeysFrom.of_resize (hnum : ∀ k : Int, K (.number (cast_num k)))
    (hlive : ∀ i, t.gval i ≠ .nil → t.gkey i = .nil ∨ K (t.gkey i)) {nasize nhsize : Nat}
    (ht : resize hashes nk t nasize nhsize = .ok t') : KeysFrom K t' := by
  have hold : ∀ n ∈ t.node.reverse, n.val ≠ .nil → n.key = .nil ∨ K n.key := by
    intro n hn
    obtain ⟨i, hi, rfl⟩ := List.getElem_of_mem (List.mem_reverse.mp hn)
    have := hlive i
    rwa [Table.gval, Table.gkey, gnode_eq_getElem hi] at this
  unfold Tables.resize at ht
  obtain ⟨t1, h1, ht⟩ := bind_ok.mp ht
  have hk1 : KeysFrom K t1 := KeysFrom.of_setnodevector h1
  by_cases hshrink : nasize < t.sizearray
  · simp only [if_pos hshrink] at ht
    obtain ⟨t2, h2, ht⟩ := bind_ok.mp ht
    have hk2 : KeysFrom K t2 :=
      KeysFrom.reinsertSlice hnk hnum (t := { t1 with array := t1.array.take nasize }) hk1 h2
    exact KeysFrom.reinsertNodes hnk (t := { t2 with block := t2.block + 1 }) hold hk2 ht
  · simp only [if_neg hshrink] at ht
    exact hk1.reinsertNodes hnk hold ht

theorem KeysFrom.of_rehash (hnum : ∀ k : Int, K (.number (cast_num k)))
    (hlive : ∀ i, t.gval i ≠ .nil → t.gkey i = .nil ∨ K (t.gkey i))
    (ht : rehash hashes nk t key = .ok t') : KeysFrom K t' :=
  .of_resize hnk hnum hlive ht

end Callback

theorem KeysFrom.getfreepos (h : KeysFrom K t) : KeysFrom K (getfreepos t).2 := by
  rw [Tables.getfreepos]
  split_ifs
  · exact h
  · exact h

/-- `newkey` keeps to the keys that it is called for and that are in the table. -/
theorem newkey_keeps (hashes : Nat → UInt32) (hnum : ∀ k : Int, K (.number (cast_num k)))
    (fuel : Nat) : Keeps K (newkey hashes fuel) := by
  induction fuel with
  | zero =>
    intro t key r _ _ hr
    cases hr
  | succ fuel ih =>
    intro t key r hkey h hr
    rw [newkey] at hr
    simp only at hr
    split_ifs at hr
    · exact h.setKey hkey hr
    have hk1 := h.getfreepos
    rcases hfree : Tables.getfreepos t with ⟨_ | n, t1⟩ <;> rw [hfree] at hr hk1
    · obtain ⟨t2, h2, hr⟩ := bind_ok.mp hr
      have hk2 : KeysFrom K t2 := .of_rehash ih hnum (fun i _ => hk1 i) h2
      exact hk2.setWith ih hkey hr
    · simp only at hr
      split_ifs at hr
      · obtain ⟨t2, h2, hr⟩ := bind_ok.mp hr
        have hk2 : KeysFrom K t2 := hk1.moveNode h2
        exact hk2.setKey hkey hr
      · obtain ⟨t2, h2, hr⟩ := bind_ok.mp hr
        have hk2 : KeysFrom K t2 := hk1.chainNode h2
        exact hk2.setKey hkey hr

end Keys

/-! ## Addresses -/

section Sound

variable {hashes : Nat → UInt32} {t t' : Table} {key : Value}

/-- The object at the address of the key is not that of another live key. -/
def Addressed (t : Table) (key : Value) : Prop :=
  ∀ i, (t.gkey i).IsKey → gcvalue key ≠ none → gcvalue (t.gkey i) = gcvalue key → t.gkey i = key

/-- A search for a live key in its chain does not stop at a dead one. -/
structure Sound (hashes : Nat → UInt32) (t : Table) : Prop where
  inv : Inv hashes t
  addressed : ∀ i, (t.gkey i).IsKey → Addressed t (t.gkey i)
  first : ∀ i l, (t.gkey i).IsKey → Chain t.gnext (mainposition hashes t (t.gkey i)) l →
    l.find? (isNextKey t (t.gkey i)) = some i

theorem isNextKey_congr {i j : Nat} (h : t'.gkey j = t.gkey i) (key : Value) :
    isNextKey t' key j = isNextKey t key i := by
  rw [isNextKey, isNextKey, h]

theorem isNextKey_of_isKey {i : Nat} (h : (t.gkey i).IsKey) (key : Value) :
    isNextKey t key i = rawequal (t.gkey i) key := by
  rw [isNextKey]
  cases hk : t.gkey i with
  | deadkey p =>
    rw [hk] at h
    exact h.elim
  | _ => exact Bool.or_false _

theorem isNextKey_self {i : Nat} (h : (t.gkey i).IsKey) : isNextKey t (t.gkey i) i = true := by
  rw [isNextKey_of_isKey h]
  exact rawequal_self h

theorem Addressed.congr (h : Addressed t key) (hkey : ∀ j, (t'.gkey j).IsKey →
    t'.gkey j = key ∨ ∃ i, t.gkey i = t'.gkey j) : Addressed t' key := by
  intro j hj hne heq
  rcases hkey j hj with hj' | ⟨i, hi⟩
  · exact hj'
  · rw [← hi] at hj heq ⊢
    exact h i hj hne heq

/-- An insertion of a key of its own address keeps the addresses apart. -/
theorem addressed_insert (h : ∀ i, (t.gkey i).IsKey → Addressed t (t.gkey i))
    (hkey : Addressed t key)
    (hfrom : ∀ j, (t'.gkey j).IsKey → t'.gkey j = key ∨ ∃ i, t.gkey i = t'.gkey j) (j : Nat)
    (hj : (t'.gkey j).IsKey) : Addressed t' (t'.gkey j) := by
  rcases hfrom j hj with hj' | ⟨i, hi⟩
  · rw [hj']
    exact hkey.congr hfrom
  · intro m hm hne heq
    rcases hfrom m hm with hm' | ⟨n, hn⟩
    · rw [hm'] at heq ⊢
      rw [← hi] at hj hne heq ⊢
      exact (hkey i hj (heq ▸ hne) heq.symm).symm
    · rw [← hi] at hj hne heq ⊢
      rw [← hn] at hm heq ⊢
      exact h i hj n hm hne heq

/-- Without dead keys every search is one for the key. -/
theorem Sound.of_noDead (h : Inv hashes t) (hdead : ∀ i p, t.gkey i ≠ .deadkey p)
    (haddr : ∀ i, (t.gkey i).IsKey → Addressed t (t.gkey i)) : Sound hashes t := by
  refine ⟨h, haddr, fun i l hi hl => ?_⟩
  obtain ⟨l', hl', hmem⟩ := h.reach i hi
  obtain rfl := hl.unique hl'
  cases hfind : l.find? (isNextKey t (t.gkey i)) with
  | none =>
    have := List.find?_eq_none.mp hfind i hmem
    exact absurd (isNextKey_self hi) this
  | some j =>
    have hj := List.find?_some hfind
    have heq : rawequal (t.gkey j) (t.gkey i) = true := by
      rcases h.key j with hnil | ⟨p, hp⟩ | hk
      · rw [isNextKey, hnil] at hj
        simp only [Bool.or_false] at hj
        rwa [hnil]
      · exact absurd hp (hdead j p)
      · rwa [isNextKey_of_isKey hk] at hj
    rw [h.unique i j hi (by rw [rawequal_comm]; exact heq)]

/-- A key that is not in the table is not found at a node with a live key. -/
theorem Absent.isNextKey (ha : Absent t key) {i : Nat} (hi : (t.gkey i).IsKey) :
    isNextKey t key i = false := by
  rw [isNextKey_of_isKey hi, ha.node]

section Insertion

variable {i : Nat}

theorem Sound.free (hs : Sound hashes t) (ha : Absent t key) (hkey : Addressed t key)
    (hp : PlacedFree t t' key (mainposition hashes t key)) (hinv : Inv hashes t') :
    Sound hashes t' := by
  have hnext : t'.gnext = t.gnext := funext hp.gnext
  have hmain : ∀ k, mainposition hashes t' k = mainposition hashes t k := hp.frame.mainposition
  have hnew : t'.gkey (mainposition hashes t key) = key := by rw [hp.gkey, if_pos rfl]
  have hold : ∀ j, j ≠ mainposition hashes t key → t'.gkey j = t.gkey j := fun j hj => by
    rw [hp.gkey, if_neg hj]
  refine ⟨hinv, addressed_insert hs.addressed hkey fun j _ => ?_, fun j l hj hl => ?_⟩
  · by_cases hjm : j = mainposition hashes t key
    · exact .inl (hjm ▸ hnew)
    · exact .inr ⟨j, (hold j hjm).symm⟩
  · have hself := isNextKey_self hj
    rw [hnext, hmain] at hl
    by_cases hjm : j = mainposition hashes t key
    · obtain ⟨rest, rfl⟩ := hl.head
      rw [hjm, hnew] at hself ⊢
      exact List.find?_cons_of_pos hself
    · rw [hold j hjm] at hj hl hself ⊢
      refine find?_eq_some_of_imp (hs.first j l hj hl) hself fun m _ hm => ?_
      by_cases hmm : m = mainposition hashes t key
      · have hkey' : (t'.gkey m).IsKey := by rw [hmm, hnew]; exact ha.isKey
        rw [isNextKey_of_isKey hkey', hmm, hnew, rawequal_comm, ha.node] at hm
        cases hm
      · rwa [isNextKey_congr (hold m hmm)] at hm

theorem Sound.moved (hs : Sound hashes t) (hkey : Addressed t key)
    {n prev : Nat} (hp : PlacedMoved t t' key (mainposition hashes t key) n prev)
    (hval : t.gval (mainposition hashes t key) ≠ .nil) (hn : FreePos t n)
    (hforeign : mainposition hashes t (t.gkey (mainposition hashes t key)) ≠
      mainposition hashes t key)
    (hprev : t.gnext prev = some (mainposition hashes t key)) (hinv : Inv hashes t') :
    Sound hashes t' := by
  have h := hs.inv
  have hmp := h.live _ hval
  have hr := hp.relocated h hn hmp hprev
  have hmain : ∀ k, mainposition hashes t' k = mainposition hashes t k := hp.frame.mainposition
  have hmoved : ∀ j, j ≠ n → t'.gkey (Links.moved (mainposition hashes t key) n j) = t.gkey j := by
    intro j hj
    by_cases hjm : j = mainposition hashes t key
    · rw [Links.moved, if_pos hjm, hp.gkey, if_neg (Ne.symm hr.ne), if_pos rfl, hjm]
    · rw [Links.moved, if_neg hjm, hp.gkey, if_neg hjm, if_neg hj]
  -- where the key of a node was
  have hwas : ∀ j, j = mainposition hashes t key ∧ t'.gkey j = key ∨
      ∃ i, i ≠ n ∧ t.gkey i = t'.gkey j ∧ Links.moved (mainposition hashes t key) n i = j := by
    intro j
    rcases hp.cases j with ⟨hj, hk, -⟩ | ⟨hj, hk, -⟩ | ⟨hjm, hjn, hk, -⟩
    · exact .inl ⟨hj, hk⟩
    · exact .inr ⟨_, hr.ne, hk.symm, by rw [Links.moved, if_pos rfl, hj]⟩
    · exact .inr ⟨j, hjn, hk.symm, if_neg hjm⟩
  refine ⟨hinv, addressed_insert hs.addressed hkey fun j _ => ?_, fun j l hj hl => ?_⟩
  · rcases hwas j with ⟨-, hk⟩ | ⟨i, -, hk, -⟩
    · exact .inl hk
    · exact .inr ⟨i, hk⟩
  · rw [hmain] at hl
    rcases hwas j with ⟨hjm, hk⟩ | ⟨i, hin, hk, rfl⟩
    · obtain ⟨rest, rfl⟩ := hl.head
      have hself := isNextKey_self hj
      rw [hk] at hself ⊢
      rw [hjm] at hself ⊢
      exact List.find?_cons_of_pos hself
    · rw [← hk] at hj hl ⊢
      -- the chain of the key is that of the old table, moved
      obtain ⟨l', hl', hmem⟩ := h.reach i hj
      have hstart : mainposition hashes t (t.gkey i) ≠ n := fun heq =>
        h.occupied i hj (heq ▸ hn.key)
      have hl'' := hl'.relocate hr hstart
      rw [Links.moved, if_neg (h.home _ i hmp hj hforeign)] at hl''
      rw [hl.unique hl'', List.find?_map]
      have hcongr : ∀ m ∈ l', (isNextKey t' (t.gkey i) ∘ Links.moved (mainposition hashes t key) n) m =
          isNextKey t (t.gkey i) m := by
        intro m hm
        have hmn : m ≠ n := by
          rintro rfl
          obtain ⟨q, -, hq⟩ := hl'.exists_previous hm (Ne.symm hstart)
          exact hr.unlinked q hq
        exact isNextKey_congr (hmoved m hmn) _
      rw [find?_congr hcongr, hs.first i l' hj hl']
      rfl

theorem Sound.chained (hs : Sound hashes t) (ha : Absent t key) (hkey : Addressed t key)
    {n : Nat} (hp : PlacedChained t t' key (mainposition hashes t key) n)
    (hval : t.gval (mainposition hashes t key) ≠ .nil) (hn : FreePos t n)
    (hinv : Inv hashes t') : Sound hashes t' := by
  have h := hs.inv
  have hmp := h.live _ hval
  have hne : mainposition hashes t key ≠ n := fun heq => by
    rw [heq, hn.key] at hmp
    exact hmp
  have hr := hp.inserted h hn hne
  have hmain : ∀ k, mainposition hashes t' k = mainposition hashes t k := hp.frame.mainposition
  have hnew : t'.gkey n = key := by rw [hp.gkey, if_pos rfl]
  have hold : ∀ j, j ≠ n → t'.gkey j = t.gkey j := fun j hj => by rw [hp.gkey, if_neg hj]
  refine ⟨hinv, addressed_insert hs.addressed hkey fun j _ => ?_, fun j l hj hl => ?_⟩
  · by_cases hjn : j = n
    · exact .inl (hjn ▸ hnew)
    · exact .inr ⟨j, (hold j hjn).symm⟩
  · have hself := isNextKey_self hj
    rw [hmain] at hl
    by_cases hjn : j = n
    · -- the node at the main position is live, so that the search goes on to the new one
      rw [hjn, hnew] at hself hl ⊢
      obtain ⟨l', hl'⟩ := h.acyclic (mainposition hashes t key)
      obtain ⟨rest, rfl⟩ := hl'.head
      rw [hl.unique (hl'.insert hr hne), List.flatMap_cons, if_pos rfl]
      have hskip : isNextKey t' key (mainposition hashes t key) = false := by
        rw [isNextKey_congr (hold _ hne)]
        exact ha.isNextKey hmp
      rw [List.cons_append, List.find?_cons_of_neg (by rw [hskip]; exact Bool.false_ne_true)]
      exact List.find?_cons_of_pos hself
    · rw [hold j hjn] at hj hl ⊢
      obtain ⟨l', hl', hmem⟩ := h.reach j hj
      have hstart : mainposition hashes t (t.gkey j) ≠ n := fun heq =>
        h.occupied j hj (heq ▸ hn.key)
      have hskip : isNextKey t' (t.gkey j) n = false := by
        have hkey' : (t'.gkey n).IsKey := by rw [hnew]; exact ha.isKey
        rw [isNextKey_of_isKey hkey', hnew, rawequal_comm, ha.node]
      rw [hl.unique (hl'.insert hr hstart), find?_insert hskip]
      have hcongr : ∀ m ∈ l', isNextKey t' (t.gkey j) m = isNextKey t (t.gkey j) m := by
        intro m hm
        refine isNextKey_congr (hold m ?_) _
        rintro rfl
        obtain ⟨q, -, hq⟩ := hl'.exists_previous hm (Ne.symm hstart)
        exact hr.unlinked q hq
      rw [find?_congr hcongr, hs.first j l' hj hl']

theorem Sound.insertion (hs : Sound hashes t) (ha : Absent t key) (hkey : Addressed t key)
    (hi : Insertion hashes t t' key i) : Sound hashes t' := by
  have hinv := (hi.grown hs.inv ha).inv
  cases hi with
  | free hp hval hd => exact hs.free ha hkey hp hinv
  | moved hp hval hn hforeign hprev => exact hs.moved hkey hp hval hn hforeign hprev hinv
  | chained hp hval hn hown => exact hs.chained ha hkey hp hval hn hinv

end Insertion

/-- The keys that are in the table or about to be. -/
def Kept (t : Table) (key k : Value) : Prop :=
  gcvalue k = none ∨ k = key ∨ ∃ i, (t.gkey i).IsKey ∧ t.gkey i = k

theorem kept_of_live (h : Inv hashes t) (i : Nat) (hi : t.gval i ≠ .nil) :
    t.gkey i = .nil ∨ Kept t key (t.gkey i) :=
  .inr (.inr (.inr ⟨i, h.live i hi, rfl⟩))

theorem Sound.of_keysFrom (hs : Sound hashes t) (hkey : key.IsKey) (haddr : Addressed t key)
    (hinv : Inv hashes t') (hfrom : KeysFrom (Kept t key) t') : Sound hashes t' := by
  have horigin : ∀ j, gcvalue (t'.gkey j) ≠ none →
      t'.gkey j = key ∨ ∃ i, (t.gkey i).IsKey ∧ t.gkey i = t'.gkey j := by
    intro j hne
    rcases hfrom j with hnil | hnone | hj
    · rw [hnil] at hne
      exact absurd rfl hne
    · exact absurd hnone hne
    · exact hj
  refine .of_noDead hinv (fun j p hp => ?_) fun j hj m hm hne heq => ?_
  · rcases horigin j (by rw [hp]; exact Option.some_ne_none p) with hj | ⟨i, hi, hj⟩
    · rw [hp] at hj
      rw [← hj] at hkey
      exact hkey
    · rw [hj, hp] at hi
      exact hi
  · rcases horigin j hne with hj' | ⟨i, hi, hj'⟩ <;>
      rcases horigin m (heq ▸ hne) with hm' | ⟨n, hn, hm'⟩
    · rw [hj', hm']
    · rw [hj'] at hne heq ⊢
      rw [← hm'] at heq ⊢
      exact haddr n hn hne heq
    · rw [hm'] at heq ⊢
      rw [← hj'] at hne heq ⊢
      exact (haddr i hi (heq ▸ hne) heq.symm).symm
    · rw [← hj'] at hne heq ⊢
      rw [← hm'] at heq ⊢
      exact hs.addressed i hi n hn hne heq

theorem Sound.newkey (hs : Sound hashes t) (ha : Absent t key) (haddr : Addressed t key)
    {fuel : Nat} {r : Slot × Table} (hr : newkey hashes (fuel + 1) t key = .ok r)
    (hinv : Inv hashes r.2) : Sound hashes r.2 := by
  rcases newkey_insertion hs.inv key fuel with ⟨i, t', hnew, hi⟩ | ⟨l, -, -, hnew⟩
  · rw [hnew] at hr
    cases hr
    exact hs.insertion ha haddr hi
  · rw [hnew] at hr
    obtain ⟨t1, h1, hr⟩ := bind_ok.mp hr
    have hkeeps : Keeps (Kept t key) (Tables.newkey hashes fuel) :=
      newkey_keeps hashes (fun _ => .inl rfl) fuel
    have hself : Kept t key key := .inr (.inl rfl)
    have hlive : ∀ i, t.gval i ≠ .nil → t.gkey i = .nil ∨ Kept t key (t.gkey i) :=
      kept_of_live hs.inv
    have hk1 : KeysFrom (Kept t key) t1 :=
      .of_rehash (t := { t with lastfree := l }) hkeeps (fun _ => .inl rfl) hlive h1
    have hset : setWith hashes (Tables.newkey hashes fuel) t1 key = .ok r := hr
    exact hs.of_keysFrom ha.isKey haddr hinv (hk1.setWith hkeeps hself hset)

theorem Sound.sameKeys (hs : Sound hashes t) (hk : SameKeys t t') (hinv : Inv hashes t') :
    Sound hashes t' := by
  refine ⟨hinv, fun i => ?_, fun i l => ?_⟩
  · rw [hk.gkey]
    intro hi j hj
    rw [hk.gkey] at hj ⊢
    exact hs.addressed i hi j hj
  · rw [hk.gkey, hk.gnext, hk.mainposition]
    intro hi hl
    rw [find?_congr fun m _ => isNextKey_congr (congrFun hk.gkey m) _]
    exact hs.first i l hi hl

/-! ## Operations -/

theorem Sound.flags (hs : Sound hashes t) (flags : UInt8) : Sound hashes { t with flags } :=
  hs.sameKeys (sameKeys_flags t flags) (hs.inv.flags flags)

/-- The key that an assignment is to. -/
def Op.assigned : Op → Value
  | .set key _ => key.1
  | .setnum key _ => .number (cast_num key)
  | .setstr key _ => .string key
  | .resizearray _ => .nil

theorem Sound.stored (hs : Sound hashes t) (hkey : key.IsKey) {p : Slot}
    (hget : luaH_get hashes t key = some p) {v : Value} (ht : t.store v p = .ok t') :
    Sound hashes t' := by
  obtain ⟨t1, h1, hst⟩ := store_spec hs.inv hkey hget v
  rw [h1] at ht
  cases ht
  exact hs.sameKeys hst.keys hst.inv

theorem Sound.luaH_set (hs : Sound hashes t) (hkey : key.IsKey) (haddr : Addressed t key)
    {r : Slot × Table} (hr : luaH_set hashes t key = .ok r) (hinv : Inv hashes r.2) :
    Sound hashes r.2 := by
  rw [Tables.luaH_set] at hr
  cases hget : luaH_get hashes t key with
  | some p =>
    rw [setWith_found hget] at hr
    cases hr
    exact hs.flags 0
  | none =>
    have ha := absent_of_luaH_get hs.inv hkey hget
    rw [setWith_new hkey hget] at hr
    exact (hs.flags 0).newkey ⟨ha.isKey, ha.out, ha.node⟩ haddr hr hinv

theorem Sound.step (hs : Sound hashes t) {op : Op} (hop : op.Allowed t)
    (haddr : Addressed t op.assigned) (ht : step hashes t op = .ok t') : Sound hashes t' := by
  cases op with
  | set key v =>
    obtain ⟨r, hr, ht⟩ := bind_ok.mp ht
    obtain ⟨hkey, hto⟩ := (luaH_set_spec hs.inv key.2).ok_of_eq hr
    exact (hs.luaH_set hkey haddr hr hto.inv).stored hkey hto.slot ht
  | setnum k v =>
    obtain ⟨r, hr, ht⟩ := bind_ok.mp ht
    have hkey := isKey_cast_num hop
    have hto := (luaH_setnum_spec hs.inv hop).ok_of_eq hr
    refine Sound.stored ?_ hkey hto.slot ht
    rw [luaH_setnum, setnumWith_eq hashes hop] at hr
    cases hget : luaH_get hashes t (.number (cast_num k)) with
    | some p =>
      simp only [hget] at hr
      cases hr
      exact hs
    | none =>
      simp only [hget] at hr
      exact hs.newkey (absent_of_luaH_get hs.inv hkey hget) haddr hr hto.inv
  | setstr s v =>
    obtain ⟨r, hr, ht⟩ := bind_ok.mp ht
    have hkey : (Value.string s).IsKey := trivial
    have hto := (luaH_setstr_spec hs.inv s).ok_of_eq hr
    refine Sound.stored ?_ hkey hto.slot ht
    rw [luaH_setstr] at hr
    cases hget : luaH_getstr hashes t s with
    | some p =>
      simp only [hget] at hr
      cases hr
      exact hs
    | none =>
      simp only [hget] at hr
      have hget' : luaH_get hashes t (.string s) = none := hget
      exact hs.newkey (absent_of_luaH_get hs.inv hkey hget') haddr hr hto.inv
  | resizearray nasize =>
    have hto := (luaH_resizearray_spec hs.inv hop.1 hop.2).ok_of_eq ht
    have hkeeps : Keeps (Kept t (.boolean false)) (Tables.newkey hashes maxRehash) :=
      newkey_keeps hashes (fun _ => .inl rfl) maxRehash
    have hkey : (Value.boolean false).IsKey := trivial
    have haddr' : Addressed t (.boolean false) := fun _ _ hne => absurd rfl hne
    refine hs.of_keysFrom hkey haddr' hto.1 ?_
    exact .of_resize hkeeps (fun _ => .inl rfl) (kept_of_live hs.inv) ht

end Sound

section Collector

variable {hashes hashes' : Nat → UInt32} {t t' : Table} {key : Value}

/-! ## What the collector does -/

/-- The key of node `i` has been marked dead. -/
structure Buried (t t' : Table) (i p : Nat) : Prop where
  frame : SameFrame t t'
  lastfree : t'.lastfree = t.lastfree
  isKey : (t.gkey i).IsKey
  address : gcvalue (t.gkey i) = some p
  gkey : ∀ j, t'.gkey j = if j = i then .deadkey p else t.gkey j
  gval : t'.gval = t.gval
  gnext : t'.gnext = t.gnext

theorem Buried.gkey_of_isKey {i p j : Nat} (hb : Buried t t' i p) (hj : (t'.gkey j).IsKey) :
    j ≠ i ∧ t'.gkey j = t.gkey j := by
  rw [hb.gkey] at hj
  split_ifs at hj with hji
  · exact hj.elim
  · exact ⟨hji, by rw [hb.gkey, if_neg hji]⟩

theorem Buried.inv {i p : Nat} (hb : Buried t t' i p) (h : Inv hashes t) (hval : t.gval i = .nil) :
    Inv hashes t' := by
  have hmain : ∀ k, mainposition hashes t' k = mainposition hashes t k := hb.frame.mainposition
  have hnil : ∀ j, t'.gkey j = .nil → t.gkey j = .nil := by
    intro j hj
    rw [hb.gkey] at hj
    split_ifs at hj
    exact hj
  constructor
  case length => rw [hb.frame.length, hb.frame.sizenode, h.length]
  case small => rw [hb.frame.lsizenode]; exact h.small
  case dummy =>
    intro hd
    rw [hb.frame.isDummy, h.isDummy_eq_false hb.isKey] at hd
    cases hd
  case lastfree => rw [hb.lastfree, hb.frame.length]; exact h.lastfree
  case above =>
    intro hd j hj hle hj'
    rw [hb.frame.isDummy] at hd
    rw [hb.frame.length] at hj
    rw [hb.lastfree] at hle
    exact h.above hd j hj hle (hnil j hj')
  case array => rw [Table.sizearray, hb.frame.array]; exact h.array
  case next_lt => rw [hb.gnext, hb.frame.length]; exact h.next_lt
  case pred => rw [hb.gnext]; exact h.pred
  case unused =>
    intro j hj
    rw [hb.gval, hb.gnext]
    exact h.unused j (hnil j hj)
  case key =>
    intro j
    rw [hb.gkey]
    split_ifs
    · exact .inr (.inl ⟨p, rfl⟩)
    · exact h.key j
  case live =>
    intro j hj
    rw [hb.gval] at hj
    rw [hb.gkey, if_neg]
    · exact h.live j hj
    · rintro rfl
      exact hj hval
  case acyclic => rw [hb.gnext]; exact h.acyclic
  case reach =>
    intro j hj
    obtain ⟨-, hj'⟩ := hb.gkey_of_isKey hj
    rw [hj'] at hj ⊢
    rw [hb.gnext, hmain]
    exact h.reach j hj
  case occupied =>
    intro j hj hnil'
    obtain ⟨-, hj'⟩ := hb.gkey_of_isKey hj
    rw [hj'] at hj hnil'
    rw [hmain] at hnil'
    exact h.occupied j hj (hnil _ hnil')
  case home =>
    intro j m hj hm
    obtain ⟨-, hj'⟩ := hb.gkey_of_isKey hj
    obtain ⟨-, hm'⟩ := hb.gkey_of_isKey hm
    rw [hj'] at hj ⊢
    rw [hm'] at hm ⊢
    rw [hmain, hmain]
    exact h.home j m hj hm
  case unique =>
    intro j m hj heq
    have hm : (t'.gkey m).IsKey := hj.of_rawequal heq
    obtain ⟨-, hj'⟩ := hb.gkey_of_isKey hj
    obtain ⟨-, hm'⟩ := hb.gkey_of_isKey hm
    rw [hj'] at hj heq
    rw [hm'] at heq
    exact h.unique j m hj heq
  case outside =>
    intro j hj
    obtain ⟨-, hj'⟩ := hb.gkey_of_isKey hj
    rw [hj'] at hj ⊢
    rw [hb.frame.inArray, hb.gval]
    exact h.outside j hj

theorem gcvalue_eq {a b : Value} (h : rawequal a b = true) : gcvalue a = gcvalue b := by
  cases a <;> cases b <;> simp_all [rawequal, gcvalue]

/-- A key with an address of its own is found where it was. -/
theorem Buried.isNextKey {i p : Nat} (hb : Buried t t' i p) (hkey : key.IsKey)
    (haddr : Addressed t key) (j : Nat) : isNextKey t' key j = isNextKey t key j := by
  by_cases hji : j = i
  · subst hji
    have hdead : t'.gkey j = .deadkey p := by rw [hb.gkey, if_pos rfl]
    rw [isNextKey_of_isKey hb.isKey, Bool.eq_iff_iff]
    constructor
    · intro hj
      have hgc : gcvalue (t.gkey j) = gcvalue key := by
        rw [Tables.isNextKey, hdead, Bool.or_eq_true, beq_iff_eq] at hj
        rw [hb.address]
        rcases hj with hj | hj
        · exact gcvalue_eq hj
        · exact hj.symm
      have hne : gcvalue key ≠ none := by
        rw [← hgc, hb.address]
        exact Option.some_ne_none p
      rw [haddr j hb.isKey hne hgc]
      exact rawequal_self hkey
    · intro hj
      have hgc : gcvalue key = some p := (gcvalue_eq hj).symm.trans hb.address
      rw [Tables.isNextKey, hdead, Bool.or_eq_true, beq_iff_eq]
      exact .inr hgc
  · exact isNextKey_congr (by rw [hb.gkey, if_neg hji]) key

theorem Buried.sound {i p : Nat} (hb : Buried t t' i p) (hs : Sound hashes t)
    (hval : t.gval i = .nil) : Sound hashes t' := by
  refine ⟨hb.inv hs.inv hval, fun j hj => ?_, fun j l hj hl => ?_⟩
  · obtain ⟨-, hj'⟩ := hb.gkey_of_isKey hj
    rw [hj'] at hj ⊢
    exact (hs.addressed j hj).congr fun m hm => .inr ⟨m, (hb.gkey_of_isKey hm).2.symm⟩
  · obtain ⟨-, hj'⟩ := hb.gkey_of_isKey hj
    rw [hj'] at hj hl ⊢
    rw [hb.gnext, hb.frame.mainposition] at hl
    rw [find?_congr fun m _ => hb.isNextKey hj (hs.addressed j hj) m]
    exact hs.first j l hj hl

theorem removeentry_cases (h : Inv hashes t) {i : Nat} (ht : removeentry t i = .ok t') :
    t' = t ∨ ∃ p, Buried t t' i p := by
  have hburied : ∀ p, (t.gkey i).IsKey → gcvalue (t.gkey i) = some p →
      t.setNode i { t.gnode i with key := .deadkey p } = .ok t' → Buried t t' i p := by
    intro p hkey hp ht
    rw [setNode_ok (h.isDummy_eq_false hkey)] at ht
    cases ht
    have hnode : ∀ j, (withNode t i { t.gnode i with key := .deadkey p }).gnode j =
        if j = i then { t.gnode i with key := .deadkey p } else t.gnode j :=
      gnode_set (lt_of_gkey_ne (IsKey.ne_nil hkey)) _
    refine ⟨⟨rfl, rfl, rfl, List.length_set .., rfl⟩, rfl, hkey, hp, fun j => ?_, ?_, ?_⟩
    · rw [Table.gkey, hnode]
      split_ifs <;> rfl
    · funext j
      rw [Table.gval, hnode]
      split_ifs with hj
      · rw [hj]
        rfl
      · rfl
    · funext j
      rw [Table.gnext, hnode]
      split_ifs with hj
      · rw [hj]
        rfl
      · rfl
  rw [removeentry] at ht
  split at ht
  · next p hk => exact .inr ⟨p, hburied p (by rw [hk]; trivial) (by rw [hk]; rfl) ht⟩
  · next p hk => exact .inr ⟨p, hburied p (by rw [hk]; trivial) (by rw [hk]; rfl) ht⟩
  · cases ht
    exact .inl rfl

/-! ## Strings at reused addresses -/

/-- The strings among the keys have the hashes that they had. -/
def Rehashed (hashes hashes' : Nat → UInt32) (t : Table) : Prop :=
  ∀ p, (∃ i, t.gkey i = .string p) → hashes' p = hashes p

theorem mainposition_string (t : Table) {k : Value} (h : ∀ p, k = .string p → hashes' p = hashes p) :
    mainposition hashes' t k = mainposition hashes t k := by
  cases k with
  | string p =>
    show hashpow2 t _ = hashpow2 t _
    rw [h p rfl]
  | _ => rfl

theorem Rehashed.mainposition (hh : Rehashed hashes hashes' t) (i : Nat) :
    mainposition hashes' t (t.gkey i) = mainposition hashes t (t.gkey i) :=
  mainposition_string t fun p hp => hh p ⟨i, hp⟩

theorem Inv.rehashed (h : Inv hashes t) (hh : Rehashed hashes hashes' t) : Inv hashes' t := by
  refine { h with reach := ?_, occupied := ?_, home := ?_ }
  · intro i hi
    rw [hh.mainposition]
    exact h.reach i hi
  · intro i hi
    rw [hh.mainposition]
    exact h.occupied i hi
  · intro i j hi hj
    rw [hh.mainposition, hh.mainposition]
    exact h.home i j hi hj

theorem Sound.rehashed (hs : Sound hashes t) (hh : Rehashed hashes hashes' t) :
    Sound hashes' t := by
  refine ⟨hs.inv.rehashed hh, hs.addressed, fun i l hi => ?_⟩
  rw [hh.mainposition]
  exact hs.first i l hi

/-! ## The states of a table -/

/-- The tables that a program can have. A key that is assigned to is at an address of its own; a
string at an address that was free may have any hash. -/
inductive Reachable : (Nat → UInt32) → Table → Prop
  | new {hashes : Nat → UInt32} {narray nhash : Nat} {t : Table} (hn : narray < 2 ^ 31)
      (hh : nhash < 2 ^ 31) (ht : luaH_new narray nhash = .ok t) : Reachable hashes t
  | step {hashes : Nat → UInt32} {t t' : Table} {op : Op} (h : Reachable hashes t)
      (hop : op.Allowed t) (haddr : Addressed t op.assigned) (ht : step hashes t op = .ok t') :
      Reachable hashes t'
  | collect {hashes : Nat → UInt32} {t t' : Table} {i : Nat} (h : Reachable hashes t)
      (hval : t.gval i = .nil) (ht : removeentry t i = .ok t') : Reachable hashes t'
  | reuse {hashes hashes' : Nat → UInt32} {t : Table} (h : Reachable hashes t)
      (hh : Rehashed hashes hashes' t) : Reachable hashes' t

theorem Sound.removeentry (hs : Sound hashes t) {i : Nat} (hval : t.gval i = .nil)
    (ht : removeentry t i = .ok t') : Sound hashes t' := by
  rcases removeentry_cases hs.inv ht with rfl | ⟨p, hb⟩
  · exact hs
  · exact hb.sound hs hval

theorem Reachable.sound (h : Reachable hashes t) : Sound hashes t := by
  induction h with
  | @new hashes narray nhash t hn hh ht =>
    obtain ⟨hinv, hval⟩ := (luaH_new_spec hn hh).ok_of_eq ht
    have hkeys : KeysFrom (fun _ => False) t := KeysFrom.of_setnodevector ht
    have hnil : ∀ i, t.gkey i = .nil := fun i => (hkeys i).resolve_right id
    refine .of_noDead hinv (fun i p hi => ?_) fun i hi => ?_
    · rw [hnil] at hi
      cases hi
    · rw [hnil] at hi
      exact hi.elim
  | step h hop haddr ht ih => exact ih.step hop haddr ht
  | collect h hval ht ih => exact ih.removeentry hval ht
  | reuse h hh ih => exact ih.rehashed hh

end Collector

end Luaxx.Tables
