import Luaxx.Table.Insert

/-!
# `newkey` in a table with room

With a free node there is no rehash: `newkey` does one of the three insertions. Then the store
through the slot of a key, which changes what the table holds under that key and nothing else.
-/

namespace Luaxx.Tables

open Luaxx.Links Luaxx.Result Value

variable {hashes : Nat → UInt32} {t t' : Table} {key : Value}

/-! ## Writing nodes -/

theorem gnode_set {i : Nat} (hi : i < t.node.length) (n : Node) (j : Nat) :
    Table.gnode { t with node := t.node.set i n } j = if j = i then n else t.gnode j := by
  rw [Table.gnode, Table.gnode, List.getD_eq_getElem?_getD, List.getD_eq_getElem?_getD,
    List.getElem?_set]
  split_ifs with h1 h2 h3
  · rfl
  · exact absurd h1.symm h2
  · exact absurd h3.symm h1
  · rfl

/-- The table with one node written. -/
def withNode (t : Table) (i : Nat) (n : Node) : Table := { t with node := t.node.set i n }

@[simp] theorem withNode_isDummy (t : Table) (i : Nat) (n : Node) :
    (withNode t i n).isDummy = t.isDummy := rfl

theorem setNode_ok (hd : t.isDummy = false) (i : Nat) (n : Node) :
    t.setNode i n = .ok (withNode t i n) := by
  rw [Table.setNode, if_neg (by rw [hd]; exact Bool.false_ne_true)]
  rfl

theorem setKey_ok (hd : t.isDummy = false) (mp : Nat) (key : Value) :
    setKey t mp key = .ok (.node mp, withNode t mp { t.gnode mp with key := key }) := by
  rw [setKey, setNode_ok hd]
  rfl

theorem moveNode_ok (hd : t.isDummy = false) {othern mp n prev : Nat}
    (hfind : findPrevious t.gnext mp t.node.length othern = some prev) :
    moveNode t othern mp n =
      let t1 := withNode t prev { t.gnode prev with next := some n }
      let t2 := withNode t1 n (t1.gnode mp)
      .ok (withNode t2 mp { t2.gnode mp with next := none, val := .nil }) := by
  rw [moveNode, hfind]
  simp only [setNode_ok, withNode_isDummy, hd, ok_bind]

theorem chainNode_ok (hd : t.isDummy = false) (mp n : Nat) :
    chainNode t mp n =
      let t1 := withNode t n { t.gnode n with next := t.gnext mp }
      .ok (withNode t1 mp { t1.gnode mp with next := some n }) := by
  simp only [chainNode, setNode_ok, withNode_isDummy, hd, ok_bind]

/-! ## Free positions -/

/-- The number of nodes that have never had a key. -/
def freeNodes (t : Table) : Nat := (List.range t.node.length).countP fun i => (t.gkey i).ttisnil

/-- An insertion takes at most one free node. -/
theorem freeNodes_le {p : Nat} (hlen : t'.node.length = t.node.length)
    (hkey : ∀ j, j ≠ p → t.gkey j = .nil → t'.gkey j = .nil) : freeNodes t ≤ freeNodes t' + 1 := by
  have hsplit : ∀ l : List Nat, l.countP (fun i => (t.gkey i).ttisnil) ≤
      l.countP (fun i => (t'.gkey i).ttisnil) + l.count p := by
    intro l
    induction l with
    | nil => simp
    | cons j l ih =>
      rw [List.countP_cons, List.countP_cons, List.count_cons]
      by_cases hj : j = p
      · simp only [hj, beq_self_eq_true, if_true]
        split_ifs <;> omega
      · have : (t.gkey j).ttisnil = true → (t'.gkey j).ttisnil = true := by
          simpa using hkey j hj
        split_ifs <;> simp_all <;> omega
  have hcount : (List.range t.node.length).count p ≤ 1 :=
    List.nodup_iff_count_le_one.mp List.nodup_range p
  have := hsplit (List.range t.node.length)
  unfold freeNodes
  rw [hlen]
  omega

theorem freeLoop_spec (t : Table) (l : Nat) :
    (∃ n : Nat, freeLoop t l = (some n, (n : Int)) ∧ n < l ∧ t.gkey n = .nil ∧
      ∀ i, n < i → i < l → t.gkey i ≠ .nil) ∨
    (freeLoop t l = (none, -1) ∧ ∀ i < l, t.gkey i ≠ .nil) := by
  induction l with
  | zero => exact .inr ⟨rfl, fun i hi => absurd hi (Nat.not_lt_zero i)⟩
  | succ l ih =>
    rw [freeLoop]
    by_cases hl : t.gkey l = .nil
    · rw [if_pos (ttisnil_iff.mpr hl)]
      exact .inl ⟨l, rfl, Nat.lt_succ_self l, hl, fun i h1 h2 => by omega⟩
    · have hstep : ∀ i, i < l + 1 → (i < l → t.gkey i ≠ .nil) → t.gkey i ≠ .nil := by
        intro i hi hlt
        rcases Nat.lt_succ_iff_lt_or_eq.mp hi with h | rfl
        · exact hlt h
        · exact hl
      rw [if_neg (mt ttisnil_iff.mp hl)]
      rcases ih with ⟨n, h1, h2, h3, h4⟩ | ⟨h1, h2⟩
      · exact .inl ⟨n, h1, by omega, h3, fun i hi hi' => hstep i hi' (h4 i hi)⟩
      · exact .inr ⟨h1, fun i hi => hstep i hi (h2 i)⟩

/-- `getfreepos` finds a free position, or there is none. -/
theorem getfreepos_spec (h : Inv hashes t) :
    (∃ n : Nat, getfreepos t = (some n, { t with lastfree := n }) ∧ FreePos t n) ∨
    (∃ l, getfreepos t = (none, { t with lastfree := l }) ∧ l ≤ 0 ∧
      (t.isDummy = true ∨ freeNodes t = 0)) := by
  have hnone : t.isDummy = false → (∀ i < t.node.length, t.gkey i ≠ .nil) → freeNodes t = 0 := by
    intro _ hall
    rw [freeNodes, List.countP_eq_zero]
    intro i hi
    simpa using hall i (List.mem_range.mp hi)
  have habove : ∀ i < t.node.length, t.isDummy = false → t.lastfree.toNat ≤ i → t.gkey i ≠ .nil :=
    fun i hi hd hle => h.above hd i hi (by omega)
  rw [getfreepos]
  split_ifs with hpos
  · have hd : t.isDummy = false := by
      cases hd : t.isDummy with
      | false => rfl
      | true =>
        have := (h.dummy hd).2
        omega
    have hlast := h.lastfree
    rcases freeLoop_spec t t.lastfree.toNat with ⟨n, h1, h2, h3, h4⟩ | ⟨h1, h2⟩
    · refine .inl ⟨n, by rw [h1], by omega, h3, fun i hi hlt => ?_, hd⟩
      rcases Nat.lt_or_ge i t.lastfree.toNat with hi' | hi'
      · exact h4 i hlt hi'
      · exact habove i hi hd hi'
    · refine .inr ⟨-1, by rw [h1], by omega, .inr (hnone hd fun i hi => ?_)⟩
      rcases Nat.lt_or_ge i t.lastfree.toNat with hi' | hi'
      · exact h2 i hi'
      · exact habove i hi hd hi'
  · refine .inr ⟨_, rfl, by omega, ?_⟩
    cases hd : t.isDummy with
    | true => exact .inl rfl
    | false => exact .inr (hnone hd fun i hi => habove i hi hd (by omega))

/-! ## Insertion with room -/

/-- The key has been inserted at node `i`, with nothing else changed in what the table holds. -/
structure Grown (hashes : Nat → UInt32) (t t' : Table) (key : Value) (i : Nat) : Prop where
  frame : SameFrame t t'
  inv : Inv hashes t'
  placed : Placed t' key i
  value : ∀ k, value hashes t' k = value hashes t k
  free : freeNodes t ≤ freeNodes t' + 1

variable (key) in
theorem setKey_placed {mp : Nat} (hlt : mp < t.node.length) (hd : t.isDummy = false) :
    ∃ t', setKey t mp key = .ok (.node mp, t') ∧ PlacedFree t t' key mp := by
  let t' : Table := { t with node := t.node.set mp { t.gnode mp with key := key } }
  have hnode : ∀ j, t'.gnode j = if j = mp then { t.gnode mp with key := key } else t.gnode j :=
    gnode_set hlt _
  refine ⟨t', ?_, ⟨rfl, rfl, rfl, List.length_set .., rfl⟩, rfl, fun j => ?_, fun j => ?_,
    fun j => ?_⟩
  · rw [setKey, setNode_ok hd]
    rfl
  · rw [Table.gkey, Table.gkey, hnode]
    split_ifs <;> rfl
  · rw [Table.gval, Table.gval, hnode]
    split_ifs with hj
    · rw [hj]
    · rfl
  · rw [Table.gnext, Table.gnext, hnode]
    split_ifs with hj
    · rw [hj]
    · rfl

variable (key) in
theorem moveNode_placed (h : Inv hashes t) {mp n : Nat} (hval : t.gval mp ≠ .nil)
    (hn : FreePos t n) (hforeign : mainposition hashes t (t.gkey mp) ≠ mp) :
    ∃ t' prev, (do
      let t ← moveNode { t with lastfree := n } (mainposition hashes t (t.gkey mp)) mp n
      setKey t mp key) = .ok (.node mp, t') ∧ PlacedMoved t t' key mp n prev ∧
        t.gnext prev = some mp := by
  have hmp := h.live mp hval
  have hd := hn.notDummy
  have hlt : mp < t.node.length := lt_of_gkey_ne (IsKey.ne_nil hmp)
  have hne : mp ≠ n := by
    rintro rfl
    exact IsKey.ne_nil hmp hn.key
  obtain ⟨l, hl, hmem⟩ := h.reach mp hmp
  have hlen : l.length ≤ t.node.length :=
    h.chain_length (h.length ▸ mainposition_lt t _) hl
  obtain ⟨prev, hfind, hprev⟩ := findPrevious_eq hl hmem (Ne.symm hforeign) hlen
  have hprevlt : prev < t.node.length := lt_of_gnext hprev
  have hprev_n : prev ≠ n := by
    rintro rfl
    rw [(h.unused prev hn.key).2.1] at hprev
    cases hprev
  have hprev_mp : prev ≠ mp := by
    rintro rfl
    obtain ⟨l', hl'⟩ := h.acyclic prev
    exact hl'.next_ne hprev
  let t1 : Table := { t with
    lastfree := n, node := t.node.set prev { t.gnode prev with next := some n } }
  let t2 : Table := { t1 with node := t1.node.set n (t1.gnode mp) }
  let t3 : Table := { t2 with node := t2.node.set mp { t2.gnode mp with next := none, val := .nil } }
  let t4 : Table := { t3 with node := t3.node.set mp { t3.gnode mp with key := key } }
  have h1 : ∀ j, t1.gnode j = if j = prev then { t.gnode prev with next := some n } else t.gnode j :=
    fun j => gnode_set (t := { t with lastfree := n }) hprevlt _ j
  have hl1 : t1.node.length = t.node.length := List.length_set ..
  have h2 : ∀ j, t2.gnode j = if j = n then t1.gnode mp else t1.gnode j :=
    gnode_set (t := t1) (by rw [hl1]; exact hn.lt) _
  have hl2 : t2.node.length = t.node.length := (List.length_set ..).trans hl1
  have h3 : ∀ j, t3.gnode j =
      if j = mp then { t2.gnode mp with next := none, val := .nil } else t2.gnode j :=
    gnode_set (t := t2) (by rw [hl2]; exact hlt) _
  have hl3 : t3.node.length = t.node.length := (List.length_set ..).trans hl2
  have h4 : ∀ j, t4.gnode j = if j = mp then { t3.gnode mp with key := key } else t3.gnode j :=
    gnode_set (t := t3) (by rw [hl3]; exact hlt) _
  have hl4 : t4.node.length = t.node.length := (List.length_set ..).trans hl3
  have hnode : ∀ j, t4.gnode j =
      if j = mp then ⟨.nil, key, none⟩ else if j = n then t.gnode mp
      else if j = prev then { t.gnode prev with next := some n } else t.gnode j := by
    intro j
    rw [h4, h3, h3, h2, h2, h1, h1, if_pos rfl, if_neg hne, if_neg (Ne.symm hprev_mp)]
    split_ifs <;> rfl
  refine ⟨t4, prev, ?_, ⟨⟨rfl, rfl, rfl, hl4, rfl⟩, rfl, fun j => ?_, fun j => ?_, fun j => ?_⟩,
    hprev⟩
  · have hfind' : findPrevious ({ t with lastfree := (n : Int) } : Table).gnext mp
        ({ t with lastfree := (n : Int) } : Table).node.length
        (mainposition hashes t (t.gkey mp)) = some prev := hfind
    rw [moveNode_ok (t := { t with lastfree := (n : Int) }) hd hfind', ok_bind]
    exact setKey_ok (t := t3) hd mp key
  · rw [Table.gkey, hnode]
    split_ifs with _ _ hj
    · rfl
    · rfl
    · rw [hj]
      rfl
    · rfl
  · rw [Table.gval, hnode]
    split_ifs with _ _ hj
    · rfl
    · rfl
    · rw [hj]
      rfl
    · rfl
  · rw [Table.gnext, hnode]
    split_ifs <;> rfl

variable (key) in
theorem chainNode_placed (h : Inv hashes t) {mp n : Nat} (hval : t.gval mp ≠ .nil)
    (hn : FreePos t n) :
    ∃ t', (do
      let t ← chainNode { t with lastfree := n } mp n
      setKey t n key) = .ok (.node n, t') ∧ PlacedChained t t' key mp n := by
  have hmp := h.live mp hval
  have hd := hn.notDummy
  have hlt : mp < t.node.length := lt_of_gkey_ne (IsKey.ne_nil hmp)
  have hne : mp ≠ n := by
    rintro rfl
    exact IsKey.ne_nil hmp hn.key
  let t1 : Table := { t with
    lastfree := n, node := t.node.set n { t.gnode n with next := t.gnext mp } }
  let t2 : Table := { t1 with node := t1.node.set mp { t1.gnode mp with next := some n } }
  let t3 : Table := { t2 with node := t2.node.set n { t2.gnode n with key := key } }
  have h1 : ∀ j, t1.gnode j = if j = n then { t.gnode n with next := t.gnext mp } else t.gnode j :=
    fun j => gnode_set (t := { t with lastfree := n }) hn.lt _ j
  have hl1 : t1.node.length = t.node.length := List.length_set ..
  have h2 : ∀ j, t2.gnode j = if j = mp then { t1.gnode mp with next := some n } else t1.gnode j :=
    gnode_set (t := t1) (by rw [hl1]; exact hlt) _
  have hl2 : t2.node.length = t.node.length := (List.length_set ..).trans hl1
  have h3 : ∀ j, t3.gnode j = if j = n then { t2.gnode n with key := key } else t2.gnode j :=
    gnode_set (t := t2) (by rw [hl2]; exact hn.lt) _
  have hl3 : t3.node.length = t.node.length := (List.length_set ..).trans hl2
  have hnode : ∀ j, t3.gnode j =
      if j = n then ⟨t.gval n, key, t.gnext mp⟩
      else if j = mp then { t.gnode mp with next := some n } else t.gnode j := by
    intro j
    rw [h3, h2, h2, h1, h1, h1, if_neg (Ne.symm hne), if_pos rfl, if_neg hne]
    split_ifs with hj hj'
    · rfl
    · rfl
    · rfl
  refine ⟨t3, ?_, ⟨rfl, rfl, rfl, hl3, rfl⟩, rfl, fun j => ?_, fun j => ?_, fun j => ?_⟩
  · rw [chainNode_ok (t := { t with lastfree := (n : Int) }) hd, ok_bind]
    exact setKey_ok (t := t2) hd n key
  · rw [Table.gkey, hnode]
    split_ifs with _ hj
    · rfl
    · rw [hj]
      rfl
    · rfl
  · rw [Table.gval, hnode]
    split_ifs with hj hj
    · rw [hj]
    · rw [hj]
      rfl
    · rfl
  · rw [Table.gnext, hnode]
    split_ifs <;> rfl

/-- How `newkey` inserts a key at node `i` without a rehash. -/
inductive Insertion (hashes : Nat → UInt32) (t t' : Table) (key : Value) : Nat → Prop
  | free (hp : PlacedFree t t' key (mainposition hashes t key))
      (hval : t.gval (mainposition hashes t key) = .nil) (hd : t.isDummy = false) :
      Insertion hashes t t' key (mainposition hashes t key)
  | moved {n prev : Nat} (hp : PlacedMoved t t' key (mainposition hashes t key) n prev)
      (hval : t.gval (mainposition hashes t key) ≠ .nil) (hn : FreePos t n)
      (hforeign : mainposition hashes t (t.gkey (mainposition hashes t key)) ≠
        mainposition hashes t key)
      (hprev : t.gnext prev = some (mainposition hashes t key)) :
      Insertion hashes t t' key (mainposition hashes t key)
  | chained {n : Nat} (hp : PlacedChained t t' key (mainposition hashes t key) n)
      (hval : t.gval (mainposition hashes t key) ≠ .nil) (hn : FreePos t n)
      (hown : mainposition hashes t (t.gkey (mainposition hashes t key)) =
        mainposition hashes t key) :
      Insertion hashes t t' key n

theorem Insertion.grown {i : Nat} (hi : Insertion hashes t t' key i) (h : Inv hashes t)
    (ha : Absent t key) : Grown hashes t t' key i := by
  cases hi with
  | free hp hval hd =>
    have hinv := hp.inv h ha rfl hval hd
    refine ⟨hp.frame, hinv, ⟨?_, ?_⟩, hp.value h hinv hval, ?_⟩
    · rw [hp.gkey, if_pos rfl]
    · rw [hp.gval, hval]
    · refine freeNodes_le (p := mainposition hashes t key) hp.frame.length fun j hj hnil => ?_
      rw [hp.gkey, if_neg hj, hnil]
  | @moved n prev hp hval hn hforeign hprev =>
    have hmp := h.live _ hval
    have hne : mainposition hashes t key ≠ n := fun heq => by
      rw [heq, hn.key] at hmp
      exact hmp
    have hinv := hp.inv h ha hn rfl hmp hforeign hprev
    refine ⟨hp.frame, hinv, ⟨?_, ?_⟩, hp.value h hinv hn hne, ?_⟩
    · rw [hp.gkey, if_pos rfl]
    · rw [hp.gval, if_pos rfl]
    · refine freeNodes_le (p := n) hp.frame.length fun j hj hnil => ?_
      rw [hp.gkey, if_neg, if_neg hj, hnil]
      rintro rfl
      exact IsKey.ne_nil hmp hnil
  | chained hp hval hn hown =>
    have hinv := hp.inv h ha hn rfl (h.live _ hval) hown
    refine ⟨hp.frame, hinv, ⟨?_, ?_⟩, hp.value h hinv hn, ?_⟩
    · rw [hp.gkey, if_pos rfl]
    · rw [hp.gval, (h.unused i hn.key).1]
    · refine freeNodes_le (p := i) hp.frame.length fun j hj hnil => ?_
      rw [hp.gkey, if_neg hj, hnil]

/-- `newkey` with any growth of a table without a free node. -/
def newkeyWith (hashes : Nat → UInt32) (grow : Table → Value → M (Slot × Table)) (t : Table)
    (key : Value) : M (Slot × Table) :=
  let mp := mainposition hashes t key
  if (t.gval mp).ttisnil && !t.isDummy then setKey t mp key
  else
    match getfreepos t with
    | (none, t) => grow t key
    | (some n, t) =>
      let othern := mainposition hashes t (t.gkey mp)
      if othern ≠ mp then do
        let t ← moveNode t othern mp n
        setKey t mp key
      else do
        let t ← chainNode t mp n
        setKey t n key

/-- The growth of `newkey`, whose insertions may grow the table again. -/
def regrow (hashes : Nat → UInt32) (nk : Table → Value → M (Slot × Table)) (t : Table)
    (key : Value) : M (Slot × Table) := do
  let t ← rehash hashes nk t key
  setWith hashes nk t key

theorem newkey_eq (hashes : Nat → UInt32) (fuel : Nat) :
    newkey hashes (fuel + 1) = newkeyWith hashes (regrow hashes (newkey hashes fuel)) := by
  funext t key
  rfl

/-- The main position of the key is taken, and `getfreepos` finds no free node. -/
structure Crowded (hashes : Nat → UInt32) (t : Table) (key : Value) (l : Int) : Prop where
  taken : ((t.gval (mainposition hashes t key)).ttisnil && !t.isDummy) = false
  none : getfreepos t = (none, { t with lastfree := l })

theorem Crowded.newkeyWith {l : Int} (hc : Crowded hashes t key l)
    (grow : Table → Value → M (Slot × Table)) :
    newkeyWith hashes grow t key = grow { t with lastfree := l } key := by
  rw [Tables.newkeyWith]
  simp only [hc.taken, Bool.false_eq_true, if_false, hc.none]

/-- `newkey` inserts the key, or there is no free node and it grows the table. -/
theorem newkeyWith_insertion (h : Inv hashes t) (key : Value) :
    (∃ i t', (∀ grow, newkeyWith hashes grow t key = .ok (.node i, t')) ∧
      Insertion hashes t t' key i) ∨
    ∃ l : Int, l ≤ 0 ∧ (t.isDummy = true ∨ freeNodes t = 0) ∧ Crowded hashes t key l := by
  by_cases hfree : t.gval (mainposition hashes t key) = .nil ∧ t.isDummy = false
  · obtain ⟨hval, hd⟩ := hfree
    have hlt : mainposition hashes t key < t.node.length := h.length ▸ mainposition_lt t key
    obtain ⟨t', ht', hp⟩ := setKey_placed key hlt hd
    refine .inl ⟨_, t', fun grow => ?_, .free hp hval hd⟩
    rw [newkeyWith]
    simp only [hval, hd]
    exact ht'
  have hcond : ((t.gval (mainposition hashes t key)).ttisnil && !t.isDummy) = false := by
    rw [Bool.eq_false_iff, ne_eq, Bool.and_eq_true, ttisnil_iff, Bool.not_eq_true']
    exact hfree
  rcases getfreepos_spec h with ⟨n, hget, hn⟩ | ⟨l, hget, hl, hnone⟩
  · have hval : t.gval (mainposition hashes t key) ≠ .nil := fun hval =>
      hfree ⟨hval, hn.notDummy⟩
    have hcongr : ∀ k, mainposition hashes { t with lastfree := (n : Int) } k =
        mainposition hashes t k := mainposition_congr rfl
    left
    by_cases hforeign : mainposition hashes t (t.gkey (mainposition hashes t key)) ≠
        mainposition hashes t key
    · obtain ⟨t', prev, ht', hp, hprev⟩ := moveNode_placed key h hval hn hforeign
      refine ⟨_, t', fun grow => ?_, .moved hp hval hn hforeign hprev⟩
      rw [newkeyWith]
      simp only [hcond, Bool.false_eq_true, if_false, hget, hcongr]
      exact (if_pos hforeign).trans ht'
    · obtain ⟨t', ht', hp⟩ := chainNode_placed key h hval hn
      refine ⟨_, t', fun grow => ?_, .chained hp hval hn (not_not.mp hforeign)⟩
      rw [newkeyWith]
      simp only [hcond, Bool.false_eq_true, if_false, hget, hcongr]
      exact (if_neg hforeign).trans ht'
  · exact .inr ⟨l, hl, hnone, hcond, hget⟩

/-- `newkey` inserts the key, or there is no free node and it calls `rehash`. -/
theorem newkey_insertion (h : Inv hashes t) (key : Value) (fuel : Nat) :
    (∃ i t', newkey hashes (fuel + 1) t key = .ok (.node i, t') ∧ Insertion hashes t t' key i) ∨
    ∃ l : Int, l ≤ 0 ∧ (t.isDummy = true ∨ freeNodes t = 0) ∧
      newkey hashes (fuel + 1) t key =
        (rehash hashes (newkey hashes fuel) { t with lastfree := l } key >>= fun t =>
          setWith hashes (newkey hashes fuel) t key) := by
  rw [newkey_eq]
  rcases newkeyWith_insertion h key with ⟨i, t', hnew, hi⟩ | ⟨l, hl, hfull, hcrowded⟩
  · exact .inl ⟨i, t', hnew _, hi⟩
  · exact .inr ⟨l, hl, hfull, hcrowded.newkeyWith _⟩

theorem newkey_cases (h : Inv hashes t) (ha : Absent t key) (fuel : Nat) :
    (∃ i t', newkey hashes (fuel + 1) t key = .ok (.node i, t') ∧ Grown hashes t t' key i) ∨
    ∃ l : Int, l ≤ 0 ∧ (t.isDummy = true ∨ freeNodes t = 0) ∧
      newkey hashes (fuel + 1) t key =
        (rehash hashes (newkey hashes fuel) { t with lastfree := l } key >>= fun t =>
          setWith hashes (newkey hashes fuel) t key) :=
  (newkey_insertion h key fuel).imp_left fun ⟨i, t', hnew, hi⟩ => ⟨i, t', hnew, hi.grown h ha⟩

/-- A table that `getfreepos` has found to be full keeps the invariant. -/
theorem Inv.full (h : Inv hashes t) {l : Int} (hl : l ≤ 0)
    (hfull : t.isDummy = true ∨ freeNodes t = 0) : Inv hashes { t with lastfree := l } := by
  refine { h with dummy := fun hd => ⟨(h.dummy hd).1, hl⟩, lastfree := ?_, above := ?_ }
  · show l ≤ (t.node.length : Int)
    omega
  · intro hd i hi _
    rcases hfull with hfull | hfull
    · rw [hfull] at hd
      cases hd
    · rw [freeNodes, List.countP_eq_zero] at hfull
      exact fun hnil => hfull i (List.mem_range.mpr hi) (ttisnil_iff.mpr hnil)

end Luaxx.Tables
