import Luaxx.Lib.Result
import Luaxx.Table.Invariant

/-!
# Insertion of a new key

The three ways in which `newkey` finds a node for a key, each as what it makes of the keys, values
and links of the nodes. All of them keep the invariant and what the table holds, and leave a node
with the key and no value.
-/

namespace Luaxx.Tables

open Luaxx.Links Luaxx.Result Value

variable {hashes : Nat → UInt32} {t t' : Table} {key : Value}

/-- The key can be inserted: it is one, has no place in the array part and is in no node. -/
structure Absent (t : Table) (key : Value) : Prop where
  isKey : key.IsKey
  out : ¬ InArray t key
  node : ∀ i, rawequal (t.gkey i) key = false

theorem Absent.ne {i : Nat} (h : Absent t key) : ¬ rawequal key (t.gkey i) = true := by
  rw [rawequal_comm, h.node]
  exact Bool.false_ne_true

/-- What the insertion of a key at a node leaves as it is. -/
structure SameFrame (t t' : Table) : Prop where
  array : t'.array = t.array
  isDummy : t'.isDummy = t.isDummy
  lsizenode : t'.lsizenode = t.lsizenode
  length : t'.node.length = t.node.length
  block : t'.block = t.block

theorem SameFrame.inArray (h : SameFrame t t') (key : Value) : InArray t' key ↔ InArray t key := by
  rw [InArray, InArray, Table.sizearray, Table.sizearray, h.array]

theorem SameFrame.mainposition (h : SameFrame t t') (key : Value) :
    mainposition hashes t' key = mainposition hashes t key :=
  mainposition_congr h.lsizenode key

theorem SameFrame.sizenode (h : SameFrame t t') : t'.sizenode = t.sizenode := by
  rw [Table.sizenode, Table.sizenode, h.lsizenode]

/-- The key is in a node, without a value yet. -/
structure Placed (t' : Table) (key : Value) (i : Nat) : Prop where
  gkey : t'.gkey i = key
  gval : t'.gval i = .nil

section Free

variable {mp : Nat}

/-- The main position is free. -/
structure PlacedFree (t t' : Table) (key : Value) (mp : Nat) : Prop where
  frame : SameFrame t t'
  lastfree : t'.lastfree = t.lastfree
  gkey : ∀ j, t'.gkey j = if j = mp then key else t.gkey j
  gval : ∀ j, t'.gval j = t.gval j
  gnext : ∀ j, t'.gnext j = t.gnext j

theorem PlacedFree.inv (hp : PlacedFree t t' key mp) (h : Inv hashes t) (ha : Absent t key)
    (hmp : mainposition hashes t key = mp) (hval : t.gval mp = .nil) (hd : t.isDummy = false) :
    Inv hashes t' := by
  have hnext : t'.gnext = t.gnext := funext hp.gnext
  have hnil : ∀ j, t'.gkey j = .nil → j ≠ mp ∧ t.gkey j = .nil := by
    intro j hj
    rw [hp.gkey] at hj
    split_ifs at hj with hjm
    · exact absurd hj (IsKey.ne_nil ha.isKey)
    · exact ⟨hjm, hj⟩
  have hmain : ∀ k, mainposition hashes t' k = mainposition hashes t k := hp.frame.mainposition
  have hne : ∀ i, t.gval i ≠ .nil → i ≠ mp := by
    rintro i hi rfl
    exact hi hval
  constructor
  case length => rw [hp.frame.length, hp.frame.sizenode, h.length]
  case small => rw [hp.frame.lsizenode]; exact h.small
  case dummy => intro hd'; rw [hp.frame.isDummy, hd] at hd'; cases hd'
  case lastfree => rw [hp.lastfree, hp.frame.length]; exact h.lastfree
  case above =>
    intro _ i hi hle hnil'
    rw [hp.frame.length] at hi
    rw [hp.lastfree] at hle
    exact h.above hd i hi hle (hnil i hnil').2
  case array => rw [Table.sizearray, hp.frame.array]; exact h.array
  case next_lt => intro i j hij; rw [hp.frame.length]; exact h.next_lt i j (hnext ▸ hij)
  case pred => intro i j k hi hj; exact h.pred i j k (hnext ▸ hi) (hnext ▸ hj)
  case unused =>
    intro i hi
    rw [hp.gval, hnext]
    exact h.unused i (hnil i hi).2
  case key =>
    intro i
    rw [hp.gkey]
    split_ifs
    · exact .inr (.inr ha.isKey)
    · exact h.key i
  case live =>
    intro i hi
    rw [hp.gval] at hi
    rw [hp.gkey, if_neg (hne i hi)]
    exact h.live i hi
  case acyclic => rw [hnext]; exact h.acyclic
  case reach =>
    intro i
    rw [hp.gkey, hnext, hmain]
    split_ifs with him
    · intro _
      obtain ⟨l, hl⟩ := h.acyclic mp
      rw [hmp, him]
      exact ⟨l, hl, hl.mem_self⟩
    · exact h.reach i
  case occupied =>
    intro i hi hnil'
    obtain ⟨hne, hnil'⟩ := hnil _ hnil'
    rw [hmain, hp.gkey] at hne hnil'
    rw [hp.gkey] at hi
    split_ifs at hi hne hnil'
    · exact hne hmp
    · exact h.occupied i hi hnil'
  case home =>
    intro i j hi hj hne
    rw [hp.gkey] at hi hj hne
    rw [hp.gkey]
    rw [hmain] at hne ⊢
    by_cases him : i = mp
    · rw [if_pos him, hmp, him] at hne
      exact absurd rfl hne
    · rw [if_neg him] at hi hne
      by_cases hjm : j = mp
      · rw [if_pos hjm, hmp]
        exact Ne.symm him
      · rw [if_neg hjm] at hj ⊢
        exact h.home i j hi hj hne
  case unique =>
    intro i j hi heq
    rw [hp.gkey] at hi heq
    rw [hp.gkey] at heq
    split_ifs at hi heq with him hjm hjm
    · rw [him, hjm]
    · exact absurd heq ha.ne
    · rw [ha.node] at heq
      cases heq
    · exact h.unique i j hi heq
  case outside =>
    intro i
    rw [hp.frame.inArray, hp.gkey]
    rw [hp.gval]
    split_ifs
    · exact fun _ hin => absurd hin ha.out
    · exact h.outside i

theorem PlacedFree.value (hp : PlacedFree t t' key mp) (h : Inv hashes t) (h' : Inv hashes t')
    (hval : t.gval mp = .nil) (k : Value) : value hashes t' k = value hashes t k := by
  have hne : ∀ i, t.gval i ≠ .nil → i ≠ mp := by
    rintro i hi rfl
    exact hi hval
  refine value_congr h h' hp.frame.array (fun i hi => ⟨i, ?_, hp.gval i⟩) (fun i hi => ⟨i, ?_, ?_⟩) k
  · rw [hp.gkey, if_neg (hne i hi)]
  · rw [hp.gval] at hi
    rw [hp.gkey, if_neg (hne i hi)]
  · exact (hp.gval i).symm

end Free

section Moved

variable {mp n prev : Nat}

/-- The node at the main position has moved to `n`. -/
structure PlacedMoved (t t' : Table) (key : Value) (mp n prev : Nat) : Prop where
  frame : SameFrame t t'
  lastfree : t'.lastfree = n
  gkey : ∀ j, t'.gkey j = if j = mp then key else if j = n then t.gkey mp else t.gkey j
  gval : ∀ j, t'.gval j = if j = mp then .nil else if j = n then t.gval mp else t.gval j
  gnext : ∀ j, t'.gnext j =
    if j = mp then none else if j = n then t.gnext mp else if j = prev then some n else t.gnext j

/-- A free position above which there is none. -/
structure FreePos (t : Table) (n : Nat) : Prop where
  lt : n < t.node.length
  key : t.gkey n = .nil
  above : ∀ i < t.node.length, n < i → t.gkey i ≠ .nil
  notDummy : t.isDummy = false

/-- The main position of a key in a node is not free. -/
theorem main_ne_free (h : Inv hashes t) (hn : FreePos t n) {i : Nat} (hi : (t.gkey i).IsKey) :
    mainposition hashes t (t.gkey i) ≠ n :=
  fun heq => h.occupied i hi (heq ▸ hn.key)

theorem PlacedMoved.relocated (hp : PlacedMoved t t' key mp n prev) (h : Inv hashes t)
    (hn : FreePos t n) (hmp : (t.gkey mp).IsKey) (hprev : t.gnext prev = some mp) :
    Relocated t.gnext t'.gnext mp n where
  unlinked := (h.unused n hn.key).2.2
  ne := by
    rintro rfl
    exact IsKey.ne_nil hmp hn.key
  target := by
    have hne : n ≠ mp := by
      rintro rfl
      exact IsKey.ne_nil hmp hn.key
    rw [hp.gnext, if_neg hne, if_pos rfl]
  pred := by
    intro i hi
    obtain rfl := h.pred i prev mp hi hprev
    have hin : i ≠ n := by
      rintro rfl
      rw [(h.unused i hn.key).2.1] at hi
      cases hi
    have him : i ≠ mp := by
      rintro rfl
      obtain ⟨l, hl⟩ := h.acyclic i
      exact hl.next_ne hi
    rw [hp.gnext, if_neg him, if_neg hin, if_pos rfl]
  other := by
    intro i him hin hi
    rw [hp.gnext, if_neg him, if_neg hin, if_neg]
    rintro rfl
    exact hi hprev

theorem PlacedMoved.cases (hp : PlacedMoved t t' key mp n prev) (j : Nat) :
    (j = mp ∧ t'.gkey j = key ∧ t'.gval j = .nil) ∨
    (j = n ∧ t'.gkey j = t.gkey mp ∧ t'.gval j = t.gval mp) ∨
    (j ≠ mp ∧ j ≠ n ∧ t'.gkey j = t.gkey j ∧ t'.gval j = t.gval j) := by
  rw [hp.gkey, hp.gval]
  by_cases hjm : j = mp
  · exact .inl ⟨hjm, if_pos hjm, if_pos hjm⟩
  · rw [if_neg hjm, if_neg hjm]
    by_cases hjn : j = n
    · exact .inr (.inl ⟨hjn, if_pos hjn, if_pos hjn⟩)
    · exact .inr (.inr ⟨hjm, hjn, if_neg hjn, if_neg hjn⟩)

theorem PlacedMoved.nil (hp : PlacedMoved t t' key mp n prev) (hkey : key.IsKey)
    (hmp : (t.gkey mp).IsKey) {j : Nat} (hj : t'.gkey j = .nil) :
    j ≠ mp ∧ j ≠ n ∧ t.gkey j = .nil := by
  rcases hp.cases j with ⟨-, hk, -⟩ | ⟨-, hk, -⟩ | ⟨h1, h2, hk, -⟩ <;> rw [hk] at hj
  · exact absurd hj (IsKey.ne_nil hkey)
  · exact absurd hj (IsKey.ne_nil hmp)
  · exact ⟨h1, h2, hj⟩

/-- The links end where they did, but for that of the key that has moved. -/
theorem PlacedMoved.pred (hp : PlacedMoved t t' key mp n prev) (h : Inv hashes t)
    (hr : Relocated t.gnext t'.gnext mp n) :
    ∀ i j k, t'.gnext i = some k → t'.gnext j = some k → i = j := by
  have horigin : ∀ i k, t'.gnext i = some k →
      (k = n ∧ i = prev) ∨ (k ≠ n ∧ ∃ i', t.gnext i' = some k ∧ i = moved mp n i') := by
    intro i k hi
    rw [hp.gnext] at hi
    split_ifs at hi with h1 h2 h3
    · refine .inr ⟨?_, mp, hi, by rw [moved, if_pos rfl, h2]⟩
      rintro rfl
      exact hr.unlinked mp hi
    · exact .inl ⟨(Option.some.inj hi).symm, h3⟩
    · refine .inr ⟨?_, i, hi, by rw [moved, if_neg h1]⟩
      rintro rfl
      exact hr.unlinked i hi
  intro i j k hi hj
  rcases horigin i k hi with ⟨rfl, rfl⟩ | ⟨hk, i', hi', rfl⟩
  · rcases horigin j k hj with ⟨-, rfl⟩ | ⟨hk, -⟩
    · rfl
    · exact absurd rfl hk
  · rcases horigin j k hj with ⟨rfl, -⟩ | ⟨-, j', hj', rfl⟩
    · exact absurd rfl hk
    · rw [h.pred i' j' k hi' hj']

theorem PlacedMoved.unused (hp : PlacedMoved t t' key mp n prev) (h : Inv hashes t)
    (hkey : key.IsKey) (hmp : (t.gkey mp).IsKey) (hprev : t.gnext prev = some mp) :
    ∀ i, t'.gkey i = .nil → t'.gval i = .nil ∧ t'.gnext i = none ∧ ∀ j, t'.gnext j ≠ some i := by
  intro i hi
  obtain ⟨him, hin, hi'⟩ := hp.nil hkey hmp hi
  obtain ⟨hv, hnext, hun⟩ := h.unused i hi'
  refine ⟨?_, ?_, fun j hj => ?_⟩
  · rw [hp.gval, if_neg him, if_neg hin, hv]
  · rw [hp.gnext, if_neg him, if_neg hin, if_neg, hnext]
    rintro rfl
    rw [hnext] at hprev
    cases hprev
  · rw [hp.gnext] at hj
    split_ifs at hj
    · exact hun mp hj
    · exact hin (Option.some.inj hj).symm
    · exact hun j hj

theorem PlacedMoved.acyclic (hp : PlacedMoved t t' key mp n prev) (h : Inv hashes t)
    (hr : Relocated t.gnext t'.gnext mp n) (i : Nat) : ∃ l, Chain t'.gnext i l := by
  by_cases him : i = mp
  · exact ⟨_, .last (by rw [hp.gnext, if_pos him])⟩
  by_cases hin : i = n
  · obtain ⟨l, hl⟩ := h.acyclic mp
    have := hl.relocate hr hr.ne
    rw [moved, if_pos rfl] at this
    exact ⟨_, hin ▸ this⟩
  · obtain ⟨l, hl⟩ := h.acyclic i
    have := hl.relocate hr hin
    rw [moved, if_neg him] at this
    exact ⟨_, this⟩

theorem PlacedMoved.home (hp : PlacedMoved t t' key mp n prev) (h : Inv hashes t) (hn : FreePos t n)
    (hmain : mainposition hashes t key = mp) (hmp : (t.gkey mp).IsKey) (hne' : mp ≠ n) {i j : Nat}
    (hi : (t'.gkey i).IsKey) (hj : (t'.gkey j).IsKey)
    (hne : mainposition hashes t (t'.gkey i) ≠ i) : mainposition hashes t (t'.gkey j) ≠ i := by
  have hmain_j : mainposition hashes t (t'.gkey j) ≠ n ∧
      (i ≠ mp → i ≠ n → (t.gkey i).IsKey → mainposition hashes t (t.gkey i) ≠ i →
        mainposition hashes t (t'.gkey j) ≠ i) := by
    rcases hp.cases j with ⟨-, hk, -⟩ | ⟨-, hk, -⟩ | ⟨-, -, hk, -⟩ <;> rw [hk] at hj ⊢
    · rw [hmain]
      exact ⟨hne', fun h1 _ _ _ => Ne.symm h1⟩
    · exact ⟨main_ne_free h hn hmp, fun _ _ hi' hf => h.home i mp hi' hmp hf⟩
    · exact ⟨main_ne_free h hn hj, fun _ _ hi' hf => h.home i j hi' hj hf⟩
  rcases hp.cases i with ⟨rfl, hk, -⟩ | ⟨rfl, -, -⟩ | ⟨him, hin, hk, -⟩
  · rw [hk] at hne
    exact absurd hmain hne
  · exact hmain_j.1
  · rw [hk] at hi hne
    exact hmain_j.2 him hin hi hne

theorem PlacedMoved.unique (hp : PlacedMoved t t' key mp n prev) (h : Inv hashes t)
    (ha : Absent t key) {i j : Nat} (hi : (t'.gkey i).IsKey)
    (heq : rawequal (t'.gkey i) (t'.gkey j) = true) : i = j := by
  -- where an old key was
  have hwas : ∀ i, i ≠ mp → ∃ i', t'.gkey i = t.gkey i' ∧ i = moved mp n i' := by
    intro i him
    rcases hp.cases i with ⟨rfl, -, -⟩ | ⟨rfl, hk, -⟩ | ⟨_, _, hk, -⟩
    · exact absurd rfl him
    · exact ⟨mp, hk, by rw [moved, if_pos rfl]⟩
    · exact ⟨i, hk, by rw [moved, if_neg him]⟩
  have hmpkey : t'.gkey mp = key := by rw [hp.gkey, if_pos rfl]
  by_cases him : i = mp <;> by_cases hjm : j = mp
  · rw [him, hjm]
  · obtain ⟨j', hj', -⟩ := hwas j hjm
    rw [him, hmpkey, hj'] at heq
    exact absurd heq ha.ne
  · obtain ⟨i', hi', -⟩ := hwas i him
    rw [hjm, hmpkey, hi', ha.node] at heq
    cases heq
  · obtain ⟨i', hi', hi''⟩ := hwas i him
    obtain ⟨j', hj', hj''⟩ := hwas j hjm
    rw [hi'] at hi
    rw [hi', hj'] at heq
    rw [hi'', hj'', h.unique i' j' hi heq]

theorem PlacedMoved.inv (hp : PlacedMoved t t' key mp n prev) (h : Inv hashes t)
    (ha : Absent t key) (hn : FreePos t n) (hmain : mainposition hashes t key = mp)
    (hmp : (t.gkey mp).IsKey) (hforeign : mainposition hashes t (t.gkey mp) ≠ mp)
    (hprev : t.gnext prev = some mp) : Inv hashes t' := by
  have hr := hp.relocated h hn hmp hprev
  have hmain' : ∀ k, mainposition hashes t' k = mainposition hashes t k := hp.frame.mainposition
  have hcases := hp.cases
  have hne_mp : ∀ i, (t.gkey i).IsKey → mainposition hashes t (t.gkey i) ≠ mp :=
    fun i hi => h.home mp i hmp hi hforeign
  have hchain : ∀ i, (t.gkey i).IsKey →
      ∃ l, Chain t'.gnext (mainposition hashes t (t.gkey i)) l ∧ moved mp n i ∈ l := by
    intro i hi
    obtain ⟨l, hl, hmem⟩ := h.reach i hi
    have := hl.relocate hr (main_ne_free h hn hi)
    rw [moved, if_neg (hne_mp i hi)] at this
    exact ⟨_, this, List.mem_map_of_mem hmem⟩
  constructor
  case length => rw [hp.frame.length, hp.frame.sizenode, h.length]
  case small => rw [hp.frame.lsizenode]; exact h.small
  case dummy => intro hd; rw [hp.frame.isDummy, hn.notDummy] at hd; cases hd
  case lastfree =>
    have := hn.lt
    rw [hp.lastfree, hp.frame.length]
    omega
  case above =>
    intro _ i hi hle hi'
    rw [hp.frame.length] at hi
    rw [hp.lastfree] at hle
    obtain ⟨-, hin, hi'⟩ := hp.nil ha.isKey hmp hi'
    exact hn.above i hi (by omega) hi'
  case array => rw [Table.sizearray, hp.frame.array]; exact h.array
  case next_lt =>
    intro i j hij
    rw [hp.gnext] at hij
    rw [hp.frame.length]
    split_ifs at hij
    · exact h.next_lt mp j hij
    · cases hij
      exact hn.lt
    · exact h.next_lt i j hij
  case pred => exact hp.pred h hr
  case unused => exact hp.unused h ha.isKey hmp hprev
  case key =>
    intro i
    rcases hcases i with ⟨-, hk, -⟩ | ⟨-, hk, -⟩ | ⟨-, -, hk, -⟩ <;> rw [hk]
    · exact .inr (.inr ha.isKey)
    · exact .inr (.inr hmp)
    · exact h.key i
  case live =>
    intro i hi
    rcases hcases i with ⟨-, -, hv⟩ | ⟨-, hk, -⟩ | ⟨-, -, hk, hv⟩
    · exact absurd hv hi
    · rw [hk]
      exact hmp
    · rw [hk]
      exact h.live i (hv ▸ hi)
  case acyclic => exact hp.acyclic h hr
  case reach =>
    intro i hi
    rw [hmain']
    rcases hcases i with ⟨rfl, hk, -⟩ | ⟨rfl, hk, -⟩ | ⟨him, -, hk, -⟩
    · rw [hk, hmain]
      exact ⟨_, .last (by rw [hp.gnext, if_pos rfl]), List.mem_cons_self ..⟩
    · rw [hk]
      obtain ⟨l, hl, hmem⟩ := hchain mp hmp
      rw [moved, if_pos rfl] at hmem
      exact ⟨l, hl, hmem⟩
    · rw [hk] at hi ⊢
      obtain ⟨l, hl, hmem⟩ := hchain i hi
      rw [moved, if_neg him] at hmem
      exact ⟨l, hl, hmem⟩
  case occupied =>
    intro i hi hnil'
    obtain ⟨hm, -, hnil'⟩ := hp.nil ha.isKey hmp hnil'
    rw [hmain'] at hm hnil'
    rcases hcases i with ⟨-, hk, -⟩ | ⟨-, hk, -⟩ | ⟨-, -, hk, -⟩ <;> rw [hk] at hi hm hnil'
    · exact hm hmain
    · exact h.occupied mp hmp hnil'
    · exact h.occupied i hi hnil'
  case home =>
    intro i j hi hj hne
    rw [hmain'] at hne ⊢
    exact hp.home h hn hmain hmp hr.ne hi hj hne
  case unique => exact fun i j hi heq => hp.unique h ha hi heq
  case outside =>
    intro i hi hin
    rw [hp.frame.inArray] at hin
    rcases hcases i with ⟨-, hk, -⟩ | ⟨-, hk, hv⟩ | ⟨-, -, hk, hv⟩ <;> rw [hk] at hi hin
    · exact absurd hin ha.out
    · rw [hv]
      exact h.outside mp hmp hin
    · rw [hv]
      exact h.outside i hi hin

theorem PlacedMoved.value (hp : PlacedMoved t t' key mp n prev) (h : Inv hashes t)
    (h' : Inv hashes t') (hn : FreePos t n) (hne : mp ≠ n) (k : Value) :
    value hashes t' k = value hashes t k := by
  refine value_congr h h' hp.frame.array (fun i hi => ?_) (fun j hj => ?_) k
  · by_cases him : i = mp
    · exact ⟨n, by rw [hp.gkey, if_neg (Ne.symm hne), if_pos rfl, him],
        by rw [hp.gval, if_neg (Ne.symm hne), if_pos rfl, him]⟩
    · have hin : i ≠ n := by
        rintro rfl
        exact hi (h.unused i hn.key).1
      exact ⟨i, by rw [hp.gkey, if_neg him, if_neg hin], by rw [hp.gval, if_neg him, if_neg hin]⟩
  · rcases hp.cases j with ⟨-, -, hv⟩ | ⟨-, hk, hv⟩ | ⟨-, -, hk, hv⟩
    · exact absurd hv hj
    · exact ⟨mp, hk.symm, hv.symm⟩
    · exact ⟨j, hk.symm, hv.symm⟩

end Moved

section Chained

variable {mp n : Nat}

/-- The new key is at `n`, which is linked in after the main position. -/
structure PlacedChained (t t' : Table) (key : Value) (mp n : Nat) : Prop where
  frame : SameFrame t t'
  lastfree : t'.lastfree = n
  gkey : ∀ j, t'.gkey j = if j = n then key else t.gkey j
  gval : ∀ j, t'.gval j = t.gval j
  gnext : ∀ j, t'.gnext j = if j = n then t.gnext mp else if j = mp then some n else t.gnext j

theorem PlacedChained.inserted (hp : PlacedChained t t' key mp n) (h : Inv hashes t)
    (hn : FreePos t n) (hne : mp ≠ n) : Inserted t.gnext t'.gnext mp n where
  unlinked := (h.unused n hn.key).2.2
  ne := hne
  link := by rw [hp.gnext, if_neg hne, if_pos rfl]
  target := by rw [hp.gnext, if_pos rfl]
  other := fun i him hin => by rw [hp.gnext, if_neg hin, if_neg him]

theorem PlacedChained.gkey_new (hp : PlacedChained t t' key mp n) : t'.gkey n = key := by
  rw [hp.gkey, if_pos rfl]

theorem PlacedChained.gkey_old (hp : PlacedChained t t' key mp n) {j : Nat} (hj : j ≠ n) :
    t'.gkey j = t.gkey j := by
  rw [hp.gkey, if_neg hj]

theorem PlacedChained.nil (hp : PlacedChained t t' key mp n) (hkey : key.IsKey) {j : Nat}
    (hj : t'.gkey j = .nil) : j ≠ n ∧ t.gkey j = .nil := by
  by_cases hjn : j = n
  · rw [hjn, hp.gkey_new] at hj
    exact absurd hj (IsKey.ne_nil hkey)
  · exact ⟨hjn, hp.gkey_old hjn ▸ hj⟩

/-- The main position is linked to the new key, which has its link. -/
theorem PlacedChained.pred (hp : PlacedChained t t' key mp n) (h : Inv hashes t)
    (hn_pred : ∀ j, t.gnext j ≠ some n) :
    ∀ i j k, t'.gnext i = some k → t'.gnext j = some k → i = j := by
  have horigin : ∀ i k, t'.gnext i = some k → (k = n ∧ i = mp) ∨
      (k ≠ n ∧ i = n ∧ t.gnext mp = some k) ∨ (k ≠ n ∧ i ≠ mp ∧ i ≠ n ∧ t.gnext i = some k) := by
    intro i k hi
    rw [hp.gnext] at hi
    have hkn : ∀ {j}, t.gnext j = some k → k ≠ n := fun hj hkn => hn_pred _ (hkn ▸ hj)
    split_ifs at hi with h1 h2
    · exact .inr (.inl ⟨hkn hi, h1, hi⟩)
    · exact .inl ⟨(Option.some.inj hi).symm, h2⟩
    · exact .inr (.inr ⟨hkn hi, h2, h1, hi⟩)
  intro i j k hi hj
  rcases horigin i k hi with ⟨hk, rfl⟩ | ⟨hk, rfl, hi'⟩ | ⟨hk, him, hin, hi'⟩ <;>
    rcases horigin j k hj with ⟨hk', rfl⟩ | ⟨hk', rfl, hj'⟩ | ⟨hk', hjm, hjn, hj'⟩
  · rfl
  · exact absurd hk hk'
  · exact absurd hk hk'
  · exact absurd hk' hk
  · rfl
  · exact absurd (h.pred j mp k hj' hi') hjm
  · exact absurd hk' hk
  · exact absurd (h.pred i mp k hi' hj') him
  · exact h.pred i j k hi' hj'

theorem PlacedChained.unused (hp : PlacedChained t t' key mp n) (h : Inv hashes t)
    (hkey : key.IsKey) (hmp : (t.gkey mp).IsKey) :
    ∀ i, t'.gkey i = .nil → t'.gval i = .nil ∧ t'.gnext i = none ∧ ∀ j, t'.gnext j ≠ some i := by
  intro i hi
  obtain ⟨hin, hi'⟩ := hp.nil hkey hi
  obtain ⟨hv, hnext, hun⟩ := h.unused i hi'
  have him : i ≠ mp := by
    rintro rfl
    exact IsKey.ne_nil hmp hi'
  refine ⟨?_, ?_, fun j hj => ?_⟩
  · rw [hp.gval, hv]
  · rw [hp.gnext, if_neg hin, if_neg him, hnext]
  · rw [hp.gnext] at hj
    split_ifs at hj
    · exact hun mp hj
    · exact hin (Option.some.inj hj).symm
    · exact hun j hj

theorem PlacedChained.home (hp : PlacedChained t t' key mp n) (h : Inv hashes t) (hn : FreePos t n)
    (hmain : mainposition hashes t key = mp) (hown : mainposition hashes t (t.gkey mp) = mp)
    (hne : mp ≠ n) {i j : Nat} (hi : (t'.gkey i).IsKey) (hj : (t'.gkey j).IsKey)
    (hne' : mainposition hashes t (t'.gkey i) ≠ i) : mainposition hashes t (t'.gkey j) ≠ i := by
  by_cases hin : i = n <;> by_cases hjn : j = n
  · rw [hjn, hp.gkey_new, hmain, hin]
    exact hne
  · rw [hp.gkey_old hjn] at hj ⊢
    rw [hin]
    exact main_ne_free h hn hj
  · rw [hp.gkey_old hin] at hi hne'
    rw [hjn, hp.gkey_new, hmain]
    rintro rfl
    exact hne' hown
  · rw [hp.gkey_old hin] at hi hne'
    rw [hp.gkey_old hjn] at hj ⊢
    exact h.home i j hi hj hne'

theorem PlacedChained.unique (hp : PlacedChained t t' key mp n) (h : Inv hashes t)
    (ha : Absent t key) {i j : Nat} (hi : (t'.gkey i).IsKey)
    (heq : rawequal (t'.gkey i) (t'.gkey j) = true) : i = j := by
  by_cases hin : i = n <;> by_cases hjn : j = n
  · rw [hin, hjn]
  · rw [hin, hp.gkey_new, hp.gkey_old hjn] at heq
    exact absurd heq ha.ne
  · rw [hjn, hp.gkey_new, hp.gkey_old hin, ha.node] at heq
    cases heq
  · rw [hp.gkey_old hin] at hi heq
    rw [hp.gkey_old hjn] at heq
    exact h.unique i j hi heq

theorem PlacedChained.inv (hp : PlacedChained t t' key mp n) (h : Inv hashes t)
    (ha : Absent t key) (hn : FreePos t n) (hmain : mainposition hashes t key = mp)
    (hmp : (t.gkey mp).IsKey) (hown : mainposition hashes t (t.gkey mp) = mp) :
    Inv hashes t' := by
  have hne : mp ≠ n := by
    rintro rfl
    exact IsKey.ne_nil hmp hn.key
  obtain ⟨hn_val, -, hn_pred⟩ := h.unused n hn.key
  have hr := hp.inserted h hn hne
  have hmain' : ∀ k, mainposition hashes t' k = mainposition hashes t k := hp.frame.mainposition
  constructor
  case length => rw [hp.frame.length, hp.frame.sizenode, h.length]
  case small => rw [hp.frame.lsizenode]; exact h.small
  case dummy => intro hd; rw [hp.frame.isDummy, hn.notDummy] at hd; cases hd
  case lastfree =>
    have := hn.lt
    rw [hp.lastfree, hp.frame.length]
    omega
  case above =>
    intro _ i hi hle hi'
    rw [hp.frame.length] at hi
    rw [hp.lastfree] at hle
    obtain ⟨hin, hi'⟩ := hp.nil ha.isKey hi'
    exact hn.above i hi (by omega) hi'
  case array => rw [Table.sizearray, hp.frame.array]; exact h.array
  case next_lt =>
    intro i j hij
    rw [hp.gnext] at hij
    rw [hp.frame.length]
    split_ifs at hij
    · exact h.next_lt mp j hij
    · cases hij
      exact hn.lt
    · exact h.next_lt i j hij
  case pred => exact hp.pred h hn_pred
  case unused => exact hp.unused h ha.isKey hmp
  case key =>
    intro i
    by_cases hin : i = n
    · rw [hin, hp.gkey_new]
      exact .inr (.inr ha.isKey)
    · rw [hp.gkey_old hin]
      exact h.key i
  case live =>
    intro i hi
    rw [hp.gval] at hi
    rw [hp.gkey_old]
    · exact h.live i hi
    · rintro rfl
      exact hi hn_val
  case acyclic =>
    intro i
    by_cases hin : i = n
    · obtain ⟨l, hl⟩ := h.acyclic mp
      obtain ⟨l', hl', -⟩ := (hl.insert hr hne).of_mem (mem_insert_new hl.mem_self)
      exact ⟨l', hin ▸ hl'⟩
    · obtain ⟨l, hl⟩ := h.acyclic i
      exact ⟨_, hl.insert hr hin⟩
  case reach =>
    intro i hi
    rw [hmain']
    by_cases hin : i = n
    · subst hin
      obtain ⟨l, hl, hmem⟩ := h.reach mp hmp
      rw [hown] at hl
      rw [hp.gkey_new, hmain]
      exact ⟨_, hl.insert hr hne, mem_insert_new hmem⟩
    · rw [hp.gkey_old hin] at hi ⊢
      obtain ⟨l, hl, hmem⟩ := h.reach i hi
      exact ⟨_, hl.insert hr (main_ne_free h hn hi), mem_insert hmem⟩
  case occupied =>
    intro i hi hnil'
    obtain ⟨hm, hnil'⟩ := hp.nil ha.isKey hnil'
    rw [hmain'] at hm hnil'
    by_cases hin : i = n
    · rw [hin, hp.gkey_new, hmain] at hnil'
      exact IsKey.ne_nil hmp hnil'
    · rw [hp.gkey_old hin] at hi hnil'
      exact h.occupied i hi hnil'
  case home =>
    intro i j hi hj hne'
    rw [hmain'] at hne' ⊢
    exact hp.home h hn hmain hown hne hi hj hne'
  case unique => exact fun i j hi heq => hp.unique h ha hi heq
  case outside =>
    intro i hi
    rw [hp.frame.inArray, hp.gval]
    by_cases hin : i = n
    · rw [hin, hp.gkey_new]
      exact fun hin => absurd hin ha.out
    · rw [hp.gkey_old hin] at hi ⊢
      exact h.outside i hi

theorem PlacedChained.value (hp : PlacedChained t t' key mp n) (h : Inv hashes t)
    (h' : Inv hashes t') (hn : FreePos t n) (k : Value) : value hashes t' k = value hashes t k := by
  have hkey : ∀ i, t.gval i ≠ .nil → t'.gkey i = t.gkey i := by
    intro i hi
    rw [hp.gkey, if_neg]
    rintro rfl
    exact hi (h.unused i hn.key).1
  refine value_congr h h' hp.frame.array (fun i hi => ⟨i, hkey i hi, hp.gval i⟩) (fun j hj => ?_) k
  rw [hp.gval] at hj
  exact ⟨j, (hkey j hj).symm, (hp.gval j).symm⟩

end Chained

end Luaxx.Tables
