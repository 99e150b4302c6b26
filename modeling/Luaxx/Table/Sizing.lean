import Luaxx.Table.Refinement

/-!
# The sizes that `rehash` chooses

`rehash` makes the array part as large as the keys in use allow, and the node part as small as the
other keys allow: then no insertion grows the table again. `numusearray` counts the array part up to
`MAXASIZE` only. Elements beyond it get no room in the node part.
-/

open Luaxx.Value

namespace Luaxx.Tables

open Luaxx.Links Luaxx.Result

variable {hashes : Nat → UInt32} {t t' : Table} {key ek : Value}

/-! ## Statement -/

/-- The largest power of two of which more than half of the numbers are in use, or 0. -/
def Optimal (hashes : Nat → UInt32) (t : Table) (ek : Value) (n : Nat) : Prop :=
  (n = 0 ∧ ∀ j ≤ MAXBITS, ¬ 2 ^ j / 2 < used hashes t ek (2 ^ j)) ∨
  ∃ j ≤ MAXBITS, n = 2 ^ j ∧ 2 ^ j / 2 < used hashes t ek (2 ^ j) ∧
    ∀ k, j < k → k ≤ MAXBITS → ¬ 2 ^ k / 2 < used hashes t ek (2 ^ k)

/-- The number of keys that do not go to an array part of size `n`, with the extra one. -/
def remaining (t : Table) (ek : Value) (n : Nat) : Nat :=
  costs n (slice t n) + costs n (nodes t) + cost n ek

/-- The number of elements of the array part that `rehash` does not count. -/
def uncounted (t : Table) : Nat := (slice t MAXASIZE).length

/-- The node part is the smallest one with room for `n` keys. -/
structure LeastNodes (t : Table) (n : Nat) : Prop where
  isDummy : t.isDummy = decide (n = 0)
  room : n ≠ 0 → n ≤ t.sizenode
  least : n ≠ 0 → ∀ m, n ≤ 2 ^ m → t.sizenode ≤ 2 ^ m

/-- The growth of a table for an extra key does not depend on what a nested growth would do. The table
then has its best sizes and the same contents, or the node part would be too large. -/
def GrowsOnce (hashes : Nat → UInt32) (t : Table) (ek : Value) : Prop :=
  ∃ n, Optimal hashes t ek n ∧
    ((MAXASIZE < remaining t ek n ∧
      ∀ grow, regrow hashes (newkeyWith hashes grow) t ek = .error tableOverflow) ∨
    ∃ t₁ p t₂,
      (∀ grow, rehash hashes (newkeyWith hashes grow) t ek = .ok t₁ ∧
        setWith hashes (newkeyWith hashes grow) t₁ ek = .ok (p, t₂)) ∧
      t₁.sizearray = n ∧ LeastNodes t₁ (remaining t ek n) ∧
      (∀ k, value hashes t₁ k = value hashes t k) ∧ SetTo hashes t t₂ ek p)

/-- The elements that are not counted do not change the size of the node part, or it is too large
without them. -/
def Unnoticed (hashes : Nat → UInt32) (t : Table) (ek : Value) : Prop :=
  ∀ n, Optimal hashes t ek n →
    MAXASIZE < remaining t ek n - uncounted t ∨
    ((remaining t ek n - uncounted t = 0 → remaining t ek n = 0) ∧
      ∀ m, remaining t ek n - uncounted t ≤ 2 ^ m → remaining t ek n ≤ 2 ^ m)

/-! ## The size of the array part -/

theorem used_le (hashes : Nat → UInt32) (t : Table) (ek : Value) (m : Nat) :
    used hashes t ek m ≤ m :=
  List.countP_le_length.trans (Nat.le_of_eq List.length_range)

/-- With more than half of the numbers in use, the last slice is not empty. -/
theorem good_iff_half (h : Inv hashes t) (ha : Absent t ek) {j : Nat} (hj : j ≤ MAXBITS) :
    Good (counts t ek) j ↔ 2 ^ j / 2 < used hashes t ek (2 ^ j) := by
  rw [good_iff h ha hj, and_iff_right_iff_imp]
  intro hhalf
  rw [← used_lt_iff hashes t ek (Nat.le_of_lt (below_lt j))]
  have hle := used_le hashes t ek (below j)
  cases j with
  | zero =>
    rw [below] at hle ⊢
    omega
  | succ j =>
    rw [below, Nat.pow_succ] at *
    omega

theorem optimal_sizes (h : Inv hashes t) (ha : Absent t ek) : Optimal hashes t ek (sizes t ek).1 := by
  have hbest := best_sizes t ek
  generalize (sizes t ek).1 = n at hbest ⊢
  generalize (sizes t ek).2 = na at hbest
  cases hbest with
  | none hno =>
    refine .inl ⟨rfl, fun j hj => ?_⟩
    rw [← good_iff_half h ha hj]
    exact hno j (Nat.lt_succ_of_le hj)
  | @some j hj hgood hlast =>
    have hj := Nat.le_of_lt_succ hj
    refine .inr ⟨j, hj, rfl, (good_iff_half h ha hj).mp hgood, fun k hk hkm => ?_⟩
    rw [← good_iff_half h ha hkm]
    exact hlast k hk (Nat.lt_succ_of_le hkm)

theorem Optimal.unique {n n' : Nat} (h : Optimal hashes t ek n) (h' : Optimal hashes t ek n') :
    n = n' := by
  rcases h with ⟨rfl, hno⟩ | ⟨j, hj, rfl, hhalf, hlast⟩
  · rcases h' with ⟨rfl, -⟩ | ⟨j, hj, rfl, hhalf, -⟩
    · rfl
    · exact absurd hhalf (hno j hj)
  · rcases h' with ⟨rfl, hno⟩ | ⟨j', hj', rfl, hhalf', hlast'⟩
    · exact absurd hhalf (hno j hj)
    · rcases Nat.lt_trichotomy j j' with hlt | rfl | hgt
      · exact absurd hhalf' (hlast j' hlt hj')
      · rfl
      · exact absurd hhalf (hlast' j hgt hj)

/-- The number of nodes that `rehash` asks for. -/
theorem counted_eq (h : t.sizearray < 2 ^ 31) {n : Nat} (hn : n ≤ MAXASIZE) :
    totaluse t - tally t ek n = remaining t ek n - uncounted t := by
  have hslice := costs_slice h n
  have hcount := arrayCount_slice t n
  have huncounted := arrayCount_slice t MAXASIZE
  have hmono := arrayCount_add t hn
  have hnodes := costs_add_countP n (nodes t)
  have hek := cost_eq n ek
  rw [totaluse, tally, remaining, uncounted, hslice]
  omega

/-! ## Growth without a nested growth -/

/-- A growth that is not expected. -/
def stop : Table → Value → M (Slot × Table) := fun _ _ => .error .outOfFuel

/-- What succeeds without a growth is the same with any growth. -/
theorem newkeyWith_mono {r : Slot × Table} (h : newkeyWith hashes stop t key = .ok r)
    (grow : Table → Value → M (Slot × Table)) : newkeyWith hashes grow t key = .ok r := by
  rw [newkeyWith] at h ⊢
  split_ifs at h ⊢
  · exact h
  · cases hfree : getfreepos t with
    | mk n t' =>
      rw [hfree] at h
      cases n with
      | none => cases h
      | some n => exact h

theorem setWith_mono {nk nk' : Table → Value → M (Slot × Table)}
    (hnk : ∀ t key r, nk t key = .ok r → nk' t key = .ok r) {r : Slot × Table}
    (h : setWith hashes nk t key = .ok r) : setWith hashes nk' t key = .ok r := by
  unfold setWith at h ⊢
  cases hget : luaH_get hashes t key with
  | some p =>
    rw [hget] at h
    exact h
  | none =>
    rw [hget] at h
    cases key with
    | nil => exact h
    | number n =>
      simp only at h ⊢
      split_ifs at h ⊢
      · cases h
      · exact hnk _ _ _ h
    | _ => exact hnk _ _ _ h

theorem setIndex_mono {nk nk' : Table → Value → M (Slot × Table)}
    (hnk : ∀ t key r, nk t key = .ok r → nk' t key = .ok r) {r : Slot × Table}
    (h : setIndex nk t key = .ok r) : setIndex nk' t key = .ok r := by
  rw [setIndex, setnumWith] at h ⊢
  cases hget : luaH_getnum t (arrayindex key) with
  | some p =>
    rw [hget] at h
    exact h
  | none =>
    rw [hget] at h
    exact hnk _ _ _ h

theorem insertAll_mono {set set' : Table → Value → M (Slot × Table)} {guard : Table → Bool}
    (hset : ∀ t key r, set t key = .ok r → set' t key = .ok r) {es : List Entry}
    (h : insertAll set guard t es = .ok t') : insertAll set' guard t es = .ok t' := by
  induction es generalizing t with
  | nil => exact h
  | cons e es ih =>
    obtain ⟨⟨p, t₀⟩, hr, h⟩ := bind_ok.mp h
    rw [insertAll, hset _ _ _ hr, ok_bind]
    simp only at h ⊢
    split_ifs at h ⊢ with hguard
    obtain ⟨t₁, hstore, h⟩ := bind_ok.mp h
    rw [hstore, ok_bind]
    exact ih h

theorem resize_mono {nk nk' : Table → Value → M (Slot × Table)}
    (hnk : ∀ t key r, nk t key = .ok r → nk' t key = .ok r) (hsize : t.sizearray < 2 ^ 31)
    {nasize nhsize : Nat} (h : resize hashes nk t nasize nhsize = .ok t') :
    resize hashes nk' t nasize nhsize = .ok t' := by
  rw [resize_eq _ _ _ _ hsize] at h ⊢
  obtain ⟨t₂, hnodes, h⟩ := bind_ok.mp h
  obtain ⟨t₃, hslice, h⟩ := bind_ok.mp h
  rw [hnodes, ok_bind, insertAll_mono (fun _ _ _ => setIndex_mono hnk) hslice, ok_bind]
  exact insertAll_mono (fun _ _ _ => setWith_mono hnk) h

theorem remaining_bound (h : Inv hashes t) (ek : Value) : totaluse t - (sizes t ek).2 ≤ 2 ^ 32 := by
  have hmax : MAXASIZE = 2 ^ 26 := rfl
  have hle := arrayCount_le t MAXASIZE
  have hle' := length_nodes_le h
  rw [totaluse]
  omega

/-- Without a growth, an insertion keeps the shape of the table. -/
structure Ungrown (hashes : Nat → UInt32) (t t' : Table) (key : Value) (p : Slot) : Prop
    extends SetTo hashes t t' key p where
  shape : SameShape t t'

section Stop

variable {E : Stop → Prop} (hE : E .outOfFuel)

include hE

theorem newkeyWith_stop (h : Inv hashes t) (ha : Absent t key) :
    Yields E (fun r => Ungrown hashes t r.2 key r.1) (newkeyWith hashes stop t key) := by
  rcases newkeyWith_insertion h key with ⟨i, t', hnew, hi⟩ | ⟨l, -, -, hcrowded⟩
  · have hto := (hi.grown h ha).setHere ha
    exact yields_of_eq (hnew stop) ⟨hto.toSetTo, hto.shape⟩
  · rw [hcrowded.newkeyWith]
    exact hE

theorem setWith_stop (h : Inv hashes t) (hkey : key.IsKey) :
    Yields E (fun r => Ungrown hashes t r.2 key r.1) (setWith hashes (newkeyWith hashes stop) t key) := by
  cases hget : luaH_get hashes t key with
  | some p =>
    exact yields_of_eq (setWith_found hget)
      ⟨SetTo.of_found h hget 0, (sameKeys_flags t 0).shape⟩
  | none =>
    have ha := absent_of_luaH_get h hkey hget
    rw [setWith_new hkey hget]
    refine (newkeyWith_stop hE (h.flags 0) ⟨ha.isKey, ha.out, ha.node⟩).imp fun r hr => ?_
    exact ⟨⟨hr.inv, hr.slot, hr.value⟩, (sameKeys_flags t 0).shape.trans hr.shape⟩

theorem setIndex_stop (h : Inv hashes t) (hkey : key.IsKey)
    (hidx : key = .number (cast_num (arrayindex key))) :
    Yields E (fun r => Ungrown hashes t r.2 key r.1) (setIndex (newkeyWith hashes stop) t key) := by
  rw [setIndex, setnumWith_eq hashes (arrayindex_range key), ← hidx]
  cases hget : luaH_get hashes t key with
  | some p => exact ⟨SetTo.of_found h hget t.flags, .refl t⟩
  | none => exact newkeyWith_stop hE h (absent_of_luaH_get h hkey hget)

end Stop

/-- What stops a `rehash` that may not grow the table again. -/
def Stopped (size : Nat) (e : Stop) : Prop :=
  e = .outOfFuel ∨ e = tableOverflow ∧ MAXBITS < ceillog2 size

/-- The new array part and the new node part keep their sizes while they are filled. -/
structure Sized (t₂ t₁ : Table) : Prop extends SameNodes t₂ t₁, SameArray t₂ t₁

theorem Sized.step {t₂ r t₃ : Table} {p : Slot} {v : Value} (hs : Sized t₂ t)
    (hk : Ungrown hashes t r key p) (hst : Stored hashes r t₃ key v) : Sized t₂ t₃ := by
  have hshape := hk.shape.trans hst.keys.shape
  exact ⟨hs.toSameNodes.trans hshape.sameNodes, ⟨hshape.sizearray.trans hs.sizearray,
    hshape.block.trans hs.block⟩⟩

theorem resize_stop (h : Inv hashes t) {n size : Nat} (hn : n < 2 ^ 31) (hsize : size ≤ 2 ^ 32) :
    Yields (Stopped size)
      (fun t₁ => Inv hashes t₁ ∧ t₁.sizearray = n ∧ NewNodes t₁ size ∧
        ∀ k, value hashes t₁ k = value hashes t k)
      (resize hashes (newkeyWith hashes stop) t n size) := by
  rw [resize_eq _ _ _ _ h.array]
  have hbegun := begun_room hashes t hn hsize
  cases hnodes : setnodevector (reshaped t n) size with
  | error e =>
    rw [hnodes] at hbegun
    refine .inr ⟨hbegun, ?_⟩
    rw [setnodevector] at hnodes
    split_ifs at hnodes with h0 hbig
    · cases hnodes
    · exact hbig
    · cases hnodes
  | ok t₂ =>
    obtain ⟨hb, -, hnew⟩ := hbegun.ok_of_eq hnodes
    have hE : Stopped size .outOfFuel := .inl rfl
    rw [ok_bind]
    refine (insertAll_spec (P := fun rest t₁ => rest ⊆ slice t n ∧ Sized t₂ t₁)
      (fun e rest t₁ hkey h₁ hP => ?_) (distinct_slice h.array n) hb.inv
      ⟨List.Subset.refl _, ⟨rfl, rfl⟩, ⟨rfl, rfl⟩⟩).bind fun t₃ ht₃ => ?_
    · obtain ⟨hsub, hsized⟩ := hP
      have hidx := (arrayindex_slice h.array (hsub (List.mem_cons_self ..))).1
      refine (setIndex_stop hE h₁ hkey hidx).imp fun r hr => ⟨?_, hr.toSetTo, fun t' hs => ?_⟩
      · rw [hr.shape.block, hsized.block, beq_self_eq_true]
      · exact ⟨fun _ he => hsub (List.mem_cons_of_mem _ he), hsized.step hr hs⟩
    · obtain ⟨h₃, ⟨-, hsized₃⟩, hs⟩ := ht₃
      have hreleased : SameNodes t₂ (released t n t₃) ∧ (released t n t₃).sizearray = n := by
        rw [← hb.sizearray, ← hsized₃.sizearray]
        unfold released
        split_ifs
        · exact ⟨⟨hsized₃.isDummy, hsized₃.lsizenode⟩, rfl⟩
        · exact ⟨hsized₃.toSameNodes, rfl⟩
      refine (insertAll_spec
        (P := fun _ t₁ => SameNodes t₂ t₁ ∧ t₁.sizearray = n)
        (fun e rest t₁ hkey h₁ hP => ?_) (distinct_nodes h) (h₃.released t n) hreleased).imp
        fun t₄ ht₄ => ?_
      · refine (setWith_stop hE h₁ hkey).imp fun r hr => ⟨rfl, hr.toSetTo, fun t' hs => ?_⟩
        have hshape := hr.shape.trans hs.keys.shape
        exact ⟨hP.1.trans hshape.sameNodes, hshape.sizearray.trans hP.2⟩
      · obtain ⟨h₄, ⟨hnodes₄, harray₄⟩, hn₄⟩ := ht₄
        exact ⟨h₄, harray₄, hnew.congr hnodes₄, resized_value h hb h₃ h₄ hs hn₄⟩

theorem rehash_stop (h : Inv hashes t) (ek : Value) :
    Yields (Stopped (totaluse t - (sizes t ek).2))
      (fun t₁ => Inv hashes t₁ ∧ t₁.sizearray = (sizes t ek).1 ∧
        NewNodes t₁ (totaluse t - (sizes t ek).2) ∧ ∀ k, value hashes t₁ k = value hashes t k)
      (rehash hashes (newkeyWith hashes stop) t ek) := by
  have hn := sizes_le t ek
  have hmax : MAXASIZE = 2 ^ 26 := rfl
  rw [rehash_eq]
  exact resize_stop h (by omega) (remaining_bound h ek)

/-! ## Every key takes a node -/

/-- The keys that do not go to an array part of size `n`. -/
def keysLeft (t : Table) (ek : Value) (n : Nat) : List Value :=
  ((slice t n ++ nodes t).map (·.1) ++ [ek]).filter fun k => !counted n k

theorem costs_eq_length (n : Nat) (es : List Entry) :
    costs n es = ((es.map (·.1)).filter fun k => !counted n k).length := by
  induction es with
  | nil => rfl
  | cons e es ih =>
    have hcost := cost_eq n e.1
    rw [costs, List.map_cons, List.sum_cons, ← costs, ih, List.map_cons, List.filter_cons]
    cases hcounted : counted n e.1 with
    | true =>
      rw [hcounted] at hcost
      simp at hcost ⊢
      exact hcost
    | false =>
      rw [hcounted] at hcost
      simp at hcost ⊢
      omega

theorem length_keysLeft (t : Table) (ek : Value) (n : Nat) :
    (keysLeft t ek n).length = remaining t ek n := by
  have hek : cost n ek = ([ek].filter fun k => !counted n k).length := by
    have := costs_eq_length n [(ek, .nil)]
    rwa [costs, List.map_singleton, List.sum_singleton, List.map_singleton] at this
  rw [keysLeft, remaining, costs_eq_length, costs_eq_length, hek, List.map_append,
    List.filter_append, List.filter_append, List.length_append, List.length_append]

theorem inArray_of_mem_slice (h : Inv hashes t) {n : Nat} {e : Entry} (he : e ∈ slice t n) :
    InArray t e.1 := by
  have := arrayindex_slice h.array he
  exact ⟨by omega, this.2.2⟩

theorem distinct_entries (h : Inv hashes t) (n : Nat) :
    ((slice t n ++ nodes t).map (·.1)).Pairwise fun a b => rawequal a b = false := by
  rw [List.map_append, List.pairwise_append, List.pairwise_map, List.pairwise_map]
  refine ⟨(distinct_slice h.array n).pairwise, (distinct_nodes h).pairwise, ?_⟩
  intro a ha b hb
  obtain ⟨e, he, rfl⟩ := List.mem_map.mp ha
  obtain ⟨e', he', rfl⟩ := List.mem_map.mp hb
  obtain ⟨i, hv, rfl⟩ := mem_nodes.mp he'
  refine Bool.eq_false_iff.mpr fun hraw => h.out_of_live hv ?_
  rw [InArray, ← arrayindex_eq hraw]
  exact inArray_of_mem_slice h he

theorem distinct_keys (h : Inv hashes t) (ha : Absent t ek) (n : Nat) :
    ((slice t n ++ nodes t).map (·.1) ++ [ek]).Pairwise fun a b => rawequal a b = false := by
  rw [List.pairwise_append]
  refine ⟨distinct_entries h n, List.pairwise_singleton .., fun a ha' b hb => ?_⟩
  obtain rfl := List.mem_singleton.mp hb
  obtain ⟨e, he, rfl⟩ := List.mem_map.mp ha'
  rcases List.mem_append.mp he with he | he
  · refine Bool.eq_false_iff.mpr fun hraw => ha.out ?_
    rw [InArray, ← arrayindex_eq hraw]
    exact inArray_of_mem_slice h he
  · obtain ⟨i, -, rfl⟩ := mem_nodes.mp he
    exact ha.node i

/-- Different keys that have places outside of the array part have different nodes. -/
theorem length_le_nodes (h : Inv hashes t) {l : List Value}
    (hl : l.Pairwise fun a b => rawequal a b = false)
    (hnode : ∀ k ∈ l, k.IsKey ∧ ∃ i, At t k (.node i)) :
    l.length ≤ t.node.length ∧ (t.isDummy = true → l = []) := by
  have hkey : ∀ k i, k.IsKey → At t k (.node i) → (t.gkey i).IsKey := fun k i hk hat =>
    hk.of_rawequal (by rw [rawequal_comm]; exact hat.2)
  refine ⟨?_, fun hd => ?_⟩
  · choose! f hf using fun k hk => (hnode k hk).2
    have hnodup : (l.map f).Nodup := by
      rw [List.Nodup, List.pairwise_map]
      refine hl.imp_of_mem fun {a b} ha hb hne heq => ?_
      have hat := hf b hb
      rw [← heq] at hat
      rw [(hf a ha).rawequal hat] at hne
      cases hne
    have hsub : (l.map f).toFinset ⊆ Finset.range t.node.length := by
      intro i hi
      obtain ⟨k, hk, rfl⟩ := List.mem_map.mp (List.mem_toFinset.mp hi)
      have := hkey k (f k) (hnode k hk).1 (hf k hk)
      exact Finset.mem_range.mpr (lt_of_gkey_ne (IsKey.ne_nil this))
    have hcard := Finset.card_le_card hsub
    rwa [List.toFinset_card_of_nodup hnodup, List.length_map, Finset.card_range] at hcard
  · by_contra hne
    obtain ⟨k, hk⟩ := List.exists_mem_of_ne_nil l hne
    obtain ⟨hisKey, i, hat⟩ := hnode k hk
    rw [h.isDummy_eq_false (hkey k i hisKey hat)] at hd
    cases hd

/-- Different keys with places take a node each, but for those of the array part. -/
theorem placed_le (h : Inv hashes t) {l : List Value}
    (hl : l.Pairwise fun a b => rawequal a b = false)
    (hplace : ∀ k ∈ l, k.IsKey ∧ ∃ p, At t k p) :
    (l.filter fun k => !counted t.sizearray k).length ≤ t.node.length ∧
      (t.isDummy = true → (l.filter fun k => !counted t.sizearray k).length = 0) := by
  have hnodes := length_le_nodes h (hl.filter fun k => !counted t.sizearray k) fun k hk => by
    obtain ⟨hk, hcounted⟩ := List.mem_filter.mp hk
    obtain ⟨hkey, p, hat⟩ := hplace k hk
    refine ⟨hkey, ?_⟩
    cases p with
    | node i => exact ⟨i, hat⟩
    | array i =>
      have hin : counted t.sizearray k = true := decide_eq_true hat.1
      rw [hin] at hcounted
      cases hcounted
  exact ⟨hnodes.1, fun hd => by rw [hnodes.2 hd, List.length_nil]⟩

/-- The entries of a table have places in one that holds the same. -/
theorem exists_at (h : Inv hashes t) (h' : Inv hashes t')
    (hval : ∀ k, value hashes t' k = value hashes t k) {n : Nat} {e : Entry}
    (he : e ∈ slice t n ++ nodes t) : e.1.IsKey ∧ ∃ p, At t' e.1 p := by
  have hheld : e.1.IsKey ∧ value hashes t e.1 ≠ .nil := by
    rcases List.mem_append.mp he with he | he
    · rw [value_of_mem_slice h he]
      exact ⟨(distinct_slice h.array _).isKey e he, ne_nil_of_mem_slice he⟩
    · rw [value_of_mem_nodes h he]
      obtain ⟨i, hv, rfl⟩ := mem_nodes.mp he
      exact ⟨h.live i hv, hv⟩
  have hsome : luaH_get hashes t' e.1 ≠ none := by
    intro hnone
    rw [← hval, value, hnone] at hheld
    exact hheld.2 rfl
  obtain ⟨p, hget⟩ := Option.ne_none_iff_exists'.mp hsome
  exact ⟨hheld.1, p, (luaH_get_iff h' hheld.1).mp hget⟩

theorem entries_le (h : Inv hashes t) (h' : Inv hashes t')
    (hval : ∀ k, value hashes t' k = value hashes t k) :
    costs t'.sizearray (slice t t'.sizearray) + costs t'.sizearray (nodes t) ≤ t'.node.length ∧
      (t'.isDummy = true →
        costs t'.sizearray (slice t t'.sizearray) + costs t'.sizearray (nodes t) = 0) := by
  have hcosts : costs t'.sizearray (slice t t'.sizearray) + costs t'.sizearray (nodes t) =
      costs t'.sizearray (slice t t'.sizearray ++ nodes t) := by
    rw [costs, costs, costs, List.map_append, List.sum_append]
  rw [hcosts, costs_eq_length]
  refine placed_le h' (distinct_entries h _) fun k hk => ?_
  obtain ⟨e, he, rfl⟩ := List.mem_map.mp hk
  exact exists_at h h' hval he

/-- A table that holds the keys that are left has a node for each of them. -/
theorem remaining_le (h : Inv hashes t) (ha : Absent t ek) (h' : Inv hashes t')
    (hval : ∀ k, value hashes t' k = value hashes t k) {p : Slot}
    (hslot : luaH_get hashes t' ek = some p) :
    remaining t ek t'.sizearray ≤ t'.node.length ∧
      (t'.isDummy = true → remaining t ek t'.sizearray = 0) := by
  rw [← length_keysLeft]
  refine placed_le h' (distinct_keys h ha t'.sizearray) fun k hk => ?_
  rcases List.mem_append.mp hk with hk | hk
  · obtain ⟨e, he, rfl⟩ := List.mem_map.mp hk
    exact exists_at h h' hval he
  · obtain rfl := List.mem_singleton.mp hk
    exact ⟨ha.isKey, p, (luaH_get_iff h' ha.isKey).mp hslot⟩

/-! ## The node part -/

theorem ceillog2_le_iff {size : Nat} (h0 : size ≠ 0) (hsize : size ≤ 2 ^ 32) (m : Nat) :
    ceillog2 size ≤ m ↔ size ≤ 2 ^ m := by
  obtain ⟨hle, hlt⟩ := ceillog2_spec (Nat.pos_of_ne_zero h0) hsize
  constructor
  · intro hm
    exact hle.trans (Nat.pow_le_pow_right (by decide) hm)
  · intro hm
    by_contra hgt
    have hpow : 2 ^ (m + 1) ≤ 2 ^ ceillog2 size := Nat.pow_le_pow_right (by decide) (by omega)
    rw [Nat.pow_succ] at hpow
    omega

theorem overflow_iff {size : Nat} (hsize : size ≤ 2 ^ 32) :
    MAXBITS < ceillog2 size ↔ MAXASIZE < size := by
  by_cases h0 : size = 0
  · rw [h0]
    decide
  · rw [← Nat.not_le, ceillog2_le_iff h0 hsize, ← Nat.not_le]
    rfl

/-- The elements that are not counted fit all the same. -/
theorem NewNodes.least {size n : Nat} (h : NewNodes t size) (hsize : size ≤ 2 ^ 32)
    (hle : size ≤ n) (hn : n ≤ nodePart size) : LeastNodes t n := by
  have hzero : n = 0 ↔ size = 0 := by
    constructor
    · intro h0
      omega
    · intro h0
      rw [nodePart, if_pos h0] at hn
      omega
  have hnodes : n ≠ 0 → t.sizenode = 2 ^ ceillog2 size := fun hne => by
    rw [Table.sizenode, h.lsizenode (mt hzero.mpr hne)]
  refine ⟨?_, fun hne => ?_, fun hne m hm => ?_⟩
  · rw [h.isDummy]
    exact decide_eq_decide.mpr hzero.symm
  · rw [nodePart, if_neg (mt hzero.mpr hne)] at hn
    rw [hnodes hne]
    exact hn
  · rw [hnodes hne]
    refine Nat.pow_le_pow_right (by decide) ?_
    exact (ceillog2_le_iff (mt hzero.mpr hne) hsize m).mpr (hle.trans hm)

theorem NewNodes.le_nodePart {size n : Nat} (hnew : NewNodes t size) (h : Inv hashes t)
    (hle : n ≤ t.node.length ∧ (t.isDummy = true → n = 0)) : n ≤ nodePart size := by
  rw [nodePart]
  split_ifs with h0
  · refine Nat.le_of_eq (hle.2 ?_)
    rw [hnew.isDummy]
    exact decide_eq_true h0
  · rw [← hnew.lsizenode h0]
    exact hle.1.trans (Nat.le_of_eq h.length)

theorem setnodevector_overflow {size : Nat} (h : MAXBITS < ceillog2 size) (t : Table) :
    setnodevector t size = .error tableOverflow := by
  have h0 : size ≠ 0 := by
    rintro rfl
    exact absurd h (by decide)
  rw [setnodevector, if_neg h0, if_pos h]
  rfl

/-! ## The growth of a table -/

section Growth

variable (h : Inv hashes t)

include h

theorem counted_remaining (ek : Value) : totaluse t - (sizes t ek).2 =
    remaining t ek (sizes t ek).1 - uncounted t := by
  rw [sizes_tally, counted_eq h.array (sizes_le t ek)]

/-- With room for all keys there is no nested growth. -/
theorem regrow_fits (hroom : remaining t ek (sizes t ek).1 ≤
      nodePart (totaluse t - (sizes t ek).2))
    (hsize : totaluse t - (sizes t ek).2 ≤ MAXASIZE) (hkey : ek.IsKey) :
    ∃ t₁ p t₂,
      (∀ grow, rehash hashes (newkeyWith hashes grow) t ek = .ok t₁ ∧
        setWith hashes (newkeyWith hashes grow) t₁ ek = .ok (p, t₂)) ∧
      t₁.sizearray = (sizes t ek).1 ∧ LeastNodes t₁ (remaining t ek (sizes t ek).1) ∧
      (∀ k, value hashes t₁ k = value hashes t k) ∧ SetTo hashes t t₂ ek p := by
  have hbound := remaining_bound h ek
  have hcounted := counted_remaining h ek
  have hn := sizes_le t ek
  have hmax : MAXASIZE = 2 ^ 26 := rfl
  rw [remaining] at hroom
  have hresize := resize_here h (show (sizes t ek).1 < 2 ^ 31 by omega) hbound
    (show _ ≤ nodePart _ by omega) stop
  rw [← rehash_eq] at hresize
  cases hrehash : rehash hashes (newkeyWith hashes stop) t ek with
  | error e =>
    -- with at most `MAXASIZE` nodes there is no overflow
    have hstop := rehash_stop h ek
    rw [hrehash] at hresize hstop
    have he : e = tableOverflow := hresize
    rcases hstop with hfuel | ⟨-, hbig⟩
    · rw [he] at hfuel
      cases hfuel
    · rw [overflow_iff hbound] at hbig
      omega
  | ok t₁ =>
    obtain ⟨h₁, harray, hfree, -, hval, hnew⟩ := hresize.ok_of_eq hrehash
    obtain ⟨p, t₂, hset, hto⟩ := setWith_here h₁ hkey (by rw [harray]; omega) stop
    refine ⟨t₁, p, t₂, fun grow => ⟨?_, ?_⟩, harray, ?_, hval,
      ⟨hto.inv, hto.slot, fun k => (hto.value k).trans (hval k)⟩⟩
    · rw [rehash_eq] at hrehash ⊢
      exact resize_mono (fun _ _ _ hnk => newkeyWith_mono hnk grow) h.array hrehash
    · exact setWith_mono (fun _ _ _ hnk => newkeyWith_mono hnk grow) hset
    · exact hnew.least hbound (by omega) (by rw [remaining]; omega)

/-- A growth that succeeds has room for every key. -/
theorem regrow_room {t₁ t₂ : Table} {p : Slot} (ha : Absent t ek)
    (hrehash : rehash hashes (newkeyWith hashes stop) t ek = .ok t₁)
    (hset : setWith hashes (newkeyWith hashes stop) t₁ ek = .ok (p, t₂)) :
    remaining t ek (sizes t ek).1 ≤ nodePart (totaluse t - (sizes t ek).2) := by
  obtain ⟨h₁, harray, hnew, hval⟩ := (rehash_stop h ek).ok_of_eq hrehash
  have hkept := (setWith_stop (E := fun _ => True) trivial h₁ ha.isKey).ok_of_eq hset
  have hnew₂ := hnew.congr hkept.shape.sameNodes
  have hle := remaining_le h ha hkept.inv (fun k => (hkept.value k).trans (hval k)) hkept.slot
  rw [hkept.shape.sizearray, harray] at hle
  exact hnew₂.le_nodePart hkept.inv hle

/-- A growth that overflows is too large for a node part. -/
theorem regrow_overflow (ha : Absent t ek)
    (hover : regrow hashes (newkeyWith hashes stop) t ek = .error tableOverflow) :
    MAXASIZE < totaluse t - (sizes t ek).2 := by
  have hstop := rehash_stop h ek
  rw [regrow] at hover
  cases hrehash : rehash hashes (newkeyWith hashes stop) t ek with
  | error e =>
    rw [hrehash] at hstop hover
    cases hover
    rcases hstop with hfuel | ⟨-, hbig⟩
    · cases hfuel
    · exact (overflow_iff (remaining_bound h ek)).mp hbig
  | ok t₁ =>
    obtain ⟨h₁, -⟩ := hstop.ok_of_eq hrehash
    have hset := setWith_stop (E := (· = .outOfFuel)) rfl h₁ ha.isKey
    rw [hrehash, ok_bind] at hover
    rw [hover] at hset
    cases hset

theorem GrowsOnce.unnoticed (hgrows : GrowsOnce hashes t ek) (ha : Absent t ek) :
    Unnoticed hashes t ek := by
  have hbound := remaining_bound h ek
  obtain ⟨n, hn, hgrows⟩ := hgrows
  intro n' hn'
  obtain rfl := hn.unique (optimal_sizes h ha)
  obtain rfl := hn'.unique (optimal_sizes h ha)
  rw [← counted_remaining h ek]
  rcases hgrows with ⟨-, hover⟩ | ⟨t₁, p, t₂, hgrow, -⟩
  · exact .inl (regrow_overflow h ha (hover stop))
  · have hroom := regrow_room h ha (hgrow stop).1 (hgrow stop).2
    rw [nodePart] at hroom
    refine .inr ⟨fun h0 => ?_, fun m hm => ?_⟩
    · rw [if_pos h0] at hroom
      exact Nat.le_zero.mp hroom
    · split_ifs at hroom with h0
      · exact hroom.trans (Nat.zero_le _)
      · refine hroom.trans (Nat.pow_le_pow_right (by decide) ?_)
        exact (ceillog2_le_iff h0 hbound m).mpr hm

theorem Unnoticed.growsOnce (hunnoticed : Unnoticed hashes t ek) (ha : Absent t ek) :
    GrowsOnce hashes t ek := by
  have hbound := remaining_bound h ek
  have hcounted := counted_remaining h ek
  refine ⟨_, optimal_sizes h ha, ?_⟩
  by_cases hbig : MAXASIZE < totaluse t - (sizes t ek).2
  · refine .inl ⟨by omega, fun grow => ?_⟩
    rw [regrow, rehash_eq, resize_eq _ _ _ _ h.array,
      setnodevector_overflow ((overflow_iff hbound).mpr hbig)]
    rfl
  · right
    have hsame := hunnoticed _ (optimal_sizes h ha)
    rw [← hcounted] at hsame
    obtain ⟨hzero, hpow⟩ := hsame.resolve_left hbig
    refine regrow_fits h ?_ (Nat.le_of_not_lt hbig) ha.isKey
    rw [nodePart]
    split_ifs with h0
    · exact Nat.le_of_eq (hzero h0)
    · exact hpow _ ((ceillog2_le_iff h0 hbound _).mp le_rfl)

end Growth

/-- `rehash` gives a table its best sizes and is not entered again, exactly when the elements that it
does not count have room. -/
theorem growsOnce_iff_unnoticed (h : Inv hashes t) (ha : Absent t ek) :
    GrowsOnce hashes t ek ↔ Unnoticed hashes t ek :=
  ⟨fun hgrows => hgrows.unnoticed h ha, fun hunnoticed => hunnoticed.growsOnce h ha⟩

/-- All elements of an array part of at most `MAXASIZE` are counted. -/
theorem unnoticed_of_le (hsize : t.sizearray ≤ MAXASIZE) : Unnoticed hashes t ek := by
  have hzero : uncounted t = 0 := by
    rw [uncounted, slice, List.drop_eq_nil_of_le hsize]
    rfl
  intro n _
  rw [hzero, Nat.sub_zero]
  exact .inr ⟨id, fun _ => id⟩

/-! ## A table with elements beyond `MAXASIZE` -/

/-- An array part whose first `MAXASIZE` elements are nil. -/
def beyond (n : Nat) : Table where
  flags := 255
  array := List.replicate MAXASIZE .nil ++ List.replicate n (.boolean true)
  block := 1
  node := [dummynode_]
  isDummy := true
  lsizenode := 0
  lastfree := 0

theorem sizearray_beyond (n : Nat) : (beyond n).sizearray = MAXASIZE + n := by
  rw [Table.sizearray, beyond, List.length_append, List.length_replicate, List.length_replicate]

theorem beyond_inv {n : Nat} (hn : n < 2 ^ 30) : Inv hashes (beyond n) := by
  have hfresh : Fresh (beyond n) := by
    refine ⟨rfl, Nat.zero_le _, fun _ => ⟨rfl, le_rfl⟩, fun hd => ?_, fun m hm => ?_⟩
    · cases hd
    · exact List.mem_singleton.mp hm
  refine hfresh.inv ?_
  have hmax : MAXASIZE = 2 ^ 26 := rfl
  rw [sizearray_beyond]
  omega

theorem arrayindex_string (p : Nat) : arrayindex (.string p) = -1 := rfl

theorem beyond_absent (n p : Nat) : Absent (beyond n) (.string p) := by
  refine ⟨trivial, fun hin => ?_, fun i => ?_⟩
  · rw [InArray, arrayindex_string] at hin
    omega
  · have hkey : (beyond n).gkey i = .nil := by
      cases i with
      | zero => rfl
      | succ i => rfl
    rw [hkey]
    rfl

theorem arrayCount_beyond (n : Nat) {m : Nat} (hm : m ≤ MAXASIZE) : arrayCount (beyond n) m = 0 := by
  rw [arrayCount, beyond, List.take_append_of_le_length (by rwa [List.length_replicate]),
    List.take_replicate, List.countP_replicate]
  rfl

theorem beyond_optimal {n p : Nat} (hn : n < 2 ^ 30) :
    Optimal hashes (beyond n) (.string p) 0 := by
  refine .inl ⟨rfl, fun j hj => ?_⟩
  have hle : 2 ^ j ≤ MAXASIZE := Nat.pow_le_pow_right (by decide) hj
  have hmax : MAXASIZE = 2 ^ 26 := rfl
  have hek : counted (2 ^ j) (.string p) = false := by
    rw [counted, arrayindex_string, decide_eq_false_iff_not]
    omega
  have hnone : nodes (beyond n) = [] := rfl
  rw [← tally_eq_used (beyond_inv hn) (beyond_absent n p) (show 2 ^ j < 2 ^ 31 by omega), tally,
    arrayCount_beyond n hle, hek, hnone]
  exact Nat.not_lt_zero _

theorem length_slice_beyond (n : Nat) {m : Nat} (hm : m ≤ MAXASIZE) :
    (slice (beyond n) m).length = n := by
  have hcount := arrayCount_slice (beyond n) m
  have hall : arrayCount (beyond n) (beyond n).sizearray = n := by
    rw [arrayCount, Table.sizearray, List.take_length, beyond, List.countP_append,
      List.countP_replicate, List.countP_replicate]
    exact Nat.zero_add n
  rw [arrayCount_beyond n hm, hall, Nat.zero_add] at hcount
  exact hcount

theorem remaining_beyond {n : Nat} (hn : n < 2 ^ 30) (p : Nat) :
    remaining (beyond n) (.string p) 0 = n + 1 := by
  have hnone : nodes (beyond n) = [] := rfl
  have hek : cost 0 (.string p) = 1 := by
    rw [cost, arrayindex_string]
    rfl
  have hsize : (beyond n).sizearray < 2 ^ 31 := by
    have hmax : MAXASIZE = 2 ^ 26 := rfl
    rw [sizearray_beyond]
    omega
  rw [remaining, costs_slice hsize, length_slice_beyond n (Nat.zero_le _), hnone, hek]
  rfl

/-- Of five keys `rehash` counts one. -/
theorem beyond_grows_again : ¬ GrowsOnce (fun _ => 0) (beyond 4) (.string 0) := by
  intro hgrows
  have hn : 4 < 2 ^ 30 := by decide
  have hunnoticed := hgrows.unnoticed (beyond_inv hn) (beyond_absent 4 0) 0 (beyond_optimal hn)
  rw [remaining_beyond hn, uncounted, length_slice_beyond 4 le_rfl] at hunnoticed
  rcases hunnoticed with hbig | ⟨-, hpow⟩
  · exact absurd hbig (by decide)
  · exact absurd (hpow 0 le_rfl) (by decide)

/-- Without elements beyond `MAXASIZE`. -/
theorem beyond_grows_once : GrowsOnce (fun _ => 0) (beyond 0) (.string 0) := by
  have hn : 0 < 2 ^ 30 := by decide
  refine (growsOnce_iff_unnoticed (beyond_inv hn) (beyond_absent 0 0)).mpr (unnoticed_of_le ?_)
  rw [sizearray_beyond, Nat.add_zero]

end Luaxx.Tables
