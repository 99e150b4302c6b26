import Luaxx.Table.Resize
import Mathlib.Algebra.BigOperators.Group.Finset.Basic

/-!
# `rehash`

The counts of `rehash` add up to the number of integer keys in use up to each power of two, and
`computesizes` picks the last power of two of which more than half are in use. The node part that
`resize` then makes has exactly the room for what goes there, as long as the array part is not
larger than `rehash` counts.
-/

namespace Luaxx.Tables

open Luaxx.Links Luaxx.Result Value

variable {hashes : Nat → UInt32} {t t' : Table} {key : Value}

/-! ## Cumulated counts -/

/-- The counts of the first `m` slices. -/
def cum (nums : Nums) (m : Nat) : Nat := ∑ i ∈ Finset.range m, nums i

/-- The numbers below slice `m`. -/
def below : Nat → Nat
  | 0 => 0
  | m + 1 => 2 ^ m

theorem below_mono {m n : Nat} (h : m ≤ n) : below m ≤ below n := by
  cases m with
  | zero => exact Nat.zero_le _
  | succ m =>
    obtain ⟨n, rfl⟩ : ∃ k, n = k + 1 := ⟨n - 1, by omega⟩
    exact Nat.pow_le_pow_right (by decide) (by omega)

theorem below_le {m : Nat} (h : m ≤ MAXBITS + 1) : below m ≤ MAXASIZE := below_mono h

theorem cum_succ (nums : Nums) (m : Nat) : cum nums (m + 1) = cum nums m + nums m :=
  Finset.sum_range_succ nums m

theorem cum_congr {f g : Nums} {m : Nat} (h : ∀ j < m, f j = g j) : cum f m = cum g m :=
  Finset.sum_congr rfl fun j hj => h j (Finset.mem_range.mp hj)

theorem cum_update (nums : Nums) (c d m : Nat) :
    cum (Function.update nums c (nums c + d)) m = cum nums m + if c < m then d else 0 := by
  induction m with
  | zero => simp [cum]
  | succ m ih =>
    rw [cum_succ, cum_succ, ih, Function.update_apply]
    by_cases hmc : m = c
    · subst hmc
      simp
      omega
    · rw [if_neg hmc]
      split_ifs <;> omega

/-! ## Counting keys -/

/-- An index that `rehash` counts among the first `m`. -/
def counted (m : Nat) (key : Value) : Bool := 0 < arrayindex key ∧ arrayindex key ≤ m

theorem cost_eq (m : Nat) (key : Value) : cost m key + (counted m key).toNat = 1 := by
  rw [cost, counted]
  by_cases h : 0 < arrayindex key ∧ arrayindex key ≤ (m : Int) <;> simp [h]

theorem costs_add_countP (m : Nat) (es : List Entry) :
    costs m es + es.countP (fun e => counted m e.1) = es.length := by
  induction es with
  | nil => rfl
  | cons e es ih =>
    have := cost_eq m e.1
    rw [costs, List.map_cons, List.sum_cons, List.countP_cons, List.length_cons, ← ih, costs]
    cases hc : counted m e.1 <;> simp [hc] at this ⊢ <;> omega

theorem ceillog2_lt_iff {k m : Nat} (h1 : 0 < k) (hk : k ≤ MAXASIZE) :
    ceillog2 k < m ↔ k ≤ below m := by
  obtain ⟨hle, hlt⟩ := ceillog2_spec h1 (hk.trans (by decide))
  cases m with
  | zero => exact ⟨fun h => absurd h (Nat.not_lt_zero _), fun h => by rw [below] at h; omega⟩
  | succ m =>
    rw [below]
    constructor
    · intro h
      exact hle.trans (Nat.pow_le_pow_right (by decide) (by omega))
    · intro h
      by_contra hge
      have : 2 ^ (m + 1) ≤ 2 ^ ceillog2 k := Nat.pow_le_pow_right (by decide) (by omega)
      rw [Nat.pow_succ] at this
      omega

theorem countint_spec (key : Value) (nums : Nums) :
    (countint key nums).1 = (counted MAXASIZE key).toNat ∧
      ∀ m ≤ MAXBITS + 1,
        cum (countint key nums).2 m = cum nums m + (counted (below m) key).toNat := by
  rw [countint]
  by_cases h : 0 < arrayindex key ∧ arrayindex key ≤ (MAXASIZE : Int)
  · have hcounted : counted MAXASIZE key = true := by simpa [counted] using h
    rw [if_pos h, hcounted]
    refine ⟨rfl, fun m _ => ?_⟩
    rw [cum_update]
    have hiff := ceillog2_lt_iff (k := (arrayindex key).toNat) (m := m) (by omega) (by omega)
    have hcond : counted (below m) key = decide (ceillog2 (arrayindex key).toNat < m) := by
      rw [counted, decide_eq_decide, hiff]
      omega
    rw [hcond]
    by_cases hlt : ceillog2 (arrayindex key).toNat < m <;> simp [hlt]
  · have hcounted : ∀ m ≤ MAXASIZE, counted m key = false := fun m hm => by
      rw [counted, decide_eq_false_iff_not]
      omega
    rw [if_neg h, hcounted _ (Nat.le_refl _)]
    exact ⟨rfl, fun m hm => by rw [hcounted _ (below_le hm)]; rfl⟩

/-- The number of elements among the first `m` of the array part. -/
def arrayCount (t : Table) (m : Nat) : Nat := (t.array.take m).countP (!·.ttisnil)

theorem arrayCount_min (t : Table) (m : Nat) : arrayCount t (min m t.sizearray) = arrayCount t m := by
  rw [arrayCount, arrayCount]
  congr 1
  rcases Nat.le_total m t.sizearray with h | h
  · rw [Nat.min_eq_left h]
  · rw [Nat.min_eq_right h, List.take_of_length_le h]
    exact List.take_length

theorem arrayCount_add (t : Table) {m n : Nat} (h : m ≤ n) :
    arrayCount t m + ((t.array.take n).drop m).countP (!·.ttisnil) = arrayCount t n := by
  have hsplit := List.take_append_drop m (t.array.take n)
  rw [List.take_take, Nat.min_eq_left h] at hsplit
  rw [arrayCount, arrayCount]
  conv_rhs => rw [← hsplit]
  rw [List.countP_append]

theorem sliceLoop_spec (t : Table) (slices lg i ause : Nat) (nums : Nums)
    (hlg : slices + lg = MAXBITS + 1) (hi : i = min (below lg) t.sizearray + 1) :
    (sliceLoop t slices lg i ause nums).1 + arrayCount t (below lg) =
        ause + arrayCount t MAXASIZE ∧
      (∀ j < lg, (sliceLoop t slices lg i ause nums).2 j = nums j) ∧
      ∀ m, lg ≤ m → m ≤ MAXBITS + 1 →
        cum (sliceLoop t slices lg i ause nums).2 m + arrayCount t (below lg) =
          cum nums m + arrayCount t (below m) := by
  induction slices generalizing lg i ause nums with
  | zero =>
    rw [Nat.zero_add] at hlg
    subst hlg
    refine ⟨rfl, fun _ _ => rfl, fun m h1 h2 => ?_⟩
    rw [Nat.le_antisymm h2 h1]
    rfl
  | succ slices ih =>
    rw [sliceLoop]
    simp only
    have hbelow : below (lg + 1) = 2 ^ lg := rfl
    have hlim : (if 2 ^ lg > t.sizearray then t.sizearray else 2 ^ lg) =
        min (below (lg + 1)) t.sizearray := by
      rw [below]
      split_ifs <;> omega
    rw [hlim]
    split_ifs with hbreak
    · -- the whole array has been counted
      have hall : ∀ m, lg ≤ m → arrayCount t (below m) = arrayCount t (below lg) := by
        intro m hm
        have := below_mono hm
        rw [← arrayCount_min t (below m), ← arrayCount_min t (below lg)]
        congr 1
        omega
      refine ⟨?_, fun _ _ => rfl, fun m h1 _ => by rw [hall m h1]⟩
      rw [← hall (MAXBITS + 1) (by omega)]
      rfl
    · have hmono := below_mono (Nat.le_add_right lg 1)
      have hle : min (below lg) t.sizearray ≤ min (below (lg + 1)) t.sizearray := by omega
      have hcount := arrayCount_add t hle
      rw [arrayCount_min, arrayCount_min] at hcount
      have hi' : i - 1 = min (below lg) t.sizearray := by omega
      rw [hi']
      set lc := ((t.array.take (min (below (lg + 1)) t.sizearray)).drop
        (min (below lg) t.sizearray)).countP (!·.ttisnil) with hlc
      obtain ⟨h1, h2, h3⟩ := ih (lg + 1)
        (max i (min (below (lg + 1)) t.sizearray + 1)) (ause + lc)
        (Function.update nums lg (nums lg + lc)) (by omega) (by omega)
      have hframe : ∀ j < lg, (sliceLoop t slices (lg + 1)
          (max i (min (below (lg + 1)) t.sizearray + 1)) (ause + lc)
          (Function.update nums lg (nums lg + lc))).2 j = nums j := by
        intro j hj
        rw [h2 j (by omega), Function.update_of_ne (by omega)]
      refine ⟨by omega, hframe, fun m hm hm' => ?_⟩
      rcases Nat.eq_or_lt_of_le hm with rfl | hlt
      · rw [cum_congr hframe]
      · have := h3 m hlt hm'
        rw [cum_update, if_pos hlt] at this
        omega

theorem hashLoop_spec (ns : List Node) (totaluse ause : Nat) (nums : Nums) :
    (hashLoop ns totaluse ause nums).1 = totaluse + (nodeEntries ns).length ∧
      (hashLoop ns totaluse ause nums).2.1 =
        ause + (nodeEntries ns).countP (fun e => counted MAXASIZE e.1) ∧
      ∀ m ≤ MAXBITS + 1, cum (hashLoop ns totaluse ause nums).2.2 m =
        cum nums m + (nodeEntries ns).countP (fun e => counted (below m) e.1) := by
  induction ns generalizing totaluse ause nums with
  | nil => exact ⟨rfl, rfl, fun _ _ => rfl⟩
  | cons n ns ih =>
    rw [nodeEntries]
    by_cases hn : n.val.ttisnil = true
    · rw [hashLoop, if_pos hn, if_pos hn]
      exact ih totaluse ause nums
    · have hstep : hashLoop (n :: ns) totaluse ause nums =
          hashLoop ns (totaluse + 1) (ause + (countint n.key nums).1) (countint n.key nums).2 := by
        rw [hashLoop, if_neg hn]
      rw [hstep, if_neg hn]
      obtain ⟨hc, hcum⟩ := countint_spec n.key nums
      obtain ⟨h1, h2, h3⟩ := ih (totaluse + 1) (ause + (countint n.key nums).1)
        (countint n.key nums).2
      refine ⟨?_, ?_, fun m hm => ?_⟩
      · rw [h1, List.length_cons]
        omega
      · rw [h2, hc, List.countP_cons]
        cases counted MAXASIZE n.key
        · rfl
        · simp
          omega
      · rw [h3 m hm, hcum m hm, List.countP_cons]
        cases counted (below m) n.key
        · rfl
        · simp
          omega

/-! ## The new size of the array part -/

/-- More than half of the numbers up to `2 ^ j` are counted, the last of them in slice `j`. -/
def Good (nums : Nums) (j : Nat) : Prop := 0 < nums j ∧ 2 ^ j / 2 < cum nums (j + 1)

/-- `n` is the last good power of two below `2 ^ i`, or 0, and `na` what is counted up to it. -/
inductive Best (nums : Nums) (i : Nat) : Nat → Nat → Prop
  | none : (∀ j < i, ¬ Good nums j) → Best nums i 0 0
  | some {j : Nat} : j < i → Good nums j → (∀ k, j < k → k < i → ¬ Good nums k) →
      Best nums i (2 ^ j) (cum nums (j + 1))

theorem Best.skip {nums : Nums} {i n na : Nat} (h : Best nums i n na) {m : Nat} (him : i ≤ m)
    (hno : ∀ j, i ≤ j → j < m → ¬ Good nums j) : Best nums m n na := by
  cases h with
  | none h =>
    refine .none fun j hj => ?_
    rcases Nat.lt_or_ge j i with hlt | hge
    · exact h j hlt
    · exact hno j hge hj
  | some hj hgood h =>
    refine .some (by omega) hgood fun k hk hkm => ?_
    rcases Nat.lt_or_ge k i with hlt | hge
    · exact h k hk hlt
    · exact hno k hge hkm

theorem cum_mono (nums : Nums) {m n : Nat} (h : m ≤ n) : cum nums m ≤ cum nums n := by
  induction n, h using Nat.le_induction with
  | base => exact Nat.le_refl _
  | succ n _ ih =>
    rw [cum_succ]
    omega

theorem computesizesLoop_spec (nums : Nums) (fuel i n na : Nat) (hi : fuel + i = MAXBITS + 1)
    (h : Best nums i n na) :
    Best nums (MAXBITS + 1)
      (computesizesLoop nums (cum nums (MAXBITS + 1)) fuel i (cum nums i) n na).1
      (computesizesLoop nums (cum nums (MAXBITS + 1)) fuel i (cum nums i) n na).2 := by
  induction fuel generalizing i n na with
  | zero =>
    obtain rfl : i = MAXBITS + 1 := by omega
    exact h
  | succ fuel ih =>
    rw [computesizesLoop]
    split_ifs with hlt
    · have hstep : Best nums (i + 1)
          (if 0 < nums i ∧ 2 ^ i / 2 < cum nums i + nums i then 2 ^ i else n)
          (if 0 < nums i ∧ 2 ^ i / 2 < cum nums i + nums i then cum nums i + nums i else na) := by
        rw [← cum_succ]
        split_ifs with hgood
        · exact .some (Nat.lt_succ_self i) hgood fun k h1 h2 => by omega
        · refine h.skip (Nat.le_succ i) fun j h1 h2 => ?_
          obtain rfl : j = i := by omega
          exact hgood
      simp only
      revert hstep
      generalize (if 0 < nums i ∧ 2 ^ i / 2 < cum nums i + nums i then 2 ^ i else n) = n'
      generalize (if 0 < nums i ∧ 2 ^ i / 2 < cum nums i + nums i then
        cum nums i + nums i else na) = na'
      rw [← cum_succ]
      intro hstep
      split_ifs with hall
      · -- all elements have been counted
        refine hstep.skip (by omega) fun j h1 h2 hgood => ?_
        have hle := cum_mono nums h1
        have hle' := cum_mono nums (m := j + 1) (n := MAXBITS + 1) (by omega)
        rw [cum_succ] at hle'
        have := hgood.1
        omega
      · exact ih (i + 1) n' na' (by omega) hstep
    · -- no power of two from here on can be good
      refine h.skip (by omega) fun j h1 h2 hgood => ?_
      have hpow : 2 ^ i ≤ 2 ^ j := Nat.pow_le_pow_right (by decide) h1
      have hcum := cum_mono nums (m := j + 1) (n := MAXBITS + 1) (by omega)
      have := hgood.2
      omega

section Sizes

/-- The counts of `rehash`. -/
def counts (t : Table) (ek : Value) : Nums :=
  (countint ek (numusehash t (numusearray t fun _ => 0).2).2.2).2

/-- The size of the array part that `rehash` chooses, and the number of keys for it. -/
def sizes (t : Table) (ek : Value) : Nat × Nat :=
  let (nasize, nums) := numusearray t fun _ => 0
  let (_, hasize, nums) := numusehash t nums
  let (extra, nums) := countint ek nums
  computesizes nums (nasize + hasize + extra)

/-- The number of keys that `rehash` counts, with the extra one. -/
def totaluse (t : Table) : Nat := arrayCount t MAXASIZE + (nodes t).length + 1

/-- The integer keys up to `m` in a table, and the extra one. -/
def tally (t : Table) (ek : Value) (m : Nat) : Nat :=
  arrayCount t m + (nodes t).countP (fun e => counted m e.1) + (counted m ek).toNat

theorem numusearray_spec (t : Table) :
    (numusearray t fun _ => 0).1 = arrayCount t MAXASIZE ∧
      ∀ m ≤ MAXBITS + 1, cum (numusearray t fun _ => 0).2 m = arrayCount t (below m) := by
  obtain ⟨h1, -, h3⟩ := sliceLoop_spec t (MAXBITS + 1) 0 1 0 (fun _ => 0) rfl (by simp [below])
  have hzero : arrayCount t (below 0) = 0 := rfl
  have hcum : ∀ m, cum (fun _ => 0) m = 0 := fun m => by simp [cum]
  refine ⟨?_, fun m hm => ?_⟩
  · rw [numusearray]
    omega
  · have := h3 m (Nat.zero_le m) hm
    rw [hcum] at this
    rw [numusearray]
    omega

theorem cum_counts (t : Table) (ek : Value) {m : Nat} (hm : m ≤ MAXBITS + 1) :
    cum (counts t ek) m = tally t ek (below m) := by
  obtain ⟨-, h1⟩ := numusearray_spec t
  obtain ⟨-, -, h2⟩ := hashLoop_spec t.node.reverse 0 0 (numusearray t fun _ => 0).2
  obtain ⟨-, h3⟩ := countint_spec ek (numusehash t (numusearray t fun _ => 0).2).2.2
  rw [counts, h3 m hm, numusehash, h2 m hm, h1 m hm]
  rfl

theorem rehash_eq (nk : Table → Value → M (Slot × Table)) (t : Table) (ek : Value) :
    rehash hashes nk t ek =
      resize hashes nk t (sizes t ek).1 (totaluse t - (sizes t ek).2) := by
  obtain ⟨h1, -⟩ := numusearray_spec t
  obtain ⟨h2, -, -⟩ := hashLoop_spec t.node.reverse 0 0 (numusearray t fun _ => 0).2
  rw [totaluse, ← h1]
  have h2' : (nodes t).length = (numusehash t (numusearray t fun _ => 0).2).1 := by
    rw [numusehash, h2, Nat.zero_add]
    rfl
  rw [h2']
  rfl

theorem sliceLoop_congr (harray : t'.array = t.array) (slices lg i ause : Nat) (nums : Nums) :
    sliceLoop t' slices lg i ause nums = sliceLoop t slices lg i ause nums := by
  obtain ⟨_, array, _, _, _, _, _⟩ := t
  obtain ⟨_, array', _, _, _, _, _⟩ := t'
  obtain rfl : array' = array := harray
  induction slices generalizing lg i ause nums with
  | zero => rfl
  | succ slices ih =>
    simp only [sliceLoop, Table.sizearray, ih]
    rfl

/-- The sizes depend on the elements and the nodes only. -/
theorem sizes_congr (harray : t'.array = t.array) (hnode : t'.node = t.node) (ek : Value) :
    sizes t' ek = sizes t ek := by
  have h1 : ∀ nums, numusearray t' nums = numusearray t nums :=
    sliceLoop_congr harray (MAXBITS + 1) 0 1 0
  have h2 : ∀ nums, numusehash t' nums = numusehash t nums := fun nums => by
    rw [numusehash, hnode]
    rfl
  simp only [sizes, h1, h2]

theorem best_sizes (t : Table) (ek : Value) :
    Best (counts t ek) (MAXBITS + 1) (sizes t ek).1 (sizes t ek).2 := by
  obtain ⟨h1, -⟩ := numusearray_spec t
  obtain ⟨-, h2, -⟩ := hashLoop_spec t.node.reverse 0 0 (numusearray t fun _ => 0).2
  obtain ⟨h3, -⟩ := countint_spec ek (numusehash t (numusearray t fun _ => 0).2).2.2
  have hall : (numusearray t fun _ => 0).1 + (numusehash t (numusearray t fun _ => 0).2).2.1 +
      (countint ek (numusehash t (numusearray t fun _ => 0).2).2.2).1 =
      cum (counts t ek) (MAXBITS + 1) := by
    rw [cum_counts t ek (Nat.le_refl _), h1, h3, numusehash, h2, Nat.zero_add]
    rfl
  have hloop := computesizesLoop_spec (counts t ek) (MAXBITS + 1) 0 0 0 rfl
    (.none fun j hj => absurd hj (Nat.not_lt_zero j))
  rw [← hall] at hloop
  exact hloop

theorem sizes_le (t : Table) (ek : Value) : (sizes t ek).1 ≤ MAXASIZE := by
  have hbest := best_sizes t ek
  generalize (sizes t ek).1 = n at hbest ⊢
  generalize (sizes t ek).2 = na at hbest
  cases hbest with
  | none _ => exact Nat.zero_le _
  | some hj _ _ => exact Nat.pow_le_pow_right (by decide) (Nat.lt_succ_iff.mp hj)

theorem sizes_tally (t : Table) (ek : Value) : (sizes t ek).2 = tally t ek (sizes t ek).1 := by
  have hbest := best_sizes t ek
  generalize (sizes t ek).1 = n at hbest ⊢
  generalize (sizes t ek).2 = na at hbest ⊢
  cases hbest with
  | none _ =>
    have hno : ∀ key, counted 0 key = false := fun key => by
      rw [counted, decide_eq_false_iff_not]
      omega
    simp [tally, hno, arrayCount]
  | some hj _ _ => exact cum_counts t ek hj

end Sizes

/-! ## Room for everything -/

theorem length_sliceEntries (i : Nat) (vs : List Value) :
    (sliceEntries i vs).length = vs.countP (!·.ttisnil) := by
  induction vs generalizing i with
  | nil => rfl
  | cons v vs ih =>
    rw [sliceEntries, List.countP_cons]
    cases hv : v.ttisnil <;> simp [ih]

theorem length_nodeEntries_le (ns : List Node) : (nodeEntries ns).length ≤ ns.length := by
  induction ns with
  | nil => exact Nat.le_refl _
  | cons n ns ih =>
    rw [nodeEntries]
    split_ifs <;> simp <;> omega

theorem length_nodes_le (h : Inv hashes t) : (nodes t).length ≤ MAXASIZE := by
  have hle := length_nodeEntries_le t.node.reverse
  rw [List.length_reverse, h.length] at hle
  exact hle.trans (Nat.pow_le_pow_right (by decide) h.small)

theorem arrayCount_le (t : Table) (m : Nat) : arrayCount t m ≤ m :=
  List.countP_le_length.trans (List.length_take_le ..)

/-- Every element of the vanishing slice takes a node. -/
theorem costs_slice (h : t.sizearray < 2 ^ 31) (n : Nat) :
    costs n (slice t n) = (slice t n).length := by
  have hzero : (slice t n).countP (fun e => counted n e.1) = 0 := by
    rw [List.countP_eq_zero]
    intro e he
    have := (arrayindex_slice h he).2.1
    rw [counted, decide_eq_true_eq]
    omega
  rw [← costs_add_countP n, hzero, Nat.add_zero]

theorem arrayCount_slice (t : Table) (n : Nat) :
    arrayCount t n + (slice t n).length = arrayCount t t.sizearray := by
  rw [slice, length_sliceEntries, arrayCount, arrayCount, Table.sizearray, List.take_length,
    ← List.countP_append, List.take_append_drop]

/-- `rehash` makes room for every key and the extra one. -/
theorem rehash_here (h : Inv hashes t) (hsize : t.sizearray ≤ MAXASIZE)
    (ek : Value) (grow : Table → Value → M (Slot × Table)) :
    Yields (· = tableOverflow)
      (fun t' => Inv hashes t' ∧ t'.sizearray = (sizes t ek).1 ∧
        cost t'.sizearray ek ≤ room t' ∧
        ((sizes t ek).1 = t.sizearray → t'.block = t.block) ∧
        ∀ key, value hashes t' key = value hashes t key)
      (rehash hashes (newkeyWith hashes grow) t ek) := by
  have hn := sizes_le t ek
  have hna := sizes_tally t ek
  rw [rehash_eq, hna]
  set n := (sizes t ek).1
  have hslice := costs_slice h.array n
  have hcount := arrayCount_slice t n
  have hall : arrayCount t t.sizearray = arrayCount t MAXASIZE := by
    rw [← arrayCount_min t MAXASIZE, Nat.min_eq_right hsize]
  have hnodes := costs_add_countP n (nodes t)
  have hek := cost_eq n ek
  have hle := arrayCount_le t MAXASIZE
  have hle' := length_nodes_le h
  have hmax : MAXASIZE = 2 ^ 26 := rfl
  have hfit : costs n (slice t n) + costs n (nodes t) ≤ totaluse t - tally t ek n := by
    rw [totaluse, tally]
    omega
  have hpart : totaluse t - tally t ek n ≤ nodePart (totaluse t - tally t ek n) :=
    le_nodePart (by rw [totaluse]; omega)
  refine (resize_here h (by omega) (by rw [totaluse]; omega) (hfit.trans hpart) grow).imp
    fun t' ⟨h', hs, hroom, hblock, hval, _⟩ => ?_
  refine ⟨h', hs, ?_, hblock, hval⟩
  have hroom := hpart.trans hroom
  rw [totaluse, tally] at hroom
  rw [hs]
  omega

/-- What an insertion leaves of the array part. -/
structure SameArray (t t' : Table) : Prop where
  sizearray : t'.sizearray = t.sizearray
  block : t'.block = t.block

/-- `newkey` in a table with an array part that `rehash` counts. -/
theorem newkey_counted (h : Inv hashes t) (ha : Absent t key) (hsize : t.sizearray ≤ MAXASIZE)
    (fuel : Nat) :
    Yields (· = tableOverflow)
      (fun r => SetTo hashes t r.2 key r.1 ∧ r.2.sizearray ≤ MAXASIZE ∧
        ((sizes t key).1 = t.sizearray → SameArray t r.2))
      (newkey hashes (fuel + 2) t key) := by
  rcases newkey_cases h ha (fuel + 1) with ⟨i, t', hnew, hg⟩ | ⟨l, hl, hfull, hnew⟩
  · have hto := hg.setHere ha
    refine yields_of_eq hnew ⟨hto.toSetTo, ?_, fun _ => ⟨hto.shape.sizearray, hto.shape.block⟩⟩
    rw [hto.shape.sizearray]
    exact hsize
  · have hsizes : sizes { t with lastfree := l } key = sizes t key := by
      refine sizes_congr ?_ ?_ key
      · rfl
      · rfl
    rw [hnew, newkey_eq hashes fuel]
    refine (rehash_here (h.full hl hfull) hsize key _).bind
      fun t1 ⟨h1, hs1, hroom, hblock, hval⟩ => ?_
    obtain ⟨p, t2, heq, hto⟩ := setWith_here h1 ha.isKey hroom
      (regrow hashes (newkey hashes fuel))
    refine yields_of_eq heq ⟨⟨hto.inv, hto.slot, fun k => (hto.value k).trans (hval k)⟩, ?_,
      fun hstable => ⟨?_, ?_⟩⟩
    · rw [hto.shape.sizearray, hs1]
      exact sizes_le ..
    · rw [hto.shape.sizearray, hs1, hsizes, hstable]
    · rw [hto.shape.block]
      refine hblock ?_
      rw [hsizes]
      exact hstable

/-! ## The keys in use -/

/-- The number `k` is in use in the table, or the extra key. -/
def inUse (hashes : Nat → UInt32) (t : Table) (ek : Value) (k : Nat) : Bool :=
  value hashes t (.number (cast_num k)) ≠ .nil ∨ arrayindex ek = k

def used (hashes : Nat → UInt32) (t : Table) (ek : Value) (m : Nat) : Nat :=
  (List.range m).countP fun i => inUse hashes t ek (i + 1)

theorem used_add (hashes : Nat → UInt32) (t : Table) (ek : Value) (m n : Nat) :
    used hashes t ek (m + n) = used hashes t ek m +
      (List.range n).countP fun i => inUse hashes t ek (m + i + 1) := by
  rw [used, used, List.range_add, List.countP_append, List.countP_map]
  rfl

/-- At most one node has a key equal to the number, and one if the number is in use there. -/
theorem countP_index (h : Inv hashes t) {k : Nat} (hk : k < 2 ^ 31) (hpos : 0 < k)
    (hout : t.sizearray < k) :
    (nodes t).countP (fun e => arrayindex e.1 = k) =
      if value hashes t (.number (cast_num k)) ≠ .nil then 1 else 0 := by
  have hidx := arrayindex_cast (k := (k : Int)) (by omega)
  have heq : ∀ e ∈ nodes t, arrayindex e.1 = k → rawequal (.number (cast_num k)) e.1 = true := by
    intro e _ he
    have := rawequal_cast (show arrayindex e.1 ≠ -1 by omega)
    rwa [he] at this
  have hle : (nodes t).countP (fun e => arrayindex e.1 = k) ≤ 1 := by
    have hpair := (distinct_nodes h).pairwise
    generalize nodes t = es at heq hpair
    induction es with
    | nil => exact Nat.zero_le _
    | cons e es ih =>
      obtain ⟨hfirst, hrest⟩ := List.pairwise_cons.mp hpair
      have ih := ih (fun e' he' => heq e' (List.mem_cons_of_mem _ he')) hrest
      rw [List.countP_cons]
      split_ifs with he
      · rw [List.countP_eq_zero.mpr]
        intro e' he' hek'
        have h1 := heq e (List.mem_cons_self ..) (by simpa using he)
        have h2 := heq e' (List.mem_cons_of_mem _ he') (by simpa using hek')
        rw [rawequal_comm] at h1
        exact absurd (rawequal_trans h1 h2) (by rw [hfirst e' he']; exact Bool.false_ne_true)
      · exact ih
  split_ifs with hval
  · obtain ⟨i, -, hik, hv⟩ := ((value_eq_iff h hval).mp rfl).resolve_left (by
      rintro ⟨hin, -⟩
      rw [InArray, hidx] at hin
      omega)
    have hpos : 0 < (nodes t).countP (fun e => arrayindex e.1 = k) := by
      rw [List.countP_pos_iff]
      refine ⟨_, mem_nodes.mpr ⟨i, hv ▸ hval, rfl⟩, ?_⟩
      rw [decide_eq_true_eq, arrayindex_eq hik, hidx]
    omega
  · rw [List.countP_eq_zero]
    intro e he hek
    have hne : e.2 ≠ .nil := by
      obtain ⟨i, hv, rfl⟩ := mem_nodes.mp he
      exact hv
    rw [value_rawequal h (heq e he (by simpa using hek)), value_of_mem_nodes h he] at hval
    exact hval hne

theorem counted_succ (m : Nat) (key : Value) :
    (counted (m + 1) key).toNat =
      (counted m key).toNat + (decide (arrayindex key = (m + 1 : Nat))).toNat := by
  by_cases h : arrayindex key = (m + 1 : Nat)
  · have h1 : counted (m + 1) key = true := decide_eq_true (by omega)
    have h2 : counted m key = false := decide_eq_false (by omega)
    rw [h1, h2, decide_eq_true h]
    rfl
  · have h1 : counted (m + 1) key = counted m key := decide_eq_decide.mpr (by omega)
    rw [h1, decide_eq_false h]
    rfl

theorem countP_cons_toNat {α : Type} (p : α → Bool) (a : α) (l : List α) :
    (a :: l).countP p = l.countP p + (p a).toNat := by
  rw [List.countP_cons]
  cases p a <;> rfl

theorem countP_counted_succ (m : Nat) (es : List Entry) :
    es.countP (fun e => counted (m + 1) e.1) =
      es.countP (fun e => counted m e.1) + es.countP (fun e => arrayindex e.1 = (m + 1 : Nat)) := by
  induction es with
  | nil => rfl
  | cons e es ih =>
    rw [countP_cons_toNat, countP_cons_toNat, countP_cons_toNat, ih, counted_succ]
    omega

theorem arrayCount_succ (t : Table) (m : Nat) :
    arrayCount t (m + 1) = arrayCount t m + if t.array.getD m .nil = .nil then 0 else 1 := by
  rw [arrayCount, arrayCount, List.take_add_one, List.countP_append, List.getD_eq_getElem?_getD]
  cases hm : t.array[m]? with
  | none => simp
  | some v =>
    cases hv : v.ttisnil
    · simp [hv, ← ttisnil_iff]
    · simp [ttisnil_iff.mp hv, ttisnil]

/-- At a number in use `rehash` counts one key. -/
theorem count_index (h : Inv hashes t) {ek : Value} (ha : Absent t ek) {k : Nat} (hpos : 0 < k)
    (hk : k < 2 ^ 31) :
    (if t.array.getD (k - 1) .nil = .nil then 0 else 1) +
      (nodes t).countP (fun e => arrayindex e.1 = k) + (decide (arrayindex ek = k)).toNat =
      (inUse hashes t ek k).toNat := by
  have hsize := h.array
  have hidx := arrayindex_cast (k := (k : Int)) (by omega)
  rcases Nat.lt_or_ge (k - 1) t.sizearray with hlt | hge
  · -- in the array part, where no node and not the extra key can be
    have hnone : (nodes t).countP (fun e => arrayindex e.1 = k) = 0 := by
      rw [List.countP_eq_zero]
      intro e he hek
      obtain ⟨i, hv, rfl⟩ := mem_nodes.mp he
      refine h.out_of_live hv ?_
      rw [decide_eq_true_eq] at hek
      rw [InArray, hek]
      omega
    have hne : arrayindex ek ≠ k := by
      intro heq
      refine ha.out ?_
      rw [InArray, heq]
      omega
    have hin : InArray t (.number (cast_num k)) := by
      rw [InArray, hidx]
      omega
    have hval := value_array h hin
    have hk1 : ((k : Int) - 1).toNat = k - 1 := by omega
    rw [hidx, hk1] at hval
    rw [hnone, inUse, hval]
    generalize t.array.getD (k - 1) .nil = v
    by_cases hnil : v = .nil <;> simp [hnil, hne]
  · have hnil : t.array.getD (k - 1) .nil = .nil := by
      by_contra hv
      have := lt_of_array hv
      omega
    rw [if_pos hnil, countP_index h hk hpos (by omega), inUse]
    by_cases heq : arrayindex ek = k
    · have hval : value hashes t (.number (cast_num k)) = .nil := by
        have hraw := rawequal_cast (show arrayindex ek ≠ -1 by omega)
        rw [heq] at hraw
        rw [value_rawequal h hraw]
        by_contra hv
        rcases (value_eq_iff h hv).mp rfl with ⟨hin, -⟩ | ⟨i, -, hik, -⟩
        · exact ha.out hin
        · rw [ha.node] at hik
          cases hik
      simp [hval, heq]
    · by_cases hval : value hashes t (.number (cast_num k)) = .nil <;> simp [hval, heq]

/-- What `rehash` counts are the numbers in use. -/
theorem tally_eq_used (h : Inv hashes t) {ek : Value} (ha : Absent t ek) {m : Nat}
    (hm : m < 2 ^ 31) : tally t ek m = used hashes t ek m := by
  induction m with
  | zero =>
    have hno : ∀ key, counted 0 key = false := fun key => by
      rw [counted, decide_eq_false_iff_not]
      omega
    simp [tally, used, hno, arrayCount]
  | succ m ih =>
    have hlast : used hashes t ek (m + 1) =
        used hashes t ek m + (inUse hashes t ek (m + 1)).toNat := by
      rw [used_add]
      cases hu : inUse hashes t ek (m + 1) <;> simp [hu]
    have hstep := count_index h ha (Nat.succ_pos m) hm
    rw [Nat.succ_eq_add_one, Nat.add_sub_cancel] at hstep
    have ih := ih (by omega)
    rw [tally] at ih
    rw [hlast, tally, arrayCount_succ, countP_counted_succ, counted_succ]
    omega

/-! ## A table that is being filled

While `resize` re-inserts the elements of an array part that was too large to be counted, a nested
`rehash` chooses the size that the array part already has.
-/

theorem used_lt_iff (hashes : Nat → UInt32) (t : Table) (ek : Value) {m n : Nat} (h : m ≤ n) :
    used hashes t ek m < used hashes t ek n ↔ ∃ k, m < k ∧ k ≤ n ∧ inUse hashes t ek k = true := by
  obtain ⟨d, rfl⟩ := Nat.exists_eq_add_of_le h
  rw [used_add, Nat.lt_add_right_iff_pos, List.countP_pos_iff]
  constructor
  · rintro ⟨i, hi, hu⟩
    have := List.mem_range.mp hi
    exact ⟨m + i + 1, by omega, by omega, hu⟩
  · rintro ⟨k, h1, h2, hu⟩
    refine ⟨k - m - 1, List.mem_range.mpr (by omega), ?_⟩
    have hk : m + (k - m - 1) + 1 = k := by omega
    rw [hk]
    exact hu

theorem below_lt (j : Nat) : below j < 2 ^ j := by
  cases j with
  | zero => exact Nat.one_pos
  | succ j =>
    rw [below, Nat.pow_succ]
    have := Nat.pow_pos (n := j) (show 0 < 2 by decide)
    omega

theorem good_iff (h : Inv hashes t) {ek : Value} (ha : Absent t ek) {j : Nat} (hj : j ≤ MAXBITS) :
    Good (counts t ek) j ↔
      (∃ k, below j < k ∧ k ≤ 2 ^ j ∧ inUse hashes t ek k = true) ∧
        2 ^ j / 2 < used hashes t ek (2 ^ j) := by
  have hbound : 2 ^ j ≤ 2 ^ MAXBITS := Nat.pow_le_pow_right (by decide) hj
  have hmax : 2 ^ MAXBITS < 2 ^ 31 := by decide
  have hlt := below_lt j
  have h1 : cum (counts t ek) (j + 1) = used hashes t ek (2 ^ j) :=
    (cum_counts t ek (by omega)).trans (tally_eq_used h ha (show 2 ^ j < 2 ^ 31 by omega))
  have h2 : cum (counts t ek) j = used hashes t ek (below j) :=
    (cum_counts t ek (by omega)).trans (tally_eq_used h ha (by omega))
  rw [Good, ← used_lt_iff hashes t ek (Nat.le_of_lt hlt), h1]
  rw [cum_succ, h2] at h1
  refine and_congr_left fun _ => ?_
  omega

theorem Best.unique {nums nums' : Nums} {i n na n' na' : Nat} (h : Best nums i n na)
    (h' : Best nums' i n' na') (hfrom : ∀ j < i, Good nums' j → Good nums j)
    (hto : ∀ j < i, 2 ^ j = n → Good nums j → Good nums' j) : n' = n := by
  cases h with
  | none hno =>
    cases h' with
    | none _ => rfl
    | some hj hgood _ => exact absurd (hfrom _ hj hgood) (hno _ hj)
  | @some j hj hgood hlast =>
    have hgood' := hto j hj rfl hgood
    cases h' with
    | none hno => exact absurd hgood' (hno j hj)
    | @some j' hj' hgood'' hlast' =>
      rcases Nat.lt_trichotomy j j' with hlt | heq | hgt
      · exact absurd (hfrom j' hj' hgood'') (hlast j' hlt hj')
      · rw [heq]
      · exact absurd hgood' (hlast' j hgt hj)

/-- Fewer numbers in use, but the same up to the size chosen, give the same size. -/
theorem sizes_stable (h : Inv hashes t) {ek : Value} (ha : Absent t ek) (h' : Inv hashes t')
    {ek' : Value} (ha' : Absent t' ek')
    (hsub : ∀ k, 0 < k → k < 2 ^ 31 → inUse hashes t' ek' k = true → inUse hashes t ek k = true)
    (hsame : ∀ k, 0 < k → k ≤ (sizes t ek).1 → inUse hashes t ek k = true →
      inUse hashes t' ek' k = true) :
    (sizes t' ek').1 = (sizes t ek).1 := by
  have hbound : ∀ j < MAXBITS + 1, 2 ^ j ≤ 2 ^ MAXBITS := fun j hj =>
    Nat.pow_le_pow_right (by decide) (by omega)
  have hmax : 2 ^ MAXBITS < 2 ^ 31 := by decide
  have hle : ∀ {t t' : Table} {ek ek' : Value} (m : Nat),
      (∀ k, 0 < k → k ≤ m → inUse hashes t' ek' k = true → inUse hashes t ek k = true) →
      used hashes t' ek' m ≤ used hashes t ek m := by
    intro t t' ek ek' m hm
    refine List.countP_mono_left fun i hi hu => hm (i + 1) (Nat.succ_pos i) ?_ hu
    exact List.mem_range.mp hi
  refine (best_sizes t ek).unique (best_sizes t' ek') (fun j hj hgood => ?_)
    (fun j hj hn hgood => ?_)
  · have hpow := hbound j hj
    rw [good_iff h' ha' (by omega)] at hgood
    rw [good_iff h ha (by omega)]
    obtain ⟨⟨k, h1, h2, hu⟩, hhalf⟩ := hgood
    refine ⟨⟨k, h1, h2, hsub k (by omega) (by omega) hu⟩, ?_⟩
    exact Nat.lt_of_lt_of_le hhalf (hle _ fun k hk hkm => hsub k hk (by omega))
  · rw [good_iff h ha (by omega)] at hgood
    rw [good_iff h' ha' (by omega)]
    obtain ⟨⟨k, h1, h2, hu⟩, hhalf⟩ := hgood
    refine ⟨⟨k, h1, h2, hsame k (by omega) (by omega) hu⟩, ?_⟩
    exact Nat.lt_of_lt_of_le hhalf (hle _ fun k hk hkm => hsame k hk (by omega))

end Luaxx.Tables
