import Luaxx.Table.DeadKeys

/-!
# The length of a table (`luaH_getn` in `ltable.c`)

Unsigned numbers are natural numbers modulo `2 ^ 32`. To look up an index that is not an `int`, or
that is not in the array part, is an undefined step. The loops have fuel for every index.
-/

namespace Luaxx.Tables

open Result

def INT_MAX : Nat := 2 ^ 31 - 1

def MAX_INT : Nat := INT_MAX - 2

/-- The binary search between a present `i`, or 0, and an absent `j`. -/
def binarySearch (isnil : Nat → M Bool) : Nat → Nat → Nat → M Nat
  | 0, _, _ => .error .outOfFuel
  | fuel + 1, i, j =>
    if (j + 2 ^ 32 - i) % 2 ^ 32 > 1 then do
      let m := (i + j) % 2 ^ 32 / 2
      if ← isnil m then binarySearch isnil fuel i m else binarySearch isnil fuel m j
    else pure i

section

variable (t : Table)

/-- `ttisnil(luaH_getnum(t, k))` -/
def getnumNil (k : Nat) : M Bool :=
  if k ≤ INT_MAX then pure (t.read (luaH_getnum t k)).ttisnil else .error .undefined

/-- `ttisnil(&t->array[k - 1])` -/
def elementNil (k : Nat) : M Bool :=
  if 0 < k ∧ k ≤ t.sizearray then pure (t.array.getD (k - 1) .nil).ttisnil else .error .undefined

/-- The linear search, from `i` on. -/
def linearSearch : Nat → Nat → M Nat
  | 0, _ => .error .outOfFuel
  | fuel + 1, i => do
    if ← getnumNil t i then pure ((i + 2 ^ 32 - 1) % 2 ^ 32)
    else linearSearch fuel ((i + 1) % 2 ^ 32)

/-- The first loop of `unbound_search`, with what comes after it. -/
def doubleSearch : Nat → Nat → Nat → M Nat
  | 0, _, _ => .error .outOfFuel
  | fuel + 1, i, j => do
    if ← getnumNil t j then binarySearch (getnumNil t) (2 ^ 31) i j
    else
      let i := j
      let j := j * 2 % 2 ^ 32
      if j > MAX_INT then
        -- table was built with bad purposes: resort to linear search
        linearSearch t (2 ^ 31) 1
      else doubleSearch fuel i j

def unbound_search (j : Nat) : M Nat := doubleSearch t (2 ^ 31) j ((j + 1) % 2 ^ 32)

def luaH_getn : M Nat :=
  let j := t.sizearray
  if 0 < j ∧ (t.array.getD (j - 1) .nil).ttisnil then
    -- there is a boundary in the array part: (binary) search for it
    binarySearch (elementNil t) (2 ^ 31) 0 j
  else if t.isDummy then pure j
  else unbound_search t j

end

/-! ## Borders -/

/-- `n` is 0 or present, and the next index is absent. -/
def Border (absent : Nat → Bool) (n : Nat) : Prop :=
  (n = 0 ∨ absent n = false) ∧ absent (n + 1) = true

variable {isnil : Nat → M Bool} {absent : Nat → Bool} {fuel i j : Nat}

theorem binarySearch_spec (hnil : ∀ k, i < k → k < j → isnil k = .ok (absent k))
    (hi : i = 0 ∨ absent i = false) (hj : absent j = true) (hlt : i < j) (hint : j ≤ INT_MAX)
    (hfuel : j - i ≤ fuel) :
    ∃ n, binarySearch isnil fuel i j = .ok n ∧ n < j ∧ Border absent n := by
  unfold INT_MAX at hint
  induction fuel generalizing i j with
  | zero => omega
  | succ fuel ih =>
    rw [binarySearch]
    by_cases hgap : j - i > 1
    · have hm : (i + j) % 2 ^ 32 / 2 = (i + j) / 2 := by omega
      have hdiff : (j + 2 ^ 32 - i) % 2 ^ 32 = j - i := by omega
      have hbetween : i < (i + j) / 2 ∧ (i + j) / 2 < j := by omega
      simp only [hdiff, if_pos hgap, hm, hnil _ hbetween.1 hbetween.2, ok_bind]
      cases hab : absent ((i + j) / 2) with
      | true =>
        rw [if_pos rfl]
        obtain ⟨n, hres, hn, hborder⟩ := ih (fun k h1 h2 => hnil k h1 (h2.trans hbetween.2)) hi hab
          hbetween.1 (by omega) (by omega)
        exact ⟨n, hres, hn.trans hbetween.2, hborder⟩
      | false =>
        rw [if_neg Bool.false_ne_true]
        exact ih (fun k h1 h2 => hnil k (hbetween.1.trans h1) h2) (.inr hab) hj hbetween.2
          (by omega) (by omega)
    · have hone : (j + 2 ^ 32 - i) % 2 ^ 32 = 1 := by omega
      obtain rfl : j = i + 1 := by omega
      rw [hone, if_neg (by omega)]
      exact ⟨i, rfl, Nat.lt_succ_self i, hi, hj⟩

variable {t : Table} {hashes : Nat → UInt32}

/-- There is nothing under the index. -/
def absentAt (hashes : Nat → UInt32) (t : Table) (k : Nat) : Bool :=
  (value hashes t (.number (cast_num k))).ttisnil

theorem getnumNil_eq (hashes : Nat → UInt32) {k : Nat} (hk : k ≤ INT_MAX) :
    getnumNil t k = .ok (absentAt hashes t k) := by
  have hrange : k < 2 ^ 31 := Nat.lt_of_le_of_lt hk (by decide)
  rw [getnumNil, if_pos hk, luaH_getnum_eq hashes t (by omega)]
  rfl

theorem absentAt_array (h : Inv hashes t) {k : Nat} (h0 : 0 < k) (hk : k ≤ t.sizearray) :
    absentAt hashes t k = (t.array.getD (k - 1) .nil).ttisnil := by
  obtain ⟨i, rfl⟩ : ∃ i, k = i + 1 := ⟨k - 1, by omega⟩
  rw [absentAt]
  push_cast
  rw [value_index h (by omega)]

theorem linearSearch_spec (hmax : absentAt hashes t INT_MAX = true) (hi : 0 < i)
    (hprev : i = 1 ∨ absentAt hashes t (i - 1) = false) (hint : i ≤ INT_MAX)
    (hfuel : INT_MAX - i < fuel) :
    ∃ n, linearSearch t fuel i = .ok n ∧ n < INT_MAX ∧ Border (absentAt hashes t) n := by
  induction fuel generalizing i with
  | zero => omega
  | succ fuel ih =>
    rw [linearSearch, getnumNil_eq hashes hint, ok_bind]
    cases hab : absentAt hashes t i with
    | true =>
      have hsub : (i + 2 ^ 32 - 1) % 2 ^ 32 = i - 1 := by
        unfold INT_MAX at hint
        omega
      rw [if_pos rfl, hsub]
      refine ⟨i - 1, rfl, by omega, ?_, by rw [Nat.sub_add_cancel hi]; exact hab⟩
      exact hprev.imp_left fun h => by omega
    | false =>
      have hne : i ≠ INT_MAX := fun h => by
        rw [h, hmax] at hab
        cases hab
      have hadd : (i + 1) % 2 ^ 32 = i + 1 := by
        unfold INT_MAX at hint
        omega
      rw [if_neg Bool.false_ne_true, hadd]
      exact ih (Nat.succ_pos i) (.inr hab) (by omega) (by omega)

theorem doubleSearch_spec (hmax : absentAt hashes t INT_MAX = true)
    (hi : i = 0 ∨ absentAt hashes t i = false) (hlt : i < j) (hint : j ≤ INT_MAX)
    (hfuel : INT_MAX - j < fuel) :
    ∃ n, doubleSearch t fuel i j = .ok n ∧ n < INT_MAX ∧ Border (absentAt hashes t) n := by
  induction fuel generalizing i j with
  | zero => omega
  | succ fuel ih =>
    rw [doubleSearch, getnumNil_eq hashes hint, ok_bind]
    cases hab : absentAt hashes t j with
    | true =>
      have hfuel' : j - i ≤ 2 ^ 31 := by
        unfold INT_MAX at hint
        omega
      have hnil : ∀ k, i < k → k < j → getnumNil t k = .ok (absentAt hashes t k) :=
        fun k _ hk => getnumNil_eq hashes (hk.le.trans hint)
      rw [if_pos rfl]
      obtain ⟨n, hres, hn, hborder⟩ := binarySearch_spec hnil hi hab hlt hint hfuel'
      exact ⟨n, hres, lt_of_lt_of_le hn hint, hborder⟩
    | false =>
      have hne : j ≠ INT_MAX := fun h => by
        rw [h, hmax] at hab
        cases hab
      have hdouble : j * 2 % 2 ^ 32 = j * 2 := by
        unfold INT_MAX at hint
        omega
      rw [if_neg Bool.false_ne_true]
      simp only [hdouble]
      split_ifs with hbig
      · exact linearSearch_spec hmax Nat.one_pos (.inl rfl) (by decide) (by decide)
      · have hle : j * 2 ≤ INT_MAX := by
          unfold MAX_INT at hbig
          omega
        exact ih (.inr hab) (by omega) hle (by omega)

/-- Without a node part there is nothing outside of the array part. -/
theorem value_dummy (h : Inv hashes t) (hd : t.isDummy = true) {key : Value}
    (hout : ¬ InArray t key) : value hashes t key = .nil := by
  by_cases hkey : key.IsKey
  · rcases luaH_get_cases h hkey with ⟨hin, -⟩ | ⟨-, i, hi, -⟩ | ⟨-, -, hget⟩
    · exact absurd hin hout
    · rw [h.isDummy_eq_false hi] at hd
      cases hd
    · rw [value, hget]
      rfl
  · exact value_not_key h hkey

theorem absentAt_dummy (h : Inv hashes t) (hd : t.isDummy = true) {k : Nat}
    (hk : t.sizearray < k) (hint : k ≤ INT_MAX) : absentAt hashes t k = true := by
  have hrange : k < 2 ^ 31 := Nat.lt_of_le_of_lt hint (by decide)
  have hout : ¬ InArray t (.number (cast_num k)) := by
    rw [InArray, arrayindex_cast (by omega)]
    omega
  rw [absentAt, value_dummy h hd hout]
  rfl

theorem luaH_getn_spec (h : Inv hashes t)
    (hkeys : ∀ key, value hashes t key ≠ .nil → arrayindex key < INT_MAX) :
    ∃ n : Nat, luaH_getn t = .ok n ∧ n < INT_MAX ∧
      (n = 0 ∨ value hashes t (.number (cast_num n)) ≠ .nil) ∧
      value hashes t (.number (cast_num (n + 1 : Nat))) = .nil := by
  have hmax : absentAt hashes t INT_MAX = true := by
    rw [absentAt, Value.ttisnil_iff]
    by_contra hne
    have := hkeys _ hne
    rw [arrayindex_cast (by decide)] at this
    exact lt_irrefl _ this
  suffices hborder : ∃ n, luaH_getn t = .ok n ∧ n < INT_MAX ∧ Border (absentAt hashes t) n by
    obtain ⟨n, hres, hlt, hn, hnext⟩ := hborder
    refine ⟨n, hres, hlt, hn.imp_right fun hn hnil => ?_, Value.ttisnil_iff.mp hnext⟩
    rw [absentAt, hnil] at hn
    cases hn
  have hsize : t.sizearray ≤ INT_MAX := Nat.le_pred_of_lt h.array
  rw [luaH_getn]
  by_cases harray : 0 < t.sizearray ∧ (t.array.getD (t.sizearray - 1) .nil).ttisnil = true
  · rw [if_pos harray]
    have hnil : ∀ k, 0 < k → k < t.sizearray → elementNil t k = .ok (absentAt hashes t k) := by
      intro k h0 hk
      rw [elementNil, if_pos ⟨h0, hk.le⟩, absentAt_array h h0 hk.le]
      rfl
    have hfuel : t.sizearray - 0 ≤ 2 ^ 31 := by
      unfold INT_MAX at hsize
      omega
    have hend := (absentAt_array h harray.1 le_rfl).trans harray.2
    obtain ⟨n, hres, hlt, hn⟩ := binarySearch_spec hnil (.inl rfl) hend harray.1 hsize hfuel
    exact ⟨n, hres, lt_of_lt_of_le hlt hsize, hn⟩
  · rw [if_neg harray]
    have hlast : t.sizearray = 0 ∨ absentAt hashes t t.sizearray = false := by
      refine (Nat.eq_zero_or_pos _).imp_right fun h0 => ?_
      rw [absentAt_array h h0 le_rfl]
      exact Bool.eq_false_iff.mpr fun hnil => harray ⟨h0, hnil⟩
    have hlt : t.sizearray < INT_MAX := by
      refine lt_of_le_of_ne hsize fun he => ?_
      rcases hlast with h0 | hlast
      · rw [h0] at he
        cases he
      · rw [he, hmax] at hlast
        cases hlast
    cases hd : t.isDummy with
    | true =>
      rw [if_pos rfl]
      exact ⟨_, rfl, hlt, hlast, absentAt_dummy h hd (Nat.lt_succ_self _) hlt⟩
    | false =>
      have hadd : (t.sizearray + 1) % 2 ^ 32 = t.sizearray + 1 := by
        unfold INT_MAX at hlt
        omega
      rw [if_neg Bool.false_ne_true, unbound_search, hadd]
      exact doubleSearch_spec hmax hlast (Nat.lt_succ_self _) hlt (by unfold INT_MAX; omega)

/-- `luaH_getn` ends with a border of the table. Every index that is looked up on the way is an
`int`, and one that is looked up in the array part is in it. -/
theorem luaH_getn_border (ht : Reachable hashes t)
    (hkeys : ∀ key, value hashes t key ≠ .nil → arrayindex key < INT_MAX) :
    ∃ n : Nat, luaH_getn t = .ok n ∧ n < INT_MAX ∧
      (n = 0 ∨ value hashes t (.number (cast_num n)) ≠ .nil) ∧
      value hashes t (.number (cast_num (n + 1 : Nat))) = .nil :=
  luaH_getn_spec ht.sound.inv hkeys

/-- A table with nil at the end of its array part. -/
def shortened : Table := ⟨255, [.boolean true, .nil, .nil], 1, [dummynode_], true, 0, 0⟩

theorem reachable_shortened : Reachable (fun _ => 0) shortened := by
  have h0 : Reachable (fun _ => 0) ⟨255, [.nil, .nil, .nil], 1, [dummynode_], true, 0, 0⟩ :=
    @Reachable.new _ 3 0 _ (by decide) (by decide) rfl
  refine @Reachable.step _ _ _ (.setnum 1 (.boolean true)) h0 (by decide) ?_ (by decide +kernel)
  exact fun i _ hgc => absurd rfl hgc

theorem luaH_getn_border_shortened :
    ∃ n : Nat, luaH_getn shortened = .ok n ∧ n < INT_MAX ∧
      (n = 0 ∨ value (fun _ => 0) shortened (.number (cast_num n)) ≠ .nil) ∧
      value (fun _ => 0) shortened (.number (cast_num (n + 1 : Nat))) = .nil := by
  refine luaH_getn_border reachable_shortened fun key hne => ?_
  by_contra hlarge
  refine hne (value_dummy reachable_shortened.sound.inv rfl fun hin => hlarge ?_)
  exact lt_of_le_of_lt hin.2 (by decide)

end Luaxx.Tables
