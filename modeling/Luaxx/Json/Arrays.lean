import Luaxx.Core.Whole
import Luaxx.Json.Text
import Mathlib.Data.List.Nodup

/-!
# Array lengths

What `lua_array_length` computes for a table whose keys are whole numbers from 1 on. A key that is no
`int` resets the maximum.
-/

namespace Luaxx.Json

open Luaxx.Result

variable {cfg : Config}

/-- A key that is an `int`. -/
def Small (k : Number) : Prop := k.truncate < 2 ^ 31

instance : DecidablePred Small := fun _ => inferInstanceAs (Decidable (_ < _))

/-- The maximum after a key. -/
def keyMax (max : Int) (k : Number) : Int :=
  if luai_numlt (cast_num max) k then lua_number2int k else max

theorem keyMax_eq {k : Number} (hk : k.Index) {m : Int} (hm : -2 ^ 31 ≤ m ∧ m < 2 ^ 31) :
    keyMax m k = if Small k then max m k.truncate else -2 ^ 31 := by
  rw [keyMax]
  by_cases hlt : m < k.truncate
  · rw [if_pos ((hk.cast_num_lt hm).mpr hlt), hk.toInt, max_eq_right (le_of_lt hlt)]
    rfl
  · have hsmall : Small k := by
      rw [Small]
      omega
    rw [if_neg (fun h => hlt ((hk.cast_num_lt hm).mp h)), if_pos hsmall, max_eq_left (by omega)]

/-- The array is too sparse to be written as one. -/
def Sparse (cfg : Config) (items : Nat) (max : Int) : Prop :=
  0 < cfg.encode_sparse_ratio ∧ int (items * cfg.encode_sparse_ratio) < max ∧
    cfg.encode_sparse_safe < max

instance (items : Nat) (max : Int) : Decidable (Sparse cfg items max) :=
  inferInstanceAs (Decidable (_ ∧ _))

theorem int_emod (n : Int) : int n % 2 ^ 32 = n % 2 ^ 32 := by
  unfold int
  omega

theorem int_congr {n m : Int} (h : n % 2 ^ 32 = m % 2 ^ 32) : int n = int m := by
  unfold int
  omega

theorem countKeys_eq {ks : List Number} (h : ∀ k ∈ ks, k.Index) (max items : Int) :
    ∃ items', items' % 2 ^ 32 = (items + ks.length) % 2 ^ 32 ∧
      countKeys (ks.map Key.number) max items = some (ks.foldl keyMax max, items') := by
  induction ks generalizing max items with
  | nil => exact ⟨items, by simp, rfl⟩
  | cons k ks ih =>
    obtain ⟨hk, hks⟩ := List.forall_mem_cons.mp h
    obtain ⟨items', hitems, heq⟩ := ih hks (keyMax max k) (int (items + 1))
    refine ⟨items', ?_, ?_⟩
    · have hint := int_emod (items + 1)
      rw [hitems, List.length_cons, Nat.cast_add]
      omega
    · have htest : (!k.isZero && k.isWhole && luai_numle (cast_num 1) k) = true := by
        rw [hk.not_zero, hk.1, hk.2]
        rfl
      rw [List.map_cons, countKeys, if_pos htest]
      exact heq

/-- The length of an array, from the maximum that the loop computes. -/
theorem lua_array_length_eq {ks : List Number} (h : ∀ k ∈ ks, k.Index) :
    lua_array_length cfg (ks.map Key.number) =
      if Sparse cfg ks.length (ks.foldl keyMax 0) then
        if !cfg.encode_sparse_convert then json_encode_exception "table" "excessively sparse array"
        else .ok (-1)
      else .ok (ks.foldl keyMax 0) := by
  obtain ⟨items, hitems, heq⟩ := countKeys_eq h 0 0
  have hint : int (items * cfg.encode_sparse_ratio) = int (ks.length * cfg.encode_sparse_ratio) := by
    apply int_congr
    rw [Int.zero_add] at hitems
    rw [Int.mul_emod, hitems, ← Int.mul_emod]
  rw [lua_array_length, heq]
  simp only [hint]
  rfl

/-! ## The maximum -/

theorem keyMax_range {k : Number} (hk : k.Index) {m : Int} (hm : -2 ^ 31 ≤ m ∧ m < 2 ^ 31) :
    -2 ^ 31 ≤ keyMax m k ∧ keyMax m k < 2 ^ 31 := by
  rw [keyMax_eq hk hm]
  split
  · next hsmall =>
    have hlt : k.truncate < 2 ^ 31 := hsmall
    omega
  · omega

/-- The maximum is one of the keys that are an `int`. -/
theorem foldl_keyMax {ks : List Number} (h : ∀ k ∈ ks, k.Index) {m : Int}
    (hm : -2 ^ 31 ≤ m ∧ m < 2 ^ 31) :
    ks.foldl keyMax m = m ∨ ks.foldl keyMax m = -2 ^ 31 ∨
      ∃ k ∈ ks, Small k ∧ ks.foldl keyMax m = k.truncate := by
  induction ks generalizing m with
  | nil => exact .inl rfl
  | cons k ks ih =>
    obtain ⟨hk, hks⟩ := List.forall_mem_cons.mp h
    have hmax := keyMax_eq hk hm
    rw [List.foldl_cons]
    rcases ih hks (keyMax_range hk hm) with heq | heq | ⟨k', hmem, hsmall, heq⟩
    · rw [heq, hmax]
      split
      · next hsmall =>
        rcases max_choice m (k.truncate : Int) with hleft | hright
        · exact .inl hleft
        · exact .inr (.inr ⟨k, List.mem_cons_self, hsmall, hright⟩)
      · exact .inr (.inl rfl)
    · exact .inr (.inl heq)
    · exact .inr (.inr ⟨k', List.mem_cons_of_mem _ hmem, hsmall, heq⟩)

/-- Without a key that is no `int` it is their maximum. -/
theorem foldl_keyMax_small {ks : List Number} (h : ∀ k ∈ ks, k.Index) (hs : ∀ k ∈ ks, Small k)
    {m : Int} (hm : -2 ^ 31 ≤ m ∧ m < 2 ^ 31) :
    m ≤ ks.foldl keyMax m ∧ ks.foldl keyMax m < 2 ^ 31 ∧
      ∀ k ∈ ks, (k.truncate : Int) ≤ ks.foldl keyMax m := by
  induction ks generalizing m with
  | nil => exact ⟨le_refl m, hm.2, fun _ h => absurd h List.not_mem_nil⟩
  | cons k ks ih =>
    obtain ⟨hk, hks⟩ := List.forall_mem_cons.mp h
    obtain ⟨hsmall, hss⟩ := List.forall_mem_cons.mp hs
    obtain ⟨hle, hlt, hall⟩ := ih hks hss (keyMax_range hk hm)
    rw [keyMax_eq hk hm, if_pos hsmall] at hle hlt hall
    rw [List.foldl_cons, keyMax_eq hk hm, if_pos hsmall]
    refine ⟨le_trans (le_max_left _ _) hle, hlt, ?_⟩
    rintro k' (_ | ⟨_, hmem⟩)
    · exact le_trans (le_max_right _ _) hle
    · exact hall k' hmem

/-- After a key that is no `int` only the keys after it count. -/
theorem foldl_keyMax_reset {ks ks' : List Number} {k : Number} (h : ∀ k ∈ ks, k.Index)
    (hk : k.Index) (hbig : ¬ Small k) :
    (ks ++ k :: ks').foldl keyMax 0 = ks'.foldl keyMax (-2 ^ 31) := by
  have hrange : ∀ {ks : List Number} {m : Int}, (∀ k ∈ ks, k.Index) →
      -2 ^ 31 ≤ m ∧ m < 2 ^ 31 → -2 ^ 31 ≤ ks.foldl keyMax m ∧ ks.foldl keyMax m < 2 ^ 31 := by
    intro ks
    induction ks with
    | nil => exact fun _ hm => hm
    | cons k ks ih =>
      intro m h hm
      obtain ⟨hk, hks⟩ := List.forall_mem_cons.mp h
      exact ih hks (keyMax_range hk hm)
  rw [List.foldl_append, List.foldl_cons, keyMax_eq hk (hrange h (by omega)), if_neg hbig]

/-! ## Elements -/

section

variable {α : Type} {fields : List (Key × α)} {ks : List Number}

/-- Fields with one key are one field. -/
theorem field_unique (hkeys : (fields.map (·.1)).Nodup) {key : Key} {v w : α}
    (hv : (key, v) ∈ fields) (hw : (key, w) ∈ fields) : v = w :=
  congrArg Prod.snd (List.inj_on_of_nodup_map hkeys hv hw rfl)

theorem isIndex_iff {k : Number} (hk : k.Index) {i : Nat} (hi : 1 ≤ i ∧ i < 2 ^ 31) :
    (Key.number k).isIndex i = true ↔ k.truncate = i := by
  rw [Key.isIndex, hk.eq_cast_num (by omega)]
  omega

/-- An entry of the table is at its index. -/
theorem rawgeti_of_mem (hkeys : fields.map (·.1) = ks.map Key.number) (hindex : ∀ k ∈ ks, k.Index)
    (hnodup : ks.Nodup) {k : Number} {v : α} (he : (Key.number k, v) ∈ fields) (hsmall : Small k) :
    lua_rawgeti fields k.truncate = some v := by
  have hnumber : ∀ e ∈ fields, ∃ n ∈ ks, e.1 = .number n := by
    intro e he
    have hmem := List.mem_map_of_mem (f := (·.1)) he
    rw [hkeys, List.mem_map] at hmem
    obtain ⟨n, hn, heq⟩ := hmem
    exact ⟨n, hn, heq.symm⟩
  have hk : k.Index := by
    obtain ⟨n, hn, heq⟩ := hnumber _ he
    rw [Key.number.inj heq]
    exact hindex n hn
  have hi : 1 ≤ k.truncate ∧ k.truncate < 2 ^ 31 := ⟨hk.truncate_pos, hsmall⟩
  have hfields : (fields.map (·.1)).Nodup := by
    rw [hkeys]
    exact List.Nodup.map (fun _ _ => Key.number.inj) hnodup
  cases hfind : fields.find? fun e => e.1.isIndex k.truncate with
  | none =>
    rw [List.find?_eq_none] at hfind
    exact absurd ((isIndex_iff hk hi).mpr rfl) (hfind _ he)
  | some e =>
    obtain ⟨key, w⟩ := e
    have hmem := List.mem_of_find?_eq_some hfind
    have htrue := List.find?_some hfind
    obtain ⟨n, hn, heq⟩ := hnumber _ hmem
    simp only at heq htrue
    subst heq
    obtain rfl := (hindex n hn).truncate_inj hk ((isIndex_iff (hindex n hn) hi).mp htrue)
    rw [lua_rawgeti, hfind, field_unique hfields he hmem]
    rfl

/-- Where there is no entry there is no element. -/
theorem rawgeti_none (hkeys : fields.map (·.1) = ks.map Key.number) (hindex : ∀ k ∈ ks, k.Index)
    {i : Nat} (hi : 1 ≤ i ∧ i < 2 ^ 31) (hnot : ∀ k ∈ ks, k.truncate ≠ i) :
    lua_rawgeti fields i = none := by
  rw [lua_rawgeti, Option.map_eq_none_iff, List.find?_eq_none]
  intro e he htrue
  have hmem := List.mem_map_of_mem (f := (·.1)) he
  rw [hkeys, List.mem_map] at hmem
  obtain ⟨n, hn, heq⟩ := hmem
  rw [← heq] at htrue
  exact hnot n hn ((isIndex_iff (hindex n hn) hi).mp htrue)

end

end Luaxx.Json
