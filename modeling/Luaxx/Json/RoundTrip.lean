import Luaxx.Json.Written

/-!
# Decoding what has been encoded

The round trip of a value, and what it fails for: arrays whose length the encoder does not see, texts
for which there is no buffer, and tables for which there is no room on the stack of Lua.
-/

namespace Luaxx.Json

open Luaxx.Ctype Luaxx.Result Luaxx.Number Strbuf

variable {libc : Libc} {cfg : Config}

/-! ## Equal values -/

/-- `m` has the text of `n`, and is `n` if a number is read from its text as it was. -/
def Libc.Near (libc : Libc) (precision : Int) (n m : Number) : Prop :=
  libc.g_fmt precision m = libc.g_fmt precision n ∧
    (libc.strtod (libc.g_fmt precision n) = n → m = n)

/-- Structural equality, with numbers up to the precision. -/
inductive Same (libc : Libc) (precision : Int) : Value → Value → Prop
  | null : Same libc precision (.lightuserdata 0) (.lightuserdata 0)
  | boolean (b : Bool) : Same libc precision (.boolean b) (.boolean b)
  | number {n m : Number} (h : libc.Near precision n m) : Same libc precision (.number n) (.number m)
  | string (s : List UInt8) : Same libc precision (.string s) (.string s)
  | table {f g : List (Key × Value)} (hkeys : ∀ key, key ∈ f.map (·.1) ↔ key ∈ g.map (·.1))
      (hvalues : ∀ key v w, (key, v) ∈ f → (key, w) ∈ g → Same libc precision v w) :
      Same libc precision (.table f) (.table g)

theorem same_table {precision : Int} {f g : List (Key × Value)} :
    Same libc precision (.table f) (.table g) ↔
      (∀ key, key ∈ f.map (·.1) ↔ key ∈ g.map (·.1)) ∧
        ∀ key v w, (key, v) ∈ f → (key, w) ∈ g → Same libc precision v w := by
  constructor
  · intro h
    cases h with
    | table hkeys hvalues => exact ⟨hkeys, hvalues⟩
  · exact fun h => .table h.1 h.2

/-! ## Decoded tables -/

theorem values_eq (js : List Tree) : values libc js = js.map (Tree.value libc) := by
  induction js with
  | nil => rfl
  | cons j js ih => rw [values, ih, List.map_cons]

theorem memberValues_eq (ms : List (List UInt8 × Tree)) :
    memberValues libc ms = ms.map fun e => (e.1, e.2.value libc) := by
  induction ms with
  | nil => rfl
  | cons e ms ih =>
    obtain ⟨key, j⟩ := e
    rw [memberValues, ih, List.map_cons]

theorem lua_rawset_new {fields : List (Key × Value)} {key : Key} (h : key ∉ fields.map (·.1))
    (v : Value) : lua_rawset fields key v = fields ++ [(key, v)] := by
  rw [lua_rawset, if_neg]
  rw [List.any_eq_true]
  rintro ⟨e, he, hkey⟩
  rw [beq_iff_eq] at hkey
  exact h (hkey ▸ List.mem_map_of_mem he)

/-- The fields of a decoded array. -/
theorem setElements_eq (f : Nat → Value) {n i : Nat} {fields : List (Key × Value)} (hi : 1 ≤ i)
    (hn : i + n ≤ 2 ^ 31)
    (hfields : ∀ key ∈ fields.map (·.1), ∃ k : Nat, 1 ≤ k ∧ k < i ∧ key = .number (cast_num k)) :
    setElements i fields ((List.range' i n).map f) =
      fields ++ (List.range' i n).map fun k : Nat => (.number (cast_num k), f k) := by
  induction n generalizing i fields with
  | zero =>
    rw [List.range'_zero, List.map_nil, List.map_nil, setElements, List.append_nil]
  | succ n ih =>
    have hnew : Key.number (cast_num i) ∉ fields.map (·.1) := by
      intro hmem
      obtain ⟨k, hk, hlt, hkey⟩ := hfields _ hmem
      have heq := cast_num_inj (by omega) (by omega) (Key.number.inj hkey)
      omega
    rw [List.range'_succ, List.map_cons, List.map_cons, setElements, lua_rawset_new hnew,
      ih (by omega) (by omega), List.append_assoc]
    · rfl
    · intro key hkey
      rw [List.map_append, List.mem_append] at hkey
      rcases hkey with hkey | hkey
      · obtain ⟨k, hk, hlt, heq⟩ := hfields key hkey
        exact ⟨k, hk, by omega, heq⟩
      · exact ⟨i, hi, by omega, List.mem_singleton.mp hkey⟩

/-- The fields of a decoded object whose keys differ. -/
theorem setMembers_eq {vs : List (List UInt8 × Value)} {fields : List (Key × Value)}
    (h : (fields.map (·.1) ++ vs.map fun e => Key.string e.1).Nodup) :
    setMembers fields vs = fields ++ vs.map fun e => (.string e.1, e.2) := by
  induction vs generalizing fields with
  | nil => rw [setMembers, List.map_nil, List.append_nil]
  | cons e vs ih =>
    obtain ⟨key, v⟩ := e
    rw [List.map_cons] at h
    have hnew : Key.string key ∉ fields.map (·.1) := by
      intro hmem
      exact (List.nodup_append.mp h).2.2 _ hmem _ List.mem_cons_self rfl
    rw [setMembers, lua_rawset_new hnew, ih, List.map_cons, List.append_assoc]
    · rfl
    · rw [List.map_append, List.append_assoc]
      exact h

/-- All keys of a decoded object are strings. -/
theorem setMembers_keys {vs : List (List UInt8 × Value)} {fields : List (Key × Value)}
    (h : ∀ key ∈ fields.map (·.1), ∃ s, key = .string s) :
    ∀ key ∈ (setMembers fields vs).map (·.1), ∃ s, key = .string s := by
  induction vs generalizing fields with
  | nil => exact h
  | cons e vs ih =>
    obtain ⟨key, v⟩ := e
    rw [setMembers]
    apply ih
    intro key' hkey'
    rw [lua_rawset] at hkey'
    split at hkey'
    · rw [List.map_map, List.mem_map] at hkey'
      obtain ⟨e, he, rfl⟩ := hkey'
      rw [Function.comp_apply]
      split
      · exact ⟨key, rfl⟩
      · exact h _ (List.mem_map_of_mem he)
    · rw [List.map_append, List.mem_append] at hkey'
      rcases hkey' with hkey' | hkey'
      · exact h key' hkey'
      · exact ⟨key, List.mem_singleton.mp hkey'⟩

/-! ## Arrays -/

section

variable {fields : List (Key × Value)} {ks : List Number}

theorem nodup_of_perm (h : (ks.map truncate).Perm (List.range' 1 ks.length)) : ks.Nodup :=
  .of_map truncate (h.nodup_iff.mpr List.nodup_range')

/-- The loop over the keys of an array finds its length. -/
theorem array_max (hne : ks ≠ []) (hindex : ∀ k ∈ ks, k.Index) (hlt : ks.length < 2 ^ 31)
    (hperm : (ks.map truncate).Perm (List.range' 1 ks.length)) :
    ks.foldl keyMax 0 = ks.length := by
  have hpos := List.length_pos_iff.mpr hne
  have hsmall := ArrayKeys.small hlt hperm
  obtain ⟨hle, -, hall⟩ := foldl_keyMax_small hindex hsmall (by omega : -2 ^ 31 ≤ (0 : Int) ∧ _)
  -- the last index is a key
  have hlast : ∃ k ∈ ks, k.truncate = ks.length := by
    have hmem : ks.length ∈ ks.map truncate := by
      rw [hperm.mem_iff, List.mem_range'_1]
      omega
    rw [List.mem_map] at hmem
    exact hmem
  obtain ⟨k, hk, heq⟩ := hlast
  have hge := hall k hk
  rcases foldl_keyMax hindex (by omega : -2 ^ 31 ≤ (0 : Int) ∧ _) with hzero | hmin |
    ⟨k', hk', -, hmax⟩
  · omega
  · omega
  · have hmem := (hperm.mem_iff (a := k'.truncate)).mp (List.mem_map_of_mem hk')
    rw [List.mem_range'_1] at hmem
    omega

/-- The entry at an index. -/
theorem exists_element (hkeys : fields.map (·.1) = ks.map Key.number) (hindex : ∀ k ∈ ks, k.Index)
    (hlt : ks.length < 2 ^ 31) (hperm : (ks.map truncate).Perm (List.range' 1 ks.length)) {i : Nat}
    (hi : i ∈ List.range' 1 ks.length) :
    ∃ v, (Key.number (cast_num i), v) ∈ fields ∧ lua_rawgeti fields i = some v := by
  obtain ⟨k, hk, rfl⟩ := List.mem_map.mp (hperm.mem_iff.mpr hi)
  have hsmall := ArrayKeys.small hlt hperm k hk
  have hrange : 1 ≤ k.truncate ∧ k.truncate < 2 ^ 31 := ⟨(hindex k hk).truncate_pos, hsmall⟩
  have hcast := index_cast_num (by omega : 1 ≤ (k.truncate : Int)) (by omega)
  have heq : k = cast_num k.truncate := (hindex k hk).truncate_inj hcast.1 (by omega)
  have hmem : Key.number k ∈ fields.map (·.1) := by
    rw [hkeys]
    exact List.mem_map_of_mem hk
  obtain ⟨e, he, hkey⟩ := List.mem_map.mp hmem
  obtain ⟨key, v⟩ := e
  simp only at hkey
  subst hkey
  refine ⟨v, ?_, rawgeti_of_mem hkeys hindex (nodup_of_perm hperm) he hsmall⟩
  rw [← heq]
  exact he

end

/-! ## Values whose arrays are written as such -/

section

variable (cfg : Config)

mutual

/-- No array is too long for an `int` or taken for a sparse one. -/
def Value.Dense : Value → Prop
  | .table fields =>
    (ArrayKeys (fields.map (·.1)) →
      fields.length < 2 ^ 31 ∧ ¬ Sparse cfg fields.length fields.length) ∧ DenseFields fields
  | _ => True

def DenseFields : List (Key × Value) → Prop
  | [] => True
  | (_, value) :: fields => value.Dense ∧ DenseFields fields

end

end

theorem denseFields_iff {fields : List (Key × Value)} :
    DenseFields cfg fields ↔ ∀ e ∈ fields, e.2.Dense cfg := by
  induction fields with
  | nil => simp [DenseFields]
  | cons e fields ih => rw [DenseFields, ih, List.forall_mem_cons]

/-- The tree of an array. -/
theorem tree_array {fields : List (Key × Value)} {ks : List Number}
    (hkeys : fields.map (·.1) = ks.map Key.number) (hne : ks ≠ []) (hindex : ∀ k ∈ ks, k.Index)
    (hlt : ks.length < 2 ^ 31) (hperm : (ks.map truncate).Perm (List.range' 1 ks.length))
    (hsparse : ¬ Sparse cfg ks.length ks.length) :
    (Value.table fields).tree libc cfg = .array ((List.range' 1 ks.length).map fun i : Nat =>
      (lua_rawgeti (fields.map fun e => (e.1, e.2.tree libc cfg)) i).getD .null) := by
  have hpos := List.length_pos_iff.mpr hne
  rw [Value.tree, hkeys, lua_array_length_eq hindex, array_max hne hindex hlt hperm, if_neg hsparse]
  simp only
  rw [if_pos (by omega), treeFields_eq, Int.toNat_natCast]

/-- The length of a table with strings as keys is none. -/
theorem string_length {fields : List (Key × Value)} (h : StringKeys (fields.map (·.1))) :
    ∃ len, lua_array_length cfg (fields.map (·.1)) = .ok len ∧ len ≤ 0 := by
  rcases fields with _ | ⟨⟨key, v⟩, fields⟩
  · refine ⟨0, ?_, le_refl 0⟩
    have hnone : int (0 * cfg.encode_sparse_ratio) = 0 := by
      rw [Int.zero_mul]
      rfl
    rw [List.map_nil, lua_array_length, countKeys]
    simp only [hnone, lt_self_iff_false, false_and, and_false, if_false]
  · obtain ⟨s, hs, -⟩ := h.2 key List.mem_cons_self
    subst hs
    exact ⟨-1, rfl, by decide⟩

theorem tree_strings {fields : List (Key × Value)} (h : StringKeys (fields.map (·.1))) :
    (Value.table fields).tree libc cfg =
      .object (fields.map fun e => (e.1.text libc cfg, e.2.tree libc cfg)) := by
  obtain ⟨len, hlen, hle⟩ := @string_length cfg fields h
  rw [Value.tree, hlen]
  simp only
  rw [if_neg (by omega), treeFields_eq, List.map_map]
  rfl

theorem not_arrayKeys_of_strings {keys : List Key} (h : StringKeys keys) : ¬ ArrayKeys keys := by
  rintro ⟨ks, rfl, hne, -, -⟩
  rcases ks with _ | ⟨k, ks⟩
  · exact hne rfl
  · obtain ⟨s, hs, -⟩ := h.2 (.number k) List.mem_cons_self
    cases hs

/-! ## The value of the tree -/

theorem value_array (J : Nat → Tree) {n : Nat} (hn : n < 2 ^ 31) :
    (Tree.array ((List.range' 1 n).map J)).value libc =
      .table ((List.range' 1 n).map fun i : Nat => (.number (cast_num i), (J i).value libc)) := by
  have hset := @setElements_eq (fun i => (J i).value libc) n 1 [] (le_refl 1) (by omega)
    (fun _ h => absurd h List.not_mem_nil)
  rw [Tree.value, values_eq, List.map_map]
  exact congrArg Value.table hset

theorem value_strings {fields : List (Key × Value)} (h : StringKeys (fields.map (·.1))) :
    ((Value.table fields).tree libc cfg).value libc =
      .table (fields.map fun e => (e.1, (e.2.tree libc cfg).value libc)) := by
  have hkey : ∀ e ∈ fields, Key.string (e.1.text libc cfg) = e.1 := by
    intro e he
    obtain ⟨s, hs, -⟩ := h.2 e.1 (List.mem_map_of_mem he)
    rw [hs]
    rfl
  have hkeys : (fields.map fun e => Key.string (e.1.text libc cfg)) = fields.map (·.1) :=
    List.map_congr_left hkey
  have hset := @setMembers_eq
    (fields.map fun e => (e.1.text libc cfg, (e.2.tree libc cfg).value libc)) []
  rw [List.map_nil, List.nil_append, List.nil_append, List.map_map, List.map_map] at hset
  rw [tree_strings h, Tree.value, memberValues_eq, List.map_map]
  refine congrArg Value.table ((hset ?_).trans ?_)
  · exact hkeys ▸ h.1
  · refine List.map_congr_left fun e he => ?_
    exact congrArg (·, _) (hkey e he)

section

variable {fields : List (Key × Value)} {ks : List Number} {precision : Int}

theorem same_array (hkeys : fields.map (·.1) = ks.map Key.number) (hne : ks ≠ [])
    (hindex : ∀ k ∈ ks, k.Index) (hlt : ks.length < 2 ^ 31)
    (hperm : (ks.map truncate).Perm (List.range' 1 ks.length))
    (hsparse : ¬ Sparse cfg ks.length ks.length) :
    Same libc precision (.table fields) (((Value.table fields).tree libc cfg).value libc) ↔
      ∀ e ∈ fields, Same libc precision e.2 ((e.2.tree libc cfg).value libc) := by
  have hnodup : (fields.map (·.1)).Nodup := by
    rw [hkeys]
    exact List.Nodup.map (fun _ _ => Key.number.inj) (nodup_of_perm hperm)
  -- an element of the decoded array, and the entry that it comes from
  have helement : ∀ i ∈ List.range' 1 ks.length, ∃ v, (Key.number (cast_num i), v) ∈ fields ∧
      (lua_rawgeti (fields.map fun e => (e.1, e.2.tree libc cfg)) i).getD .null =
        v.tree libc cfg := by
    intro i hi
    obtain ⟨v, hv, hget⟩ := exists_element hkeys hindex hlt hperm hi
    refine ⟨v, hv, ?_⟩
    rw [lua_rawgeti_map (Value.tree libc cfg), hget]
    rfl
  have hindexed : ∀ k ∈ ks, k.truncate ∈ List.range' 1 ks.length ∧ k = cast_num k.truncate := by
    intro k hk
    have hmem := (hperm.mem_iff (a := k.truncate)).mp (List.mem_map_of_mem hk)
    have hrange := List.mem_range'_1.mp hmem
    have hcast := index_cast_num (by omega : 1 ≤ (k.truncate : Int)) (by omega)
    exact ⟨hmem, (hindex k hk).truncate_inj hcast.1 (by omega)⟩
  have hentry : ∀ e ∈ fields, ∃ k ∈ ks, e.1 = .number k := by
    intro e he
    have hmem := List.mem_map_of_mem (f := (·.1)) he
    rw [hkeys, List.mem_map] at hmem
    obtain ⟨k, hk, heq⟩ := hmem
    exact ⟨k, hk, heq.symm⟩
  rw [tree_array hkeys hne hindex hlt hperm hsparse, value_array _ hlt, same_table]
  constructor
  · rintro ⟨-, hvalues⟩ ⟨key, v⟩ he
    obtain ⟨k, hk, hkey⟩ := hentry _ he
    obtain ⟨hi, hcast⟩ := hindexed k hk
    obtain ⟨v', hv', heq⟩ := helement _ hi
    simp only at hkey
    subst hkey
    rw [← hcast] at hv'
    obtain rfl := field_unique hnodup he hv'
    refine hvalues _ v _ he (List.mem_map.mpr ⟨k.truncate, hi, ?_⟩)
    rw [heq, ← hcast]
  · intro hall
    refine ⟨fun key => ⟨fun hmem => ?_, fun hmem => ?_⟩, fun key v w hv hw => ?_⟩
    · rw [hkeys, List.mem_map] at hmem
      obtain ⟨k, hk, rfl⟩ := hmem
      obtain ⟨hi, hcast⟩ := hindexed k hk
      rw [List.map_map, List.mem_map]
      exact ⟨k.truncate, hi, congrArg Key.number hcast.symm⟩
    · rw [List.map_map, List.mem_map] at hmem
      obtain ⟨i, hi, rfl⟩ := hmem
      obtain ⟨v, hv, -⟩ := helement i hi
      exact List.mem_map.mpr ⟨_, hv, rfl⟩
    · obtain ⟨i, hi, heq⟩ := List.mem_map.mp hw
      obtain ⟨rfl, rfl⟩ := Prod.mk.inj heq
      obtain ⟨v', hv', htree⟩ := helement i hi
      obtain rfl := field_unique hnodup hv hv'
      rw [htree]
      exact hall _ hv

/-- An array that is too long, or taken for a sparse one, is not decoded as it was. -/
theorem not_same_array (hkeys : fields.map (·.1) = ks.map Key.number) (hne : ks ≠ [])
    (hindex : ∀ k ∈ ks, k.Index) (hperm : (ks.map truncate).Perm (List.range' 1 ks.length))
    (hbad : ¬ (ks.length < 2 ^ 31 ∧ ¬ Sparse cfg ks.length ks.length)) :
    ¬ Same libc precision (.table fields) (((Value.table fields).tree libc cfg).value libc) := by
  rw [Value.tree, hkeys, lua_array_length_eq hindex]
  split
  · next len hlen =>
    split
    · next hpos =>
      -- only a key that is no int can be missing
      split at hlen
      · split at hlen
        · cases hlen
        · cases hlen
          exact absurd hpos (by decide)
      · next hsparse =>
        cases hlen
        have hlong : 2 ^ 31 ≤ ks.length := by
          by_contra hlt
          rw [not_le] at hlt
          rw [array_max hne hindex hlt hperm] at hsparse
          exact hbad ⟨hlt, hsparse⟩
        obtain ⟨k, hk, hbig⟩ : ∃ k ∈ ks, k.truncate = 2 ^ 31 := by
          have hmem : 2 ^ 31 ∈ ks.map truncate := by
            rw [hperm.mem_iff, List.mem_range'_1]
            omega
          rw [List.mem_map] at hmem
          exact hmem
        have hrange : ks.foldl keyMax 0 < 2 ^ 31 := by
          rcases foldl_keyMax hindex (by omega : -2 ^ 31 ≤ (0 : Int) ∧ _) with hzero | hmin |
            ⟨k', -, hsmall, hmax⟩
          · omega
          · omega
          · rw [Small] at hsmall
            omega
        rw [value_array _ (by omega), same_table]
        rintro ⟨hsame, -⟩
        have hmem := (hsame (.number k)).mp (by
          rw [hkeys]
          exact List.mem_map_of_mem hk)
        rw [List.map_map, List.mem_map] at hmem
        obtain ⟨i, hi, heq⟩ := hmem
        rw [List.mem_range'_1] at hi
        have hcast := (index_cast_num (by omega : 1 ≤ (i : Int)) (by omega)).2
        rw [Key.number.inj heq] at hcast
        omega
    · rw [Tree.value, same_table]
      rintro ⟨hsame, -⟩
      obtain ⟨k, hk⟩ := List.exists_mem_of_ne_nil ks hne
      have hmem := (hsame (.number k)).mp (by
        rw [hkeys]
        exact List.mem_map_of_mem hk)
      obtain ⟨s, hs⟩ := setMembers_keys (fun _ h => absurd h List.not_mem_nil) _ hmem
      cases hs
  · intro h
    cases h

end

/-- What is decoded from the text of a value is that value, if its arrays are written as such. -/
theorem plain_same (hlibc : libc.Reads cfg.encode_number_precision) (v : Value) : v.Plain →
    (Same libc cfg.encode_number_precision v ((v.tree libc cfg).value libc) ↔ v.Dense cfg) := by
  induction v using Value.induct with
  | atom v hatom =>
    intro hplain
    cases v with
    | nil => exact absurd hplain id
    | boolean b => exact ⟨fun _ => trivial, fun _ => .boolean b⟩
    | number n =>
      have hnear : libc.Near cfg.encode_number_precision n
          (libc.strtod (libc.g_fmt cfg.encode_number_precision n)) :=
        ⟨hlibc.back n hplain.1 hplain.2, id⟩
      exact ⟨fun _ => trivial, fun _ => .number hnear⟩
    | string s => exact ⟨fun _ => trivial, fun _ => .string s⟩
    | table fields => exact absurd rfl (hatom fields)
    | lightuserdata p =>
      obtain rfl : p = 0 := hplain
      exact ⟨fun _ => trivial, fun _ => .null⟩
    | other typename => exact absurd hplain id
  | table fields ih =>
    intro hplain
    obtain ⟨hkeys, hfields⟩ := hplain
    rw [plainFields_iff] at hfields
    rw [Value.Dense, denseFields_iff]
    rcases hkeys with harray | hstrings
    · obtain ⟨ks, hks, hne, hindex, hperm⟩ := id harray
      have hlength : fields.length = ks.length := by
        have hlen := congrArg List.length hks
        rwa [List.length_map, List.length_map] at hlen
      rw [hlength]
      by_cases hgood : ks.length < 2 ^ 31 ∧ ¬ Sparse cfg ks.length ks.length
      · rw [same_array hks hne hindex hgood.1 hperm hgood.2]
        constructor
        · exact fun h => ⟨fun _ => hgood, fun e he => (ih e he (hfields e he)).mp (h e he)⟩
        · exact fun h e he => (ih e he (hfields e he)).mpr (h.2 e he)
      · exact ⟨fun h => absurd h (not_same_array hks hne hindex hperm hgood),
          fun h => absurd (h.1 harray) hgood⟩
    · -- the fields are decoded one by one
      have hnot := not_arrayKeys_of_strings hstrings
      rw [value_strings hstrings, same_table]
      constructor
      · rintro ⟨-, hvalues⟩
        refine ⟨fun h => absurd h hnot, fun e he => (ih e he (hfields e he)).mp ?_⟩
        obtain ⟨key, v⟩ := e
        exact hvalues key v _ he (List.mem_map.mpr ⟨_, he, rfl⟩)
      · rintro ⟨-, hdense⟩
        refine ⟨fun key => ?_, fun key v w hv hw => ?_⟩
        · rw [List.map_map]
          exact Iff.rfl
        · obtain ⟨e, he, heq⟩ := List.mem_map.mp hw
          obtain ⟨rfl, rfl⟩ := Prod.mk.inj heq
          obtain rfl := field_unique hstrings.1 hv (by exact he)
          exact (ih e he (hfields e he)).mpr (hdense e he)

/-! ## Nesting -/

def Key.isNumber : Key → Bool
  | .number _ => true
  | _ => false

mutual

/-- What nested tables add up to, as for trees. -/
def Value.nesting (array object : Nat × Nat) : Value → Nat
  | .table fields =>
    let table := if fields.any fun e => e.1.isNumber then array else object
    max table.1 (table.2 + nestingFields array object fields)
  | _ => 0

def nestingFields (array object : Nat × Nat) : List (Key × Value) → Nat
  | [] => 0
  | (_, value) :: fields => max (value.nesting array object) (nestingFields array object fields)

end

/-- How many tables are in each other. -/
def Value.depth (v : Value) : Nat := v.nesting (1, 1) (1, 1)

/-- The values that the encoder has on the stack of Lua at a time. -/
def Value.slots (v : Value) : Nat := v.nesting (3, 1) (3, 2)

section

variable {array object : Nat × Nat}

theorem nestingFields_le {fields : List (Key × Value)} {m : Nat} :
    nestingFields array object fields ≤ m ↔ ∀ e ∈ fields, e.2.nesting array object ≤ m := by
  induction fields with
  | nil => simp [nestingFields]
  | cons e fields ih =>
    obtain ⟨key, v⟩ := e
    rw [nestingFields, max_le_iff, ih, List.forall_mem_cons]

theorem nestingAll_le {js : List Tree} {m : Nat} :
    nestingAll array object js ≤ m ↔ ∀ j ∈ js, j.nesting array object ≤ m := by
  induction js with
  | nil => simp [nestingAll]
  | cons j js ih => rw [nestingAll, max_le_iff, ih, List.forall_mem_cons]

theorem nestingMembers_le {ms : List (List UInt8 × Tree)} {m : Nat} :
    nestingMembers array object ms ≤ m ↔ ∀ e ∈ ms, e.2.nesting array object ≤ m := by
  induction ms with
  | nil => simp [nestingMembers]
  | cons e ms ih =>
    obtain ⟨key, j⟩ := e
    rw [nestingMembers, max_le_iff, ih, List.forall_mem_cons]

theorem any_isNumber {fields : List (Key × Value)} :
    (fields.any fun e => e.1.isNumber) = (fields.map (·.1)).any Key.isNumber := by
  rw [List.any_map]
  rfl

theorem any_arrayKeys {keys : List Key} (h : ArrayKeys keys) : keys.any Key.isNumber = true := by
  obtain ⟨ks, rfl, hne, -, -⟩ := h
  rcases ks with _ | ⟨k, ks⟩
  · exact absurd rfl hne
  · rfl

theorem any_stringKeys {keys : List Key} (h : StringKeys keys) : keys.any Key.isNumber = false := by
  rw [List.any_eq_false]
  intro key hkey
  obtain ⟨s, rfl, -⟩ := h.2 key hkey
  exact Bool.false_ne_true

end

/-- The tree of a value is not nested deeper than the value. -/
theorem tree_nesting_le {array object array' object' : Nat × Nat}
    (harray : array.1 ≤ array'.1 ∧ array.2 ≤ array'.2)
    (hobject : object.1 ≤ object'.1 ∧ object.2 ≤ object'.2) (v : Value) : v.Plain → v.Dense cfg →
    (v.tree libc cfg).nesting array object ≤ v.nesting array' object' := by
  induction v using Value.induct with
  | atom v hatom =>
    intro _ _
    cases v with
    | table fields => exact absurd rfl (hatom fields)
    | _ => exact Nat.zero_le _
  | table fields ih =>
    intro hplain hdense
    obtain ⟨hkeys, hfields⟩ := hplain
    rw [plainFields_iff] at hfields
    rw [Value.Dense, denseFields_iff] at hdense
    have hall : ∀ e ∈ fields,
        (e.2.tree libc cfg).nesting array object ≤ nestingFields array' object' fields := by
      intro e he
      exact (ih e he (hfields e he) (hdense.2 e he)).trans (nestingFields_le.mp (le_refl _) e he)
    rw [Value.nesting, any_isNumber]
    rcases hkeys with hkeys | hkeys
    · rw [any_arrayKeys hkeys]
      obtain ⟨hlt, hsparse⟩ := hdense.1 hkeys
      obtain ⟨ks, hks, hne, hindex, hperm⟩ := hkeys
      have hlength : fields.length = ks.length := by
        have hlen := congrArg List.length hks
        rwa [List.length_map, List.length_map] at hlen
      rw [hlength] at hlt hsparse
      rw [tree_array hks hne hindex hlt hperm hsparse, Tree.nesting]
      have hle : nestingAll array object ((List.range' 1 ks.length).map fun i : Nat =>
          (lua_rawgeti (fields.map fun e => (e.1, e.2.tree libc cfg)) i).getD .null) ≤
          nestingFields array' object' fields := by
        rw [nestingAll_le]
        intro j hj
        obtain ⟨i, -, rfl⟩ := List.mem_map.mp hj
        rw [lua_rawgeti_map (Value.tree libc cfg)]
        cases hget : lua_rawgeti fields i with
        | none => exact Nat.zero_le _
        | some v =>
          obtain ⟨e, he, rfl, -⟩ := lua_rawgeti_mem hget
          exact hall e he
      simp only [if_true]
      omega
    · rw [any_stringKeys hkeys, tree_strings hkeys, Tree.nesting]
      have hle : nestingMembers array object
          (fields.map fun e => (e.1.text libc cfg, e.2.tree libc cfg)) ≤
          nestingFields array' object' fields := by
        rw [nestingMembers_le]
        intro m hm
        obtain ⟨e, he, rfl⟩ := List.mem_map.mp hm
        exact hall e he
      simp only [Bool.false_eq_true, if_false]
      omega

/-! ## When there is a text -/

theorem depth_ok {depth top : Nat} : json_check_encode_depth cfg depth top = .ok () ↔
    (depth : Int) ≤ cfg.encode_max_depth ∧ top + 3 ≤ LUAI_MAXCSTACK := by
  rw [json_check_encode_depth, lua_checkstack]
  simp only [decide_eq_true_eq]
  rw [ite_ok_error]
  exact and_iff_left rfl

section

variable {fields : List (Key × Value)} {ks : List Number} {depth top : Nat}

theorem array_ok (hkeys : fields.map (·.1) = ks.map Key.number) (hindex : ∀ k ∈ ks, k.Index)
    (hlt : ks.length < 2 ^ 31) (hperm : (ks.map truncate).Perm (List.range' 1 ks.length)) :
    (∃ t, (arrayOutput ks.length fun i =>
        (lua_rawgeti (outputFields libc cfg fields depth top) i).getD (.text (chars "null"))).result =
          .ok t) ↔ ∀ e ∈ fields, ∃ t, (output libc cfg e.2 depth top).result = .ok t := by
  rw [arrayOutput, brackets_ok, separated_ok, Int.toNat_natCast, outputFields_eq]
  constructor
  · intro h e he
    obtain ⟨key, v⟩ := e
    have hmem := List.mem_map_of_mem (f := (·.1)) he
    rw [hkeys, List.mem_map] at hmem
    obtain ⟨k, hk, hkey⟩ := hmem
    simp only at hkey
    subst hkey
    have hget := rawgeti_of_mem hkeys hindex (nodup_of_perm hperm) he
      (ArrayKeys.small hlt hperm k hk)
    have hok := h _ (List.mem_map_of_mem ((hperm.mem_iff (a := k.truncate)).mp
      (List.mem_map_of_mem hk)))
    rw [lua_rawgeti_map fun v => output libc cfg v depth top, hget] at hok
    exact hok
  · intro h o ho
    obtain ⟨i, -, rfl⟩ := List.mem_map.mp ho
    rw [lua_rawgeti_map fun v => output libc cfg v depth top]
    cases hget : lua_rawgeti fields i with
    | none => exact ⟨_, rfl⟩
    | some v =>
      obtain ⟨e, he, rfl, -⟩ := lua_rawgeti_mem hget
      exact h e he

theorem object_ok (hkeys : StringKeys (fields.map (·.1))) :
    (∃ t, (objectOutput libc cfg (outputFields libc cfg fields depth top)).result = .ok t) ↔
      ∀ e ∈ fields, ∃ t, (output libc cfg e.2 depth top).result = .ok t := by
  have hkey : ∀ e ∈ fields, ∃ s, (keyOutput libc cfg e.1).result = .ok s := by
    intro e he
    obtain ⟨s, hs, -⟩ := hkeys.2 e.1 (List.mem_map_of_mem he)
    rw [hs]
    exact ⟨_, Output.append_eq_ok.mpr ⟨_, _, rfl, rfl, rfl⟩⟩
  rw [objectOutput, brackets_ok, separated_ok, outputFields_eq, List.map_map]
  constructor
  · intro h e he
    obtain ⟨t, ht⟩ := h _ (List.mem_map_of_mem he)
    obtain ⟨-, u, -, hu, -⟩ := Output.append_eq_ok.mp ht
    exact ⟨u, hu⟩
  · intro h o ho
    obtain ⟨e, he, rfl⟩ := List.mem_map.mp ho
    obtain ⟨s, hs⟩ := hkey e he
    obtain ⟨u, hu⟩ := h e he
    exact ⟨_, Output.append_eq_ok.mpr ⟨s, u, hs, hu, rfl⟩⟩

end

/-- A value is written unless it is nested too deeply. -/
theorem plain_output (v : Value) : v.Plain →
    v.Dense cfg → ∀ {depth top : Nat}, (depth : Int) ≤ cfg.encode_max_depth →
      top ≤ LUAI_MAXCSTACK → ((∃ t, (output libc cfg v depth top).result = .ok t) ↔
        ((depth + v.depth : Nat) : Int) ≤ cfg.encode_max_depth ∧ top + v.slots ≤ LUAI_MAXCSTACK) := by
  induction v using Value.induct with
  | atom v hatom =>
    intro hplain _ depth top hdepth htop
    have hzero : v.depth = 0 ∧ v.slots = 0 := by
      cases v with
      | table fields => exact absurd rfl (hatom fields)
      | _ => exact ⟨rfl, rfl⟩
    have hok : ∃ t, (output libc cfg v depth top).result = .ok t := by
      cases v with
      | nil => exact absurd hplain id
      | boolean b => exact ⟨_, rfl⟩
      | number n => exact ⟨_, numberOutput_finite hplain.1 hplain.2⟩
      | string s => exact ⟨_, rfl⟩
      | table fields => exact absurd rfl (hatom fields)
      | lightuserdata p =>
        obtain rfl : p = 0 := hplain
        exact ⟨_, rfl⟩
      | other typename => exact absurd hplain id
    rw [hzero.1, hzero.2]
    exact ⟨fun _ => ⟨hdepth, htop⟩, fun _ => hok⟩
  | table fields ih =>
    intro hplain hdense depth top hdepth htop
    obtain ⟨hkeys, hfields⟩ := hplain
    rw [plainFields_iff] at hfields
    rw [Value.Dense, denseFields_iff] at hdense
    -- the entries, one level deeper
    have hentries : ∀ top', ((depth + 1 : Nat) : Int) ≤ cfg.encode_max_depth →
        top' ≤ LUAI_MAXCSTACK →
        ((∀ e ∈ fields, ∃ t, (output libc cfg e.2 (depth + 1) top').result = .ok t) ↔
          ((depth + 1 + nestingFields (1, 1) (1, 1) fields : Nat) : Int) ≤ cfg.encode_max_depth ∧
            top' + nestingFields (3, 1) (3, 2) fields ≤ LUAI_MAXCSTACK) := by
      intro top' hdepth' htop'
      have hlevel := @nestingFields_le (1, 1) (1, 1) fields
        (cfg.encode_max_depth.toNat - (depth + 1))
      have hstack := @nestingFields_le (3, 1) (3, 2) fields (LUAI_MAXCSTACK - top')
      constructor
      · intro h
        have hboth : ∀ e ∈ fields, ((depth + 1 + e.2.depth : Nat) : Int) ≤ cfg.encode_max_depth ∧
            top' + e.2.slots ≤ LUAI_MAXCSTACK := fun e he =>
          (ih e he (hfields e he) (hdense.2 e he) hdepth' htop').mp (h e he)
        have h1 := hlevel.mpr fun e he => by
          have hd := (hboth e he).1
          rw [Value.depth] at hd
          omega
        have h2 := hstack.mpr fun e he => by
          have hs := (hboth e he).2
          rw [Value.slots] at hs
          omega
        omega
      · rintro ⟨h1, h2⟩ e he
        refine (ih e he (hfields e he) (hdense.2 e he) hdepth' htop').mpr ⟨?_, ?_⟩
        · have hd := hlevel.mp (by omega) e he
          rw [Value.depth]
          omega
        · have hs := hstack.mp (by omega) e he
          rw [Value.slots]
          omega
    have hcheck : (∃ a, json_check_encode_depth cfg (depth + 1) top = .ok a) ↔
        ((depth + 1 : Nat) : Int) ≤ cfg.encode_max_depth ∧ top + 3 ≤ LUAI_MAXCSTACK :=
      ⟨fun ⟨_, h⟩ => depth_ok.mp h, fun h => ⟨(), depth_ok.mpr h⟩⟩
    rw [output, after_ok, exists_and_right, hcheck, after_ok, Value.depth, Value.slots, Value.nesting,
      Value.nesting, any_isNumber]
    rcases hkeys with hkeys | hkeys
    · rw [any_arrayKeys hkeys]
      obtain ⟨hlt, hsparse⟩ := hdense.1 hkeys
      obtain ⟨ks, hks, hne, hindex, hperm⟩ := hkeys
      have hlength : fields.length = ks.length := by
        have hlen := congrArg List.length hks
        rwa [List.length_map, List.length_map] at hlen
      rw [hlength] at hlt hsparse
      have hpos := List.length_pos_iff.mpr hne
      have hlen : lua_array_length cfg (fields.map (·.1)) = .ok ks.length := by
        rw [hks, lua_array_length_eq hindex, array_max hne hindex hlt hperm, if_neg hsparse]
      have hbody := @array_ok libc cfg fields ks (depth + 1) (top + 1) hks hindex hlt hperm
      rw [hlen]
      constructor
      · rintro ⟨⟨h1, h2⟩, len, heq, h3⟩
        cases heq
        rw [if_pos (by omega), hbody, hentries (top + 1) h1 (by omega)] at h3
        simp only [if_true]
        omega
      · simp only [if_true]
        rintro ⟨h1, h2⟩
        refine ⟨by omega, ks.length, rfl, ?_⟩
        rw [if_pos (by omega), hbody, hentries (top + 1) (by omega) (by omega)]
        omega
    · rw [any_stringKeys hkeys]
      obtain ⟨len, hlen, hle⟩ := @string_length cfg fields hkeys
      have hbody := @object_ok libc cfg fields (depth + 1) (top + 2) hkeys
      rw [hlen]
      constructor
      · rintro ⟨⟨h1, h2⟩, len', heq, h3⟩
        cases heq
        rw [if_neg (by omega), hbody, hentries (top + 2) h1 (by omega)] at h3
        simp only [Bool.false_eq_true, if_false]
        omega
      · simp only [Bool.false_eq_true, if_false]
        rintro ⟨h1, h2⟩
        refine ⟨by omega, len, rfl, ?_⟩
        rw [if_neg (by omega), hbody, hentries (top + 2) (by omega) (by omega)]
        omega

/-! ## The round trip -/

section

variable {num : List UInt8 → Prop}

mutual

/-- The strings of a text are shorter than it. -/
theorem text_strings : ∀ {t : List UInt8} {j : Tree}, Text num t j →
    ∀ s ∈ j.strings, s.length < t.length
  | _, _, .null => by simp [Tree.strings]
  | _, _, .true => by simp [Tree.strings]
  | _, _, .false => by simp [Tree.strings]
  | _, _, .number _ => by simp [Tree.strings]
  | _, _, .string h => by
    intro s hs
    rw [Tree.strings, List.mem_singleton] at hs
    subst hs
    exact string_length_lt h
  | _, _, .emptyArray _ => by simp [Tree.strings, stringsAll]
  | _, _, .array h => by
    intro s hs
    have hlt := elements_strings h s hs
    rw [List.length_cons, List.length_append]
    omega
  | _, _, .emptyObject _ => by simp [Tree.strings, stringsMembers]
  | _, _, .object h => by
    intro s hs
    have hlt := members_strings h s hs
    rw [List.length_cons, List.length_append]
    omega

theorem elements_strings : ∀ {ts : List UInt8} {js : List Tree}, Elements num ts js →
    ∀ s ∈ stringsAll js, s.length < ts.length
  | _, _, .one hw h hw' => by
    intro s hs
    rw [stringsAll, stringsAll, List.append_nil] at hs
    have hlt := text_strings h s hs
    simp only [List.length_append]
    omega
  | _, _, .more hw h hw' hrest => by
    intro s hs
    simp only [List.length_append, List.length_cons]
    rw [stringsAll, List.mem_append] at hs
    rcases hs with hs | hs
    · have hlt := text_strings h s hs
      omega
    · have hlt := elements_strings hrest s hs
      omega

theorem members_strings : ∀ {ts : List UInt8} {ms : List (List UInt8 × Tree)}, Members num ts ms →
    ∀ s ∈ stringsMembers ms, s.length < ts.length
  | _, _, .one h => by
    intro s hs
    exact member_strings h s hs
  | _, _, .more (e := (key, j)) h hrest => by
    intro s hs
    rw [stringsMembers, ← List.cons_append, List.mem_append] at hs
    simp only [List.length_append, List.length_cons]
    rcases hs with hs | hs
    · have hlt := member_strings h s (by rwa [stringsMembers, stringsMembers, List.append_nil])
      omega
    · have hlt := members_strings hrest s hs
      omega

theorem member_strings : ∀ {m : List UInt8} {e : List UInt8 × Tree}, Member num m e →
    ∀ s ∈ stringsMembers [e], s.length < m.length
  | _, _, .mk hw hk hw' hv h hw'' => by
    intro s hs
    rw [stringsMembers, stringsMembers, List.append_nil] at hs
    simp only [List.length_append, List.length_cons]
    rcases List.mem_cons.mp hs with rfl | hs
    · have hlt := string_length_lt hk
      omega
    · have hlt := text_strings h s hs
      omega

theorem string_length_lt : ∀ {k key : List UInt8}, IsString k key → key.length < k.length
  | _, _, .mk h => by
    have hle := h.length_le
    rw [List.length_cons, List.length_append]
    omega

end

end

theorem plain_short (v : Value) : v.Plain → v.Short := by
  induction v using Value.induct with
  | atom v hatom =>
    intro hplain
    cases v with
    | string s => exact hplain
    | table fields => exact absurd rfl (hatom fields)
    | _ => trivial
  | table fields ih =>
    intro hplain
    obtain ⟨hkeys, hfields⟩ := hplain
    rw [plainFields_iff] at hfields
    rw [Value.Short, shortFields_iff]
    intro e he
    refine ⟨?_, ih e he (hfields e he)⟩
    have hmem := List.mem_map_of_mem (f := (·.1)) he
    rcases hkeys with ⟨ks, hks, -, -, -⟩ | hstrings
    · rw [hks, List.mem_map] at hmem
      obtain ⟨k, -, hk⟩ := hmem
      rw [← hk]
      trivial
    · obtain ⟨s, hs, hshort⟩ := hstrings.2 _ hmem
      rw [hs]
      exact hshort

/-- The value is encoded, the text is decoded, and the value is the same. -/
def RoundTrips (libc : Libc) (cfg : Config) (encode_buf : Strbuf) (v : Value) : Prop :=
  ∃ t buf w, json_encode libc cfg encode_buf v = .ok (t, buf) ∧ json_decode libc cfg t = .ok w ∧
    Same libc cfg.encode_number_precision v w

/-- The round trip succeeds unless an array is not written as such, the text is too long for a
buffer, or the stack of Lua is too small. -/
theorem json_round_trip_iff (hlibc : libc.Reads cfg.encode_number_precision) {encode_buf : Strbuf}
    (hbuf : encode_buf.Valid) {v : Value} (hv : v.Plain)
    (hencode : (v.depth : Int) ≤ cfg.encode_max_depth)
    (hdecode : (v.depth : Int) ≤ cfg.decode_max_depth) :
    RoundTrips libc cfg encode_buf v ↔
      v.Dense cfg ∧ 1 + v.slots ≤ LUAI_MAXCSTACK ∧ (output libc cfg v 0 1).need < limit := by
  have hnil : Whitespace [] := fun _ h => by cases h
  have hlimit : limit < 2 ^ 31 - 1 := by decide
  have hzero : ((0 : Nat) : Int) ≤ cfg.encode_max_depth := by
    have hrange := cfg.encode_depth_range
    omega
  -- what is decoded from a text that has been encoded
  have hread : ∀ {t : List UInt8}, (output libc cfg v 0 1).result = .ok t → t.length < limit →
      Text IsNumber t (v.tree libc cfg) ∧ 0 ∉ t ∧
        Decides (¬ Utf16 t ∧ 0 ∉ t ∧ Room t (v.tree libc cfg) ∧
            ((v.tree libc cfg).depth : Int) ≤ cfg.decode_max_depth)
          (json_decode libc cfg t) ((v.tree libc cfg).value libc) := by
    intro t ht hlt
    obtain ⟨htext, hnul⟩ := plain_text hlibc v hv ht (by omega)
    exact ⟨htext, hnul, decode_decides (List.append_nil t).symm hnil htext.lenient hnil.ends⟩
  constructor
  · rintro ⟨t, buf, w, hok, hw, hsame⟩
    rcases json_encode_writes hbuf (writes_data v (plain_short v hv) 0 1) with
      ⟨hneed, ⟨t', buf', ht', heq, hlt⟩ | ⟨msg, -, heq⟩⟩ | ⟨-, e, -, heq⟩
    · rw [hok] at heq
      cases heq
      rcases (hread ht' hlt).2.2 with ⟨-, hdec⟩ | ⟨-, e, hdec⟩
      · rw [hw] at hdec
        cases hdec
        have hdense := (plain_same hlibc v hv).mp hsame
        exact ⟨hdense, ((plain_output v hv hdense hzero (by decide)).mp ⟨t, ht'⟩).2, hneed⟩
      · rw [hw] at hdec
        cases hdec
    · rw [hok] at heq
      cases heq
    · rw [hok] at heq
      cases heq
  · rintro ⟨hdense, hslots, hneed⟩
    obtain ⟨t, ht⟩ := (plain_output v hv hdense hzero (by decide)).mpr ⟨by omega, hslots⟩
    rcases json_encode_writes hbuf (writes_data v (plain_short v hv) 0 1) with
      ⟨-, ⟨t', buf, ht', hok, hlt⟩ | ⟨msg, hmsg, -⟩⟩ | ⟨hle, -⟩
    · obtain ⟨htext, hnul, hdec⟩ := hread ht' hlt
      have hstack : (v.tree libc cfg).slots ≤ v.slots :=
        tree_nesting_le (by decide) (by decide) v hv hdense
      have hdepth : (v.tree libc cfg).depth ≤ v.depth :=
        tree_nesting_le (by decide) (by decide) v hv hdense
      have hsize : (t'.length : Int) < bufferSize t'.length :=
        lt_bufferSize (by rw [INT_MAX]; omega)
      have hroom : Room t' (v.tree libc cfg) :=
        ⟨(Nat.add_le_add_left hstack 1).trans hslots,
          (Int.natCast_nonneg _).trans (le_of_lt hsize),
          fun s hs => (Int.ofNat_lt.mpr (text_strings htext s hs)).trans hsize⟩
      rcases hdec with ⟨-, hdec⟩ | ⟨hbad, -⟩
      · exact ⟨t', buf, _, hok, hdec, (plain_same hlibc v hv).mpr hdense⟩
      · exact absurd ⟨not_utf16 hnul, hnul, hroom, by omega⟩ hbad
    · rw [ht] at hmsg
      cases hmsg
    · omega

/-- A library that reads the numbers of a text and writes them all as 0. -/
def zeroLibc : Libc := ⟨fun _ _ => chars "0", fun _ _ => by decide, fun _ => 0⟩

theorem zeroLibc_reads (precision : Int) : zeroLibc.Reads precision where
  number _ _ _ :=
    ⟨[], chars "0", [], rfl, .inl rfl, .whole ⟨by decide, by decide, fun _ => rfl⟩, .none⟩
  back _ _ _ := rfl

/-- An array of `n` booleans. -/
def booleans (n : Nat) : Value :=
  .table ((List.range' 1 n).map fun i : Nat => (.number (cast_num i), .boolean true))

theorem booleans_plain {n : Nat} (hpos : 0 < n) (hn : n < 2 ^ 31) : (booleans n).Plain := by
  have hcast : ∀ i ∈ List.range' 1 n,
      (cast_num (i : Nat)).Index ∧ (cast_num (i : Nat)).truncate = i := by
    intro i hi
    rw [List.mem_range'_1] at hi
    have hindex := index_cast_num (by omega : 1 ≤ (i : Int)) (by omega)
    exact ⟨hindex.1, by omega⟩
  refine ⟨.inl ⟨(List.range' 1 n).map fun i : Nat => cast_num i, ?_, ?_, ?_, ?_⟩, ?_⟩
  · rw [List.map_map, List.map_map]
    rfl
  · rw [ne_eq, List.map_eq_nil_iff, List.range'_eq_nil_iff]
    omega
  · intro k hk
    obtain ⟨i, hi, rfl⟩ := List.mem_map.mp hk
    exact (hcast i hi).1
  · rw [List.map_map, List.length_map, List.length_range']
    have hmap : (List.range' 1 n).map (truncate ∘ fun i : Nat => cast_num i) = List.range' 1 n :=
      (List.map_congr_left fun i hi => (hcast i hi).2).trans (List.map_id _)
    rw [hmap]
  · rw [plainFields_iff]
    intro e he
    obtain ⟨i, -, rfl⟩ := List.mem_map.mp he
    trivial

/-- The product of the ratio and the number of elements overflows. -/
theorem json_round_trip_overflow :
    let cfg : Config :=
      { Config.default with encode_sparse_ratio := 2147483647, ratio_range := by decide }
    let encode_buf : Strbuf := ⟨[], STRBUF_DEFAULT_SIZE, STRBUF_DEFAULT_INCREMENT⟩
    zeroLibc.Reads cfg.encode_number_precision ∧ (booleans 12).Plain ∧
      ((booleans 12).depth : Int) ≤ cfg.encode_max_depth ∧
      ((booleans 12).depth : Int) ≤ cfg.decode_max_depth ∧
      ¬ RoundTrips zeroLibc cfg encode_buf (booleans 12) := by
  intro cfg encode_buf
  refine ⟨zeroLibc_reads _, booleans_plain (by decide) (by decide), by decide +kernel,
    by decide +kernel, ?_⟩
  rintro ⟨t, buf, w, hok, -⟩
  have herror : json_encode zeroLibc cfg encode_buf (booleans 12) =
      .error (.error "Cannot serialise table: excessively sparse array") := by
    decide +kernel
  rw [herror] at hok
  cases hok

/-- Nothing overflows for one element. -/
theorem json_round_trip_one :
    RoundTrips zeroLibc Config.default ⟨[], STRBUF_DEFAULT_SIZE, STRBUF_DEFAULT_INCREMENT⟩ (booleans 1) ↔
      (booleans 1).Dense Config.default ∧ 1 + (booleans 1).slots ≤ LUAI_MAXCSTACK ∧
        (output zeroLibc Config.default (booleans 1) 0 1).need < limit :=
  json_round_trip_iff (zeroLibc_reads _) ⟨rfl, ⟨0, by decide, rfl⟩, by decide⟩
    (booleans_plain (by decide) (by decide)) (by decide +kernel) (by decide +kernel)

end Luaxx.Json
