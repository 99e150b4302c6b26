import Luaxx.Table.Table

/-!
# The invariant of tables

The node part is a chained scatter table with Brent's variation: a node whose key is not in its
main position is in the chain of a key that is (`home`), so that it can be moved away when a key
needs the place. What `luaH_get` finds follows from the invariant alone (`value_eq_iff`).
-/

namespace Luaxx.Tables

open Luaxx.Links Value

/-! ## Logarithms -/

theorem log_2_entries : ∀ e ∈ log_2.zipIdx, e.2 < 2 ^ e.1 ∧ (e.2 ≠ 0 → 2 ^ e.1 ≤ 2 * e.2) := by
  decide +kernel

theorem log_2_spec : ∀ x < 256, x < 2 ^ log_2.getD x 0 ∧ (x ≠ 0 → 2 ^ log_2.getD x 0 ≤ 2 * x) := by
  intro x hx
  have hlen : log_2.length = 256 := by decide +kernel
  have hget : log_2[x]? = some (log_2.getD x 0) := by
    rw [List.getD_eq_getElem?_getD, List.getElem?_eq_getElem (hlen.symm ▸ hx), Option.getD_some]
  exact log_2_entries (log_2.getD x 0, x) (List.mem_zipIdx_iff_getElem?.mpr hget)

theorem log2Loop_spec (n x : Nat) (l : Int) (hx : x < 256 * 256 ^ n) :
    ∃ d : Nat, log2Loop n x l = l + d ∧ x < 2 ^ d ∧ (x ≠ 0 → 2 ^ d ≤ 2 * x) ∧ (x = 0 → d = 0) := by
  have hsmall : ∀ (x : Nat) (l : Int), x < 256 →
      ∃ d : Nat, l + (log_2.getD x 0 : Int) = l + d ∧ x < 2 ^ d ∧ (x ≠ 0 → 2 ^ d ≤ 2 * x) ∧
        (x = 0 → d = 0) := fun x l h =>
    ⟨log_2.getD x 0, rfl, (log_2_spec x h).1, (log_2_spec x h).2, fun h0 => by rw [h0]; rfl⟩
  induction n generalizing x l with
  | zero => exact hsmall x l (by simpa using hx)
  | succ n ih =>
    rw [log2Loop]
    split_ifs with h
    · have hdiv : x / 256 < 256 * 256 ^ n := by
        rw [Nat.div_lt_iff_lt_mul (by decide)]
        rw [Nat.pow_succ] at hx
        omega
      obtain ⟨d, hd, hlt, hle, h0⟩ := ih (x / 256) (l + 8) hdiv
      have hne : x / 256 ≠ 0 := by omega
      have hpow : 2 ^ (d + 8) = 2 ^ d * 256 := by rw [Nat.pow_add]
      have := hle hne
      exact ⟨d + 8, by omega, by omega, fun _ => by omega, fun h0 => by omega⟩
    · exact hsmall x l (by omega)

/-- `ceillog2` is the logarithm rounded up. -/
theorem ceillog2_spec {x : Nat} (h1 : 1 ≤ x) (hx : x ≤ 2 ^ 32) :
    x ≤ 2 ^ ceillog2 x ∧ 2 ^ ceillog2 x < 2 * x := by
  obtain ⟨d, hd, hlt, hle, h0⟩ := log2Loop_spec 3 (x - 1) (-1) (by omega)
  have hc : ceillog2 x = d := by
    rw [ceillog2, luaO_log2, hd]
    omega
  rw [hc]
  by_cases hx0 : x - 1 = 0
  · rw [h0 hx0]
    omega
  · have := hle hx0
    omega

/-! ## Main positions -/

section Hash

variable {hashes : Nat → UInt32} {t t' : Table}

theorem hashmod_lt (t : Table) (n : Nat) : hashmod t n < t.sizenode := by
  unfold hashmod Table.sizenode
  have hpos : 0 < 2 ^ t.lsizenode := Nat.pow_pos (by decide)
  rcases Nat.eq_zero_or_pos t.lsizenode with h | h
  · rw [h]
    exact Nat.mod_lt n (by decide)
  · have h1 : 1 < 2 ^ t.lsizenode := Nat.one_lt_two_pow (by omega)
    have hor : (2 ^ t.lsizenode - 1) ||| 1 < 2 ^ t.lsizenode :=
      Nat.or_lt_two_pow (by omega) h1
    have hne : 0 < (2 ^ t.lsizenode - 1) ||| 1 :=
      Nat.lt_of_lt_of_le Nat.one_pos Nat.right_le_or
    exact Nat.lt_trans (Nat.mod_lt n hne) hor

theorem hashpow2_lt (t : Table) (n : Nat) : hashpow2 t n < t.sizenode :=
  Nat.mod_lt n (Nat.pow_pos (by decide))

theorem mainposition_lt (t : Table) (key : Value) : mainposition hashes t key < t.sizenode := by
  have hpos : 0 < t.sizenode := Nat.pow_pos (by decide)
  cases key with
  | number n =>
    show hashnum t n < _
    unfold hashnum
    split_ifs
    · exact hpos
    · exact hashmod_lt t _
  | string p => exact hashpow2_lt t _
  | boolean b => exact hashpow2_lt t _
  | _ => exact hashmod_lt t _

theorem mainposition_congr (h : t'.lsizenode = t.lsizenode) (key : Value) :
    mainposition hashes t' key = mainposition hashes t key := by
  have hsize : t'.sizenode = t.sizenode := by rw [Table.sizenode, Table.sizenode, h]
  cases key <;> simp only [mainposition, hashnum, hashmod, hashpow2, hsize]

/-- Equal keys have the same main position. -/
theorem mainposition_eq (hashes : Nat → UInt32) (t : Table) {a b : Value}
    (h : rawequal a b = true) :
    mainposition hashes t a = mainposition hashes t b := by
  cases a <;> cases b <;> simp only [rawequal, Bool.false_eq_true, beq_iff_eq,
    Bool.and_eq_true] at h
  case number.number n m =>
    show hashnum t n = hashnum t m
    unfold hashnum
    by_cases h0 : luai_numeq n 0 = true
    · rw [if_pos h0, if_pos (luai_numeq_trans (by rw [luai_numeq_comm]; exact h) h0)]
    · rw [eq_of_luai_numeq h (by simpa using h0)]
  case nil.nil => rfl
  case object.object => rw [h.1, h.2]
  all_goals rw [h]

/-- Equal keys have the same array index. -/
theorem arrayindex_eq {a b : Value} (h : rawequal a b = true) : arrayindex a = arrayindex b := by
  cases a <;> cases b <;> simp only [rawequal, Bool.false_eq_true] at h
  case number.number n m =>
    have hk := lua_number2int_congr h
    have hiff : luai_numeq (cast_num (lua_number2int n)) n = luai_numeq (cast_num (lua_number2int n)) m := by
      rw [Bool.eq_iff_iff]
      exact ⟨fun h' => luai_numeq_trans h' h,
        fun h' => luai_numeq_trans h' (by rw [luai_numeq_comm]; exact h)⟩
    simp only [arrayindex, ← hk, hiff]
  all_goals rfl

theorem arrayindex_cast {k : Int} (hk : -2 ^ 31 ≤ k ∧ k < 2 ^ 31) :
    arrayindex (.number (cast_num k)) = k := by
  have hself : luai_numeq (cast_num k) (cast_num k) = true :=
    luai_numeq_iff.mpr ⟨cast_num_not_nan hk, cast_num_not_nan hk, .inl rfl⟩
  simp only [arrayindex, lua_number2int_cast_num hk, hself, if_true]

theorem arrayindex_range (key : Value) : -2 ^ 31 ≤ arrayindex key ∧ arrayindex key < 2 ^ 31 := by
  cases key <;> simp only [arrayindex] <;> try omega
  have := lua_number2int_range ‹_›
  split_ifs <;> omega

/-- A key with an array index is that number. -/
theorem rawequal_cast {key : Value} (h : arrayindex key ≠ -1) :
    rawequal (.number (cast_num (arrayindex key))) key = true := by
  cases key <;> simp only [arrayindex, ne_eq, not_true_eq_false] at h ⊢
  split_ifs at h ⊢ with hk
  · exact hk
  · exact absurd rfl h

/-! ## The invariant -/

/-- The key is in the range of the array part. -/
def InArray (t : Table) (key : Value) : Prop :=
  0 < arrayindex key ∧ arrayindex key ≤ t.sizearray

instance (t : Table) (key : Value) : Decidable (InArray t key) := by
  unfold InArray
  infer_instance

variable (hashes)

structure Inv (t : Table) : Prop where
  length : t.node.length = t.sizenode
  small : t.lsizenode ≤ MAXBITS
  dummy : t.isDummy = true → t.node = [dummynode_] ∧ t.lastfree ≤ 0
  lastfree : t.lastfree ≤ t.node.length
  above : t.isDummy = false → ∀ i < t.node.length, t.lastfree ≤ i → t.gkey i ≠ .nil
  array : t.sizearray < 2 ^ 31
  next_lt : ∀ i j, t.gnext i = some j → j < t.node.length
  pred : ∀ i j k, t.gnext i = some k → t.gnext j = some k → i = j
  unused : ∀ i, t.gkey i = .nil → t.gval i = .nil ∧ t.gnext i = none ∧ ∀ j, t.gnext j ≠ some i
  key : ∀ i, t.gkey i = .nil ∨ (∃ p, t.gkey i = .deadkey p) ∨ (t.gkey i).IsKey
  live : ∀ i, t.gval i ≠ .nil → (t.gkey i).IsKey
  acyclic : ∀ i, ∃ l, Chain t.gnext i l
  reach : ∀ i, (t.gkey i).IsKey → ∃ l, Chain t.gnext (mainposition hashes t (t.gkey i)) l ∧ i ∈ l
  occupied : ∀ i, (t.gkey i).IsKey → t.gkey (mainposition hashes t (t.gkey i)) ≠ .nil
  home : ∀ i j, (t.gkey i).IsKey → (t.gkey j).IsKey → mainposition hashes t (t.gkey i) ≠ i →
    mainposition hashes t (t.gkey j) ≠ i
  unique : ∀ i j, (t.gkey i).IsKey → rawequal (t.gkey i) (t.gkey j) = true → i = j
  /-- A key in the range of the array part is left over, without a value, from a growth that failed. -/
  outside : ∀ i, (t.gkey i).IsKey → InArray t (t.gkey i) → t.gval i = .nil

/-- The value that `luaH_get` reads. -/
def value (t : Table) (key : Value) : Value := t.read (luaH_get hashes t key)

variable {hashes}

theorem gnode_eq_default {i : Nat} (h : t.node.length ≤ i) : t.gnode i = dummynode_ := by
  rw [Table.gnode, List.getD_eq_getElem?_getD, List.getElem?_eq_none h]
  rfl

theorem gnode_eq_getElem {i : Nat} (h : i < t.node.length) : t.gnode i = t.node[i] := by
  rw [Table.gnode, List.getD_eq_getElem?_getD, List.getElem?_eq_getElem h]
  rfl

theorem lt_of_gkey_ne {i : Nat} (h : t.gkey i ≠ .nil) : i < t.node.length := by
  by_contra hge
  exact h (by rw [Table.gkey, gnode_eq_default (Nat.not_lt.mp hge)]; rfl)

theorem lt_of_gnext {i j : Nat} (h : t.gnext i = some j) : i < t.node.length := by
  by_contra hge
  rw [Table.gnext, gnode_eq_default (Nat.not_lt.mp hge)] at h
  cases h

theorem IsKey.ne_nil {key : Value} (h : key.IsKey) : key ≠ .nil := by
  rintro rfl
  exact h

theorem Inv.isDummy_eq_false (h : Inv hashes t) {i : Nat} (hi : (t.gkey i).IsKey) :
    t.isDummy = false := by
  cases hd : t.isDummy with
  | false => rfl
  | true =>
    have hnode := (h.dummy hd).1
    have : t.gkey i = .nil := by
      unfold Table.gkey Table.gnode
      rw [hnode]
      cases i <;> rfl
    exact absurd this (IsKey.ne_nil hi)

/-- Every chain fits the number of nodes. -/
theorem Inv.chain_length (h : Inv hashes t) {i : Nat} (hi : i < t.node.length) {l : List Nat}
    (hl : Chain t.gnext i l) : l.length ≤ t.node.length := by
  refine hl.length_le fun j hj => ?_
  by_cases hji : j = i
  · exact hji ▸ hi
  · obtain ⟨p, -, hp⟩ := hl.exists_previous hj hji
    exact h.next_lt p j hp

/-! ## What is found -/

section Find

variable {key : Value} {p : Value → Bool}

/-- A search for what is equal to a key goes through the node with that key. -/
theorem findNode_eq_some (h : Inv hashes t) (hp : ∀ i, p (t.gkey i) = rawequal (t.gkey i) key)
    {i : Nat} (hi : (t.gkey i).IsKey) (hkey : rawequal (t.gkey i) key = true) :
    findNode t p (mainposition hashes t key) = some (.node i) := by
  obtain ⟨l, hl, hmem⟩ := h.reach i hi
  rw [mainposition_eq hashes t hkey] at hl
  have hlt : mainposition hashes t key < t.node.length := h.length ▸ mainposition_lt t key
  rw [findNode, walk_eq hl (h.chain_length hlt hl)]
  cases hfind : l.find? fun i => p (t.gkey i) with
  | none =>
    have := List.find?_eq_none.mp hfind i hmem
    rw [hp] at this
    exact absurd hkey this
  | some j =>
    have hj := List.find?_some hfind
    rw [hp] at hj
    rw [h.unique i j hi (rawequal_trans hkey (by rw [rawequal_comm]; exact hj))]
    rfl

theorem findNode_eq_none (h : Inv hashes t) (hp : ∀ i, p (t.gkey i) = rawequal (t.gkey i) key)
    (hkey : ∀ i, rawequal (t.gkey i) key = false) :
    findNode t p (mainposition hashes t key) = none := by
  obtain ⟨l, hl⟩ := h.acyclic (mainposition hashes t key)
  have hlt : mainposition hashes t key < t.node.length := h.length ▸ mainposition_lt t key
  have hfind : l.find? (fun i => p (t.gkey i)) = none :=
    List.find?_eq_none.mpr fun i _ => by rw [hp, hkey]; exact Bool.false_ne_true
  rw [findNode, walk_eq hl (h.chain_length hlt hl), hfind]
  rfl

/-- `luaH_getnum` of a number in the array part. -/
theorem luaH_getnum_array {k : Int} (h : 0 < k ∧ k ≤ t.sizearray) (hs : t.sizearray < 2 ^ 31) :
    luaH_getnum t k = some (.array (k - 1).toNat) := by
  rw [luaH_getnum, if_pos]
  rw [Int.emod_eq_of_lt (by omega) (by omega)]
  omega

theorem luaH_getnum_node (hashes : Nat → UInt32) {k : Int} (h : ¬ (0 < k ∧ k ≤ t.sizearray))
    (hk : -2 ^ 31 ≤ k ∧ k < 2 ^ 31) (hs : t.sizearray < 2 ^ 31) :
    luaH_getnum t k =
      findNode t (fun v => match v with | .number n => luai_numeq n (cast_num k) | _ => false)
        (mainposition hashes t (.number (cast_num k))) := by
  rw [luaH_getnum, if_neg]
  · rfl
  · omega

/-- `luaH_get` outside of the array part is a search for what is equal to the key. -/
theorem luaH_get_node (hashes : Nat → UInt32) (hs : t.sizearray < 2 ^ 31) (hkey : key ≠ .nil) (hout : ¬ InArray t key) :
    ∃ p : Value → Bool, (∀ v, p v = rawequal v key) ∧
      luaH_get hashes t key = findNode t p (mainposition hashes t key) := by
  cases key with
  | nil => exact absurd rfl hkey
  | string s =>
    have hget : luaH_get hashes t (.string s) = luaH_getstr hashes t s := rfl
    rw [hget, luaH_getstr]
    refine ⟨_, fun v => ?_, rfl⟩
    cases v <;> rfl
  | number n =>
    by_cases hint : luai_numeq (cast_num (lua_number2int n)) n = true
    · have hidx : arrayindex (.number n) = lua_number2int n := by simp only [arrayindex, hint, if_true]
      have heq : rawequal (.number (cast_num (lua_number2int n))) (.number n) = true := hint
      have hpos := mainposition_eq hashes t heq
      have hget : luaH_get hashes t (.number n) = luaH_getnum t (lua_number2int n) := by
        simp only [luaH_get, hint, if_true]
      rw [hget, luaH_getnum_node hashes (hidx ▸ hout) (lua_number2int_range n) hs, hpos]
      refine ⟨_, fun v => ?_, rfl⟩
      cases v with
      | number m =>
        show luai_numeq m (cast_num (lua_number2int n)) = luai_numeq m n
        rw [Bool.eq_iff_iff]
        exact ⟨fun h => luai_numeq_trans h hint,
          fun h => luai_numeq_trans h (by rw [luai_numeq_comm]; exact hint)⟩
      | _ => rfl
    · refine ⟨(rawequal · (.number n)), fun _ => rfl, ?_⟩
      simp only [luaH_get, hint, Bool.false_eq_true, if_false]
  | _ => exact ⟨(rawequal · _), fun _ => rfl, rfl⟩

theorem luaH_get_array (h : InArray t key) (hs : t.sizearray < 2 ^ 31) :
    luaH_get hashes t key = some (.array (arrayindex key - 1).toNat) := by
  have hne : arrayindex key ≠ -1 := by
    have := h.1
    omega
  cases key with
  | number n =>
    simp only [arrayindex, ne_eq, ite_eq_right_iff, Classical.not_imp] at hne
    have hidx : arrayindex (.number n) = lua_number2int n := by
      simp only [arrayindex, hne.1, if_true]
    rw [hidx]
    simp only [luaH_get, hne.1, if_true]
    exact luaH_getnum_array (by rw [InArray, hidx] at h; exact h) hs
  | _ => exact absurd rfl hne

/-- What `luaH_get` returns for a key. -/
theorem luaH_get_cases (h : Inv hashes t) (hkey : key.IsKey) :
    (InArray t key ∧ luaH_get hashes t key = some (.array (arrayindex key - 1).toNat)) ∨
    (¬ InArray t key ∧ ∃ i, (t.gkey i).IsKey ∧ rawequal (t.gkey i) key = true ∧
      luaH_get hashes t key = some (.node i)) ∨
    (¬ InArray t key ∧ (∀ i, rawequal (t.gkey i) key = false) ∧ luaH_get hashes t key = none) := by
  by_cases hin : InArray t key
  · exact .inl ⟨hin, luaH_get_array hin h.array⟩
  · obtain ⟨p, hp, hget⟩ := luaH_get_node hashes h.array (IsKey.ne_nil hkey) hin
    refine .inr ?_
    by_cases hex : ∃ i, rawequal (t.gkey i) key = true
    · obtain ⟨i, hi⟩ := hex
      have hik : (t.gkey i).IsKey := hkey.of_rawequal (by rw [rawequal_comm]; exact hi)
      exact .inl ⟨hin, i, hik, hi, hget.trans (findNode_eq_some h (fun _ => hp _) hik hi)⟩
    · have hnone : ∀ i, rawequal (t.gkey i) key = false := fun i =>
        Bool.eq_false_iff.mpr fun hi => hex ⟨i, hi⟩
      exact .inr ⟨hin, hnone, hget.trans (findNode_eq_none h (fun _ => hp _) hnone)⟩

theorem value_array (h : Inv hashes t) (hin : InArray t key) :
    value hashes t key = t.array.getD (arrayindex key - 1).toNat .nil := by
  rw [value, luaH_get_array hin h.array]
  rfl

theorem Inv.out_of_live (h : Inv hashes t) {i : Nat} (hval : t.gval i ≠ .nil) :
    ¬ InArray t (t.gkey i) :=
  fun hin => hval (h.outside i (h.live i hval) hin)

theorem value_node (h : Inv hashes t) {i : Nat} (hval : t.gval i ≠ .nil)
    (hkey : rawequal (t.gkey i) key = true) : value hashes t key = t.gval i := by
  have hi := h.live i hval
  have hk : key.IsKey := hi.of_rawequal hkey
  have hout : ¬ InArray t key := by
    have := h.out_of_live hval
    rwa [InArray, arrayindex_eq hkey] at this
  obtain ⟨p, hp, hget⟩ := luaH_get_node hashes h.array (IsKey.ne_nil hk) hout
  rw [value, hget, findNode_eq_some h (fun _ => hp _) hi hkey]
  rfl

/-- There is nothing under what is no key. -/
theorem value_not_key (h : Inv hashes t) (hkey : ¬ key.IsKey) : value hashes t key = .nil := by
  by_cases hnil : key = .nil
  · subst hnil
    rfl
  by_cases hin : InArray t key
  · have hne : arrayindex key ≠ -1 := by
      have := hin.1
      omega
    have heq := rawequal_cast hne
    have hcast : (Value.number (cast_num (arrayindex key))).IsKey := by
      have := cast_num_not_nan (arrayindex_range key)
      simp only [IsKey, luai_numisnan, luai_numeq, this]
      simp
    exact absurd (hcast.of_rawequal heq) hkey
  · obtain ⟨p, hp, hget⟩ := luaH_get_node hashes h.array hnil hin
    rw [value, hget]
    obtain ⟨l, hl⟩ := h.acyclic (mainposition hashes t key)
    have hlt : mainposition hashes t key < t.node.length := h.length ▸ mainposition_lt t key
    rw [findNode, walk_eq hl (h.chain_length hlt hl)]
    cases hfind : l.find? fun i => p (t.gkey i) with
    | none => rfl
    | some j =>
      have hj := List.find?_some hfind
      rw [hp] at hj
      show t.gval j = .nil
      by_contra hv
      exact hkey ((h.live j hv).of_rawequal hj)

/-- The values other than nil that a table holds. -/
theorem value_eq_iff (h : Inv hashes t) {v : Value} (hv : v ≠ .nil) :
    value hashes t key = v ↔
      (InArray t key ∧ t.array.getD (arrayindex key - 1).toNat .nil = v) ∨
      ∃ i, (t.gkey i).IsKey ∧ rawequal (t.gkey i) key = true ∧ t.gval i = v := by
  constructor
  · intro hval
    have hkey : key.IsKey := by
      by_contra hk
      exact hv (hval ▸ value_not_key h hk)
    rcases luaH_get_cases h hkey with ⟨hin, -⟩ | ⟨-, i, hi, hik, hget⟩ | ⟨-, -, hget⟩
    · exact .inl ⟨hin, value_array h hin ▸ hval⟩
    · rw [value, hget] at hval
      exact .inr ⟨i, hi, hik, hval⟩
    · rw [value, hget] at hval
      exact absurd hval.symm hv
  · rintro (⟨hin, hval⟩ | ⟨i, hi, hik, hval⟩)
    · rw [value_array h hin, hval]
    · rw [value_node h (hval ▸ hv) hik, hval]

/-- Tables with the same array part and the same live nodes, in whatever order, hold the same. -/
theorem value_congr (h : Inv hashes t) (h' : Inv hashes t') (harray : t'.array = t.array)
    (hto : ∀ i, t.gval i ≠ .nil → ∃ j, t'.gkey j = t.gkey i ∧ t'.gval j = t.gval i)
    (hfrom : ∀ j, t'.gval j ≠ .nil → ∃ i, t.gkey i = t'.gkey j ∧ t.gval i = t'.gval j)
    (key : Value) : value hashes t' key = value hashes t key := by
  have hin : InArray t' key ↔ InArray t key := by
    rw [InArray, InArray, Table.sizearray, Table.sizearray, harray]
  have hiff : ∀ v, v ≠ .nil → (value hashes t' key = v ↔ value hashes t key = v) := by
    intro v hv
    rw [value_eq_iff h hv, value_eq_iff h' hv, hin, harray]
    refine or_congr_right ⟨?_, ?_⟩
    · rintro ⟨j, hj, hjk, rfl⟩
      obtain ⟨i, hi, hval⟩ := hfrom j hv
      exact ⟨i, hi ▸ hj, hi ▸ hjk, hval⟩
    · rintro ⟨i, hi, hik, rfl⟩
      obtain ⟨j, hj, hval⟩ := hto i hv
      exact ⟨j, hj ▸ hi, hj ▸ hik, hval⟩
  by_cases hnil : value hashes t key = .nil
  · by_contra hne
    rw [hnil] at hne
    exact hne ((hiff _ hne).mp rfl ▸ hnil)
  · exact (hiff _ hnil).mpr rfl

end Find

end Hash

end Luaxx.Tables
