import Luaxx.Lib.FreeList
import Luaxx.Lib.Int32
import Luaxx.Table.Length
import Luaxx.Table.Sizing

/-!
# References (`lauxlib.c`)

`luaL_ref` keeps values in a table. Index 0 of the table holds the first released reference, and each
released reference the next one: the end of the list is nil. New references come from the length of
the table, which is asked for only when there is no released one.
-/

namespace Luaxx.Auxlib

open Luaxx.FreeList Luaxx.Int32 Luaxx.Links Luaxx.Result Luaxx.Tables Value

def LUA_REFNIL : Int := -1

/-- Free list of references. -/
def FREELIST_REF : Int := 0

section

variable (hashes : Nat → UInt32) (str2number : Nat → Option Number)

/-- `lua_tointeger`; the string at an address may be a number. -/
def lua_tointeger : Value → Int
  | .number n => lua_number2integer n
  | .string s => ((str2number s).map lua_number2integer).getD 0
  | _ => 0

def lua_rawgeti (t : Table) (n : Int) : Value := t.read (luaH_getnum t n)

def lua_rawseti (t : Table) (n : Int) (v : Value) : Tables.M Table :=
  luaH_setnum hashes t n >>= storeAt v

/-- The reference at an index, as an `int`. -/
def refAt (t : Table) (n : Int) : Int := wrap (lua_tointeger str2number (lua_rawgeti t n))

/-- The value is the topmost one. -/
def luaL_ref (t : Table) (v : Value) : Tables.M (Int × Table) :=
  -- nil has a unique fixed reference
  if v.ttisnil then pure (LUA_REFNIL, t)
  else
    -- get first free element
    let ref := refAt str2number t FREELIST_REF
    if ref ≠ 0 then do
      -- remove it from list
      let t ← lua_rawseti hashes t FREELIST_REF (lua_rawgeti t ref)
      let t ← lua_rawseti hashes t ref v
      pure (ref, t)
    else do
      -- create new reference
      let n ← luaH_getn t
      if n < INT_MAX then do
        let t ← lua_rawseti hashes t (n + 1) v
        pure ((n : Int) + 1, t)
      else .error .undefined

def luaL_unref (t : Table) (ref : Int) : Tables.M Table :=
  if ref ≥ 0 then do
    let t ← lua_rawseti hashes t ref (lua_rawgeti t FREELIST_REF)
    lua_rawseti hashes t FREELIST_REF (.number (cast_num ref))
  else pure t

/-- The link at an index. -/
def freeLink (t : Table) (n : Int) : Option Int :=
  if refAt str2number t n = 0 then none else some (refAt str2number t n)

end

/-! ## What is used of a table -/

/-- The link to a released reference, in a table. -/
def linkValue : Option Int → Value
  | none => .nil
  | some r => .number (cast_num r)

/-- The elements of an array part that leave an `int` for every index of the table. -/
def ELEMENTS : Nat := 2 ^ 31 - 2 ^ 27

/-- As many indices as the array part and the node part have. -/
def REFS : Nat := ELEMENTS + 2 ^ 26

variable {hashes : Nat → UInt32} {str2number : Nat → Option Number} {t t' : Table} {n : Nat}
  {c : Int → Value} {v : Value}

/-- The table holds the values `c` at the indices from 0 to `n`, and nothing else. -/
structure Holding (hashes : Nat → UInt32) (t : Table) (c : Int → Value) (n : Nat) : Prop where
  inv : Inv hashes t
  sizearray : t.sizearray ≤ ELEMENTS
  value : ∀ k : Int, -2 ^ 31 ≤ k ∧ k < 2 ^ 31 → value hashes t (.number (cast_num k)) = c k
  keys : ∀ key, Tables.value hashes t key ≠ .nil →
    ∃ i : Nat, i ≤ n ∧ rawequal key (.number (cast_num i)) = true

theorem rawequal_cast_num {a b : Int} (ha : -2 ^ 31 ≤ a ∧ a < 2 ^ 31) (hb : -2 ^ 31 ≤ b ∧ b < 2 ^ 31) :
    rawequal (.number (cast_num a)) (.number (cast_num b)) = true ↔ a = b := by
  constructor
  · intro h
    have := lua_number2int_congr h
    rwa [lua_number2int_cast_num ha, lua_number2int_cast_num hb] at this
  · rintro rfl
    exact rawequal_self (isKey_cast_num ha)

theorem Holding.rawgeti (h : Holding hashes t c n) {k : Int} (hk : -2 ^ 31 ≤ k ∧ k < 2 ^ 31) :
    lua_rawgeti t k = c k := by
  rw [lua_rawgeti, luaH_getnum_eq hashes t hk]
  exact h.value k hk

/-- An assignment, where the node part does not get too large. -/
theorem Holding.rawseti (h : Holding hashes t c n) {k : Nat} (hk : k ≤ n) (hn : n < 2 ^ 31)
    (v : Value) :
    Yields (· = tableOverflow) (fun t' => Holding hashes t' (Function.update c k v) n)
      (lua_rawseti hashes t k v) := by
  have hrange : -2 ^ 31 ≤ (k : Int) ∧ (k : Int) < 2 ^ 31 := by omega
  have hkey : (Value.number (cast_num k)).IsKey := isKey_cast_num hrange
  have hsized : Yields (· = tableOverflow)
      (fun r => SetTo hashes t r.2 (.number (cast_num k)) r.1 ∧ r.2.sizearray ≤ ELEMENTS)
      (luaH_setnum hashes t k) := by
    rw [luaH_setnum, setnumWith_eq hashes hrange]
    cases hget : luaH_get hashes t (.number (cast_num k)) with
    | some p => exact ⟨SetTo.of_found h.inv hget t.flags, h.sizearray⟩
    | none =>
      refine (newkey_sized h.inv (absent_of_luaH_get h.inv hkey hget) 1).imp fun r hr => ⟨hr.1, ?_⟩
      exact hr.2.trans (Nat.max_le.mpr ⟨h.sizearray, by decide⟩)
  refine hsized.bind fun r hr => ?_
  obtain ⟨hto, hsize⟩ := hr
  obtain ⟨t', heq, hs⟩ := store_spec hto.inv hkey hto.slot v
  have hval : ∀ key, Tables.value hashes t' key =
      if rawequal key (.number (cast_num k)) then v else Tables.value hashes t key := by
    intro key
    rw [hs.value, hto.value]
  refine yields_of_eq heq ⟨hs.inv, ?_, fun i hi => ?_, fun key hne => ?_⟩
  · rw [hs.keys.shape.sizearray]
    exact hsize
  · rw [hval, Function.update_apply, ← h.value i hi]
    exact if_congr (rawequal_cast_num hi hrange) rfl rfl
  · rw [hval] at hne
    split_ifs at hne with hraw
    · exact ⟨k, hk, hraw⟩
    · exact h.keys key hne

theorem Holding.mono (h : Holding hashes t c n) {n' : Nat} (hn : n ≤ n') : Holding hashes t c n' :=
  ⟨h.inv, h.sizearray, h.value, fun key hne => by
    obtain ⟨i, hi, hraw⟩ := h.keys key hne
    exact ⟨i, hi.trans hn, hraw⟩⟩

/-- Beyond the last index there is nothing. -/
theorem Holding.beyond (h : Holding hashes t c n) {k : Nat} (hk : n < k) (hint : k < 2 ^ 31) :
    c k = .nil := by
  by_contra hne
  rw [← h.value k (by omega)] at hne
  obtain ⟨i, hi, hraw⟩ := h.keys _ hne
  have := (rawequal_cast_num (by omega) (by omega)).mp hraw
  omega

/-- There are not more values than indices in the array part and nodes. -/
theorem Holding.le_refs (h : Holding hashes t c n) (hn : n < 2 ^ 31)
    (hc : ∀ k : Int, 0 < k → k ≤ n → c k ≠ .nil) : n ≤ REFS := by
  have hinv := h.inv
  let l : List Value :=
    (List.range' (t.sizearray + 1) (n - t.sizearray)).map fun k : Nat => .number (cast_num k)
  have hmem : ∀ a ∈ l, ∃ k : Nat, t.sizearray < k ∧ k ≤ n ∧ a = .number (cast_num k) := by
    intro a ha
    obtain ⟨k, hk, rfl⟩ := List.mem_map.mp ha
    rw [List.mem_range'_1] at hk
    exact ⟨k, by omega, by omega, rfl⟩
  have hnodup : (List.range' (t.sizearray + 1) (n - t.sizearray)).Nodup := List.nodup_range'
  have hdistinct : l.Pairwise fun a b => rawequal a b = false := by
    refine List.pairwise_map.mpr (hnodup.imp_of_mem ?_)
    intro a b ha hb hne
    rw [List.mem_range'_1] at ha hb
    refine Bool.eq_false_iff.mpr fun hraw => hne ?_
    have := (rawequal_cast_num (by omega) (by omega)).mp hraw
    omega
  have hnode : ∀ a ∈ l, a.IsKey ∧ ∃ i, At t a (.node i) := by
    intro a ha
    obtain ⟨k, hlo, hhi, rfl⟩ := hmem a ha
    have hrange : -2 ^ 31 ≤ (k : Int) ∧ (k : Int) < 2 ^ 31 := by omega
    have hkey := isKey_cast_num hrange
    have hsome : luaH_get hashes t (.number (cast_num k)) ≠ none := by
      intro hnone
      refine hc k (by omega) (by omega) ?_
      rw [← h.value k hrange, Tables.value, hnone]
      rfl
    obtain ⟨p, hget⟩ := Option.ne_none_iff_exists'.mp hsome
    have hat := (luaH_get_iff hinv hkey).mp hget
    cases p with
    | node i => exact ⟨hkey, i, hat⟩
    | array i =>
      have hin : InArray t (.number (cast_num k)) := hat.1
      rw [InArray, arrayindex_cast hrange] at hin
      omega
  have hle := (length_le_nodes hinv hdistinct hnode).1
  have hnodes : t.node.length ≤ 2 ^ 26 := by
    rw [hinv.length]
    exact Nat.pow_le_pow_right (by decide) hinv.small
  have hsize := h.sizearray
  rw [List.length_map, List.length_range'] at hle
  unfold REFS
  omega

/-- Without released references the length is the last index. -/
theorem Holding.getn (h : Holding hashes t c n) (hn : n < INT_MAX)
    (hc : ∀ k : Int, 0 < k → k ≤ n → c k ≠ .nil) : luaH_getn t = .ok n := by
  have hint : INT_MAX = 2 ^ 31 - 1 := rfl
  obtain ⟨m, hm, hlt, hlast, hnext⟩ := luaH_getn_spec h.inv fun key hne => by
    obtain ⟨i, hi, hraw⟩ := h.keys key hne
    rw [arrayindex_eq hraw, arrayindex_cast (by omega)]
    omega
  rw [h.value _ (by omega)] at hnext
  rw [hm]
  congr 1
  by_contra hne
  rcases Nat.lt_or_gt_of_ne hne with hlt' | hgt
  · exact hc (m + 1 : Nat) (by omega) (by omega) hnext
  · rcases hlast with rfl | hlast
    · exact absurd hgt (Nat.not_lt_zero n)
    · rw [h.value _ (by omega)] at hlast
      exact hlast (h.beyond hgt (by omega))

/-! ## Links -/

theorem wrap_integer {k : Int} (h0 : 0 ≤ k) (hk : k < 2 ^ 31) :
    wrap (lua_number2integer (cast_num k)) = k := by
  rw [lua_number2integer_cast_num h0 hk, wrap_eq (by omega) hk]

theorem Holding.refAt (h : Holding hashes t c n) {k : Int} (hk : -2 ^ 31 ≤ k ∧ k < 2 ^ 31)
    {o : Option Int} (ho : ∀ r ∈ o, 0 < r ∧ r < 2 ^ 31) (hlink : c k = linkValue o) :
    refAt str2number t k = o.getD 0 := by
  rw [Auxlib.refAt, h.rawgeti hk, hlink]
  cases o with
  | none => rfl
  | some r =>
    have hr := ho r rfl
    exact wrap_integer (by omega) hr.2

/-- The free list of the table. -/
theorem Holding.chain (h : Holding hashes t c n) {i : Int} {free : List Int}
    (hi : -2 ^ 31 ≤ i ∧ i < 2 ^ 31) (hfree : ∀ r ∈ free, 0 < r ∧ r < 2 ^ 31)
    (hthreaded : Threaded linkValue c i free) :
    Chain (freeLink str2number t) i (i :: free) := by
  induction free generalizing i with
  | nil =>
    refine .last ?_
    rw [freeLink, h.refAt hi (o := none) (fun r hr => by cases hr) hthreaded]
    rfl
  | cons r free ih =>
    obtain ⟨hr, hfree⟩ := List.forall_mem_cons.mp hfree
    have hlink : Auxlib.refAt str2number t i = r := by
      refine h.refAt hi (o := some r) (fun r' hr' => ?_) hthreaded.1
      obtain rfl : r = r' := by simpa using hr'
      exact hr
    refine .step ?_ (ih (by omega) hfree hthreaded.2)
    rw [freeLink, hlink, if_neg (by omega)]

/-! ## Any calls -/

/-- A table that is used for references only, and what has become of these. -/
structure System where
  table : Table
  /-- The references in use, with the values that they stand for. -/
  live : List (Int × Value)
  released : List Int
  /-- What has ever been returned. -/
  issued : List Int

/-- Calls of `luaL_ref` with a value that is not nil, and of `luaL_unref` with a reference in use, in
any order. The array part that the table has to begin with leaves room for its indices. -/
inductive Reached (hashes : Nat → UInt32) (str2number : Nat → Option Number) : System → Prop
  | new {narray nhash : Nat} {t : Table} (hn : narray ≤ ELEMENTS) (hh : nhash < 2 ^ 31)
      (ht : luaH_new narray nhash = .ok t) : Reached hashes str2number ⟨t, [], [], []⟩
  | ref {s : System} {v : Value} {r : Int} {t : Table} (h : Reached hashes str2number s)
      (hv : v ≠ .nil) (ht : luaL_ref hashes str2number s.table v = .ok (r, t)) :
      Reached hashes str2number ⟨t, (r, v) :: s.live, s.released.erase r, r :: s.issued⟩
  | unref {s : System} {v : Value} {r : Int} {t : Table} (h : Reached hashes str2number s)
      (hr : (r, v) ∈ s.live) (ht : luaL_unref hashes s.table r = .ok t) :
      Reached hashes str2number ⟨t, s.live.erase (r, v), r :: s.released, s.issued⟩

/-- The invariant: the table has the references from 1 to `n`. -/
structure Managing (hashes : Nat → UInt32) (s : System) (c : Int → Value) (n : Nat)
    (free : List Int) : Prop where
  holding : Holding hashes s.table c n
  managed : Managed linkValue c n s.live free
  le_refs : n ≤ REFS + 1
  ne_nil : ∀ p ∈ s.live, p.2 ≠ .nil
  released : free.Perm s.released
  issued : ∀ r, r ∈ s.issued ↔ 0 < r ∧ r ≤ n

variable {s : System} {free : List Int}

theorem Managing.lt (h : Managing hashes s c n free) : n < 2 ^ 31 := by
  have hle := h.le_refs
  exact Nat.lt_of_le_of_lt hle (by decide)

theorem Managing.free_pos (h : Managing hashes s c n free) {r : Int} (hr : r ∈ free) :
    0 < r ∧ r < 2 ^ 31 := by
  have hpos := h.managed.pos_of_free hr
  have hlt := h.lt
  omega

/-- A reference is one that has been released, or it is new. -/
theorem Managing.ref (h : Managing hashes s c n free) (hv : v ≠ .nil) :
    Yields (· = tableOverflow)
      (fun r => (∃ c' n' free', Managing hashes
          ⟨r.2, (r.1, v) :: s.live, s.released.erase r.1, r.1 :: s.issued⟩ c' n' free') ∧
        (r.1 ∈ s.issued → r.1 ∈ s.released))
      (luaL_ref hashes str2number s.table v) := by
  have hlt := h.lt
  have hne : v.ttisnil = false := Bool.eq_false_iff.mpr fun hnil => hv (ttisnil_iff.mp hnil)
  have hlive : ∀ r : Int, ∀ p ∈ (r, v) :: s.live, p.2 ≠ .nil := fun r =>
    List.forall_mem_cons.mpr ⟨hv, h.ne_nil⟩
  rw [luaL_ref, hne]
  simp only [Bool.false_eq_true, if_false]
  cases free with
  | nil =>
    have hlink : refAt str2number s.table FREELIST_REF = 0 :=
      h.holding.refAt (by decide) (o := none) (fun r hr => by cases hr) h.managed.threaded
    have hc : ∀ k : Int, 0 < k → k ≤ n → c k ≠ .nil := by
      intro k h1 h2
      have hmem := (h.managed.cells k).mpr ⟨h1, h2⟩
      rw [List.append_nil] at hmem
      obtain ⟨p, hp, rfl⟩ := List.mem_map.mp hmem
      rw [h.managed.held p hp]
      exact h.ne_nil p hp
    have hle := h.holding.le_refs hlt hc
    have hint : n < INT_MAX := Nat.lt_of_le_of_lt hle (by decide)
    have hmax : INT_MAX = 2 ^ 31 - 1 := rfl
    rw [hlink, if_neg (by decide), h.holding.getn hint hc, ok_bind, if_pos hint]
    refine ((h.holding.mono (Nat.le_succ n)).rawseti (Nat.le_refl _) (by omega) v).bind
      fun t' ht' => ?_
    push_cast at ht'
    refine ⟨⟨_, n + 1, [], ht', ?_, by omega, hlive _, ?_, fun r => ?_⟩, fun hissued => ?_⟩
    · push_cast
      exact h.managed.grow (by omega) v
    · rw [List.perm_nil.mp h.released.symm]
      exact .refl _
    · rw [List.mem_cons, h.issued]
      push_cast
      omega
    · have := (h.issued _).mp hissued
      omega
  | cons r free =>
    have hr := h.free_pos List.mem_cons_self
    have hpos := h.managed.pos_of_free List.mem_cons_self
    have hlink : refAt str2number s.table FREELIST_REF = r := by
      refine h.holding.refAt (by decide) (o := some r) (fun r' hr' => ?_) h.managed.threaded.1
      obtain rfl : r = r' := by simpa using hr'
      exact hr
    obtain ⟨k, rfl⟩ := Int.eq_ofNat_of_zero_le (Int.le_of_lt hr.1)
    rw [hlink, if_pos (by omega), h.holding.rawgeti (by omega)]
    refine (h.holding.rawseti (k := 0) (Nat.zero_le n) hlt (c k)).bind fun t₁ h₁ => ?_
    refine (h₁.rawseti (by omega) hlt v).bind fun t₂ h₂ => ?_
    have hreleased := h.released.erase (k : Int)
    rw [List.erase_cons_head] at hreleased
    refine ⟨⟨_, n, free, h₂, h.managed.take v, h.le_refs, hlive _, hreleased, fun r => ?_⟩,
      fun _ => h.released.subset List.mem_cons_self⟩
    rw [List.mem_cons, h.issued]
    omega

/-- A released reference is the first of the free list. -/
theorem Managing.unref (h : Managing hashes s c n free) {r : Int} (hr : (r, v) ∈ s.live) :
    Yields (· = tableOverflow)
      (fun t => ∃ c' free', Managing hashes
        ⟨t, s.live.erase (r, v), r :: s.released, s.issued⟩ c' n free')
      (luaL_unref hashes s.table r) := by
  have hlt := h.lt
  have hpos := h.managed.pos_of_live hr
  obtain ⟨k, rfl⟩ := Int.eq_ofNat_of_zero_le (Int.le_of_lt hpos.1)
  rw [luaL_unref, if_pos (by omega), h.holding.rawgeti (by decide)]
  refine (h.holding.rawseti (by omega) hlt (c FREELIST_REF)).bind fun t₁ h₁ => ?_
  refine (h₁.rawseti (k := 0) (Nat.zero_le n) hlt (.number (cast_num k))).imp fun t₂ h₂ => ?_
  exact ⟨_, _, h₂, h.managed.release hr, h.le_refs,
    fun p hp => h.ne_nil p (List.mem_of_mem_erase hp), h.released.cons _, h.issued⟩

theorem Reached.managing (h : Reached hashes str2number s) :
    ∃ c n free, Managing hashes s c n free := by
  induction h with
  | @new narray nhash t hn hh ht =>
    have hnew : Yields SetError (fun t => Inv hashes t ∧ ∀ k, value hashes t k = .nil)
        (luaH_new narray nhash) := luaH_new_spec (Nat.lt_of_le_of_lt hn (by decide)) hh
    obtain ⟨hinv, hval⟩ := hnew.ok_of_eq ht
    have hsize : t.sizearray = narray := by
      rw [Table.sizearray, setnodevector_ok ht]
      simp [setarrayvector, Table.sizearray]
    have hsmall : t.sizearray ≤ ELEMENTS := hsize ▸ hn
    refine ⟨fun _ => .nil, 0, [], ⟨hinv, hsmall, fun k _ => hval _, fun key hne => ?_⟩,
      managed_nil rfl, Nat.zero_le _, fun p hp => absurd hp List.not_mem_nil, .refl _, fun r => ?_⟩
    · exact absurd (hval key) hne
    · refine ⟨fun hr => absurd hr List.not_mem_nil, fun hr => ?_⟩
      omega
  | ref h hv ht ih =>
    obtain ⟨c, n, free, ih⟩ := ih
    obtain ⟨⟨c', n', free', h'⟩, -⟩ := (ih.ref hv).ok_of_eq ht
    exact ⟨c', n', free', h'⟩
  | unref h hr ht ih =>
    obtain ⟨c, n, free, ih⟩ := ih
    obtain ⟨c', free', h'⟩ := (ih.unref hr).ok_of_eq ht
    exact ⟨c', n, free', h'⟩

/-- Whatever references have been made and released: the ones in use are distinct, and the table has
their values; the free list is the released ones; and a reference that is returned is not in use, and
has been released if it was returned before. Nothing but the size of the table makes a call fail. -/
theorem references_kept (h : Reached hashes str2number s) :
    (s.live.map Prod.fst).Nodup ∧
    (∀ p ∈ s.live, lua_rawgeti s.table p.1 = p.2) ∧
    (∃ free, Chain (freeLink str2number s.table) FREELIST_REF (FREELIST_REF :: free) ∧
      free.Perm s.released) ∧
    (∀ v ≠ .nil, Yields (· = tableOverflow)
      (fun r => r.1 ∉ s.live.map Prod.fst ∧ (r.1 ∈ s.issued → r.1 ∈ s.released))
      (luaL_ref hashes str2number s.table v)) ∧
    ∀ p ∈ s.live, Yields (· = tableOverflow) (fun _ => True) (luaL_unref hashes s.table p.1) := by
  obtain ⟨c, n, free, h⟩ := h.managing
  have hlt := h.lt
  refine ⟨h.managed.nodup.of_append_left, fun p hp => ?_, ⟨free, ?_, h.released⟩, fun v hv => ?_,
    fun p hp => ?_⟩
  · have hpos := h.managed.pos_of_live hp
    rw [h.holding.rawgeti (by omega), h.managed.held p hp]
  · exact h.holding.chain (by decide) (fun r hr => h.free_pos hr) h.managed.threaded
  · refine (h.ref hv).imp fun r ⟨⟨c', n', free', h'⟩, hissued⟩ => ⟨?_, hissued⟩
    have hnodup := h'.managed.nodup.of_append_left
    exact (List.nodup_cons.mp hnodup).1
  · exact (h.unref (v := p.2) hp).imp fun _ _ => trivial

/-- A table with one reference. -/
def referenced : Table := ⟨255, [.boolean true, .nil], 1, [dummynode_], true, 0, 0⟩

theorem reached_referenced :
    Reached (fun _ => 0) (fun _ => none) ⟨referenced, [(1, .boolean true)], [], [1]⟩ := by
  have h : Reached (fun _ => 0) (fun _ => none)
      ⟨⟨255, [.nil, .nil], 1, [dummynode_], true, 0, 0⟩, [], [], []⟩ :=
    @Reached.new _ _ 2 0 _ (by decide) (by decide) rfl
  exact @Reached.ref _ _ _ (.boolean true) 1 referenced h (by decide) (by decide)

theorem references_kept_one :
    (([(1, .boolean true)] : List (Int × Value)).map Prod.fst).Nodup ∧
    (∀ p ∈ ([(1, .boolean true)] : List (Int × Value)), lua_rawgeti referenced p.1 = p.2) ∧
    (∃ free, Chain (freeLink (fun _ => none) referenced) FREELIST_REF (FREELIST_REF :: free) ∧
      free.Perm []) ∧
    (∀ v ≠ .nil, Yields (· = tableOverflow)
      (fun r => r.1 ∉ ([(1, .boolean true)] : List (Int × Value)).map Prod.fst ∧
        (r.1 ∈ ([1] : List Int) → r.1 ∈ ([] : List Int)))
      (luaL_ref (fun _ => 0) (fun _ => none) referenced v)) ∧
    ∀ p ∈ ([(1, .boolean true)] : List (Int × Value)), Yields (· = tableOverflow) (fun _ => True)
      (luaL_unref (fun _ => 0) referenced p.1) :=
  references_kept reached_referenced

end Luaxx.Auxlib
