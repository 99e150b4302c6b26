import Luaxx.Table.DeadKeys

/-!
# A whole traversal

Calls of `luaH_next`, each with the key that the one before returned, with assignments to existing
fields and collections in between. None of these moves a key to another place (`Undisturbed`), so
that `findindex` finds the last key again, and what the calls have returned so far is what was
found in the places up to its number.
-/

open Luaxx.Value

namespace Luaxx.Tables

open Luaxx.Links Luaxx.Result

/-- A traversal under way: the key that the next call gets, and what the calls have returned. -/
structure Traversal where
  hashes : Nat → UInt32
  table : Table
  key : Value
  visited : List (Value × Value)

namespace Traversal

def start (hashes : Nat → UInt32) (table : Table) : Traversal := ⟨hashes, table, .nil, []⟩

/-- One call of `luaH_next`, or what may happen between two calls. -/
inductive Step : Traversal → Traversal → Prop
  | next {s : Traversal} {k v : Value}
      (hnext : luaH_next s.hashes s.table s.key = .ok (some (k, v))) :
      Step s { s with key := k, visited := s.visited ++ [(k, v)] }
  /-- An assignment to a field that the table has, whatever its value. -/
  | assign {s : Traversal} {op : Op} {t' : Table} (hop : op.Allowed s.table)
      (hfield : luaH_get s.hashes s.table op.assigned ≠ none)
      (ht : step s.hashes s.table op = .ok t') : Step s { s with table := t' }
  | collect {s : Traversal} {i : Nat} {t' : Table} (hval : s.table.gval i = .nil)
      (ht : removeentry s.table i = .ok t') : Step s { s with table := t' }
  /-- Strings are freed and made, but not the keys of the table and the key in use. -/
  | reuse {s : Traversal} {hashes' : Nat → UInt32} (hh : Rehashed s.hashes hashes' s.table)
      (hkey : ∀ p, s.key = .string p → hashes' p = s.hashes p) :
      Step s { s with hashes := hashes' }

/-- A run from `s₀`, with all its states, the last one first. -/
inductive Run (s₀ : Traversal) : List Traversal → Traversal → Prop
  | init : Run s₀ [s₀] s₀
  | step {past : List Traversal} {s s' : Traversal} (h : Run s₀ past s) (hs : Step s s') :
      Run s₀ (s' :: past) s'

/-- The field has a value in every state. -/
def Present (past : List Traversal) (key : Value) : Prop :=
  ∀ s ∈ past, value s.hashes s.table key ≠ .nil

end Traversal

section Places

variable {hashes hashes' : Nat → UInt32} {t t' : Table} {key : Value}

def places (t : Table) : Nat := t.sizearray + t.sizenode

/-- A field with a value is at a place of the table. -/
theorem exists_place (h : Inv hashes t) (hval : value hashes t key ≠ .nil) :
    key.IsKey ∧ ∃ x, x < places t ∧ At t key (place t x) := by
  have hkey : key.IsKey := by
    by_contra hk
    exact hval (value_not_key h hk)
  refine ⟨hkey, ?_⟩
  cases hget : luaH_get hashes t key with
  | none =>
    rw [value, hget] at hval
    exact absurd rfl hval
  | some p =>
    have hat := (luaH_get_iff h hkey).mp hget
    cases p with
    | array i =>
      obtain ⟨⟨h1, h2⟩, hi⟩ := hat
      have hlt : i < t.sizearray := by omega
      refine ⟨i, Nat.lt_of_lt_of_le hlt (Nat.le_add_right ..), ?_⟩
      rw [place, if_pos hlt]
      exact ⟨⟨h1, h2⟩, hi⟩
    | node i =>
      have hik : (t.gkey i).IsKey := hkey.of_rawequal (by rw [rawequal_comm]; exact hat.2)
      have hlt := lt_of_gkey_ne (IsKey.ne_nil hik)
      rw [h.length] at hlt
      refine ⟨t.sizearray + i, Nat.add_lt_add_left hlt _, ?_⟩
      rw [place, if_neg (by omega), Nat.add_sub_cancel_left]
      exact hat

theorem valAt_eq (h : Inv hashes t) (hkey : key.IsKey) {x : Nat} (hat : At t key (place t x)) :
    valAt t x = value hashes t key := by
  rw [valAt, value, (luaH_get_iff h hkey).mpr hat]

theorem place_injective {x y : Nat} (h : place t x = place t y) : x = y := by
  unfold place at h
  split_ifs at h
  · exact Slot.array.inj h
  · have := Slot.node.inj h
    omega

/-- The key that is returned for a place is at it. -/
theorem at_keyAt (h : Inv hashes t) {x : Nat} (hval : valAt t x ≠ .nil) :
    (keyAt t x).IsKey ∧ At t (keyAt t x) (place t x) := by
  rw [valAt, place] at hval
  rw [keyAt, place]
  have hsize := h.array
  split_ifs at hval ⊢ with hx
  · have hidx : arrayindex (.number (cast_num ((x : Int) + 1))) = (x : Int) + 1 :=
      arrayindex_cast (by omega)
    refine ⟨isKey_cast_num (by omega), ⟨?_, ?_⟩, ?_⟩
    · rw [hidx]
      omega
    · rw [hidx]
      omega
    · rw [hidx]
      omega
  · have hkey := h.live _ hval
    exact ⟨hkey, h.out_of_live hval, rawequal_self hkey⟩

/-- `findindex` gives the place of a key that has just been returned. -/
theorem findindex_keyAt (hs : Sound hashes t) {x : Nat} (hval : valAt t x ≠ .nil) :
    findindex hashes t (keyAt t x) = .ok (x : Int) := by
  have h := hs.inv
  have hsize := h.array
  obtain ⟨hkey, hat⟩ := at_keyAt h hval
  have hnil : (keyAt t x).ttisnil = false := by
    rw [Bool.eq_false_iff, ne_eq, ttisnil_iff]
    exact IsKey.ne_nil hkey
  rw [findindex, hnil, if_neg Bool.false_ne_true]
  by_cases hx : x < t.sizearray
  · rw [place, if_pos hx] at hat
    obtain ⟨hin, hidx⟩ := hat
    have hpos : 0 < arrayindex (keyAt t x) ∧ arrayindex (keyAt t x) ≤ t.sizearray := hin
    simp only [hpos, and_self, if_true]
    have : arrayindex (keyAt t x) - 1 = x := by omega
    rw [this]
    rfl
  · have hgkey : keyAt t x = t.gkey (x - t.sizearray) := by rw [keyAt, if_neg hx]
    rw [hgkey] at hkey ⊢
    have hval' : t.gval (x - t.sizearray) ≠ .nil := by
      rw [valAt, place, if_neg hx] at hval
      exact hval
    have hout := h.out_of_live hval'
    rw [InArray] at hout
    obtain ⟨l, hl, -⟩ := h.reach _ hkey
    have hlen := h.chain_length (h.length ▸ mainposition_lt t _) hl
    simp only [hout, if_false, walk_eq hl hlen, hs.first _ l hkey hl]
    have : ((x - t.sizearray : Nat) : Int) + t.sizearray = x := by omega
    rw [this]
    rfl

/-! ## What happens between two calls -/

/-- The keys are where they were, though perhaps dead, and the key in use is found as before. -/
structure Undisturbed (hashes hashes' : Nat → UInt32) (t t' : Table) (key : Value) : Prop where
  sound : Sound hashes' t'
  sizearray : t'.sizearray = t.sizearray
  sizenode : t'.sizenode = t.sizenode
  findindex : findindex hashes' t' key = findindex hashes t key
  addressed : Addressed t' key
  at_of : ∀ {k : Value} {p : Slot}, k.IsKey → At t' k p → At t k p

theorem Undisturbed.place (hu : Undisturbed hashes hashes' t t' key) (x : Nat) :
    place t' x = place t x := by
  rw [Tables.place, Tables.place, hu.sizearray]

theorem findindex_congr (hnode : t'.node.length = t.node.length)
    (hsize : t'.sizearray = t.sizearray) (hnext : t'.gnext = t.gnext)
    (hkey : key ≠ .nil → mainposition hashes' t' key = mainposition hashes t key ∧
      ∀ i, isNextKey t' key i = isNextKey t key i) :
    findindex hashes' t' key = findindex hashes t key := by
  rw [findindex, findindex]
  by_cases hnil : key = .nil
  · rw [if_pos (ttisnil_iff.mpr hnil), if_pos (ttisnil_iff.mpr hnil)]
  · obtain ⟨hmain, hhit⟩ := hkey hnil
    rw [hnode, hsize, hnext, hmain, funext hhit]

theorem SameKeys.trans {t'' : Table} (h : SameKeys t t') (h' : SameKeys t' t'') :
    SameKeys t t'' :=
  ⟨h.shape.trans h'.shape, h'.lastfree.trans h.lastfree, h'.gkey.trans h.gkey,
    h'.gnext.trans h.gnext⟩

theorem SameKeys.undisturbed (hk : SameKeys t t') (hs : Sound hashes t) (hinv : Inv hashes t')
    (haddr : Addressed t key) : Undisturbed hashes hashes t t' key where
  sound := hs.sameKeys hk hinv
  sizearray := hk.shape.sizearray
  sizenode := by rw [Table.sizenode, Table.sizenode, hk.shape.lsizenode]
  findindex := findindex_congr hk.shape.length hk.shape.sizearray hk.gnext fun _ =>
    ⟨hk.mainposition key, fun i => isNextKey_congr (congrFun hk.gkey i) key⟩
  addressed := haddr.congr fun j _ => .inr ⟨j, (congrFun hk.gkey j).symm⟩
  at_of := fun _ hat => hk.at.mp hat

/-- An assignment to a field that the table has is a store. -/
theorem step_sameKeys (h : Inv hashes t) {op : Op} (hop : op.Allowed t)
    (hfield : luaH_get hashes t op.assigned ≠ none) (ht : step hashes t op = .ok t') :
    SameKeys t t' := by
  have hstored : ∀ {p : Slot} {k v : Value} {t1 : Table}, k.IsKey → Inv hashes t1 →
      luaH_get hashes t1 k = some p → t1.store v p = .ok t' → SameKeys t1 t' := by
    intro p k v t1 hkey h1 hget ht
    obtain ⟨t2, h2, hst⟩ := store_spec h1 hkey hget v
    rw [h2] at ht
    cases ht
    exact hst.keys
  cases op with
  | set k v =>
    obtain ⟨r, hr, ht⟩ := bind_ok.mp ht
    obtain ⟨hkey, -⟩ := (luaH_set_spec h k.2).ok_of_eq hr
    obtain ⟨p, hget⟩ := Option.ne_none_iff_exists'.mp hfield
    have hget' : luaH_get hashes t k.1 = some p := hget
    rw [luaH_set, setWith_found hget'] at hr
    cases hr
    exact (sameKeys_flags t 0).trans (hstored hkey (h.flags 0) hget ht)
  | setnum k v =>
    obtain ⟨r, hr, ht⟩ := bind_ok.mp ht
    obtain ⟨p, hget⟩ := Option.ne_none_iff_exists'.mp hfield
    have hget' : luaH_get hashes t (.number (cast_num k)) = some p := hget
    rw [luaH_setnum, setnumWith_eq hashes hop] at hr
    simp only [hget'] at hr
    cases hr
    exact hstored (isKey_cast_num hop) h hget' ht
  | setstr k v =>
    obtain ⟨r, hr, ht⟩ := bind_ok.mp ht
    obtain ⟨p, hget⟩ := Option.ne_none_iff_exists'.mp hfield
    have hget' : luaH_getstr hashes t k = some p := hget
    rw [luaH_setstr] at hr
    simp only [hget'] at hr
    cases hr
    exact hstored (k := .string k) trivial h hget ht
  | resizearray nasize => exact absurd rfl hfield

theorem Buried.undisturbed {i p : Nat} (hb : Buried t t' i p) (hs : Sound hashes t)
    (hval : t.gval i = .nil) (hkey : key ≠ .nil → key.IsKey) (haddr : Addressed t key) :
    Undisturbed hashes hashes t t' key where
  sound := hb.sound hs hval
  sizearray := by rw [Table.sizearray, Table.sizearray, hb.frame.array]
  sizenode := hb.frame.sizenode
  findindex := by
    have hsize : t'.sizearray = t.sizearray := by rw [Table.sizearray, Table.sizearray, hb.frame.array]
    exact findindex_congr hb.frame.length hsize hb.gnext fun hnil =>
      ⟨hb.frame.mainposition key, hb.isNextKey (hkey hnil) haddr⟩
  addressed := haddr.congr fun j hj => .inr ⟨j, (hb.gkey_of_isKey hj).2.symm⟩
  at_of := by
    intro k q hk hat
    cases q with
    | array j =>
      rw [At, hb.frame.inArray] at hat
      exact hat
    | node j =>
      have hj : (t'.gkey j).IsKey := hk.of_rawequal (by rw [rawequal_comm]; exact hat.2)
      rw [At, hb.frame.inArray, (hb.gkey_of_isKey hj).2] at hat
      exact hat

theorem undisturbed_self (hs : Sound hashes t) (haddr : Addressed t key) :
    Undisturbed hashes hashes t t key :=
  ⟨hs, rfl, rfl, rfl, haddr, fun _ hat => hat⟩

theorem undisturbed_reuse (hs : Sound hashes t) (hh : Rehashed hashes hashes' t)
    (hkey : ∀ p, key = .string p → hashes' p = hashes p) (haddr : Addressed t key) :
    Undisturbed hashes hashes' t t key :=
  ⟨hs.rehashed hh, rfl, rfl,
    findindex_congr rfl rfl rfl fun _ => ⟨mainposition_string t hkey, fun _ => rfl⟩, haddr,
    fun _ hat => hat⟩

end Places

namespace Traversal

/-! ## The invariant -/

/-- The calls have come to the place with number `i`. -/
structure At (past : List Traversal) (s : Traversal) (i : Int) : Prop where
  sound : Sound s.hashes s.table
  found : findindex s.hashes s.table s.key = .ok i
  isKey : s.key ≠ .nil → s.key.IsKey
  addressed : Addressed s.table s.key
  lower : -1 ≤ i
  upper : i < places s.table
  length : s.visited.length ≤ i + 1
  current : s ∈ past
  /-- What was returned was in the table. -/
  returned : ∀ e ∈ s.visited, e.2 ≠ .nil ∧ ∃ s' ∈ past, value s'.hashes s'.table e.1 = e.2
  /-- A field that always had a value has been returned once if its place was passed. -/
  count : ∀ {k : Value} {x : Nat}, Present past k → Tables.At s.table k (place s.table x) →
    s.visited.countP (fun e => rawequal e.1 k) = if (x : Int) ≤ i then 1 else 0

theorem at_start {hashes : Nat → UInt32} {t : Table} (hs : Sound hashes t) :
    At [start hashes t] (start hashes t) (-1) where
  sound := hs
  found := rfl
  isKey := fun h => absurd rfl h
  addressed := fun _ _ hne => absurd rfl hne
  lower := Int.le_refl _
  upper := by
    show (-1 : Int) < (places t : Int)
    omega
  length := by
    show ((0 : Nat) : Int) ≤ _
    omega
  current := List.mem_singleton_self _
  returned := fun e he => absurd he List.not_mem_nil
  count := fun {k x} _ _ => by
    rw [if_neg (by omega)]
    rfl

theorem At.undisturbed {past : List Traversal} {s : Traversal} {i : Int} (h : At past s i)
    {hashes' : Nat → UInt32} {t' : Table}
    (hu : Undisturbed s.hashes hashes' s.table t' s.key) :
    At ({ s with hashes := hashes', table := t' } :: past)
      { s with hashes := hashes', table := t' } i where
  sound := hu.sound
  found := hu.findindex.trans h.found
  isKey := h.isKey
  addressed := hu.addressed
  lower := h.lower
  upper := by
    show i < (places t' : Int)
    rw [places, hu.sizearray, hu.sizenode]
    exact h.upper
  length := h.length
  current := List.mem_cons_self ..
  returned := fun e he => by
    obtain ⟨hne, s', hs', hval⟩ := h.returned e he
    exact ⟨hne, s', List.mem_cons_of_mem _ hs', hval⟩
  count := fun {k x} hk hat => by
    have hk' : Present past k := fun s' hs' => hk s' (List.mem_cons_of_mem _ hs')
    have hkey := (exists_place h.sound.inv (hk' s h.current)).1
    have hat' := hu.at_of hkey hat
    rw [hu.place] at hat'
    exact h.count hk' hat'

/-- The key at a place is the key of a field at the same place only. -/
theorem rawequal_keyAt {hashes : Nat → UInt32} {t : Table} (h : Inv hashes t) {k : Value}
    (hkey : k.IsKey) {x y : Nat} (hval : valAt t x ≠ .nil) (hat : Tables.At t k (place t y)) :
    rawequal (keyAt t x) k = true ↔ x = y := by
  obtain ⟨hkx, hatx⟩ := at_keyAt h hval
  constructor
  · intro heq
    have hx := (luaH_get_iff h hkey).mpr (hatx.congr heq)
    have hy := (luaH_get_iff h hkey).mpr hat
    rw [hx] at hy
    exact place_injective (Option.some.inj hy)
  · rintro rfl
    exact hatx.rawequal hat

theorem At.next {past : List Traversal} {s : Traversal} {i : Int} (h : At past s i) {x : Nat}
    (hix : i < x) (hx : x < places s.table) (hval : valAt s.table x ≠ .nil)
    (hskip : ∀ y : Nat, i < y → y < x → valAt s.table y = .nil) :
    let s' := { s with
      key := keyAt s.table x, visited := s.visited ++ [(keyAt s.table x, valAt s.table x)] }
    At (s' :: past) s' x := by
  intro s'
  have hinv := h.sound.inv
  obtain ⟨hkey, hat⟩ := at_keyAt hinv hval
  refine ⟨h.sound, findindex_keyAt h.sound hval, fun _ => hkey, ?_, by omega,
    Int.ofNat_lt.mpr hx, ?_, List.mem_cons_self .., fun e he => ?_, fun {k y} hk hky => ?_⟩
  · show Addressed s.table (keyAt s.table x)
    rw [keyAt] at hkey ⊢
    split_ifs at hkey ⊢
    · exact fun _ _ hne => absurd rfl hne
    · exact h.sound.addressed _ hkey
  · show ((s.visited ++ [_]).length : Int) ≤ x + 1
    have := h.length
    rw [List.length_append, List.length_singleton]
    omega
  · rcases List.mem_append.mp he with he | he
    · obtain ⟨hne, s'', hs'', hv⟩ := h.returned e he
      exact ⟨hne, s'', List.mem_cons_of_mem _ hs'', hv⟩
    · obtain rfl := List.mem_singleton.mp he
      exact ⟨hval, s', List.mem_cons_self .., (valAt_eq hinv hkey hat).symm⟩
  · have hk' : Present past k := fun s'' hs'' => hk s'' (List.mem_cons_of_mem _ hs'')
    have hnow := hk' s h.current
    have hkk := (exists_place hinv hnow).1
    have hcount := h.count hk' hky
    have hone : List.countP (fun e : Value × Value => rawequal e.1 k)
        [(keyAt s.table x, valAt s.table x)] = if x = y then 1 else 0 := by
      rw [List.countP_cons, List.countP_nil, Nat.zero_add]
      exact if_congr (rawequal_keyAt hinv hkk hval hky) rfl rfl
    show (s.visited ++ [_]).countP _ = _
    rw [List.countP_append, hcount, hone]
    -- the places between the two numbers are empty, so that `y` is not one of them
    have hbetween : ¬ (i < y ∧ y < x) := fun hy =>
      hnow (valAt_eq hinv hkk hky ▸ hskip y hy.1 hy.2)
    split_ifs <;> omega

theorem At.step {past : List Traversal} {s s' : Traversal} {i : Int} (h : At past s i)
    (hs : Step s s') : ∃ j, At (s' :: past) s' j ∧ places s'.table = places s.table := by
  have hsame : ∀ {hashes' : Nat → UInt32} {t' : Table},
      Undisturbed s.hashes hashes' s.table t' s.key →
      ∃ j, At ({ s with hashes := hashes', table := t' } :: past)
        { s with hashes := hashes', table := t' } j ∧ places t' = places s.table := by
    intro hashes' t' hu
    exact ⟨i, h.undisturbed hu, by rw [places, places, hu.sizearray, hu.sizenode]⟩
  cases hs with
  | @next k v hnext =>
    rcases luaH_next_spec h.found h.lower with ⟨x, hix, hx, hval, hskip, heq⟩ | ⟨-, heq⟩
    · rw [heq] at hnext
      cases hnext
      exact ⟨x, h.next hix hx hval hskip, rfl⟩
    · rw [heq] at hnext
      cases hnext
  | assign hop hfield ht =>
    have hk := step_sameKeys h.sound.inv hop hfield ht
    have hinv := ((step_refines h.sound.inv hop).ok_of_eq ht).1
    exact hsame (hk.undisturbed h.sound hinv h.addressed)
  | collect hval ht =>
    rcases removeentry_cases h.sound.inv ht with rfl | ⟨p, hb⟩
    · exact hsame (undisturbed_self h.sound h.addressed)
    · exact hsame (hb.undisturbed h.sound hval h.isKey h.addressed)
  | reuse hh hkey => exact hsame (undisturbed_reuse h.sound hh hkey h.addressed)

theorem Run.at {hashes : Nat → UInt32} {t : Table} (hs : Sound hashes t) {past : List Traversal}
    {s : Traversal} (hrun : Run (start hashes t) past s) :
    ∃ i, At past s i ∧ places s.table = places t := by
  induction hrun with
  | init => exact ⟨-1, at_start hs, rfl⟩
  | step hrun hstep ih =>
    obtain ⟨i, hi, hplaces⟩ := ih
    obtain ⟨j, hj, hplaces'⟩ := hi.step hstep
    exact ⟨j, hj, hplaces'.trans hplaces⟩

theorem Run.visits {hashes : Nat → UInt32} {t : Table} (hs : Sound hashes t)
    {past : List Traversal} {s : Traversal} (hrun : Run (start hashes t) past s) :
    (∃ r, luaH_next s.hashes s.table s.key = .ok r) ∧
    s.visited.length ≤ t.sizearray + t.sizenode ∧
    (∀ e ∈ s.visited, e.2 ≠ .nil ∧ ∃ s' ∈ past, value s'.hashes s'.table e.1 = e.2) ∧
    (luaH_next s.hashes s.table s.key = .ok none →
      ∀ k, Present past k → s.visited.countP (fun e => rawequal e.1 k) = 1) := by
  obtain ⟨i, h, hplaces⟩ := hrun.at hs
  have hspec := luaH_next_spec h.found h.lower
  refine ⟨?_, ?_, h.returned, fun hend k hk => ?_⟩
  · rcases hspec with ⟨x, -, -, -, -, heq⟩ | ⟨-, heq⟩
    · exact ⟨_, heq⟩
    · exact ⟨_, heq⟩
  · have h1 := h.length
    have h2 := h.upper
    rw [hplaces, places] at h2
    omega
  · have hnow := hk s h.current
    obtain ⟨hkey, x, hx, hat⟩ := exists_place h.sound.inv hnow
    rw [h.count hk hat, if_pos]
    rcases hspec with ⟨y, -, -, -, -, heq⟩ | ⟨hrest, -⟩
    · rw [heq] at hend
      cases hend
    · by_contra hlt
      exact hnow (valAt_eq h.sound.inv hkey hat ▸ hrest x (by omega) hx)

/-- Two strings in one chain. -/
def twoStrings : Table :=
  ⟨255, [], 1, [⟨.boolean true, .string 7, some 1⟩, ⟨.boolean true, .string 9, none⟩], false, 1, 1⟩

theorem reachable_twoStrings : Reachable (fun _ => 0) twoStrings := by
  have h0 : Reachable (fun _ => 0) ⟨255, [], 1, List.replicate 2 dummynode_, false, 1, 2⟩ :=
    @Reachable.new _ 0 2 _ (by decide) (by decide) (by decide +kernel)
  have h1 : Reachable (fun _ => 0)
      ⟨255, [], 1, [⟨.boolean true, .string 7, none⟩, dummynode_], false, 1, 2⟩ := by
    refine @Reachable.step _ _ _ (.setstr 7 (.boolean true)) h0 trivial ?_ (by decide +kernel)
    intro i hi
    exact absurd hi (by rcases i with _ | _ | i <;> exact id)
  refine @Reachable.step _ _ _ (.setstr 9 (.boolean true)) h1 trivial ?_ (by decide +kernel)
  intro i hi _ heq
  rcases i with _ | _ | i
  · exact absurd heq (by decide)
  · exact hi.elim
  · exact hi.elim

end Traversal

/-! ## A traversal with nothing in between -/

/-- Calls of `luaH_next`, each with the key that the one before returned. -/
def traverse (hashes : Nat → UInt32) (t : Table) : Nat → Value → M (List (Value × Value))
  | 0, _ => .error .outOfFuel
  | calls + 1, key => do
    match ← luaH_next hashes t key with
    | none => return []
    | some e => return e :: (← traverse hashes t calls e.1)

/-- A traversal comes to its end, with every field that has a value exactly once. -/
def VisitsOnce (hashes : Nat → UInt32) (t : Table) : Prop :=
  ∃ es, traverse hashes t (places t + 1) .nil = .ok es ∧
    (∀ e ∈ es, e.2 ≠ .nil ∧ value hashes t e.1 = e.2) ∧
    ∀ k, value hashes t k ≠ .nil → es.countP (fun e => rawequal e.1 k) = 1

open Traversal in
theorem traverse_spec {hashes : Nat → UInt32} {t : Table} (hs : Sound hashes t) (calls : Nat)
    {past : List Traversal} {key : Value} {visited : List (Value × Value)}
    (hrun : Traversal.Run (start hashes t) past ⟨hashes, t, key, visited⟩)
    (hpast : ∀ s ∈ past, s.hashes = hashes ∧ s.table = t)
    (hcalls : places t + 1 ≤ visited.length + calls) :
    ∃ es, traverse hashes t calls key = .ok es ∧
      (∀ e ∈ visited ++ es, e.2 ≠ .nil ∧ value hashes t e.1 = e.2) ∧
      ∀ k, value hashes t k ≠ .nil → (visited ++ es).countP (fun e => rawequal e.1 k) = 1 := by
  induction calls generalizing past key visited with
  | zero =>
    have hlen := (hrun.visits hs).2.1
    rw [← places] at hlen
    have hlen : visited.length ≤ places t := hlen
    omega
  | succ calls ih =>
    obtain ⟨⟨r, hr⟩, -, hfound, hend⟩ := hrun.visits hs
    have hr : luaH_next hashes t key = .ok r := hr
    cases r with
    | none =>
      refine ⟨[], by rw [traverse, hr, ok_bind]; rfl, ?_, ?_⟩
      · rw [List.append_nil]
        intro e he
        obtain ⟨hne, s, hs', hv⟩ := hfound e he
        rw [(hpast s hs').1, (hpast s hs').2] at hv
        exact ⟨hne, hv⟩
      · rw [List.append_nil]
        intro k hk
        refine hend hr k fun s hs' => ?_
        rw [(hpast s hs').1, (hpast s hs').2]
        exact hk
    | some e =>
      have hstep : Step ⟨hashes, t, key, visited⟩ ⟨hashes, t, e.1, visited ++ [e]⟩ := .next hr
      obtain ⟨es, hes, hall, hcount⟩ := ih (hrun.step hstep)
        (fun s hs' => (List.mem_cons.mp hs').elim (fun heq => heq ▸ ⟨rfl, rfl⟩) (hpast s))
        (by rw [List.length_append, List.length_singleton]; omega)
      rw [List.append_assoc] at hall hcount
      exact ⟨e :: es, by rw [traverse, hr, ok_bind]; simp only [hes, ok_bind]; rfl, hall, hcount⟩

theorem Sound.visitsOnce {hashes : Nat → UInt32} {t : Table} (hs : Sound hashes t) :
    VisitsOnce hashes t := by
  obtain ⟨es, hes, hall, hcount⟩ := traverse_spec hs (places t + 1) (.init)
    (fun s hs' => by rw [List.mem_singleton.mp hs']; exact ⟨rfl, rfl⟩) (Nat.le_add_left ..)
  exact ⟨es, hes, hall, hcount⟩

end Luaxx.Tables
