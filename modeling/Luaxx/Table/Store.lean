import Luaxx.Table.Newkey

/-!
# Setting a key

`luaH_set` and the store through the pointer that it returns: what the table holds under that key
changes, and nothing else. With room for one more key there is no rehash on the way.
-/

namespace Luaxx.Tables

open Luaxx.Links Luaxx.Result Value

variable {hashes : Nat → UInt32} {t t' t'' : Table} {key : Value} {p : Slot}

/-! ## The place of a key -/

/-- The slot is the place of the key. -/
def At (t : Table) (key : Value) : Slot → Prop
  | .array i => InArray t key ∧ i = (arrayindex key - 1).toNat
  | .node i => ¬ InArray t key ∧ rawequal (t.gkey i) key = true

theorem luaH_get_iff (h : Inv hashes t) (hkey : key.IsKey) :
    luaH_get hashes t key = some p ↔ At t key p := by
  rcases luaH_get_cases h hkey with ⟨hin, hget⟩ | ⟨hout, i, hi, hik, hget⟩ | ⟨hout, hno, hget⟩ <;>
    rw [hget] <;> cases p with
    | array j => simp [At, *, eq_comm]
    | node j => ?_
  · simp [At, hin]
  · refine ⟨fun hij => ?_, fun hj => ?_⟩
    · cases hij
      exact ⟨hout, hik⟩
    · rw [h.unique i j hi (rawequal_trans hik (by rw [rawequal_comm]; exact hj.2))]
  · simp [At, hno]

theorem At.congr {a b : Value} (hab : rawequal a b = true) (h : At t a p) : At t b p := by
  cases p with
  | array i =>
    rw [At, InArray, arrayindex_eq hab] at h
    exact h
  | node i =>
    refine ⟨?_, rawequal_trans h.2 hab⟩
    rw [InArray, ← arrayindex_eq hab]
    exact h.1

/-- Keys with the same place are equal. -/
theorem At.rawequal {a b : Value} (ha : At t a p) (hb : At t b p) : rawequal a b = true := by
  cases p with
  | array i =>
    obtain ⟨⟨ha1, -⟩, hai⟩ := ha
    obtain ⟨⟨hb1, -⟩, hbi⟩ := hb
    have hidx : arrayindex a = arrayindex b := by omega
    have hra := rawequal_cast (show arrayindex a ≠ -1 by omega)
    have hrb := rawequal_cast (show arrayindex b ≠ -1 by omega)
    rw [rawequal_comm] at hra
    exact rawequal_trans hra (hidx ▸ hrb)
  | node i => exact rawequal_trans (by rw [rawequal_comm]; exact ha.2) hb.2

/-- Equal keys have the same place. -/
theorem luaH_get_congr (h : Inv hashes t) {a b : Value} (ha : a.IsKey)
    (hab : Value.rawequal a b = true) : luaH_get hashes t a = luaH_get hashes t b := by
  have hb : b.IsKey := ha.of_rawequal hab
  refine Option.ext fun p => ?_
  rw [luaH_get_iff h ha, luaH_get_iff h hb]
  exact ⟨At.congr hab, At.congr (by rw [rawequal_comm]; exact hab)⟩

theorem value_rawequal (h : Inv hashes t) {a b : Value} (hab : Value.rawequal a b = true) :
    value hashes t a = value hashes t b := by
  by_cases ha : a.IsKey
  · rw [value, value, luaH_get_congr h ha hab]
  · have hb : ¬ b.IsKey := fun hb => ha (hb.of_rawequal (by rw [rawequal_comm]; exact hab))
    rw [value_not_key h ha, value_not_key h hb]

/-! ## The store -/

/-- What a store leaves as it is. -/
structure SameShape (t t' : Table) : Prop where
  sizearray : t'.sizearray = t.sizearray
  isDummy : t'.isDummy = t.isDummy
  lsizenode : t'.lsizenode = t.lsizenode
  length : t'.node.length = t.node.length
  block : t'.block = t.block

theorem SameFrame.shape (h : SameFrame t t') : SameShape t t' :=
  ⟨by rw [Table.sizearray, Table.sizearray, h.array], h.isDummy, h.lsizenode, h.length, h.block⟩

theorem SameShape.refl (t : Table) : SameShape t t := ⟨rfl, rfl, rfl, rfl, rfl⟩

theorem SameShape.trans (h : SameShape t t') (h' : SameShape t' t'') : SameShape t t'' :=
  ⟨h'.sizearray.trans h.sizearray, h'.isDummy.trans h.isDummy, h'.lsizenode.trans h.lsizenode,
    h'.length.trans h.length, h'.block.trans h.block⟩

theorem SameShape.inArray (h : SameShape t t') (key : Value) : InArray t' key ↔ InArray t key := by
  rw [InArray, InArray, h.sizearray]

/-- The number of keys that can still be inserted without a rehash. -/
def room (t : Table) : Nat := if t.isDummy then 0 else freeNodes t

/-- Only values have changed. -/
structure SameKeys (t t' : Table) : Prop where
  shape : SameShape t t'
  lastfree : t'.lastfree = t.lastfree
  gkey : t'.gkey = t.gkey
  gnext : t'.gnext = t.gnext

theorem SameKeys.room (h : SameKeys t t') : room t' = room t := by
  rw [Tables.room, Tables.room, h.shape.isDummy, freeNodes, freeNodes, h.shape.length, h.gkey]

theorem SameKeys.mainposition (h : SameKeys t t') (key : Value) :
    mainposition hashes t' key = mainposition hashes t key :=
  mainposition_congr h.shape.lsizenode key

theorem SameKeys.inv (hs : SameKeys t t') (h : Inv hashes t)
    (hdummy : t'.isDummy = true → t'.node = t.node)
    (hval : ∀ i, t'.gval i ≠ .nil → (t.gkey i).IsKey ∧ ¬ InArray t (t.gkey i)) :
    Inv hashes t' := by
  have hmain : ∀ key, Tables.mainposition hashes t' key = Tables.mainposition hashes t key :=
    hs.mainposition
  constructor
  case length => rw [hs.shape.length, h.length, Table.sizenode, Table.sizenode, hs.shape.lsizenode]
  case small => rw [hs.shape.lsizenode]; exact h.small
  case dummy =>
    intro hd
    rw [hdummy hd, hs.lastfree]
    exact h.dummy (hs.shape.isDummy ▸ hd)
  case lastfree => rw [hs.lastfree, hs.shape.length]; exact h.lastfree
  case above => rw [hs.shape.isDummy, hs.shape.length, hs.lastfree, hs.gkey]; exact h.above
  case array => rw [hs.shape.sizearray]; exact h.array
  case next_lt => rw [hs.gnext, hs.shape.length]; exact h.next_lt
  case pred => rw [hs.gnext]; exact h.pred
  case unused =>
    intro i hi
    rw [hs.gkey] at hi
    rw [hs.gnext]
    refine ⟨?_, (h.unused i hi).2⟩
    by_contra hv
    exact IsKey.ne_nil (hval i hv).1 hi
  case key => rw [hs.gkey]; exact h.key
  case live => rw [hs.gkey]; exact fun i hv => (hval i hv).1
  case acyclic => rw [hs.gnext]; exact h.acyclic
  case reach => simp only [hs.gkey, hs.gnext, hmain]; exact h.reach
  case occupied => simp only [hs.gkey, hmain]; exact h.occupied
  case home => simp only [hs.gkey, hmain]; exact h.home
  case unique => rw [hs.gkey]; exact h.unique
  case outside =>
    intro i _ hin
    rw [hs.shape.inArray, hs.gkey] at hin
    by_contra hv
    exact (hval i hv).2 hin

theorem SameKeys.at (hs : SameKeys t t') : At t' key p ↔ At t key p := by
  cases p with
  | array i => rw [At, At, hs.shape.inArray]
  | node i => rw [At, At, hs.shape.inArray, hs.gkey]

/-- The table after a store of `v` under `key`. -/
structure Stored (hashes : Nat → UInt32) (t t' : Table) (key v : Value) : Prop where
  inv : Inv hashes t'
  keys : SameKeys t t'
  value : ∀ k, value hashes t' k = if Value.rawequal k key then v else value hashes t k

/-- A store at a place that changes what is read there changes the table at one key. -/
theorem SameKeys.stored (hs : SameKeys t t') (h : Inv hashes t) (h' : Inv hashes t')
    (hkey : key.IsKey) (hat : At t key p) {v : Value}
    (hread : ∀ q, t'.read (some q) = if q = p then v else t.read (some q)) :
    Stored hashes t t' key v := by
  refine ⟨h', hs, fun k => ?_⟩
  by_cases hk : k.IsKey
  · have hget : luaH_get hashes t' k = luaH_get hashes t k := Option.ext fun q => by
      rw [luaH_get_iff h' hk, luaH_get_iff h hk, hs.at]
    rw [Tables.value, Tables.value, hget]
    cases hq : luaH_get hashes t k with
    | none =>
      rw [if_neg]
      · rfl
      · intro heq
        rw [luaH_get_congr h hk heq, (luaH_get_iff h hkey).mpr hat] at hq
        cases hq
    | some q =>
      rw [luaH_get_iff h hk] at hq
      rw [hread]
      refine if_congr ⟨?_, fun heq => ?_⟩ rfl rfl
      · rintro rfl
        exact hq.rawequal hat
      · have := (luaH_get_iff h hkey).mpr (hq.congr heq)
        rw [(luaH_get_iff h hkey).mpr hat] at this
        exact (Option.some.inj this).symm
  · rw [value_not_key h' hk, value_not_key h hk, if_neg]
    intro heq
    exact hk (hkey.of_rawequal (by rw [rawequal_comm]; exact heq))

theorem store_spec (h : Inv hashes t) (hkey : key.IsKey) (hget : luaH_get hashes t key = some p)
    (v : Value) : ∃ t', t.store v p = .ok t' ∧ Stored hashes t t' key v := by
  have hat := (luaH_get_iff h hkey).mp hget
  cases p with
  | array i =>
    let t' : Table := { t with array := t.array.set i v }
    have hlen : t'.array.length = t.array.length := List.length_set ..
    have hs : SameKeys t t' := ⟨⟨hlen, rfl, rfl, rfl, rfl⟩, rfl, rfl, rfl⟩
    have h' : Inv hashes t' := hs.inv h (fun _ => rfl) fun j hj => ⟨h.live j hj, h.out_of_live hj⟩
    refine ⟨t', rfl, hs.stored h h' hkey hat fun q => ?_⟩
    cases q with
    | node j => rfl
    | array j =>
      have hi : i < t.array.length := by
        obtain ⟨⟨h1, h2⟩, rfl⟩ := hat
        rw [Table.sizearray] at h2
        omega
      show (t.array.set i v).getD j .nil = _
      rw [List.getD_eq_getElem?_getD, List.getElem?_set]
      simp only [Slot.array.injEq]
      by_cases hij : i = j
      · rw [if_pos hij, if_pos hij.symm, if_pos hi]
        rfl
      · rw [if_neg hij, if_neg (Ne.symm hij)]
        exact (List.getD_eq_getElem?_getD ..).symm
  | node i =>
    have hi : (t.gkey i).IsKey := hkey.of_rawequal (by rw [rawequal_comm]; exact hat.2)
    have hout : ¬ InArray t (t.gkey i) := by
      rw [InArray, arrayindex_eq hat.2]
      exact hat.1
    have hd := h.isDummy_eq_false hi
    have hlt := lt_of_gkey_ne (IsKey.ne_nil hi)
    let t' := withNode t i { t.gnode i with val := v }
    have hnode : ∀ j, t'.gnode j = if j = i then { t.gnode i with val := v } else t.gnode j :=
      gnode_set hlt _
    have hgkey : t'.gkey = t.gkey := funext fun j => by
      rw [Table.gkey, hnode]
      split_ifs with hj
      · rw [hj]
        rfl
      · rfl
    have hgnext : t'.gnext = t.gnext := funext fun j => by
      rw [Table.gnext, hnode]
      split_ifs with hj
      · rw [hj]
        rfl
      · rfl
    have hgval : ∀ j, t'.gval j = if j = i then v else t.gval j := fun j => by
      rw [Table.gval, hnode]
      split_ifs <;> rfl
    have hs : SameKeys t t' := ⟨⟨rfl, rfl, rfl, List.length_set .., rfl⟩, rfl, hgkey, hgnext⟩
    have h' : Inv hashes t' := by
      refine hs.inv h (fun hd' => ?_) fun j hj => ?_
      · rw [withNode_isDummy, hd] at hd'
        cases hd'
      · rw [hgval] at hj
        split_ifs at hj with hji
        · exact hji ▸ ⟨hi, hout⟩
        · exact ⟨h.live j hj, h.out_of_live hj⟩
    refine ⟨t', setNode_ok hd _ _, hs.stored h h' hkey hat fun q => ?_⟩
    cases q with
    | array j => rfl
    | node j =>
      show t'.gval j = _
      rw [hgval]
      simp only [Slot.node.injEq]
      rfl

/-! ## Setting a key -/

theorem absent_of_luaH_get (h : Inv hashes t) (hkey : key.IsKey)
    (hget : luaH_get hashes t key = none) : Absent t key := by
  rcases luaH_get_cases h hkey with ⟨-, hget'⟩ | ⟨-, i, -, -, hget'⟩ | ⟨hout, hno, -⟩
  · rw [hget] at hget'
    cases hget'
  · rw [hget] at hget'
    cases hget'
  · exact ⟨hkey, hout, hno⟩

theorem sameKeys_flags (t : Table) (flags : UInt8) : SameKeys t { t with flags } :=
  ⟨⟨rfl, rfl, rfl, rfl, rfl⟩, rfl, rfl, rfl⟩

theorem Inv.flags (h : Inv hashes t) (flags : UInt8) : Inv hashes { t with flags } :=
  (sameKeys_flags t flags).inv h (fun _ => rfl) fun i hi => ⟨h.live i hi, h.out_of_live hi⟩

section

variable {nk : Table → Value → M (Slot × Table)}

theorem setWith_found (h : luaH_get hashes t key = some p) :
    setWith hashes nk t key = .ok (p, { t with flags := 0 }) := by
  unfold setWith
  rw [h]
  rfl

theorem setWith_new (hkey : key.IsKey) (h : luaH_get hashes t key = none) :
    setWith hashes nk t key = nk { t with flags := 0 } key := by
  unfold setWith
  rw [h]
  cases key with
  | nil => exact hkey.elim
  | number n =>
    have hn : luai_numisnan n = false := hkey
    simp only [hn, Bool.false_eq_true, if_false]
  | _ => rfl

/-- `luaH_getnum` is `luaH_get` of the number. -/
theorem luaH_getnum_eq (hashes : Nat → UInt32) (t : Table) {k : Int}
    (hk : -2 ^ 31 ≤ k ∧ k < 2 ^ 31) :
    luaH_getnum t k = luaH_get hashes t (.number (cast_num k)) := by
  have hself : luai_numeq (cast_num k) (cast_num k) = true :=
    luai_numeq_iff.mpr ⟨cast_num_not_nan hk, cast_num_not_nan hk, .inl rfl⟩
  simp only [luaH_get, lua_number2int_cast_num hk, hself, if_true]

theorem isKey_cast_num {k : Int} (hk : -2 ^ 31 ≤ k ∧ k < 2 ^ 31) :
    (Value.number (cast_num k)).IsKey := by
  have := cast_num_not_nan hk
  simp only [IsKey, luai_numisnan, luai_numeq, this]
  simp

/-- The place of a key has been made, with nothing else changed in what the table holds. -/
structure SetTo (hashes : Nat → UInt32) (t t' : Table) (key : Value) (p : Slot) : Prop where
  inv : Inv hashes t'
  slot : luaH_get hashes t' key = some p
  value : ∀ k, value hashes t' k = value hashes t k

theorem SetTo.of_found (h : Inv hashes t) (hget : luaH_get hashes t key = some p) (flags : UInt8) :
    SetTo hashes t { t with flags } key p :=
  ⟨h.flags flags, hget, fun _ => rfl⟩

theorem Grown.setTo {i : Nat} (hg : Grown hashes t t' key i) (ha : Absent t key) :
    SetTo hashes t t' key (.node i) := by
  refine ⟨hg.inv, (luaH_get_iff hg.inv ha.isKey).mpr ?_, hg.value⟩
  rw [At, hg.placed.gkey, hg.frame.inArray]
  exact ⟨ha.out, rawequal_self ha.isKey⟩

/-- How many nodes a key takes in a table with an array part of size `n`. -/
def cost (n : Nat) (key : Value) : Nat :=
  if 0 < arrayindex key ∧ arrayindex key ≤ n then 0 else 1

theorem cost_out (h : ¬ InArray t key) : cost t.sizearray key = 1 := if_neg h

/-- The place of a key has been made without a rehash. -/
structure SetHere (hashes : Nat → UInt32) (t t' : Table) (key : Value) (p : Slot) : Prop
    extends SetTo hashes t t' key p where
  shape : SameShape t t'
  room : room t ≤ room t' + cost t.sizearray key

theorem Grown.setHere {i : Nat} (hg : Grown hashes t t' key i) (ha : Absent t key) :
    SetHere hashes t t' key (.node i) := by
  refine ⟨hg.setTo ha, hg.frame.shape, ?_⟩
  rw [cost_out ha.out, Tables.room, Tables.room, hg.frame.isDummy]
  have := hg.free
  split_ifs <;> omega

theorem SetHere.of_found (h : Inv hashes t) (hget : luaH_get hashes t key = some p)
    (flags : UInt8) : SetHere hashes t { t with flags } key p :=
  ⟨SetTo.of_found h hget flags, (sameKeys_flags t flags).shape, Nat.le_add_right ..⟩

theorem newkey_here (h : Inv hashes t) (ha : Absent t key) (hroom : 0 < room t)
    (grow : Table → Value → M (Slot × Table)) :
    ∃ p t', newkeyWith hashes grow t key = .ok (p, t') ∧ SetHere hashes t t' key p := by
  rcases newkeyWith_insertion h key with ⟨i, t', hnew, hi⟩ | ⟨l, -, hfull, -⟩
  · exact ⟨.node i, t', hnew grow, (hi.grown h ha).setHere ha⟩
  · rw [room] at hroom
    rcases hfull with hfull | hfull <;> simp [hfull] at hroom

theorem setWith_here (h : Inv hashes t) (hkey : key.IsKey) (hroom : cost t.sizearray key ≤ room t)
    (grow : Table → Value → M (Slot × Table)) :
    ∃ p t', setWith hashes (newkeyWith hashes grow) t key = .ok (p, t') ∧
      SetHere hashes t t' key p := by
  cases hget : luaH_get hashes t key with
  | some p => exact ⟨p, _, setWith_found hget, SetHere.of_found h hget 0⟩
  | none =>
    have ha := absent_of_luaH_get h hkey hget
    have hpos : 0 < room t := by
      rw [cost_out ha.out] at hroom
      exact hroom
    have ha0 : Absent { t with flags := 0 } key := ⟨ha.isKey, ha.out, ha.node⟩
    obtain ⟨p, t', hnew, hs⟩ := newkey_here (h.flags 0) ha0 hpos grow
    exact ⟨p, t', (setWith_new hkey hget).trans hnew, ⟨hs.inv, hs.slot, hs.value⟩,
      (sameKeys_flags t 0).shape.trans hs.shape, hs.room⟩

theorem setnumWith_eq (hashes : Nat → UInt32) {k : Int} (hk : -2 ^ 31 ≤ k ∧ k < 2 ^ 31) :
    setnumWith nk t k =
      match luaH_get hashes t (.number (cast_num k)) with
      | some p => .ok (p, t)
      | none => nk t (.number (cast_num k)) := by
  rw [setnumWith, luaH_getnum_eq hashes t hk]
  cases luaH_get hashes t (.number (cast_num k)) <;> rfl

end

end Luaxx.Tables
