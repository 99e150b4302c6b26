import Luaxx.Tm.Flags
import Luaxx.Table.DeadKeys

/-!
# The cache of absent tag methods

A flag of a table says that the table has no tag method of that name. It is set by a lookup that
finds nothing, and every store under a name resets it: `luaH_set` before the store, and
`luaV_settable` once more after it, since the lookup in between may have been made in the same
table.
-/

namespace Luaxx.Tm

open Luaxx.Tables Luaxx.Result

/-- What a flag says is so. -/
structure Coherent (tmname : TMS → Nat) (H : Heap) : Prop where
  inv : ∀ h, Inv H.hashes (H.table h)
  flags : ∀ h e, (H.table h).flags &&& e.bit ≠ 0 → getevent tmname H h e = .nil

variable {tmname : TMS → Nat} {H H' : Heap} {h : Nat} {key v : Value} {p : Slot}

theorem or_and (a b c : UInt8) : (a ||| b) &&& c = a &&& c ||| b &&& c := by
  apply UInt8.eq_of_toBitVec_eq
  ext i hi
  simp [Bool.and_or_distrib_right]

theorem bit_or {flags : UInt8} {e e' : TMS} (h : (flags ||| e.bit) &&& e'.bit ≠ 0) :
    flags &&& e'.bit ≠ 0 ∨ e' = e := by
  by_cases he : e' = e
  · exact .inr he
  · left
    have hother : e.bit &&& e'.bit = 0 := by
      cases e <;> cases e' <;> first | rfl | exact absurd rfl he
    rwa [or_and, hother, UInt8.or_zero] at h

/-! ## A table is changed -/

theorem getevent_eq (tmname : TMS → Nat) (H : Heap) (h : Nat) (e : TMS) :
    getevent tmname H h e = value H.hashes (H.table h) (.string (tmname e)) := rfl

theorem put_table (H : Heap) (h : Nat) (t : Table) (h' : Nat) :
    (H.put h t).table h' = if h' = h then t else H.table h' := by
  show Function.update H.table h t h' = _
  rw [Function.update_apply]

@[simp] theorem put_self (H : Heap) (h : Nat) (t : Table) : (H.put h t).table h = t := by
  rw [put_table, if_pos rfl]

@[simp] theorem put_hashes (H : Heap) (h : Nat) (t : Table) : (H.put h t).hashes = H.hashes := rfl

@[simp] theorem put_put (H : Heap) (h : Nat) (t t' : Table) : (H.put h t).put h t' = H.put h t' := by
  rw [Heap.put, Heap.put, Function.update_idem]
  rfl

theorem Coherent.put (hc : Coherent tmname H) {t : Table} (hinv : Inv H.hashes t)
    (hflags : ∀ e, t.flags &&& e.bit ≠ 0 → value H.hashes t (.string (tmname e)) = .nil) :
    Coherent tmname (H.put h t) := by
  constructor
  · intro h'
    rw [put_table, put_hashes]
    split_ifs
    · exact hinv
    · exact hc.inv h'
  · intro h' e hbit
    rw [getevent_eq, put_table, put_hashes]
    rw [put_table] at hbit
    split_ifs at hbit ⊢
    · exact hflags e hbit
    · exact hc.flags h' e hbit

/-- A table without flags makes no claim. -/
theorem Coherent.put_zero (hc : Coherent tmname H) {t : Table} (hinv : Inv H.hashes t)
    (hzero : t.flags = 0) : Coherent tmname (H.put h t) := by
  apply hc.put hinv
  intro e hbit
  rw [hzero, UInt8.zero_and] at hbit
  exact absurd rfl hbit

/-- A table with no more flags and nothing more under the names. -/
theorem Coherent.put_from (hc : Coherent tmname H) {t : Table} (hinv : Inv H.hashes t)
    (hfrom : FlagsFrom (H.table h) t)
    (hval : ∀ s, value H.hashes (H.table h) (.string s) = .nil →
      value H.hashes t (.string s) = .nil) : Coherent tmname (H.put h t) := by
  rcases hfrom with heq | hzero
  · apply hc.put hinv
    intro e hbit
    rw [heq] at hbit
    exact hval _ (hc.flags h e hbit)
  · exact hc.put_zero hinv hzero

/-! ## Lookups -/

/-- The heap is the same but for flags. -/
structure SameTables (H H' : Heap) : Prop where
  hashes : H'.hashes = H.hashes
  table : ∀ h, ∃ flags, H'.table h = { H.table h with flags := flags }

theorem SameTables.refl (H : Heap) : SameTables H H := ⟨rfl, fun _ => ⟨_, rfl⟩⟩

theorem sameTables_setFlags (H : Heap) (h : Nat) (flags : UInt8) :
    SameTables H (H.setFlags h flags) := by
  refine ⟨rfl, ?_⟩
  intro h'
  rw [Heap.setFlags, put_table]
  split_ifs with heq
  · exact ⟨flags, by rw [heq]⟩
  · exact ⟨_, rfl⟩

theorem gfasttm_same (tmname : TMS → Nat) (H : Heap) (et : Option Nat) (e : TMS) :
    SameTables H (gfasttm tmname H et e).2 := by
  simp only [gfasttm, luaT_gettm]
  split
  · exact .refl H
  · split_ifs
    · exact .refl H
    · exact sameTables_setFlags ..
    · exact .refl H

theorem Coherent.gfasttm (hc : Coherent tmname H) (et : Option Nat) (e : TMS) :
    Coherent tmname (gfasttm tmname H et e).2 := by
  simp only [Tm.gfasttm, luaT_gettm]
  split
  · exact hc
  · next et =>
    split_ifs with hbit hnil
    · exact hc
    · apply hc.put ((hc.inv et).flags _)
      intro e' hbit'
      rcases bit_or hbit' with hold | rfl
      · exact hc.flags et e' hold
      · exact Value.ttisnil_iff.mp hnil
    · exact hc

theorem Coherent.gfasttm_eq (hc : Coherent tmname H) (et : Option Nat) (e : TMS) :
    (Tm.gfasttm tmname H et e).1 = uncached tmname H et e := by
  unfold Tm.gfasttm uncached luaT_gettm
  split
  · rfl
  · next et =>
    split_ifs with hbit
    · have hnil := hc.flags et e hbit
      simp only [hnil]
      rfl
    · simp only
      split_ifs <;> rfl

/-! ## Stores -/

theorem setKey_spec (hc : Coherent tmname H) (hproper : Value.isProper key)
    {r : (Slot ⊕ String) × Heap} (hr : setKey H h key = .ok r) :
    Coherent tmname r.2 ∧ r.2.hashes = H.hashes ∧ (r.2.table h).flags = 0 ∧
      ∀ p, r.1 = .inl p → key.IsKey ∧ luaH_get r.2.hashes (r.2.table h) key = some p := by
  unfold setKey at hr
  split at hr
  · next p t hset =>
    obtain rfl := Except.ok.inj hr
    obtain ⟨hkey, hto⟩ := (luaH_set_spec (hc.inv h) hproper).ok_of_eq hset
    have hzero : t.flags = 0 := luaH_set_flags hset
    refine ⟨hc.put_zero hto.inv hzero, rfl, ?_, ?_⟩
    · show ((H.put h t).table h).flags = 0
      rw [put_self]
      exact hzero
    · intro q hq
      obtain rfl := Sum.inl.inj hq
      show key.IsKey ∧ luaH_get H.hashes ((H.put h t).table h) key = some p
      rw [put_self]
      exact ⟨hkey, hto.slot⟩
  · split_ifs at hr
    obtain rfl := Except.ok.inj hr
    refine ⟨hc.put_zero ((hc.inv h).flags 0) rfl, rfl, ?_, ?_⟩
    · show ((H.put h { H.table h with flags := 0 }).table h).flags = 0
      rw [put_self]
    · intro q hq
      cases hq
  · cases hr

/-- What a store through the pointer for a key does. -/
theorem setobj2t_spec (hinv : Inv H.hashes (H.table h)) (hkey : key.IsKey)
    (hget : luaH_get H.hashes (H.table h) key = some p) (hr : setobj2t H h p v = .ok H') :
    ∃ t, H' = H.put h t ∧ Stored H.hashes (H.table h) t key v ∧ FlagsFrom (H.table h) t := by
  obtain ⟨t, hstore, hr⟩ := bind_ok.mp hr
  obtain ⟨t', hstore', hstored⟩ := store_spec hinv hkey hget v
  rw [hstore] at hstore'
  obtain rfl := Except.ok.inj hstore'
  exact ⟨t, (Except.ok.inj hr).symm, hstored, flagsFrom_store hstore⟩

theorem Coherent.lua_rawset (hc : Coherent tmname H) (hproper : Value.isProper key)
    (hr : lua_rawset H h key v = .ok H') : Coherent tmname H' := by
  obtain ⟨⟨q, H₁⟩, hset, hr⟩ := bind_ok.mp hr
  obtain ⟨hc₁, -, hzero, hplace⟩ := setKey_spec hc hproper hset
  cases q with
  | inl p =>
    obtain ⟨hkey, hget⟩ := hplace p rfl
    obtain ⟨t, rfl, hstored, hfrom⟩ := setobj2t_spec (hc₁.inv h) hkey hget hr
    exact hc₁.put_zero hstored.inv (hfrom.eq_zero hzero)
  | inr msg =>
    obtain rfl := Except.ok.inj hr
    exact hc₁

theorem Coherent.lua_rawseti (hc : Coherent tmname H) {n : Int} (hn : -2 ^ 31 ≤ n ∧ n < 2 ^ 31)
    (hr : lua_rawseti H h n v = .ok H') : Coherent tmname H' := by
  obtain ⟨⟨p, t⟩, hset, hr⟩ := bind_ok.mp hr
  have hto := (luaH_setnum_spec (hc.inv h) hn).ok_of_eq hset
  have hc₁ : Coherent tmname (H.put h t) := by
    apply hc.put_from hto.inv (luaH_setnum_flags hset)
    intro s hnil
    rw [← hnil]
    exact hto.value _
  have hget : luaH_get (H.put h t).hashes ((H.put h t).table h) (.number (cast_num n)) = some p := by
    rw [put_self]
    exact hto.slot
  obtain ⟨t', rfl, hstored, hfrom⟩ := setobj2t_spec (hc₁.inv h) (isKey_cast_num hn) hget hr
  apply hc₁.put_from hstored.inv hfrom
  intro s hnil
  -- The store is under a number.
  rw [hstored.value, if_neg (show ¬ Value.rawequal (.string s) (.number (cast_num n)) = true from
    Bool.false_ne_true)]
  exact hnil

/-- The lookup between `luaH_set` and the store leaves the place of the key. -/
theorem SameTables.luaH_get (hs : SameTables H H') (h : Nat) (key : Value) :
    luaH_get H'.hashes (H'.table h) key = luaH_get H.hashes (H.table h) key := by
  obtain ⟨flags, htable⟩ := hs.table h
  rw [htable, hs.hashes]
  rfl

theorem Coherent.store (hc : Coherent tmname H) (hkey : key.IsKey)
    (hget : luaH_get H.hashes (H.table h) key = some p) (hr : setobj2t H h p v = .ok H') :
    Coherent tmname (H'.setFlags h 0) := by
  obtain ⟨t, rfl, hstored, -⟩ := setobj2t_spec (hc.inv h) hkey hget hr
  rw [Heap.setFlags, put_put, put_self]
  exact hc.put_zero (hstored.inv.flags 0) rfl

theorem Coherent.settableLoop (hproper : Value.isProper key) (loop : Nat) {t : Value}
    (hc : Coherent tmname H) {r : Settled × Heap}
    (hr : settableLoop tmname loop H t key v = .ok r) : Coherent tmname r.2 := by
  induction loop generalizing H t with
  | zero =>
    obtain rfl := Except.ok.inj hr
    exact hc
  | succ loop ih =>
    unfold Tm.settableLoop at hr
    split at hr
    · next h =>
      obtain ⟨⟨q, H₁⟩, hset, hr⟩ := bind_ok.mp hr
      obtain ⟨hc₁, -, -, hplace⟩ := setKey_spec hc hproper hset
      cases q with
      | inr msg =>
        obtain rfl := Except.ok.inj hr
        exact hc₁
      | inl p =>
        obtain ⟨hkey, hget⟩ := hplace p rfl
        simp only at hr
        -- Whether or not the tag method is looked up, the flags are coherent.
        obtain ⟨tm, H₂, hlookup, hc₂, hs⟩ : ∃ tm H₂,
            (if ((H₁.table h).read (some p)).ttisnil then
              Tm.gfasttm tmname H₁ (H₁.metatable (.object .table h)) .TM_NEWINDEX
            else (none, H₁)) = (tm, H₂) ∧ Coherent tmname H₂ ∧ SameTables H₁ H₂ := by
          split
          · exact ⟨_, _, rfl, hc₁.gfasttm _ _, gfasttm_same ..⟩
          · exact ⟨_, _, rfl, hc₁, .refl H₁⟩
        rw [hlookup] at hr
        cases tm with
        | none =>
          obtain ⟨H₃, hstore, hr⟩ := bind_ok.mp hr
          obtain rfl := Except.ok.inj hr
          exact hc₂.store hkey ((hs.luaH_get h key).trans hget) hstore
        | some tm =>
          simp only at hr
          split at hr
          · obtain rfl := Except.ok.inj hr
            exact hc₂
          · exact ih hc₂ hr
    · split at hr
      · obtain rfl := Except.ok.inj hr
        exact hc
      · obtain rfl := Except.ok.inj hr
        exact hc
      · exact ih hc hr

/-! ## What the collector and the program do besides -/

theorem flagsFrom_removeentry {t t' : Table} {i : Nat} (ht : removeentry t i = .ok t') :
    FlagsFrom t t' := by
  rw [removeentry] at ht
  split at ht
  · exact flagsFrom_setNode ht
  · exact flagsFrom_setNode ht
  · cases ht
    exact .refl _

/-- To remove an empty entry changes nothing that a table holds. -/
theorem removeentry_spec {hashes : Nat → UInt32} {t t' : Table} {i : Nat} (hinv : Inv hashes t)
    (hval : t.gval i = .nil) (ht : removeentry t i = .ok t') :
    Inv hashes t' ∧ ∀ k, value hashes t' k = value hashes t k := by
  rcases removeentry_cases hinv ht with rfl | ⟨p, hb⟩
  · exact ⟨hinv, fun _ => rfl⟩
  · have hinv' := hb.inv hinv hval
    have hsame : ∀ j, t.gval j ≠ .nil → t'.gkey j = t.gkey j := by
      intro j hj
      rw [hb.gkey, if_neg]
      rintro rfl
      exact hj hval
    refine ⟨hinv', value_congr hinv hinv' hb.frame.array ?_ ?_⟩
    · intro j hj
      exact ⟨j, hsame j hj, by rw [hb.gval]⟩
    · intro j hj
      rw [hb.gval] at hj
      exact ⟨j, (hsame j hj).symm, by rw [hb.gval]⟩

/-- To clear the place of a key. -/
theorem Coherent.clear (hc : Coherent tmname H) (hkey : key.IsKey)
    (hget : luaH_get H.hashes (H.table h) key = some p) (hr : setobj2t H h p .nil = .ok H') :
    Coherent tmname H' := by
  obtain ⟨t, rfl, hstored, hfrom⟩ := setobj2t_spec (hc.inv h) hkey hget hr
  apply hc.put_from hstored.inv hfrom
  intro s hnil
  rw [hstored.value]
  split_ifs
  · rfl
  · exact hnil

theorem Coherent.clearArray (hc : Coherent tmname H) {i : Nat} (hi : i < (H.table h).sizearray)
    (hr : clearArray H h i = .ok H') : Coherent tmname H' := by
  have hsize := (hc.inv h).array
  have hrange : -2 ^ 31 ≤ (i + 1 : Int) ∧ (i + 1 : Int) < 2 ^ 31 := by omega
  have hindex := arrayindex_cast hrange
  have hkey := isKey_cast_num hrange
  refine hc.clear hkey ((luaH_get_iff (hc.inv h) hkey).mpr ?_) hr
  rw [At, InArray, hindex]
  omega

theorem Coherent.clearNode (hc : Coherent tmname H) {i : Nat}
    (hval : (H.table h).gval i ≠ .nil) (hr : clearNode H h i = .ok H') : Coherent tmname H' := by
  have hinv := hc.inv h
  have hkey := hinv.live i hval
  have hget : luaH_get H.hashes (H.table h) ((H.table h).gkey i) = some (.node i) :=
    (luaH_get_iff hinv hkey).mpr ⟨hinv.out_of_live hval, Value.rawequal_self hkey⟩
  obtain ⟨H₁, hclear, hr⟩ := bind_ok.mp hr
  have hc₁ := hc.clear hkey hget hclear
  obtain ⟨t, rfl, hstored, -⟩ := setobj2t_spec hinv hkey hget hclear
  obtain ⟨t', hremove, hr⟩ := bind_ok.mp hr
  obtain rfl := Except.ok.inj hr
  have hnil : ((H.put h t).table h).gval i = .nil := by
    have hdead := hstored.value ((H.table h).gkey i)
    rw [if_pos (Value.rawequal_self hkey)] at hdead
    rw [put_self]
    by_contra hlive
    have hself : Value.rawequal (t.gkey i) ((H.table h).gkey i) = true := by
      rw [hstored.keys.gkey]
      exact Value.rawequal_self hkey
    rw [value_node hstored.inv hlive hself] at hdead
    exact hlive hdead
  obtain ⟨hinv', hvalue⟩ := removeentry_spec (hc₁.inv h) hnil hremove
  apply hc₁.put_from hinv' (flagsFrom_removeentry hremove)
  intro s hs
  rw [put_hashes] at hs ⊢
  rw [← hs]
  exact hvalue _

/-! ## Runs -/

/-- The heaps that a program can have. The names of the events are never collected, and keep their
hashes where a string that is collected gives its address to another. -/
inductive Reachable (tmname : TMS → Nat) : Heap → Prop
  | init {H : Heap} (h : ∀ h, luaH_new 0 0 = .ok (H.table h)) : Reachable tmname H
  | new {H : Heap} {h narray nhash : Nat} {t : Table} (hr : Reachable tmname H)
      (hn : narray < 2 ^ 31) (hh : nhash < 2 ^ 31) (ht : luaH_new narray nhash = .ok t) :
      Reachable tmname (H.put h t)
  | setmetatable {H : Heap} {metatable : Value → Option Nat} (hr : Reachable tmname H) :
      Reachable tmname { H with metatable := metatable }
  | rawset {H H' : Heap} {h : Nat} {key v : Value} (hr : Reachable tmname H)
      (hproper : Value.isProper key) (hset : lua_rawset H h key v = .ok H') : Reachable tmname H'
  | rawseti {H H' : Heap} {h : Nat} {n : Int} {v : Value} (hr : Reachable tmname H)
      (hn : -2 ^ 31 ≤ n ∧ n < 2 ^ 31) (hset : lua_rawseti H h n v = .ok H') : Reachable tmname H'
  | settable {H : Heap} {t key v : Value} {r : Settled × Heap} (hr : Reachable tmname H)
      (hproper : Value.isProper key) (hset : luaV_settable tmname H t key v = .ok r) :
      Reachable tmname r.2
  | resizearray {H : Heap} {h nasize : Nat} {t : Table} (hr : Reachable tmname H)
      (hle : (H.table h).sizearray ≤ nasize) (hn : nasize < 2 ^ 31)
      (ht : luaH_resizearray H.hashes (H.table h) nasize = .ok t) : Reachable tmname (H.put h t)
  | clearArray {H H' : Heap} {h i : Nat} (hr : Reachable tmname H)
      (hi : i < (H.table h).sizearray) (hclear : clearArray H h i = .ok H') : Reachable tmname H'
  | clearNode {H H' : Heap} {h i : Nat} (hr : Reachable tmname H)
      (hval : (H.table h).gval i ≠ .nil) (hclear : clearNode H h i = .ok H') : Reachable tmname H'
  | fasttm {H : Heap} {et : Option Nat} {e : TMS} (hr : Reachable tmname H) :
      Reachable tmname (gfasttm tmname H et e).2
  | reuse {H : Heap} {hashes : Nat → UInt32} (hr : Reachable tmname H)
      (hkeys : ∀ h, Rehashed H.hashes hashes (H.table h))
      (hnames : ∀ e, hashes (tmname e) = H.hashes (tmname e)) :
      Reachable tmname { H with hashes := hashes }

theorem Coherent.init {H : Heap} (h : ∀ h, luaH_new 0 0 = .ok (H.table h)) :
    Coherent tmname H := by
  have hspec : ∀ h, Inv H.hashes (H.table h) ∧ ∀ k, value H.hashes (H.table h) k = .nil :=
    fun h' => (luaH_new_spec (by decide) (by decide)).ok_of_eq (h h')
  exact ⟨fun h' => (hspec h').1, fun h' e _ => (hspec h').2 (.string (tmname e))⟩

theorem Coherent.resizearray (hc : Coherent tmname H) {nasize : Nat} {t : Table}
    (hle : (H.table h).sizearray ≤ nasize) (hn : nasize < 2 ^ 31)
    (ht : luaH_resizearray H.hashes (H.table h) nasize = .ok t) : Coherent tmname (H.put h t) := by
  obtain ⟨hinv, hval⟩ := (luaH_resizearray_spec (hc.inv h) hle hn).ok_of_eq ht
  have hfrom : FlagsFrom (H.table h) t :=
    flagsFrom_resize (newkey_keepsFlags H.hashes maxRehash) ht
  apply hc.put_from hinv hfrom
  intro s hnil
  rw [hval]
  exact hnil

theorem Coherent.reuse (hc : Coherent tmname H) {hashes : Nat → UInt32}
    (hkeys : ∀ h, Rehashed H.hashes hashes (H.table h))
    (hnames : ∀ e, hashes (tmname e) = H.hashes (tmname e)) :
    Coherent tmname { H with hashes := hashes } := by
  refine ⟨fun h => (hc.inv h).rehashed (hkeys h), ?_⟩
  intro h e hbit
  rw [← hc.flags h e hbit]
  show (H.table h).read (luaH_getstr hashes (H.table h) (tmname e)) = _
  rw [luaH_getstr, hnames]
  rfl

theorem Reachable.coherent {H : Heap} (hr : Reachable tmname H) : Coherent tmname H := by
  induction hr with
  | init h => exact .init h
  | new hr hn hh ht ih =>
    obtain ⟨hinv, hval⟩ := (luaH_new_spec hn hh).ok_of_eq ht
    exact ih.put hinv fun e _ => hval _
  | setmetatable hr ih => exact ⟨ih.inv, ih.flags⟩
  | rawset hr hproper hset ih => exact ih.lua_rawset hproper hset
  | rawseti hr hn hset ih => exact ih.lua_rawseti hn hset
  | settable hr hproper hset ih => exact ih.settableLoop hproper MAXTAGLOOP hset
  | resizearray hr hle hn ht ih => exact ih.resizearray hle hn ht
  | clearArray hr hi hclear ih => exact ih.clearArray hi hclear
  | clearNode hr hval hclear ih => exact ih.clearNode hval hclear
  | fasttm hr ih => exact ih.gfasttm _ _
  | reuse hr hkeys hnames ih => exact ih.reuse hkeys hnames

/-- In every state, a flag that is set says what is so, and a lookup that trusts the flags finds what
one without them finds. -/
theorem fasttm_transparent (hr : Reachable tmname H) :
    (∀ h e, (H.table h).flags &&& e.bit ≠ 0 → getevent tmname H h e = .nil) ∧
      ∀ et e, (gfasttm tmname H et e).1 = uncached tmname H et e :=
  ⟨hr.coherent.flags, hr.coherent.gfasttm_eq⟩

/-- Empty tables, each of which is its own metatable. -/
def ownMetatables : Heap where
  hashes _ := 0
  table _ := ⟨255, [], 1, [dummynode_], true, 0, 0⟩
  metatable
    | .object .table h => some h
    | _ => none

theorem fasttm_transparent_own :
    let tmname : TMS → Nat := fun e => e.bit.toNat
    let H := (gfasttm tmname ownMetatables (some 7) .TM_INDEX).2
    (∀ h e, (H.table h).flags &&& e.bit ≠ 0 → getevent tmname H h e = .nil) ∧
      ∀ et e, (gfasttm tmname H et e).1 = uncached tmname H et e :=
  fasttm_transparent (.fasttm (.init fun _ => rfl))

end Luaxx.Tm
