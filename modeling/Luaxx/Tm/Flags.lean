import Luaxx.Tm.Events

/-!
# The flags of a table

The functions of `ltable.c` leave the flags of a table or reset them, and `luaH_set` resets them.
-/

namespace Luaxx.Tables

open Luaxx.Result

variable {hashes : Nat → UInt32} {t t' t'' : Table} {key : Value}

/-- The flags are those of `t`, or none is set. -/
def FlagsFrom (t t' : Table) : Prop := t'.flags = t.flags ∨ t'.flags = 0

theorem FlagsFrom.of_eq (h : t'.flags = t.flags) : FlagsFrom t t' := .inl h

theorem FlagsFrom.refl (t : Table) : FlagsFrom t t := .inl rfl

theorem FlagsFrom.trans (h : FlagsFrom t t') (h' : FlagsFrom t' t'') : FlagsFrom t t'' := by
  rcases h' with h' | h'
  · rw [FlagsFrom, h']
    exact h
  · exact .inr h'

theorem FlagsFrom.eq_zero (h : FlagsFrom t t') (ht : t.flags = 0) : t'.flags = 0 := by
  rcases h with h | h
  · exact h.trans ht
  · exact h

theorem flagsFrom_setNode {i : Nat} {n : Node} (ht : t.setNode i n = .ok t') : FlagsFrom t t' := by
  rw [Table.setNode] at ht
  split_ifs at ht
  cases ht
  exact .of_eq rfl

theorem flagsFrom_setKey {mp : Nat} {r : Slot × Table} (hr : setKey t mp key = .ok r) :
    FlagsFrom t r.2 := by
  obtain ⟨t1, h1, hr⟩ := bind_ok.mp hr
  cases hr
  exact flagsFrom_setNode h1

theorem flagsFrom_moveNode {othern mp n : Nat} (ht : moveNode t othern mp n = .ok t') :
    FlagsFrom t t' := by
  rw [moveNode] at ht
  split at ht
  · cases ht
  · obtain ⟨t1, h1, ht⟩ := bind_ok.mp ht
    obtain ⟨t2, h2, ht⟩ := bind_ok.mp ht
    exact ((flagsFrom_setNode h1).trans (flagsFrom_setNode h2)).trans (flagsFrom_setNode ht)

theorem flagsFrom_chainNode {mp n : Nat} (ht : chainNode t mp n = .ok t') : FlagsFrom t t' := by
  obtain ⟨t1, h1, ht⟩ := bind_ok.mp ht
  exact (flagsFrom_setNode h1).trans (flagsFrom_setNode ht)

theorem flagsFrom_store {v : Value} {p : Slot} (ht : t.store v p = .ok t') : FlagsFrom t t' := by
  cases p with
  | array i =>
    cases ht
    exact .of_eq rfl
  | node i => exact flagsFrom_setNode ht

theorem flagsFrom_setnodevector {size : Nat} (ht : setnodevector t size = .ok t') :
    FlagsFrom t t' := by
  rw [setnodevector] at ht
  split_ifs at ht
  · cases ht
    exact .of_eq rfl
  · cases ht
  · obtain rfl := Except.ok.inj ht
    exact .of_eq rfl

theorem flagsFrom_getfreepos (t : Table) : FlagsFrom t (getfreepos t).2 := by
  rw [getfreepos]
  split_ifs
  · exact .of_eq rfl
  · exact .of_eq rfl

section Callback

variable {nk : Table → Value → M (Slot × Table)}

/-- The insertion leaves the flags or resets them. -/
def KeepsFlags (nk : Table → Value → M (Slot × Table)) : Prop :=
  ∀ t key r, nk t key = .ok r → FlagsFrom t r.2

variable (hnk : KeepsFlags nk)

include hnk

theorem setWith_flags {r : Slot × Table} (hr : setWith hashes nk t key = .ok r) :
    r.2.flags = 0 := by
  have hreset : ∀ r, nk { t with flags := 0 } key = .ok r → r.2.flags = 0 := fun r hr =>
    (hnk _ _ _ hr).eq_zero rfl
  simp only [setWith] at hr
  split at hr
  · cases hr
    rfl
  · split at hr
    · cases hr
    · split_ifs at hr
      · cases hr
      · exact hreset r hr
    · exact hreset r hr

theorem flagsFrom_setnumWith {k : Int} {r : Slot × Table} (hr : setnumWith nk t k = .ok r) :
    FlagsFrom t r.2 := by
  simp only [setnumWith] at hr
  split at hr
  · cases hr
    exact .refl _
  · exact hnk _ _ _ hr

theorem flagsFrom_reinsertSlice {block i : Nat} {rest : List Value}
    (ht : reinsertSlice nk block t i rest = .ok t') : FlagsFrom t t' := by
  induction rest generalizing t i with
  | nil =>
    cases ht
    exact .refl _
  | cons v rest ih =>
    rw [reinsertSlice] at ht
    split_ifs at ht
    · exact ih ht
    · obtain ⟨r, hr, ht⟩ := bind_ok.mp ht
      have hset := flagsFrom_setnumWith hnk hr
      simp only at ht
      split_ifs at ht
      obtain ⟨t1, h1, ht⟩ := bind_ok.mp ht
      exact (hset.trans (flagsFrom_store h1)).trans (ih ht)

theorem flagsFrom_reinsertNodes {rest : List Node} (ht : reinsertNodes hashes nk t rest = .ok t') :
    FlagsFrom t t' := by
  induction rest generalizing t with
  | nil =>
    cases ht
    exact .refl _
  | cons n rest ih =>
    rw [reinsertNodes] at ht
    split_ifs at ht
    · exact ih ht
    · obtain ⟨r, hr, ht⟩ := bind_ok.mp ht
      obtain ⟨t1, h1, ht⟩ := bind_ok.mp ht
      have hset : FlagsFrom t r.2 := .inr (setWith_flags hnk hr)
      exact (hset.trans (flagsFrom_store h1)).trans (ih ht)

theorem flagsFrom_resize {nasize nhsize : Nat} (ht : resize hashes nk t nasize nhsize = .ok t') :
    FlagsFrom t t' := by
  unfold resize at ht
  obtain ⟨t1, h1, ht⟩ := bind_ok.mp ht
  have hnodes : FlagsFrom t t1 := by
    refine FlagsFrom.trans ?_ (flagsFrom_setnodevector h1)
    split_ifs
    · exact .of_eq rfl
    · exact .refl _
  by_cases hshrink : nasize < t.sizearray
  · simp only [if_pos hshrink] at ht
    obtain ⟨t2, h2, ht⟩ := bind_ok.mp ht
    have hslice : FlagsFrom t1 t2 :=
      flagsFrom_reinsertSlice (t := { t1 with array := t1.array.take nasize }) hnk h2
    have hrest : FlagsFrom t2 t' :=
      flagsFrom_reinsertNodes (t := { t2 with block := t2.block + 1 }) hnk ht
    exact (hnodes.trans hslice).trans hrest
  · simp only [if_neg hshrink] at ht
    exact hnodes.trans (flagsFrom_reinsertNodes hnk ht)

end Callback

theorem newkey_keepsFlags (hashes : Nat → UInt32) (fuel : Nat) :
    KeepsFlags (newkey hashes fuel) := by
  induction fuel with
  | zero =>
    intro t key r hr
    cases hr
  | succ fuel ih =>
    intro t key r hr
    rw [newkey] at hr
    simp only at hr
    split_ifs at hr
    · exact flagsFrom_setKey hr
    have hfreepos := flagsFrom_getfreepos t
    rcases hfree : getfreepos t with ⟨_ | n, t1⟩ <;> rw [hfree] at hr hfreepos
    · obtain ⟨t2, h2, hr⟩ := bind_ok.mp hr
      exact .inr (setWith_flags ih hr)
    · simp only at hr
      split_ifs at hr
      · obtain ⟨t2, h2, hr⟩ := bind_ok.mp hr
        exact (hfreepos.trans (flagsFrom_moveNode h2)).trans (flagsFrom_setKey hr)
      · obtain ⟨t2, h2, hr⟩ := bind_ok.mp hr
        exact (hfreepos.trans (flagsFrom_chainNode h2)).trans (flagsFrom_setKey hr)

theorem luaH_set_flags {r : Slot × Table} (hr : luaH_set hashes t key = .ok r) : r.2.flags = 0 :=
  setWith_flags (newkey_keepsFlags hashes maxRehash) hr

theorem luaH_setnum_flags {k : Int} {r : Slot × Table} (hr : luaH_setnum hashes t k = .ok r) :
    FlagsFrom t r.2 :=
  flagsFrom_setnumWith (newkey_keepsFlags hashes maxRehash) hr

end Luaxx.Tables
