import Luaxx.Control.Machine

/-!
# The open upvalues of a thread

They are in the order of their slots, the highest one first, so closing from a level on closes those
at or above it.
-/

namespace Luaxx.Control

open Luaxx.Call

variable {V : Type}

/-- The order of the list, with one upvalue for each slot. -/
def Descending (uvs : List OpenUpval) : Prop := uvs.Pairwise fun uv uv' => uv'.v < uv.v

def ids (uvs : List OpenUpval) : List Nat := uvs.map OpenUpval.id

/-! ## `luaF_findupval` -/

theorem mem_luaF_findupval {level new : Nat} {uvs : List OpenUpval} {uv : OpenUpval}
    (h : uv ∈ luaF_findupval level new uvs) : uv ∈ uvs ∨ uv = ⟨level, new⟩ := by
  induction uvs with
  | nil => exact .inr (List.mem_singleton.1 h)
  | cons p rest ih =>
    rw [luaF_findupval] at h
    split_ifs at h
    · exact .inl h
    · rcases List.mem_cons.1 h with rfl | h
      · exact .inl List.mem_cons_self
      · exact (ih h).imp_left (List.mem_cons_of_mem _)
    · rcases List.mem_cons.1 h with rfl | h
      · exact .inr rfl
      · exact .inl h

theorem Descending.luaF_findupval {level new : Nat} {uvs : List OpenUpval} (h : Descending uvs) :
    Descending (luaF_findupval level new uvs) := by
  induction uvs with
  | nil => exact List.pairwise_singleton _ _
  | cons p rest ih =>
    obtain ⟨hp, hrest⟩ := List.pairwise_cons.1 h
    rw [Control.luaF_findupval]
    split_ifs with hge heq
    · exact h
    · refine List.pairwise_cons.2 ⟨fun uv huv => ?_, ih hrest⟩
      rcases mem_luaF_findupval huv with huv | rfl
      · exact hp uv huv
      · exact Nat.lt_of_le_of_ne hge (Ne.symm heq)
    · refine List.pairwise_cons.2 ⟨fun uv huv => ?_, h⟩
      rcases List.mem_cons.1 huv with rfl | huv
      · exact Nat.lt_of_not_le hge
      · exact Nat.lt_trans (hp uv huv) (Nat.lt_of_not_le hge)

theorem ids_luaF_findupval {level new : Nat} {uvs : List OpenUpval} (h : (ids uvs).Nodup)
    (hnew : ∀ uv ∈ uvs, uv.id ≠ new) : (ids (luaF_findupval level new uvs)).Nodup := by
  induction uvs with
  | nil => exact List.pairwise_singleton _ _
  | cons p rest ih =>
    obtain ⟨hp, hrest⟩ := List.nodup_cons.1 h
    have hfresh : new ∉ ids (p :: rest) := fun hmem => by
      obtain ⟨uv, huv, hid⟩ := List.mem_map.1 hmem
      exact hnew uv huv hid
    rw [luaF_findupval]
    split_ifs
    · exact h
    · refine List.nodup_cons.2
        ⟨fun hmem => ?_, ih hrest fun uv huv => hnew uv (List.mem_cons_of_mem _ huv)⟩
      obtain ⟨uv, huv, hid⟩ := List.mem_map.1 hmem
      rcases mem_luaF_findupval huv with huv | rfl
      · exact hp (hid ▸ List.mem_map_of_mem huv)
      · exact hnew p List.mem_cons_self hid.symm
    · exact List.nodup_cons.2 ⟨hfresh, h⟩

theorem filter_luaF_findupval {limit level new : Nat} (hle : limit ≤ level) (uvs : List OpenUpval) :
    (luaF_findupval level new uvs).filter (·.v < limit) = uvs.filter (·.v < limit) := by
  have hnew (rest : List OpenUpval) :
      (⟨level, new⟩ :: rest : List OpenUpval).filter (·.v < limit) = rest.filter (·.v < limit) :=
    List.filter_cons_of_neg (by simpa using hle)
  induction uvs with
  | nil => exact hnew []
  | cons p rest ih =>
    rw [luaF_findupval]
    split_ifs
    · rfl
    · rw [List.filter_cons, List.filter_cons, ih]
    · exact hnew (p :: rest)

/-! ## `luaF_close` -/

theorem closeLoop_fst (isdead : Nat → Bool) (stack : Nat → V) (level : Nat) (uvs : List OpenUpval)
    (closed : Nat → Option V) :
    (closeLoop isdead stack level uvs closed).1 = uvs.dropWhile (level ≤ ·.v) := by
  induction uvs generalizing closed with
  | nil => rfl
  | cons uv rest ih =>
    rw [closeLoop]
    by_cases h : uv.v ≥ level
    · rw [if_pos h, ih, List.dropWhile_cons_of_pos (by simpa using h)]
    · rw [if_neg h, List.dropWhile_cons_of_neg (by simpa using h)]

theorem openupval_luaF_close (isdead : Nat → Bool) (level : Nat) (s : State V) :
    (luaF_close isdead level s).openupval = s.openupval.dropWhile (level ≤ ·.v) :=
  closeLoop_fst _ _ _ _ _

/-- In a list that is in order, closing leaves the upvalues below the level. -/
theorem dropWhile_eq_filter {level : Nat} {uvs : List OpenUpval} (h : Descending uvs) :
    uvs.dropWhile (level ≤ ·.v) = uvs.filter (·.v < level) := by
  induction uvs with
  | nil => rfl
  | cons uv rest ih =>
    obtain ⟨huv, hrest⟩ := List.pairwise_cons.1 h
    by_cases hle : level ≤ uv.v
    · rw [List.dropWhile_cons_of_pos (by simpa using hle), ih hrest,
        List.filter_cons_of_neg (by simpa using hle)]
    · rw [List.dropWhile_cons_of_neg (by simpa using hle), List.filter_eq_self.2]
      intro uv' huv'
      rcases List.mem_cons.1 huv' with rfl | huv'
      · simpa using hle
      · simpa using Nat.lt_trans (huv uv' huv') (Nat.lt_of_not_le hle)

theorem filter_dropWhile {limit level : Nat} (hle : limit ≤ level) (uvs : List OpenUpval) :
    (uvs.dropWhile (level ≤ ·.v)).filter (·.v < limit) = uvs.filter (·.v < limit) := by
  induction uvs with
  | nil => rfl
  | cons uv rest ih =>
    by_cases h : level ≤ uv.v
    · rw [List.dropWhile_cons_of_pos (by simpa using h), ih,
        List.filter_cons_of_neg (by simpa using Nat.le_trans hle h)]
    · rw [List.dropWhile_cons_of_neg (by simpa using h)]

/-- The upvalues at or above the level are closed with the values of their slots, but for the dead
ones; the others are kept. -/
theorem closeLoop_snd (isdead : Nat → Bool) (stack : Nat → V) (level : Nat) {uvs : List OpenUpval}
    (closed : Nat → Option V) (h : Descending uvs) (hids : (ids uvs).Nodup) :
    (∀ uv ∈ uvs, level ≤ uv.v → isdead uv.id = false →
      (closeLoop isdead stack level uvs closed).2 uv.id = some (stack uv.v)) ∧
      ∀ id, (∀ uv ∈ uvs, level ≤ uv.v → uv.id ≠ id) →
        (closeLoop isdead stack level uvs closed).2 id = closed id := by
  induction uvs generalizing closed with
  | nil => exact ⟨fun uv huv => absurd huv List.not_mem_nil, fun _ _ => rfl⟩
  | cons p rest ih =>
    obtain ⟨hp, hrest⟩ := List.pairwise_cons.1 h
    obtain ⟨hpid, hids⟩ := List.nodup_cons.1 hids
    rw [closeLoop]
    by_cases hge : p.v ≥ level
    · rw [if_pos hge]
      obtain ⟨hclosed, hkept⟩ := ih
        (if isdead p.id then closed else Function.update closed p.id (some (stack p.v))) hrest hids
      have hother (uv : OpenUpval) (huv : uv ∈ rest) : uv.id ≠ p.id := fun he =>
        hpid (he ▸ List.mem_map_of_mem huv)
      refine ⟨fun uv huv hle hdead => ?_, fun id hid => ?_⟩
      · rcases List.mem_cons.1 huv with rfl | huv
        · rw [hkept _ fun uv huv _ => hother uv huv, if_neg (by rw [hdead]; exact Bool.false_ne_true),
            Function.update_self]
        · exact hclosed uv huv hle hdead
      · rw [hkept id fun uv huv => hid uv (List.mem_cons_of_mem _ huv)]
        split_ifs
        · rfl
        · exact Function.update_of_ne (Ne.symm (hid p List.mem_cons_self hge)) _ _
    · rw [if_neg hge]
      refine ⟨fun uv huv hle => ?_, fun _ _ => rfl⟩
      rcases List.mem_cons.1 huv with rfl | huv
      · exact absurd hle hge
      · exact absurd (Nat.le_of_lt (Nat.lt_of_le_of_lt hle (hp uv huv))) hge

theorem Descending.luaF_close {isdead : Nat → Bool} {level : Nat} {s : State V}
    (h : Descending s.openupval) : Descending (luaF_close isdead level s).openupval := by
  rw [openupval_luaF_close]
  exact List.Pairwise.sublist (List.dropWhile_sublist _) h

theorem ids_luaF_close {isdead : Nat → Bool} {level : Nat} {s : State V}
    (h : (ids s.openupval).Nodup) : (ids (luaF_close isdead level s).openupval).Nodup := by
  rw [openupval_luaF_close]
  exact List.Nodup.sublist ((List.dropWhile_sublist _).map _) h

end Luaxx.Control
