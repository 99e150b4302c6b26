import Mathlib.Data.List.Nodup
import Mathlib.Data.List.Perm.Basic
import Mathlib.Logic.Function.Basic
import Mathlib.Tactic.Common

/-!
# A free list in the cells it manages

The cells of an array are in use or free. A free cell holds the link to the next one, and cell 0 the
link to the first. A cell is taken from the front of the list, or from beyond the cells that there
are where the list is empty.
-/

namespace Luaxx.FreeList

universe u

variable {α : Type u} {link : Option Int → α} {c : Int → α} {n i r : Int} {v : α}
  {free : List Int}

/-- The links from cell `i` on. -/
def Threaded (link : Option Int → α) (c : Int → α) : Int → List Int → Prop
  | i, [] => c i = link none
  | i, r :: free => c i = link (some r) ∧ Threaded link c r free

theorem Threaded.congr {c' : Int → α} (h : Threaded link c i free) (hi : c' i = c i)
    (hfree : ∀ r ∈ free, c' r = c r) : Threaded link c' i free := by
  induction free generalizing i with
  | nil =>
    rw [Threaded, hi]
    exact h
  | cons r free ih =>
    obtain ⟨hr, hfree⟩ := List.forall_mem_cons.mp hfree
    obtain ⟨hlink, hrest⟩ := h
    exact ⟨hi.trans hlink, ih hrest hr hfree⟩

/-- The head of a list may be in another cell. -/
theorem Threaded.move {j : Int} {c' : Int → α} (h : Threaded link c i free) (hj : c' j = c i)
    (hfree : ∀ r ∈ free, c' r = c r) : Threaded link c' j free := by
  cases free with
  | nil => exact hj.trans h
  | cons r free =>
    obtain ⟨hr, hfree⟩ := List.forall_mem_cons.mp hfree
    exact ⟨hj.trans h.1, h.2.congr hr hfree⟩

/-- The cells from 1 to `n` are in use, with what they were taken for, or they are free. -/
structure Managed (link : Option Int → α) (c : Int → α) (n : Int) (live : List (Int × α))
    (free : List Int) : Prop where
  threaded : Threaded link c 0 free
  nodup : (live.map Prod.fst ++ free).Nodup
  cells : ∀ r, r ∈ live.map Prod.fst ++ free ↔ 0 < r ∧ r ≤ n
  held : ∀ p ∈ live, c p.1 = p.2

variable {live : List (Int × α)}

theorem Managed.pos_of_live (h : Managed link c n live free) {p : Int × α} (hp : p ∈ live) :
    0 < p.1 ∧ p.1 ≤ n :=
  (h.cells p.1).mp (List.mem_append_left _ (List.mem_map_of_mem hp))

theorem Managed.pos_of_free (h : Managed link c n live free) (hr : r ∈ free) : 0 < r ∧ r ≤ n :=
  (h.cells r).mp (List.mem_append_right _ hr)

/-- No cell is in use and free. -/
theorem Managed.ne (h : Managed link c n live free) {p : Int × α} (hp : p ∈ live) (hr : r ∈ free) :
    p.1 ≠ r := by
  rintro rfl
  exact (List.disjoint_of_nodup_append h.nodup) (List.mem_map_of_mem hp) hr

theorem managed_nil (hc : c 0 = link none) : Managed link c 0 [] [] where
  threaded := hc
  nodup := List.nodup_nil
  cells := fun _ => ⟨fun h => absurd h List.not_mem_nil, fun h => absurd h.1 (Int.not_lt.mpr h.2)⟩
  held := fun _ hp => absurd hp List.not_mem_nil

/-- The first free cell is taken. -/
theorem Managed.take (h : Managed link c n live (r :: free)) (v : α) :
    Managed link (Function.update (Function.update c 0 (c r)) r v) n ((r, v) :: live) free := by
  have hr := h.pos_of_free List.mem_cons_self
  have hperm : (((r, v) :: live).map Prod.fst ++ free).Perm (live.map Prod.fst ++ r :: free) := by
    rw [List.map_cons, List.cons_append]
    exact List.perm_middle.symm
  have hnotin : r ∉ free := (List.nodup_cons.mp h.nodup.of_append_right).1
  have hsame : ∀ i, i ≠ 0 → i ≠ r →
      Function.update (Function.update c 0 (c r)) r v i = c i := by
    intro i h0 hir
    rw [Function.update_of_ne hir, Function.update_of_ne h0]
  refine ⟨?_, hperm.nodup_iff.mpr h.nodup, fun i => hperm.mem_iff.trans (h.cells i), ?_⟩
  · refine h.threaded.2.move ?_ fun i hi => ?_
    · rw [Function.update_of_ne (by omega), Function.update_self]
    · have hpos := h.pos_of_free (List.mem_cons_of_mem r hi)
      exact hsame i (by omega) fun heq => hnotin (heq ▸ hi)
  · rintro p hp
    rcases List.mem_cons.mp hp with rfl | hp
    · exact Function.update_self ..
    · have hpos := h.pos_of_live hp
      rw [hsame p.1 (by omega) (h.ne hp List.mem_cons_self)]
      exact h.held p hp

/-- A new cell is taken. -/
theorem Managed.grow (h : Managed link c n live []) (hn : 0 ≤ n) (v : α) :
    Managed link (Function.update c (n + 1) v) (n + 1) ((n + 1, v) :: live) [] := by
  have hcells := h.cells
  simp only [List.append_nil] at hcells
  refine ⟨?_, ?_, fun r => ?_, ?_⟩
  · refine h.threaded.congr ?_ fun r hr => absurd hr List.not_mem_nil
    exact Function.update_of_ne (by omega) ..
  · have hnodup := h.nodup
    simp only [List.append_nil, List.map_cons] at hnodup ⊢
    refine List.nodup_cons.mpr ⟨fun hmem => ?_, hnodup⟩
    have := (hcells (n + 1)).mp hmem
    omega
  · rw [List.append_nil, List.map_cons, List.mem_cons, hcells]
    omega
  · intro p hp
    rcases List.mem_cons.mp hp with rfl | hp
    · exact Function.update_self ..
    · have hpos := h.pos_of_live hp
      rw [Function.update_of_ne (by omega)]
      exact h.held p hp

/-- A cell is put back. -/
theorem Managed.release [DecidableEq α] (h : Managed link c n live free) (hr : (r, v) ∈ live) :
    Managed link (Function.update (Function.update c r (c 0)) 0 (link (some r))) n
      (live.erase (r, v)) (r :: free) := by
  have hpos := h.pos_of_live hr
  have hlive : live.Perm ((r, v) :: live.erase (r, v)) := List.perm_cons_erase hr
  have hperm : ((live.erase (r, v)).map Prod.fst ++ r :: free).Perm (live.map Prod.fst ++ free) := by
    refine List.perm_middle.trans ?_
    rw [← List.cons_append]
    exact (hlive.map Prod.fst).symm.append_right free
  have hsame : ∀ i, i ≠ 0 → i ≠ r →
      Function.update (Function.update c r (c 0)) 0 (link (some r)) i = c i := by
    intro i h0 hir
    rw [Function.update_of_ne h0, Function.update_of_ne hir]
  have hnodup := hperm.nodup_iff.mpr h.nodup
  refine ⟨⟨Function.update_self .., ?_⟩, hnodup, fun i => hperm.mem_iff.trans (h.cells i), ?_⟩
  · refine h.threaded.move ?_ fun i hi => ?_
    · rw [Function.update_of_ne (by omega), Function.update_self]
    · have := h.pos_of_free hi
      exact hsame i (by omega) fun heq => h.ne hr hi heq.symm
  · intro p hp
    have hmem := List.mem_of_mem_erase hp
    have := h.pos_of_live hmem
    rw [hsame p.1 (by omega) fun heq => ?_]
    · exact h.held p hmem
    · refine List.disjoint_of_nodup_append hnodup (List.mem_map_of_mem hp) ?_
      rw [heq]
      exact List.mem_cons_self

end Luaxx.FreeList
