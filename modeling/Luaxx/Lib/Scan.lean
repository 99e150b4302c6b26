import Mathlib.Data.List.Basic
import Mathlib.Tactic.Common
import Mathlib.Tactic.Ring

/-!
# Scanning a text

`find` says whether something begins at a position, and where it ends. A scan goes on behind what it
has found, and by one position where that is nothing or empty. What is found does not overlap, and
may be replaced.
-/

namespace Luaxx.Scan

universe u v

variable {γ : Type u} {α : Type v}

structure Found (γ : Type u) where
  start : Nat
  stop : Nat
  what : γ

/-- Where the scan goes on after something from `s` to `e`. -/
def resume (s e : Nat) : Nat := if s < e then e else s + 1

theorem lt_resume (s e : Nat) : s < resume s e := by
  unfold resume
  split_ifs <;> omega

section

variable (find : Nat → Option (Nat × γ)) (len : Nat)

/-- All that is found from position `s` on, in a text of length `len`. -/
def scan (s : Nat) : List (Found γ) :=
  if len < s then []
  else
    match find s with
    | some (e, c) => ⟨s, e, c⟩ :: scan (resume s e)
    | none => scan (s + 1)
termination_by len + 1 - s
decreasing_by
  · unfold resume
    split_ifs <;> omega
  · omega

end

variable {find : Nat → Option (Nat × γ)} {len s e : Nat} {c : γ}

theorem scan_end (h : len < s) : scan find len s = [] := by
  rw [scan, if_pos h]

theorem scan_found (hs : s ≤ len) (h : find s = some (e, c)) :
    scan find len s = ⟨s, e, c⟩ :: scan find len (resume s e) := by
  rw [scan, if_neg (Nat.not_lt.mpr hs)]
  simp only [h]

theorem scan_next (hs : s ≤ len) (h : find s = none) :
    scan find len s = scan find len (s + 1) := by
  rw [scan, if_neg (Nat.not_lt.mpr hs)]
  simp only [h]

/-- Induction along a scan. -/
theorem scan_induction {motive : Nat → Prop} (find : Nat → Option (Nat × γ)) (len : Nat)
    (hend : ∀ s, len < s → motive s)
    (hfound : ∀ s e c, s ≤ len → find s = some (e, c) → motive (resume s e) → motive s)
    (hnext : ∀ s, s ≤ len → find s = none → motive (s + 1) → motive s) (s : Nat) : motive s := by
  induction hk : len + 1 - s using Nat.strongRecOn generalizing s with
  | _ k ih =>
    by_cases hs : len < s
    · exact hend s hs
    · cases h : find s with
      | none => exact hnext s (by omega) h (ih _ (by omega) (s + 1) rfl)
      | some p =>
        obtain ⟨e, c⟩ := p
        have := lt_resume s e
        exact hfound s e c (by omega) h (ih _ (by omega) (resume s e) rfl)

/-- What is found ends in the text. -/
def Bounded (find : Nat → Option (Nat × γ)) (len : Nat) : Prop :=
  ∀ s e c, s ≤ len → find s = some (e, c) → s ≤ e ∧ e ≤ len

theorem scan_sound (hfind : Bounded find len) (s : Nat) : ∀ m ∈ scan find len s,
    s ≤ m.start ∧ m.start ≤ m.stop ∧ m.stop ≤ len ∧ find m.start = some (m.stop, m.what) := by
  induction s using scan_induction find len with
  | hend s hs =>
    rw [scan_end hs]
    exact fun m hm => absurd hm List.not_mem_nil
  | hfound s e c hs h ih =>
    rw [scan_found hs h]
    obtain ⟨hse, he⟩ := hfind s e c hs h
    intro m hm
    rcases List.mem_cons.mp hm with rfl | hm
    · exact ⟨Nat.le_refl s, hse, he, h⟩
    · obtain ⟨h1, h2⟩ := ih m hm
      have := lt_resume s e
      exact ⟨by omega, h2⟩
  | hnext s hs h ih =>
    rw [scan_next hs h]
    intro m hm
    obtain ⟨h1, h2⟩ := ih m hm
    exact ⟨by omega, h2⟩

/-- One after the other, without overlap. -/
def Before (a b : Found γ) : Prop := a.start < b.start ∧ a.stop ≤ b.start

theorem scan_pairwise (hfind : Bounded find len) (s : Nat) :
    (scan find len s).Pairwise Before := by
  induction s using scan_induction find len with
  | hend s hs =>
    rw [scan_end hs]
    exact List.Pairwise.nil
  | hfound s e c hs h ih =>
    rw [scan_found hs h]
    refine List.pairwise_cons.mpr ⟨fun m hm => ?_, ih⟩
    obtain ⟨h1, -⟩ := scan_sound hfind _ m hm
    have hle : e ≤ resume s e := by
      have := hfind s e c hs h
      unfold resume
      split_ifs <;> omega
    exact ⟨(lt_resume s e).trans_le h1, hle.trans h1⟩
  | hnext s hs h ih =>
    rw [scan_next hs h]
    exact ih

/-- What comes after the first one. -/
theorem scan_eq_cons {m : Found γ} {ms : List (Found γ)} :
    ∀ s, scan find len s = m :: ms →
      s ≤ m.start ∧ m.start ≤ len ∧ find m.start = some (m.stop, m.what) ∧
        ms = scan find len (resume m.start m.stop) := by
  intro s
  induction s using scan_induction find len with
  | hend s hs =>
    rw [scan_end hs]
    exact fun h => absurd h.symm (List.cons_ne_nil m ms)
  | hfound s e c hs h _ =>
    rw [scan_found hs h]
    intro heq
    obtain ⟨rfl, rfl⟩ := List.cons.inj heq
    exact ⟨Nat.le_refl s, hs, h, rfl⟩
  | hnext s hs h ih =>
    rw [scan_next hs h]
    intro heq
    obtain ⟨h1, h2⟩ := ih heq
    exact ⟨by omega, h2⟩

theorem length_scan_le (s : Nat) : (scan find len s).length ≤ len + 1 - s := by
  induction s using scan_induction find len with
  | hend s hs =>
    rw [scan_end hs]
    exact Nat.zero_le _
  | hfound s e c hs h ih =>
    have := lt_resume s e
    rw [scan_found hs h, List.length_cons]
    omega
  | hnext s hs h ih =>
    rw [scan_next hs h]
    omega

/-! ## Replacing -/

/-- The text from `pos` on, with what was found replaced. -/
def replaced (text : List α) (pos : Nat) : List (Found γ × List α) → List α
  | [] => text.drop pos
  | (m, piece) :: ms => (text.drop pos).take (m.start - pos) ++ piece ++ replaced text m.stop ms

/-- What is between the position and what is found first may be taken off. -/
theorem replaced_skip {text : List α} {pos pos' : Nat} {ms : List (Found γ × List α)}
    (hpos : pos ≤ pos') (hms : ∀ m ∈ ms, pos' ≤ m.1.start) :
    replaced text pos ms = (text.drop pos).take (pos' - pos) ++ replaced text pos' ms := by
  have hdrop : (text.drop pos).drop (pos' - pos) = text.drop pos' := by
    rw [List.drop_drop, Nat.add_sub_cancel' hpos]
  cases ms with
  | nil => rw [replaced, replaced, ← hdrop, List.take_append_drop]
  | cons m ms =>
    have hm := hms m List.mem_cons_self
    have hsplit : m.1.start - pos = (pos' - pos) + (m.1.start - pos') := by omega
    rw [replaced, replaced, hsplit, List.take_add, hdrop]
    simp only [List.append_assoc]

/-- Replaced by itself. -/
theorem replaced_self {text : List α} {pos : Nat} {ms : List (Found γ × List α)}
    (hpos : ∀ m ∈ ms, pos ≤ m.1.start) (hms : ∀ m ∈ ms, m.1.start ≤ m.1.stop)
    (hordered : (ms.map Prod.fst).Pairwise Before)
    (hself : ∀ m ∈ ms, m.2 = (text.drop m.1.start).take (m.1.stop - m.1.start)) :
    replaced text pos ms = text.drop pos := by
  induction ms generalizing pos with
  | nil => rfl
  | cons m ms ih =>
    obtain ⟨hm, hms⟩ := List.forall_mem_cons.mp hms
    obtain ⟨hp, hpos⟩ := List.forall_mem_cons.mp hpos
    obtain ⟨htext, hself⟩ := List.forall_mem_cons.mp hself
    rw [List.map_cons, List.pairwise_cons] at hordered
    obtain ⟨hbefore, hordered⟩ := hordered
    have hnext : ∀ m' ∈ ms, m.1.stop ≤ m'.1.start := fun m' hm' =>
      (hbefore m'.1 (List.mem_map_of_mem hm')).2
    rw [replaced, ih hnext hms hordered hself, htext]
    have h1 : (text.drop pos).drop (m.1.start - pos) = text.drop m.1.start := by
      rw [List.drop_drop, Nat.add_sub_cancel' hp]
    have h2 : (text.drop m.1.start).drop (m.1.stop - m.1.start) = text.drop m.1.stop := by
      rw [List.drop_drop, Nat.add_sub_cancel' hm]
    rw [← h2, List.append_assoc, List.take_append_drop, ← h1, List.take_append_drop]

end Luaxx.Scan
