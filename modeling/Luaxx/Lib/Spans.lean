import Mathlib.Data.List.TakeWhile
import Mathlib.Tactic.Common
import Mathlib.Tactic.Ring

/-!
# Spans

A list is split where a condition first fails: what the loops of a scanner over one class of
characters do. The parts are known from the list put together (`span_eq`), and every list has them
(`exists_span`).
-/

namespace Luaxx.Spans

universe u

variable {α : Type u} (f : α → Bool)

theorem span_eq {v : List α} (rest : List α) (hv : ∀ c ∈ v, f c = true)
    (hrest : ∀ c, rest.head? = some c → f c = false) :
    (v ++ rest).takeWhile f = v ∧ (v ++ rest).dropWhile f = rest := by
  have hstop : rest.takeWhile f = [] ∧ rest.dropWhile f = rest := by
    cases rest with
    | nil => exact ⟨rfl, rfl⟩
    | cons c rest =>
      have hc := hrest c rfl
      exact ⟨List.takeWhile_cons_of_neg (by rw [hc]; exact Bool.false_ne_true),
        List.dropWhile_cons_of_neg (by rw [hc]; exact Bool.false_ne_true)⟩
  rw [List.takeWhile_append_of_pos hv, List.dropWhile_append_of_pos hv, hstop.1, hstop.2,
    List.append_nil]
  exact ⟨rfl, rfl⟩

theorem exists_span (p : List α) :
    ∃ v rest, p = v ++ rest ∧ (∀ c ∈ v, f c = true) ∧ ∀ c, rest.head? = some c → f c = false := by
  refine ⟨p.takeWhile f, p.dropWhile f, List.takeWhile_append_dropWhile.symm, fun c hc => ?_,
    fun c hc => ?_⟩
  · exact List.mem_takeWhile_imp hc
  · have := List.head?_dropWhile_not f p
    rw [hc] at this
    exact this

variable [DecidableEq α]

/-- Up to an element, which is the first of its kind. -/
theorem span_ne {c : α} {v : List α} (hv : c ∉ v) (rest : List α) :
    (v ++ c :: rest).takeWhile (fun d => decide (d ≠ c)) = v ∧
      (v ++ c :: rest).dropWhile (fun d => decide (d ≠ c)) = c :: rest := by
  refine span_eq _ (c :: rest) (fun d hd => ?_) fun d hd => ?_
  · rw [decide_eq_true_eq]
    rintro rfl
    exact hv hd
  · rw [← Option.some.inj hd, decide_eq_false_iff_not, not_not]

/-- Up to the end, where the element does not occur. -/
theorem span_ne_end {c : α} {v : List α} (hv : c ∉ v) :
    v.takeWhile (fun d => decide (d ≠ c)) = v ∧ v.dropWhile (fun d => decide (d ≠ c)) = [] := by
  have hspan := span_eq (fun d => decide (d ≠ c)) (v := v) []
    (fun d hd => by
      rw [decide_eq_true_eq]
      rintro rfl
      exact hv hd)
    fun d hd => nomatch hd
  rwa [List.append_nil] at hspan

end Luaxx.Spans
