import Mathlib.Data.List.Basic
import Mathlib.Tactic.Common

/-!
# Lines of a text

A line ends at `\n`, at `\r\n`, or at a `\r` that no `\n` follows. The last line may have no end, and
is then not empty.
-/

namespace Luaxx.Lines

def newline : UInt8 := 10

def carriageReturn : UInt8 := 13

/-- The lines of a text, of whose first one some bytes have been taken. -/
def linesFrom (line : List UInt8) : List UInt8 → List (List UInt8)
  | [] => if line = [] then [] else [line]
  | 10 :: s => line :: linesFrom [] s
  | 13 :: 10 :: s => line :: linesFrom [] s
  | 13 :: s => line :: linesFrom [] s
  | c :: s => linesFrom (line ++ [c]) s

def lines (s : List UInt8) : List (List UInt8) := linesFrom [] s

def isPlain (c : UInt8) : Bool := c ≠ newline ∧ c ≠ carriageReturn

/-- A text without a line end. -/
def Plain (l : List UInt8) : Prop := ∀ c ∈ l, isPlain c

variable {line l s : List UInt8}

theorem lines_eq (s : List UInt8) : lines s = linesFrom [] s := rfl

theorem linesFrom_nil (line : List UInt8) : linesFrom line [] = if line = [] then [] else [line] :=
  rfl

theorem linesFrom_newline (line s : List UInt8) :
    linesFrom line (newline :: s) = line :: lines s := rfl

theorem linesFrom_crlf (line s : List UInt8) :
    linesFrom line (carriageReturn :: newline :: s) = line :: lines s := rfl

theorem linesFrom_return (line : List UInt8) (h : s.head? ≠ some newline) :
    linesFrom line (carriageReturn :: s) = line :: lines s := by
  rw [carriageReturn, linesFrom]
  · rfl
  · rintro t rfl
    exact h rfl

theorem linesFrom_other {c : UInt8} (hc : isPlain c) (line s : List UInt8) :
    linesFrom line (c :: s) = linesFrom (line ++ [c]) s := by
  rw [isPlain, decide_eq_true_eq] at hc
  rw [linesFrom]
  · exact hc.1
  · rintro t rfl
    exact absurd rfl hc.2
  · exact hc.2

theorem linesFrom_plain (hl : Plain l) (line s : List UInt8) :
    linesFrom line (l ++ s) = linesFrom (line ++ l) s := by
  induction l generalizing line with
  | nil => rw [List.nil_append, List.append_nil]
  | cons c l ih =>
    obtain ⟨hc, hl⟩ := List.forall_mem_cons.1 hl
    rw [List.cons_append, linesFrom_other hc, ih hl, List.append_assoc, List.singleton_append]

/-! ## The first line -/

theorem lines_last (hl : Plain l) (hne : l ≠ []) : lines l = [l] := by
  have h := linesFrom_plain hl [] []
  rw [List.append_nil, List.nil_append] at h
  rw [lines_eq, h, linesFrom_nil, if_neg hne]

theorem lines_newline (hl : Plain l) (s : List UInt8) : lines (l ++ newline :: s) = l :: lines s := by
  rw [lines_eq, linesFrom_plain hl, linesFrom_newline, List.nil_append]

theorem lines_crlf (hl : Plain l) (s : List UInt8) :
    lines (l ++ carriageReturn :: newline :: s) = l :: lines s := by
  rw [lines_eq, linesFrom_plain hl, linesFrom_crlf, List.nil_append]

theorem lines_return (hl : Plain l) (hs : s.head? ≠ some newline) :
    lines (l ++ carriageReturn :: s) = l :: lines s := by
  rw [lines_eq, linesFrom_plain hl, linesFrom_return _ hs, List.nil_append]

/-- A text by its first line, and how that ends. -/
inductive Divided : List UInt8 → Prop
  | nil : Divided []
  | last {l : List UInt8} (hl : Plain l) (hne : l ≠ []) : Divided l
  | newline {l : List UInt8} (hl : Plain l) (s : List UInt8) : Divided (l ++ newline :: s)
  | crlf {l : List UInt8} (hl : Plain l) (s : List UInt8) :
    Divided (l ++ carriageReturn :: Lines.newline :: s)
  | ended {l : List UInt8} (hl : Plain l) : Divided (l ++ [carriageReturn])
  | lone {l : List UInt8} (hl : Plain l) {c : UInt8} (hc : c ≠ Lines.newline) (s : List UInt8) :
    Divided (l ++ carriageReturn :: c :: s)

theorem plain_nil : Plain [] := by
  rintro c ⟨⟩

theorem Plain.cons {c : UInt8} (hc : isPlain c) (hl : Plain l) : Plain (c :: l) :=
  List.forall_mem_cons.2 ⟨hc, hl⟩

theorem divided (s : List UInt8) : Divided s := by
  induction s with
  | nil => exact .nil
  | cons c s ih =>
    by_cases hn : c = newline
    · rw [hn]
      exact .newline plain_nil s
    by_cases hr : c = carriageReturn
    · rw [hr]
      cases s with
      | nil => exact .ended plain_nil
      | cons d s =>
        by_cases hd : d = newline
        · rw [hd]
          exact .crlf plain_nil s
        · exact .lone plain_nil hd s
    have hc : isPlain c := decide_eq_true ⟨hn, hr⟩
    cases ih with
    | nil => exact .last (plain_nil.cons hc) (List.cons_ne_nil c [])
    | last hl hne => exact .last (hl.cons hc) (List.cons_ne_nil c _)
    | newline hl s => exact .newline (hl.cons hc) s
    | crlf hl s => exact .crlf (hl.cons hc) s
    | ended hl => exact .ended (hl.cons hc)
    | lone hl hd s => exact .lone (hl.cons hc) hd s

/-! ## Counting -/

theorem filter_plain (hl : Plain l) : l.filter isPlain = l := List.filter_eq_self.2 hl

/-- What has been taken of the first line does not change how many there are. -/
theorem length_linesFrom (line : List UInt8) (h : s ≠ []) :
    (linesFrom line s).length = (lines s).length := by
  cases divided s with
  | nil => exact absurd rfl h
  | last hl hne =>
    have hfrom := linesFrom_plain hl line []
    rw [List.append_nil, linesFrom_nil, if_neg (List.append_ne_nil_of_right_ne_nil _ hne)] at hfrom
    rw [hfrom, lines_last hl hne]
    rfl
  | newline hl s =>
    rw [linesFrom_plain hl, linesFrom_newline, lines_newline hl]
    rfl
  | crlf hl s =>
    rw [linesFrom_plain hl, linesFrom_crlf, lines_crlf hl]
    rfl
  | ended hl =>
    rw [linesFrom_plain hl, linesFrom_return _ (by rintro ⟨⟩), lines_return hl (by rintro ⟨⟩)]
    rfl
  | @lone l hl c hc s =>
    have hs : (c :: s).head? ≠ some newline := fun h => hc (Option.some.inj h)
    rw [linesFrom_plain hl, linesFrom_return _ hs, lines_return hl hs]
    rfl

/-- A text does not have more lines without its first byte. -/
theorem length_lines_le (c : UInt8) (s : List UInt8) :
    (lines s).length ≤ (lines (c :: s)).length := by
  by_cases hn : c = newline
  · have hlines : lines (newline :: s) = [] :: lines s := linesFrom_newline [] s
    rw [hn, hlines, List.length_cons]
    exact Nat.le_succ _
  by_cases hr : c = carriageReturn
  · rw [hr]
    by_cases hs : s.head? = some newline
    · obtain ⟨t, rfl⟩ := List.head?_eq_some_iff.1 hs
      have hcrlf : lines (carriageReturn :: newline :: t) = [] :: lines t := linesFrom_crlf [] t
      have hnewline : lines (newline :: t) = [] :: lines t := linesFrom_newline [] t
      exact Nat.le_of_eq (by rw [hcrlf, hnewline])
    · have hlines : lines (carriageReturn :: s) = [] :: lines s := linesFrom_return [] hs
      rw [hlines, List.length_cons]
      exact Nat.le_succ _
  have hc : isPlain c := decide_eq_true ⟨hn, hr⟩
  by_cases hs : s = []
  · rw [hs]
    exact Nat.zero_le _
  · have hlines : lines (c :: s) = linesFrom [c] s := linesFrom_other hc [] s
    exact Nat.le_of_eq (by rw [hlines, length_linesFrom [c] hs])

theorem filter_ends (hl : Plain l) (s : List UInt8) :
    (l ++ newline :: s).filter isPlain = l ++ s.filter isPlain ∧
      (l ++ carriageReturn :: s).filter isPlain = l ++ s.filter isPlain := by
  rw [List.filter_append, List.filter_append, filter_plain hl]
  exact ⟨rfl, rfl⟩

/-- No byte but those of the line ends is lost. -/
theorem flatten_lines (s : List UInt8) : (lines s).flatten = s.filter isPlain := by
  induction hlen : s.length using Nat.strongRecOn generalizing s with
  | ind n ih =>
    have hrest (t : List UInt8) (ht : t.length < n) := ih t.length ht t rfl
    cases divided s with
    | nil => rfl
    | last hl hne => rw [lines_last hl hne, filter_plain hl, List.flatten_singleton]
    | newline hl s =>
      rw [List.length_append, List.length_cons] at hlen
      rw [lines_newline hl, (filter_ends hl s).1, List.flatten_cons, hrest s (by omega)]
    | crlf hl s =>
      rw [List.length_append, List.length_cons, List.length_cons] at hlen
      rw [lines_crlf hl, (filter_ends hl _).2, List.flatten_cons, hrest s (by omega)]
      rfl
    | ended hl =>
      rw [lines_return hl (by rintro ⟨⟩), (filter_ends hl []).2]
      rfl
    | @lone l hl c hc s =>
      have hs : (c :: s).head? ≠ some newline := fun h => hc (Option.some.inj h)
      rw [List.length_append, List.length_cons] at hlen
      rw [lines_return hl hs, (filter_ends hl (c :: s)).2, List.flatten_cons, hrest _ (by omega)]

end Luaxx.Lines
