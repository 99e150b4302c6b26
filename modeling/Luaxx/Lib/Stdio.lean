import Mathlib.Tactic.Common

/-!
# Streams of the C library

What is left of a stream is the list of its bytes. A stream is read line by line with `fgets`, which
takes at most one line, and less if the line does not fit in its buffer. A `Stream` also has the
indicator that `feof` tests, which a read sets when it tries to go past the last byte; no read
fails.
-/

namespace Luaxx.Stdio

def newline : UInt8 := 10

/-- What `fgets` takes with room for `n` bytes, and what it leaves. -/
def fgetsLine : Nat → List UInt8 → List UInt8 × List UInt8
  | 0, s => ([], s)
  | _ + 1, [] => ([], [])
  | n + 1, c :: s =>
    if c = newline then ([c], s)
    else
      let (line, rest) := fgetsLine n s
      (c :: line, rest)

/-- `fgets(buffer, size, f)`; there is nothing at the end of the stream. -/
def fgets (size : Nat) (s : List UInt8) : Option (List UInt8 × List UInt8) :=
  if s = [] then none else some (fgetsLine (size - 1) s)

/-- The lines of a text, each with its newline. -/
def lines : List UInt8 → List (List UInt8)
  | [] => []
  | c :: s =>
    if c = newline then [c] :: lines s
    else match lines s with
      | [] => [[c]]
      | l :: ls => (c :: l) :: ls

/-- A line before the rest of a text: only the last one may have no newline. -/
inductive IsLine : List UInt8 → List UInt8 → Prop
  | last {t : List UInt8} : t ≠ [] → newline ∉ t → IsLine t []
  | full {t s : List UInt8} : newline ∉ t → IsLine (t ++ [newline]) s

/-- The list of lines of a text. -/
inductive AreLines : List (List UInt8) → Prop
  | nil : AreLines []
  | cons {l : List UInt8} {ls : List (List UInt8)} : IsLine l ls.flatten → AreLines ls →
    AreLines (l :: ls)

theorem IsLine.ne_nil {l s : List UInt8} (h : IsLine l s) : l ≠ [] := by
  cases h with
  | last hne _ => exact hne
  | full _ => exact List.append_ne_nil_of_right_ne_nil _ (List.cons_ne_nil _ _)

theorem IsLine.cons {l s : List UInt8} (h : IsLine l s) {c : UInt8} (hc : c ≠ newline) :
    IsLine (c :: l) s := by
  have hmem : ∀ t : List UInt8, newline ∉ t → newline ∉ c :: t := by
    intro t ht hcons
    rcases List.mem_cons.mp hcons with h | h
    · exact hc h.symm
    · exact ht h
  cases h with
  | last hne ht => exact .last (List.cons_ne_nil _ _) (hmem l ht)
  | @full t _ ht =>
    rw [← List.cons_append]
    exact .full (hmem t ht)

theorem areLines_lines (s : List UInt8) : AreLines (lines s) ∧ (lines s).flatten = s := by
  induction s with
  | nil => exact ⟨.nil, rfl⟩
  | cons c s ih =>
    obtain ⟨hlines, hflatten⟩ := ih
    rw [lines]
    split
    · next hc =>
      rw [hc, List.flatten_cons, hflatten]
      exact ⟨.cons (IsLine.full List.not_mem_nil) hlines, rfl⟩
    · next hc =>
      split
      · next heq =>
        have hs : s = [] := by
          rw [← hflatten, heq]
          rfl
        have hnot : newline ∉ [c] := fun h => hc (List.mem_singleton.mp h).symm
        rw [hs]
        exact ⟨.cons (.last (List.cons_ne_nil _ _) hnot) .nil, rfl⟩
      · next l ls heq =>
        rw [heq] at hlines hflatten
        cases hlines with
        | cons hl hls =>
          refine ⟨.cons (hl.cons hc) hls, ?_⟩
          rw [← hflatten]
          rfl

/-! ## A line of a stream -/

theorem fgetsLine_append {t : List UInt8} (ht : newline ∉ t) {n : Nat} (hn : t.length ≤ n)
    (s : List UInt8) : fgetsLine n (t ++ s) =
      (t ++ (fgetsLine (n - t.length) s).1, (fgetsLine (n - t.length) s).2) := by
  induction t generalizing n with
  | nil => rfl
  | cons c t ih =>
    obtain ⟨n, rfl⟩ : ∃ m, n = m + 1 := ⟨n - 1, by simp only [List.length_cons] at hn; omega⟩
    have hc : c ≠ newline := fun h => ht (h ▸ List.mem_cons_self)
    have hlen : t.length ≤ n := Nat.le_of_succ_le_succ hn
    have hsub : n + 1 - (c :: t).length = n - t.length := Nat.add_sub_add_right n 1 t.length
    rw [List.cons_append, fgetsLine, if_neg hc, ih (fun h => ht (List.mem_cons_of_mem _ h)) hlen, hsub]
    rfl

theorem fgetsLine_length (n : Nat) (s : List UInt8) : (fgetsLine n s).1.length ≤ n := by
  induction n generalizing s with
  | zero => exact Nat.le_refl _
  | succ n ih =>
    cases s with
    | nil => exact Nat.zero_le _
    | cons c s =>
      rw [fgetsLine]
      split
      · exact Nat.succ_le_succ (Nat.zero_le n)
      · exact Nat.succ_le_succ (ih s)

theorem length_fgetsLine (n : Nat) (s : List UInt8) :
    (fgetsLine n s).1.length + (fgetsLine n s).2.length = s.length := by
  induction n generalizing s with
  | zero => exact Nat.zero_add _
  | succ n ih =>
    cases s with
    | nil => rfl
    | cons c s =>
      rw [fgetsLine]
      split
      · exact Nat.add_comm 1 _
      · have hlen := ih s
        simp only [List.length_cons]
        omega

/-- A line that fits is taken whole. -/
theorem fgets_line {l s : List UInt8} (h : IsLine l s) {size : Nat} (hsize : l.length < size) :
    fgets size (l ++ s) = some (l, s) := by
  have hne : l ++ s ≠ [] := List.append_ne_nil_of_left_ne_nil h.ne_nil s
  rw [fgets, if_neg hne]
  cases h with
  | last _ ht =>
    have hrest : ∀ n, fgetsLine n [] = ([], []) := by
      intro n
      cases n with
      | zero => rfl
      | succ n => rfl
    rw [fgetsLine_append ht (by omega), hrest, List.append_nil]
  | @full t _ ht =>
    rw [List.length_append, List.length_singleton] at hsize
    obtain ⟨m, hm⟩ : ∃ m, size - 1 - t.length = m + 1 := ⟨size - 1 - t.length - 1, by omega⟩
    rw [List.append_assoc, fgetsLine_append ht (by omega), hm]
    rfl

/-! ## Streams with an end-of-file indicator -/

structure Stream where
  rest : List UInt8
  eof : Bool
  /-- The indicator is set at the end of the stream only. -/
  atEnd : eof = true → rest = []
  deriving DecidableEq

namespace Stream

/-- A stream that has just been opened. -/
def opened (content : List UInt8) : Stream := ⟨content, false, fun h => absurd h Bool.false_ne_true⟩

/-- The read of a line stopped neither for want of room nor at a newline. -/
def cameUpShort (room : Nat) (line rest : List UInt8) : Bool :=
  rest = [] && line.length < room && line.getLast? != some newline

theorem cameUpShort_rest {room : Nat} {line rest : List UInt8}
    (h : cameUpShort room line rest = true) : rest = [] := by
  simp only [cameUpShort, Bool.and_eq_true, decide_eq_true_eq] at h
  exact h.1.1

def fgets (size : Nat) (f : Stream) : Option (List UInt8) × Stream :=
  match Stdio.fgets size f.rest with
  | none => (none, ⟨[], true, fun _ => rfl⟩)
  | some (line, rest) => (some line, ⟨rest, cameUpShort (size - 1) line rest, cameUpShort_rest⟩)

theorem drop_of_short {n : Nat} {f : Stream} (h : (f.eof || decide (f.rest.length < n)) = true) :
    f.rest.drop n = [] := by
  rcases Bool.or_eq_true_iff.mp h with heof | hshort
  · rw [f.atEnd heof, List.drop_nil]
  · exact List.drop_of_length_le (Nat.le_of_lt (of_decide_eq_true hshort))

/-- `fread(p, 1, n, f)`. -/
def fread (n : Nat) (f : Stream) : List UInt8 × Stream :=
  (f.rest.take n, ⟨f.rest.drop n, f.eof || decide (f.rest.length < n), drop_of_short⟩)

/-- `getc(f)`; `none` is `EOF`. -/
def getc (f : Stream) : Option UInt8 × Stream :=
  match f.rest with
  | [] => (none, ⟨[], true, fun _ => rfl⟩)
  | c :: rest => (some c, opened rest)

/-- `ungetc(c, f)`, which does nothing with `EOF`. -/
def ungetc (c : Option UInt8) (f : Stream) : Stream :=
  match c with
  | none => f
  | some c => opened (c :: f.rest)

def clearerr (f : Stream) : Stream := opened f.rest

theorem getc_ungetc_rest (f : Stream) : (ungetc f.getc.1 f.getc.2).rest = f.rest := by
  unfold getc
  split
  · next h => exact h.symm
  · next h => exact h.symm

theorem getc_isSome (f : Stream) : f.getc.1.isSome = true ↔ f.rest ≠ [] := by
  unfold getc
  split
  · next h => simp [h]
  · next h => simp [h]

/-- What is read does not depend on the indicator. -/
theorem fgets_congr (size : Nat) {f g : Stream} (h : f.rest = g.rest) : fgets size f = fgets size g := by
  rw [fgets, fgets, h]

theorem fread_congr (n : Nat) {f g : Stream} (h : f.rest = g.rest) :
    (fread n f).1 = (fread n g).1 ∧ (fread n f).2.rest = (fread n g).2.rest :=
  ⟨congrArg (List.take n) h, congrArg (List.drop n) h⟩

theorem fgets_length_le (size : Nat) (f : Stream) :
    (f.fgets size).2.rest.length ≤ f.rest.length := by
  rw [Stream.fgets, Stdio.fgets]
  split
  · next h => exact Nat.zero_le _
  · next line rest h =>
    split at h
    · exact absurd h (Option.some_ne_none _).symm
    · have hlen := length_fgetsLine (size - 1) f.rest
      simp only [Option.some.injEq] at h
      rw [h] at hlen
      exact Nat.le.intro (Nat.add_comm _ _ ▸ hlen)

/-- `fgets` takes at least one byte where there is one. -/
theorem fgets_some {size : Nat} (hsize : 2 ≤ size) {f : Stream} {line : List UInt8}
    (h : (fgets size f).1 = some line) : (fgets size f).2.rest.length < f.rest.length := by
  obtain ⟨n, rfl⟩ : ∃ n, size = n + 2 := ⟨size - 2, by omega⟩
  cases hrest : f.rest with
  | nil => simp [fgets, Stdio.fgets, hrest] at h
  | cons c rest =>
    have hlen := length_fgetsLine (n + 1) (c :: rest)
    have hpos : 0 < (fgetsLine (n + 1) (c :: rest)).1.length := by
      rw [fgetsLine]
      split
      · exact Nat.one_pos
      · exact Nat.succ_pos _
    have hfgets : (fgets (n + 2) f).2.rest = (fgetsLine (n + 1) (c :: rest)).2 := by
      rw [fgets, hrest, Stdio.fgets, if_neg (List.cons_ne_nil _ _)]
      rfl
    rw [hfgets]
    omega

end Stream

end Luaxx.Stdio
