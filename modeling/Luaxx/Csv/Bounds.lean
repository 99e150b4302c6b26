import Mathlib.Data.List.DropRight
import Mathlib.Data.List.GetD
import Luaxx.Csv.Csv

/-!
# The accesses of the reader

A line is split into fields as the reader splits it, without regard to any array (`fields`). The
reader stays inside the line, the array `field` and the block of flags exactly if each field it
comes to fits (`Field.Fits`) and has its flag. It comes to a field if no conversion before it fails.
-/

namespace Luaxx.Csv

open Luaxx.Result

/-! ## The fields of a line -/

/-- What `copy_field` takes, and what it leaves. -/
def copied (delim : UInt8) : List UInt8 → List UInt8 × List UInt8
  | [] => ([], [])
  | c :: p =>
    if c = delim then ([], c :: p)
    else match p with
      | q :: q' :: p' =>
        if q = QUOTE ∧ q' = QUOTE then
          let (text, rest) := copied delim p'
          (c :: QUOTE :: text, rest)
        else
          let (text, rest) := copied delim (q :: q' :: p')
          (c :: text, rest)
      | p =>
        let (text, rest) := copied delim p
        (c :: text, rest)

structure Field where
  quoted : Bool
  text : List UInt8
  /-- The rest of the line, from the delimiter or the closing quote. -/
  rest : List UInt8
  deriving DecidableEq, Repr

def firstField (delim : UInt8) (p : List UInt8) : Field :=
  let quoted := decide (p.head? = some QUOTE)
  let (text, rest) := copied (if quoted then QUOTE else delim) (if quoted then p.tail else p)
  ⟨quoted, text, rest⟩

namespace Field

/-- The field has its closing quote, if it needs one. -/
def Closed (f : Field) : Prop := f.quoted = true → f.rest ≠ []

instance (f : Field) : Decidable f.Closed := inferInstanceAs (Decidable (_ → _))

/-- Where the next field begins. -/
def next (f : Field) : Option (List UInt8) :=
  match f.quoted, f.rest with
  | false, _ :: p => some p
  | true, _ :: _ :: p => if p.length ≤ 1 then none else some p
  | _, _ => none

def isLineEnd (c : UInt8) : Bool := c = LF || c = CR

/-- The text without the end of the line. -/
def value (f : Field) : List UInt8 :=
  if f.next = none then f.text.rdropWhile isLineEnd else f.text

/-- The field fits the array, a character follows its closing quote, and where it is the last one
it does not only consist of an end of line. -/
structure Fits (f : Field) : Prop where
  short : f.text.length < MAXFIELD
  followed : f.quoted = true → f.rest.length ≠ 1
  trimmed : f.Closed → f.next = none → ∃ c ∈ f.text, isLineEnd c = false

end Field

variable {delim : UInt8} {p : List UInt8}

theorem length_copied_le (p : List UInt8) : (copied delim p).2.length ≤ p.length := by
  fun_induction copied delim p with
  | case1 => exact Nat.le_refl _
  | case2 => exact Nat.le_refl _
  | case3 c hc q q' p hq text rest heq ih =>
    rw [heq] at ih
    simp only [List.length_cons]
    exact Nat.le_trans ih (by omega)
  | case4 c hc q q' p hq text rest heq ih =>
    rw [heq] at ih
    exact Nat.le_succ_of_le ih
  | case5 c p hc hp text rest heq ih =>
    rw [heq] at ih
    exact Nat.le_succ_of_le ih

theorem length_rest_le (p : List UInt8) : (firstField delim p).rest.length ≤ p.length := by
  show (copied _ _).2.length ≤ _
  refine (length_copied_le _).trans ?_
  split_ifs
  · rw [List.length_tail]
    exact Nat.sub_le _ _
  · exact Nat.le_refl _

theorem Field.length_next_lt {f : Field} {p : List UInt8} (h : f.next = some p) :
    p.length < f.rest.length := by
  rw [next] at h
  split at h
  · next heq =>
    rw [heq, ← Option.some.inj h]
    exact Nat.lt_succ_self _
  · next heq =>
    split_ifs at h
    rw [heq, ← Option.some.inj h]
    exact Nat.lt_succ_of_lt (Nat.lt_succ_self _)
  · cases h

/-- The fields of a line. -/
def fields (delim : UInt8) (p : List UInt8) : List Field :=
  firstField delim p :: match _h : (firstField delim p).next with
    | none => []
    | some p' => fields delim p'
termination_by p.length
decreasing_by exact Nat.lt_of_lt_of_le (Field.length_next_lt _h) (length_rest_le p)

theorem fields_last (h : (firstField delim p).next = none) :
    fields delim p = [firstField delim p] := by
  rw [fields]
  split
  · rfl
  · next heq =>
    rw [h] at heq
    cases heq

theorem fields_cons {p' : List UInt8} (h : (firstField delim p).next = some p') :
    fields delim p = firstField delim p :: fields delim p' := by
  rw [fields]
  split
  · next heq =>
    rw [h] at heq
    cases heq
  · next heq =>
    rw [h] at heq
    cases heq
    rfl

/-! ## One field -/

theorem put_bind {β : Type} (field : List UInt8) (c : UInt8) (k : List UInt8 → Except Fault β) :
    (put field c >>= k) =
      if field.length < MAXFIELD then k (field ++ [c]) else .error .field := by
  rw [put]
  split_ifs <;> rfl

/-- A character more, in the terms of `copy_field_eq`. -/
theorem put_copied {field text rest : List UInt8} {c : UInt8} :
    (if field.length < MAXFIELD then
        if (field ++ [c]).length + text.length < MAXFIELD then
          Except.ok (field ++ [c] ++ text, rest)
        else .error Fault.field
      else .error .field) =
    if field.length + (c :: text).length < MAXFIELD then .ok (field ++ c :: text, rest)
    else .error .field := by
  rw [List.length_append, List.length_singleton, List.append_assoc, List.singleton_append,
    List.length_cons]
  split_ifs <;> first | rfl | omega

theorem copy_field_eq (field p : List UInt8) : copy_field delim field p =
    if field.length + (copied delim p).1.length < MAXFIELD then
      .ok (field ++ (copied delim p).1, (copied delim p).2)
    else .error .field := by
  fun_induction copied delim p generalizing field with
  | case1 =>
    rw [copy_field, put_bind, List.append_nil]
    rfl
  | case2 p =>
    rw [copy_field, if_pos rfl, put_bind, List.append_nil]
    rfl
  | case3 c hc q q' p hq text rest heq ih =>
    rw [heq] at ih
    rw [copy_field, if_neg hc, put_bind]
    simp only [if_pos hq, put_bind, ih]
    rw [put_copied, put_copied]
  | case4 c hc q q' p hq text rest heq ih =>
    rw [heq] at ih
    rw [copy_field, if_neg hc, put_bind]
    simp only [if_neg hq, ih]
    exact put_copied
  | case5 c hc p hp text rest heq ih =>
    rw [heq] at ih
    rw [copy_field, if_neg hc, put_bind]
    rcases p with _ | ⟨q, _ | ⟨q', p⟩⟩
    · rw [← put_copied, ← ih]
    · rw [← put_copied, ← ih]
    · exact (hp q q' p rfl).elim

/-- The loop that trims stops at a character that is no end of line. -/
theorem trimFrom_eq {text : List UInt8} {n : Nat} (hn : n ≤ text.length) : trimFrom text n =
    if ∃ c ∈ text.take n, Field.isLineEnd c = false then
      .ok ((text.take n).rdropWhile Field.isLineEnd)
    else .error .trim := by
  induction n with
  | zero =>
    rw [trimFrom, if_neg]
    rintro ⟨c, hc, -⟩
    exact absurd hc List.not_mem_nil
  | succ n ih =>
    have hlt : n < text.length := hn
    have htake : text.take (n + 1) = text.take n ++ [text[n]] := List.take_succ_eq_append_getElem hlt
    have hget : text.getD n 0 = text[n] := List.getD_eq_getElem _ _ hlt
    rw [trimFrom]
    simp only [hget]
    by_cases hend : text[n] = LF ∨ text[n] = CR
    · have hend' : Field.isLineEnd text[n] = true := by
        rw [Field.isLineEnd, Bool.or_eq_true, decide_eq_true_eq, decide_eq_true_eq]
        exact hend
      have hex : (∃ c ∈ text.take (n + 1), Field.isLineEnd c = false) ↔
          ∃ c ∈ text.take n, Field.isLineEnd c = false := by
        rw [htake]
        constructor
        · rintro ⟨c, hc, hno⟩
          rcases List.mem_append.mp hc with hc | hc
          · exact ⟨c, hc, hno⟩
          · rw [List.mem_singleton.mp hc, hend'] at hno
            cases hno
        · rintro ⟨c, hc, hno⟩
          exact ⟨c, List.mem_append_left _ hc, hno⟩
      rw [if_pos hend, ih (Nat.le_of_lt hlt), htake, List.rdropWhile_concat_pos _ _ _ hend', ← htake]
      simp only [hex]
    · have hend' : Field.isLineEnd text[n] = false := by
        rw [← Bool.not_eq_true, Field.isLineEnd, Bool.or_eq_true, decide_eq_true_eq,
          decide_eq_true_eq]
        exact hend
      rw [if_neg hend, if_pos ⟨text[n], htake ▸ List.mem_append_right _ List.mem_cons_self, hend'⟩,
        htake, List.rdropWhile_concat_neg _ _ _ (by rw [hend']; exact Bool.false_ne_true)]

theorem trim_line_end_eq (text : List UInt8) : trim_line_end text =
    if ∃ c ∈ text, Field.isLineEnd c = false then .ok (text.rdropWhile Field.isLineEnd)
    else .error .trim := by
  rw [trim_line_end, trimFrom_eq (Nat.le_refl _), List.take_length]

/-- The reader's way on from a field. -/
theorem readField_of_field (p : List UInt8) : readField delim p =
    let f := firstField delim p
    if f.text.length < MAXFIELD then
      match f.quoted, f.rest with
      | true, [] => .ok none
      | false, [] => (trim_line_end f.text).bind fun field => .ok (some (field, [], true))
      | false, _ :: p => .ok (some (f.text, p, false))
      | true, [_] => .error .line
      | true, _ :: _ :: p =>
        if p.length ≤ 1 then (trim_line_end f.text).bind fun field => .ok (some (field, p, true))
        else .ok (some (f.text, p, false))
    else .error .field := by
  have hcopy : ∀ (d : UInt8) (q : List UInt8), copy_field d [] q =
      if (copied d q).1.length < MAXFIELD then .ok (copied d q) else .error .field := by
    intro d q
    rw [copy_field_eq, List.length_nil, Nat.zero_add, List.nil_append]
  by_cases hquoted : p.head? = some QUOTE
  · simp only [readField, firstField, hquoted, if_true, hcopy, decide_true]
    by_cases hlt : (copied QUOTE p.tail).1.length < MAXFIELD
    · rw [if_pos hlt, if_pos hlt, ok_bind]
      generalize copied QUOTE p.tail = tr
      obtain ⟨text, rest⟩ := tr
      rcases rest with _ | ⟨c, _ | ⟨d, rest⟩⟩ <;> rfl
    · rw [if_neg hlt, if_neg hlt]
      rfl
  · simp only [readField, firstField, hquoted, if_false, hcopy, decide_false, Bool.false_eq_true]
    by_cases hlt : (copied delim p).1.length < MAXFIELD
    · rw [if_pos hlt, if_pos hlt, ok_bind]
      generalize copied delim p = tr
      obtain ⟨text, rest⟩ := tr
      rcases rest with _ | ⟨c, rest⟩ <;> rfl
    · rw [if_neg hlt, if_neg hlt]
      rfl

/-- The outcome for a field: it is read if it fits, and otherwise there is a fault. -/
def Reads (f : Field) (r : Except Fault (Option (List UInt8 × List UInt8 × Bool))) : Prop :=
  (f.Fits → ∃ q, r = .ok (if f.Closed then some (f.value, q, f.next.isNone) else none) ∧
    ∀ p', f.next = some p' → q = p') ∧
  (¬ f.Fits → ∃ e, r = .error e)

/-- The last field, which is trimmed. -/
theorem reads_last {f : Field} (hlt : f.text.length < MAXFIELD)
    (hfollowed : f.quoted = true → f.rest.length ≠ 1) (hclosed : f.Closed) (hnext : f.next = none)
    (q : List UInt8) :
    Reads f ((trim_line_end f.text).bind fun field => .ok (some (field, q, true))) := by
  have hvalue : f.value = f.text.rdropWhile Field.isLineEnd := if_pos hnext
  rw [trim_line_end_eq]
  by_cases hex : ∃ c ∈ f.text, Field.isLineEnd c = false
  · rw [if_pos hex]
    refine ⟨fun _ => ⟨q, ?_, fun p' hp' => ?_⟩, fun h => absurd ⟨hlt, hfollowed, fun _ _ => hex⟩ h⟩
    · rw [if_pos hclosed, hvalue, hnext]
      rfl
    · rw [hnext] at hp'
      cases hp'
  · rw [if_neg hex]
    exact ⟨fun h => absurd (h.trimmed hclosed hnext) hex, fun _ => ⟨_, rfl⟩⟩

theorem reads_next {f : Field} (hlt : f.text.length < MAXFIELD)
    (hfollowed : f.quoted = true → f.rest.length ≠ 1) (hclosed : f.Closed) {q : List UInt8}
    (hnext : f.next = some q) : Reads f (.ok (some (f.text, q, false))) := by
  have hvalue : f.value = f.text := by
    rw [Field.value, hnext]
    rfl
  refine ⟨fun _ => ⟨q, ?_, fun p' hp' => ?_⟩, fun h => absurd ⟨hlt, hfollowed, fun _ h => ?_⟩ h⟩
  · rw [if_pos hclosed, hvalue, hnext]
    rfl
  · rw [hnext] at hp'
    exact Option.some.inj hp'
  · rw [hnext] at h
    cases h

variable (delim) in
theorem reads_readField (p : List UInt8) : Reads (firstField delim p) (readField delim p) := by
  rw [readField_of_field]
  generalize firstField delim p = f
  obtain ⟨quoted, text, rest⟩ := f
  simp only
  by_cases hlt : text.length < MAXFIELD
  swap
  · rw [if_neg hlt]
    exact ⟨fun h => absurd h.short hlt, fun _ => ⟨_, rfl⟩⟩
  rw [if_pos hlt]
  cases quoted with
  | false =>
    rcases rest with _ | ⟨c, p⟩
    · exact reads_last (f := ⟨false, text, []⟩) hlt nofun nofun rfl []
    · exact reads_next (f := ⟨false, text, c :: p⟩) hlt nofun nofun rfl
  | true =>
    rcases rest with _ | ⟨c, _ | ⟨d, p⟩⟩
    · have hopen : ¬ (⟨true, text, []⟩ : Field).Closed := fun h => h rfl rfl
      refine ⟨fun _ => ⟨[], ?_, fun p' hp' => nomatch hp'⟩, fun h => absurd ⟨hlt, nofun, ?_⟩ h⟩
      · rw [if_neg hopen]
      · exact fun h => absurd h hopen
    · exact ⟨fun h => absurd rfl (h.followed rfl), fun _ => ⟨_, rfl⟩⟩
    · have hfollowed : (c :: d :: p).length ≠ 1 := by
        simp only [List.length_cons]
        omega
      show Reads _ (if p.length ≤ 1 then _ else _)
      by_cases hlen : p.length ≤ 1
      · rw [if_pos hlen]
        exact reads_last (f := ⟨true, text, c :: d :: p⟩) hlt (fun _ => hfollowed)
          (fun _ => List.cons_ne_nil _ _) (if_pos hlen) p
      · rw [if_neg hlen]
        exact reads_next (f := ⟨true, text, c :: d :: p⟩) hlt (fun _ => hfollowed)
          (fun _ => List.cons_ne_nil _ _) (if_neg hlen)

/-! ## The conversion -/

section

variable {Num : Type} (strtod : List UInt8 → Num × Nat)

/-- The conversion of the text fails, in a column that has been a number so far. -/
def Refused (cols : Option (List UInt8)) (k : Nat) (text : List UInt8) : Prop :=
  match cols with
  | none => False
  | some cols =>
    let flags := cols.getD k 0
    flags &&& CHECK ≠ 0 ∧ flags &&& NUMBER ≠ 0 ∧ text ≠ [] ∧
      ((strtod text).2 = 0 ∨ (strtod text).2 < text.length)

/-- The flag of column `k` is inside the block. -/
def HasFlag (cols : Option (List UInt8)) (k : Nat) : Prop :=
  match cols with
  | none => True
  | some cols => k < cols.length

/-- The flags from column `k` on are the same. -/
def SameFrom (k : Nat) (cols cols' : Option (List UInt8)) : Prop :=
  match cols, cols' with
  | none, none => True
  | some cols, some cols' => cols.length = cols'.length ∧ ∀ j, k ≤ j → cols[j]? = cols'[j]?
  | _, _ => False

variable {strtod} {zero : Num} {cols cols' : Option (List UInt8)} {k : Nat} {text : List UInt8}

theorem SameFrom.hasFlag (h : SameFrom k cols cols') (j : Nat) :
    HasFlag cols j ↔ HasFlag cols' j := by
  cases cols <;> cases cols'
  · rfl
  · exact h.elim
  · exact h.elim
  · rw [HasFlag, HasFlag, h.1]

theorem SameFrom.refused (h : SameFrom k cols cols') {j : Nat} (hj : k ≤ j) :
    Refused strtod cols j text ↔ Refused strtod cols' j text := by
  cases cols <;> cases cols'
  · rfl
  · exact h.elim
  · exact h.elim
  · simp only [Refused, List.getD_eq_getElem?_getD, h.2 j hj]

theorem sameFrom_refl : SameFrom k cols cols := by
  cases cols
  · trivial
  · exact ⟨rfl, fun _ _ => rfl⟩

theorem sameFrom_set {cols : List UInt8} {flags : UInt8} :
    SameFrom (k + 1) (some cols) (some (cols.set k flags)) := by
  refine ⟨List.length_set.symm, fun j hj => ?_⟩
  rw [List.getElem?_set_ne (by omega)]

variable (strtod zero) in
/-- A conversion needs the flag of its column, and changes no later one. -/
theorem convertField_spec (text : List UInt8) (k : Nat) (cols : Option (List UInt8)) :
    (¬ HasFlag cols k → ∃ e, convertField strtod zero text k cols = .error e) ∧
    (HasFlag cols k →
      (Refused strtod cols k text → convertField strtod zero text k cols = .ok none) ∧
      (¬ Refused strtod cols k text → ∃ cell cols', convertField strtod zero text k cols =
        .ok (some (cell, cols')) ∧ SameFrom (k + 1) cols cols')) := by
  cases cols with
  | none =>
    exact ⟨fun h => absurd trivial h,
      fun _ => ⟨fun h => h.elim, fun _ => ⟨_, _, rfl, trivial⟩⟩⟩
  | some cols =>
    constructor
    · intro h
      have hget : cols[k]? = none := List.getElem?_eq_none (Nat.le_of_not_lt h)
      refine ⟨.cols, ?_⟩
      simp only [convertField, hget]
      rfl
    · intro h
      have hget : cols[k]? = some cols[k] := List.getElem?_eq_getElem h
      have hgetD : cols.getD k 0 = cols[k] := List.getD_eq_getElem _ _ h
      simp only [convertField, hget, ok_bind, Refused, hgetD]
      rcases hconv : strtod text with ⟨val, endp⟩
      simp only
      by_cases hcheck : cols[k] &&& CHECK ≠ 0
      swap
      · rw [if_neg hcheck]
        exact ⟨fun hr => absurd hr.1 hcheck, fun _ => ⟨_, _, rfl, sameFrom_refl⟩⟩
      rw [if_pos hcheck]
      by_cases hbad : endp = 0 ∨ endp < text.length
      swap
      · rw [if_neg hbad]
        exact ⟨fun hr => absurd hr.2.2.2 hbad, fun _ => ⟨_, _, rfl, sameFrom_set⟩⟩
      rw [if_pos hbad]
      by_cases hnumber : cols[k] &&& NUMBER ≠ 0
      swap
      · rw [if_neg hnumber]
        exact ⟨fun hr => absurd hr.2.1 hnumber, fun _ => ⟨_, _, rfl, sameFrom_set⟩⟩
      rw [if_pos hnumber]
      by_cases hne : text ≠ []
      · rw [if_pos hne]
        exact ⟨fun _ => rfl, fun hr => absurd ⟨hcheck, hnumber, hne, hbad⟩ hr⟩
      · rw [if_neg hne]
        exact ⟨fun hr => absurd hr.2.2.1 hne, fun _ => ⟨_, _, rfl, sameFrom_refl⟩⟩

/-! ## The line -/

/-- The fields from column `k` on that the reader comes to fit, and have their flag. -/
def InBounds (strtod : List UInt8 → Num × Nat) (cols : Option (List UInt8)) (k : Nat)
    (fs : List Field) : Prop :=
  ∀ i f, fs[i]? = some f →
    (∀ j g, j < i → fs[j]? = some g → ¬ Refused strtod cols (k + j) g.value) →
    f.Fits ∧ (f.Closed → HasFlag cols (k + i))

variable {f : Field} {fs : List Field}

theorem inBounds_nil : InBounds strtod cols k [] := fun _ _ h => nomatch h

theorem inBounds_cons : InBounds strtod cols k (f :: fs) ↔
    (f.Fits ∧ (f.Closed → HasFlag cols k)) ∧
      (¬ Refused strtod cols k f.value → InBounds strtod cols (k + 1) fs) := by
  constructor
  · intro h
    refine ⟨h 0 f rfl fun j _ hj => absurd hj (Nat.not_lt_zero j), fun hr i g hg hno => ?_⟩
    rw [Nat.add_right_comm]
    refine h (i + 1) g hg fun j g' hj hg' => ?_
    rcases j with _ | j
    · cases hg'
      exact hr
    · rw [← Nat.add_assoc, Nat.add_right_comm]
      exact hno j g' (by omega) hg'
  · rintro ⟨hhead, htail⟩ i g hg hno
    rcases i with _ | i
    · cases hg
      exact hhead
    · rw [← Nat.add_assoc, Nat.add_right_comm]
      refine htail (hno 0 f (Nat.succ_pos i) rfl) i g hg fun j g' hj hg' => ?_
      rw [Nat.add_right_comm]
      exact hno (j + 1) g' (by omega) hg'

theorem SameFrom.inBounds (h : SameFrom k cols cols') :
    InBounds strtod cols k fs ↔ InBounds strtod cols' k fs := by
  simp only [InBounds, h.refused (Nat.le_add_right k _), h.hasFlag]

/-- After a field has been converted. -/
theorem parseLoop_of_cell {fuel : Nat} {p q : List UInt8} {row : Row Num} {eoln : Bool}
    {cell : Cell Num} (hread : readField delim p = .ok (some (text, q, eoln)))
    (hconv : convertField strtod zero text (row.cells.length + 1) row.cols =
      .ok (some (cell, cols))) :
    parseLoop strtod zero delim (fuel + 1) p row =
      let row := ⟨(row.cells.length + 1 : Nat), row.cells ++ [cell], cols⟩
      if eoln then .ok row else parseLoop strtod zero delim fuel q row := by
  simp only [parseLoop, hread, ok_bind, hconv]
  rfl

/-- The loop of the reader, from any field on. -/
theorem parseLoop_ok_iff {fuel : Nat} {p : List UInt8} (hfuel : p.length < fuel) (row : Row Num) :
    (∃ row', parseLoop strtod zero delim fuel p row = .ok row') ↔
      InBounds strtod row.cols (row.cells.length + 1) (fields delim p) := by
  induction fuel generalizing p row with
  | zero => exact absurd hfuel (Nat.not_lt_zero _)
  | succ fuel ih =>
    have hreads := reads_readField delim p
    obtain ⟨hout, hflag⟩ := convertField_spec strtod zero
      (firstField delim p).value (row.cells.length + 1) row.cols
    obtain ⟨fs, hfs⟩ : ∃ fs, fields delim p = firstField delim p :: fs := ⟨_, fields.eq_1 delim p⟩
    rw [hfs, inBounds_cons]
    by_cases hfits : (firstField delim p).Fits
    swap
    · obtain ⟨e, he⟩ := hreads.2 hfits
      refine iff_of_false ?_ fun h => hfits h.1.1
      simp only [parseLoop, he, error_bind]
      exact nofun
    obtain ⟨q, hread, hq⟩ := hreads.1 hfits
    by_cases hclosed : (firstField delim p).Closed
    swap
    · rw [if_neg hclosed] at hread
      have hnil : fs = [] := by
        have hnext : (firstField delim p).next = none := by
          obtain ⟨hquoted, hrest⟩ : (firstField delim p).quoted = true ∧
              (firstField delim p).rest = [] := by
            simpa [Field.Closed] using hclosed
          rw [Field.next, hquoted, hrest]
        rw [fields_last hnext] at hfs
        exact (List.cons.inj hfs).2.symm
      refine iff_of_true ⟨{ row with n := 0 }, ?_⟩
        ⟨⟨hfits, fun h => absurd h hclosed⟩, fun _ => ?_⟩
      · simp only [parseLoop, hread, ok_bind]
        rfl
      · rw [hnil]
        exact inBounds_nil
    rw [if_pos hclosed] at hread
    by_cases hhas : HasFlag row.cols (row.cells.length + 1)
    swap
    · obtain ⟨e, he⟩ := hout hhas
      refine iff_of_false ?_ fun h => hhas (h.1.2 hclosed)
      simp only [parseLoop, hread, ok_bind, he, error_bind]
      exact nofun
    obtain ⟨href, hnref⟩ := hflag hhas
    by_cases hr : Refused strtod row.cols (row.cells.length + 1) (firstField delim p).value
    · refine iff_of_true ⟨{ row with n := -(row.cells.length + 1 : Nat) }, ?_⟩
        ⟨⟨hfits, fun _ => hhas⟩, fun h => absurd hr h⟩
      simp only [parseLoop, hread, ok_bind, href hr]
      rfl
    obtain ⟨cell, cols', hcell, hsame⟩ := hnref hr
    rw [parseLoop_of_cell hread hcell]
    cases hnext : (firstField delim p).next with
    | none =>
      rw [fields_last hnext] at hfs
      rw [← (List.cons.inj hfs).2]
      exact iff_of_true ⟨_, rfl⟩ ⟨⟨hfits, fun _ => hhas⟩, fun _ => inBounds_nil⟩
    | some p' =>
      obtain rfl := hq p' hnext
      rw [fields_cons hnext] at hfs
      rw [← (List.cons.inj hfs).2]
      have hlt := Nat.lt_of_lt_of_le (Field.length_next_lt hnext) (length_rest_le p)
      have hlen : (row.cells ++ [cell]).length = row.cells.length + 1 := List.length_append
      show (∃ row', parseLoop strtod zero delim fuel q _ = .ok row') ↔ _
      rw [ih (by omega), hlen, ← hsame.inBounds]
      exact ⟨fun h => ⟨⟨hfits, fun _ => hhas⟩, fun _ => h⟩, fun h => h.2 hr⟩

/-- A line is read without a fault exactly if the fields the reader comes to are in bounds. -/
theorem parse_csv_line_safe_iff (s : List UInt8) (delim : UInt8) (cols : Option (List UInt8)) :
    (∃ row : Row Num, parse_csv_line strtod zero (cstr s) delim cols = .ok row) ↔
      InBounds strtod cols 1 (fields delim (cstr s)) :=
  parseLoop_ok_iff (Nat.lt_succ_self _) _

/-- The line is read behind its end, the array is written behind its end and read before its
start, and a flag is missing for a column the header does not have. -/
theorem parse_csv_line_faults :
    parse_csv_line (fun _ => ((), 0)) () [97, 44, 34, 98, 34] 44 none = .error .line ∧
    parse_csv_line (fun _ => ((), 0)) () (List.replicate 512 97) 44 none = .error .field ∧
    parse_csv_line (fun _ => ((), 0)) () [97, 44] 44 none = .error .trim ∧
    parse_csv_line (fun _ => ((), 0)) () [97, 44, 98, 44, 99] 44 (some (readerCols 2)) =
      .error .cols := by
  refine ⟨?_, ?_, ?_, ?_⟩
  · decide
  · decide +kernel
  · decide
  · decide

end

end Luaxx.Csv
