import Luaxx.Csv.Reader
import Luaxx.Lib.Ctype

/-!
# The rows of a file

Each call of `read` is meant to take one line of the file: a line that is in order gives the table
of its row, any other gives nil and a message. The flags of the columns go with the reader from row
to row, and a column whose kind is known keeps it (`kind`).
-/

namespace Luaxx.Csv

open Luaxx.Stdio Luaxx.Result

/-! ## What is expected of the reader -/

def Cell.isNum {Num : Type} : Cell Num → Bool
  | str _ => false
  | num _ => true

section

variable {Num : Type} (strtod : List UInt8 → Num × Nat) (zero : Num)

/-- The whole text is a number. -/
def Numeric (text : List UInt8) : Prop := (strtod text).2 ≠ 0 ∧ text.length ≤ (strtod text).2

/-- What may stand in a row for a field. -/
inductive CellOf (f : Field) : Cell Num → Prop
  | str : CellOf f (.str f.value)
  | num : Numeric strtod f.value → CellOf f (.num (strtod f.value).1)
  | empty : f.value = [] → CellOf f (.num zero)

/-- A line that is to be reported: a quote is not closed, the number of columns is another than
expected, or a conversion fails. No number is expected of a reader that has none yet. -/
def Wrong (delim : UInt8) (nfield : Int) (cols : Option (List UInt8)) (line : List UInt8) : Prop :=
  let fs := fields delim (cstr line)
  (∃ f ∈ fs, ¬ f.Closed) ∨ (nfield ≠ 0 ∧ nfield ≠ fs.length) ∨
    ∃ i f, fs[i]? = some f ∧ Refused strtod cols (1 + i) f.value

/-- Successive calls of `read` take the lines one by one, and then find the end of the file. The
tables that they return are `rows`. -/
inductive ReadsLines : CsvData → List (List UInt8) → List (List (Cell Num)) → Prop
  | eof {data data' : CsvData} : data.file = some [] →
    l_read strtod zero data = .ok ([], data') → ReadsLines data [] []
  | row {data data' : CsvData} {line : List UInt8} {ls : List (List UInt8)} {cells : List (Cell Num)}
      {rows : List (List (Cell Num))} : data.file = some (line ++ ls.flatten) →
    ¬ Wrong strtod data.delim data.nfield data.cols line →
    l_read strtod zero data = .ok ([.table cells], data') →
    List.Forall₂ (CellOf strtod zero) (fields data.delim (cstr line)) cells →
    ReadsLines data' ls rows → ReadsLines data (line :: ls) (cells :: rows)
  | message {data data' : CsvData} {line : List UInt8} {ls : List (List UInt8)} {msg : String}
      {rows : List (List (Cell Num))} : data.file = some (line ++ ls.flatten) →
    Wrong strtod data.delim data.nfield data.cols line →
    l_read strtod zero data = .ok ([.nil, .string msg], data') → data'.nfield = data.nfield →
    ReadsLines data' ls rows → ReadsLines data (line :: ls) rows

end

/-- The values of a column are all numbers or all strings. -/
def Uniform {Num : Type} (rows : List (List (Cell Num))) : Prop :=
  ∀ row ∈ rows, ∀ row' ∈ rows, ∀ (k : Nat) (c c' : Cell Num), row[k]? = some c → row'[k]? = some c' →
    c.isNum = c'.isNum

/-- The lines that `read` is to return. -/
def dataLines (file : List UInt8) (headers : Bool) : List (List UInt8) :=
  if headers then (lines file).tail else lines file

/-! ## Lines in order -/

section

variable {Num : Type} (strtod : List UInt8 → Num × Nat)

/-- The flags after a field of column `k`. -/
def mark (cols : Option (List UInt8)) (k : Nat) (text : List UInt8) : Option (List UInt8) :=
  cols.map fun cols =>
    let flags := cols.getD k 0
    if flags &&& CHECK = 0 then cols
    else if (strtod text).2 = 0 ∨ (strtod text).2 < text.length then
      if flags &&& NUMBER ≠ 0 then cols else cols.set k 0
    else cols.set k (flags ||| NUMBER)

/-- The flags after the fields from column `k` on. -/
def markAll (cols : Option (List UInt8)) (k : Nat) : List Field → Option (List UInt8)
  | [] => cols
  | f :: fs => markAll (mark strtod cols k f.value) (k + 1) fs

/-- A line that fits in the buffer, without a fault, and in order. -/
structure CleanLine (delim : UInt8) (nfield : Int) (cols : Option (List UInt8)) (line : List UInt8) :
    Prop where
  short : line.length < BUFSZ
  right : ¬ Wrong strtod delim nfield cols line
  inBounds : InBounds strtod cols 1 (fields delim (cstr line))

/-- All lines are, with the flags that they leave. -/
def Clean (delim : UInt8) : Int → Option (List UInt8) → List (List UInt8) → Prop
  | _, _, [] => True
  | nfield, cols, line :: ls =>
    let fs := fields delim (cstr line)
    CleanLine strtod delim nfield cols line ∧ Clean delim fs.length (markAll strtod cols 1 fs) ls

end

variable {Num : Type} {strtod : List UInt8 → Num × Nat} {zero : Num} {delim : UInt8}
  {cols : Option (List UInt8)} {k : Nat} {f : Field} {fs : List Field} {line p : List UInt8}
  {nfield : Int} {data data' : CsvData} {ls : List (List UInt8)}

/-! ## A field in order -/

/-- The field is read and converted. -/
structure Good (strtod : List UInt8 → Num × Nat) (cols : Option (List UInt8)) (k : Nat) (f : Field) :
    Prop where
  fits : f.Fits
  closed : f.Closed
  flag : HasFlag cols k
  accepted : ¬ Refused strtod cols k f.value

/-- The kind of the column of which the flags are known. -/
def kind (flags : UInt8) : Option Bool :=
  if flags &&& CHECK = 0 then some false
  else if flags &&& NUMBER ≠ 0 then some true
  else none

def flagAt (cols : Option (List UInt8)) (k : Nat) : UInt8 :=
  match cols with
  | none => 0
  | some cols => cols.getD k 0

theorem kind_number {flags : UInt8} (h : flags &&& CHECK ≠ 0) :
    kind (flags ||| NUMBER) = some true := by
  revert h
  exact Luaxx.Ctype.forall_byte (P := fun flags => flags &&& CHECK ≠ 0 →
    kind (flags ||| NUMBER) = some true) (by decide) flags

theorem kind_zero : kind 0 = some false := rfl

theorem flagAt_set {cols : List UInt8} {flags : UInt8} (h : k < cols.length) :
    flagAt (some (cols.set k flags)) k = flags := by
  rw [flagAt, List.getD_eq_getElem?_getD, List.getElem?_set_self h]
  rfl

theorem flagAt_set_ne {cols : List UInt8} {flags : UInt8} {j : Nat} (h : j ≠ k) :
    flagAt (some (cols.set k flags)) j = flagAt (some cols) j := by
  rw [flagAt, flagAt, List.getD_eq_getElem?_getD, List.getD_eq_getElem?_getD,
    List.getElem?_set_ne (Ne.symm h)]

variable (zero) in
/-- A field is converted to a cell of the kind that its column has from then on. -/
theorem convertField_good (h : Good strtod cols k f) :
    ∃ cell, convertField strtod zero f.value k cols =
        .ok (some (cell, mark strtod cols k f.value)) ∧
      CellOf strtod zero f cell ∧ kind (flagAt (mark strtod cols k f.value) k) = some cell.isNum := by
  cases cols with
  | none => exact ⟨.str f.value, rfl, .str, kind_zero⟩
  | some cols =>
    have hlt : k < cols.length := h.flag
    have hget : cols[k]? = some cols[k] := List.getElem?_eq_getElem hlt
    have hgetD : cols.getD k 0 = cols[k] := List.getD_eq_getElem _ _ hlt
    have hflag : flagAt (some cols) k = cols[k] := hgetD
    have haccepted := h.accepted
    simp only [convertField, hget, ok_bind, mark, Option.map_some, hgetD]
    simp only [Refused, hgetD] at haccepted
    have hnumeric : Numeric strtod f.value ↔
        ¬ ((strtod f.value).2 = 0 ∨ (strtod f.value).2 < f.value.length) := by
      rw [Numeric, not_or, Nat.not_lt]
    have hnum : Numeric strtod f.value → CellOf strtod zero f (.num (strtod f.value).1) :=
      CellOf.num
    generalize strtod f.value = conv at haccepted hnum hnumeric ⊢
    obtain ⟨val, endp⟩ := conv
    dsimp only at haccepted hnum hnumeric ⊢
    by_cases hcheck : cols[k] &&& CHECK = 0
    · rw [if_neg (not_not.mpr hcheck), if_pos hcheck]
      refine ⟨_, rfl, .str, ?_⟩
      rw [hflag, kind, if_pos hcheck]
      rfl
    rw [if_pos hcheck, if_neg hcheck]
    by_cases hbad : endp = 0 ∨ endp < f.value.length
    swap
    · rw [if_neg hbad, if_neg hbad]
      refine ⟨_, rfl, hnum (hnumeric.mpr hbad), ?_⟩
      rw [flagAt_set hlt, kind_number hcheck]
      rfl
    rw [if_pos hbad, if_pos hbad]
    by_cases hnumber : cols[k] &&& NUMBER ≠ 0
    · have hempty : f.value = [] := by
        by_contra hne
        exact haccepted ⟨hcheck, hnumber, hne, hbad⟩
      rw [if_pos hnumber, if_neg (not_not.mpr hempty), if_pos hnumber]
      refine ⟨_, rfl, .empty hempty, ?_⟩
      rw [hflag, kind, if_neg hcheck, if_pos hnumber]
      rfl
    · rw [if_neg hnumber, if_neg hnumber]
      refine ⟨_, rfl, .str, ?_⟩
      rw [flagAt_set hlt, kind_zero]
      rfl

/-- A column of which the kind is known keeps it, and a field changes no other column. -/
theorem kind_mark (h : Good strtod cols k f) (j : Nat) :
    (kind (flagAt cols j) ≠ none →
      kind (flagAt (mark strtod cols k f.value) j) = kind (flagAt cols j)) ∧
    (j ≠ k → flagAt (mark strtod cols k f.value) j = flagAt cols j) := by
  cases cols with
  | none => exact ⟨fun _ => rfl, fun _ => rfl⟩
  | some cols =>
    have hlt : k < cols.length := h.flag
    have hset : ∀ flags : UInt8, j ≠ k → flagAt (some (cols.set k flags)) j = flagAt (some cols) j :=
      fun flags => flagAt_set_ne
    simp only [mark, Option.map_some]
    by_cases hcheck : cols.getD k 0 &&& CHECK = 0
    · rw [if_pos hcheck]
      exact ⟨fun _ => rfl, fun _ => rfl⟩
    rw [if_neg hcheck]
    by_cases hnumber : cols.getD k 0 &&& NUMBER ≠ 0
    · have hkind : kind (flagAt (some cols) k) = some true := by
        show kind (cols.getD k 0) = some true
        rw [kind, if_neg hcheck, if_pos hnumber]
      rw [if_pos hnumber]
      split
      · exact ⟨fun _ => rfl, fun _ => rfl⟩
      · refine ⟨fun _ => ?_, hset _⟩
        by_cases hj : j = k
        · rw [hj, flagAt_set hlt, kind_number hcheck, hkind]
        · rw [hset _ hj]
    · have hkind : kind (flagAt (some cols) k) = none := by
        show kind (cols.getD k 0) = none
        rw [kind, if_neg hcheck, if_neg hnumber]
      rw [if_neg hnumber]
      have hne : kind (flagAt (some cols) j) ≠ none → j ≠ k := by
        intro h hj
        rw [hj, hkind] at h
        exact h rfl
      split
      · exact ⟨fun h => by rw [hset _ (hne h)], hset _⟩
      · exact ⟨fun h => by rw [hset _ (hne h)], hset _⟩

theorem hasFlag_mark (cols : Option (List UInt8)) (k : Nat) (text : List UInt8) :
    SameFrom (k + 1) cols (mark strtod cols k text) := by
  cases cols with
  | none => trivial
  | some cols =>
    simp only [mark, Option.map_some]
    split
    · exact sameFrom_refl
    · split
      · split
        · exact sameFrom_refl
        · exact sameFrom_set
      · exact sameFrom_set

/-! ## A line in order -/

/-- The fields from column `k` on are. -/
def GoodFrom (strtod : List UInt8 → Num × Nat) (cols : Option (List UInt8)) (k : Nat)
    (fs : List Field) : Prop :=
  ∀ i f, fs[i]? = some f → Good strtod cols (k + i) f

theorem SameFrom.goodFrom {cols' : Option (List UInt8)} (h : SameFrom k cols cols')
    (hgood : GoodFrom strtod cols k fs) : GoodFrom strtod cols' k fs := by
  intro i f hf
  obtain ⟨fits, closed, flag, accepted⟩ := hgood i f hf
  refine ⟨fits, closed, (h.hasFlag (k + i)).mp flag, fun hr => accepted ?_⟩
  exact (h.refused (Nat.le_add_right k i)).mpr hr

theorem goodFrom_cons (h : GoodFrom strtod cols k (f :: fs)) :
    Good strtod cols k f ∧ GoodFrom strtod (mark strtod cols k f.value) (k + 1) fs := by
  refine ⟨h 0 f rfl, (hasFlag_mark cols k f.value).goodFrom fun i g hg => ?_⟩
  rw [Nat.add_right_comm, Nat.add_assoc]
  exact h (i + 1) g hg

theorem CleanLine.good (h : CleanLine strtod delim nfield cols line) :
    GoodFrom strtod cols 1 (fields delim (cstr line)) := by
  intro i f hf
  have haccepted : ∀ j g, (fields delim (cstr line))[j]? = some g →
      ¬ Refused strtod cols (1 + j) g.value :=
    fun j g hg hr => h.right (.inr (.inr ⟨j, g, hg, hr⟩))
  have hclosed : f.Closed := by
    by_contra hopen
    exact h.right (.inl ⟨f, List.mem_of_getElem? hf, hopen⟩)
  obtain ⟨fits, flag⟩ := h.inBounds i f hf fun j g _ hg => haccepted j g hg
  exact ⟨fits, hclosed, flag hclosed, haccepted i f hf⟩

/-- What a row knows of the flags: from column `k` on, each cell has the kind of its column. -/
def Kinds (cols : Option (List UInt8)) (k : Nat) (cells : List (Cell Num)) : Prop :=
  ∀ i c, cells[i]? = some c → kind (flagAt cols (k + i)) = some c.isNum

theorem kind_markAll (h : GoodFrom strtod cols k fs) (j : Nat) :
    (kind (flagAt cols j) ≠ none →
      kind (flagAt (markAll strtod cols k fs) j) = kind (flagAt cols j)) ∧
    (j < k → flagAt (markAll strtod cols k fs) j = flagAt cols j) := by
  induction fs generalizing cols k with
  | nil => exact ⟨fun _ => rfl, fun _ => rfl⟩
  | cons f fs ih =>
    obtain ⟨hgood, hrest⟩ := goodFrom_cons h
    obtain ⟨hkind, hsame⟩ := kind_mark hgood j
    obtain ⟨ihkind, ihsame⟩ := ih hrest
    rw [markAll]
    refine ⟨fun hne => ?_, fun hlt => ?_⟩
    · rw [ihkind (by rw [hkind hne]; exact hne), hkind hne]
    · rw [ihsame (by omega), hsame (by omega)]

variable (zero) in
/-- The loop over the fields of a line in order. -/
theorem parseLoop_good {fuel : Nat} (hfuel : p.length < fuel) (row : Row Num)
    (h : GoodFrom strtod row.cols (row.cells.length + 1) (fields delim p)) :
    ∃ cells, List.Forall₂ (CellOf strtod zero) (fields delim p) cells ∧
      Kinds (markAll strtod row.cols (row.cells.length + 1) (fields delim p))
        (row.cells.length + 1) cells ∧
      parseLoop strtod zero delim fuel p row =
        .ok ⟨(row.cells.length + (fields delim p).length : Nat), row.cells ++ cells,
          markAll strtod row.cols (row.cells.length + 1) (fields delim p)⟩ := by
  induction fuel generalizing p row with
  | zero => exact absurd hfuel (Nat.not_lt_zero _)
  | succ fuel ih =>
    obtain ⟨fs, hfs⟩ : ∃ fs, fields delim p = firstField delim p :: fs := ⟨_, fields.eq_1 delim p⟩
    rw [hfs] at h ⊢
    obtain ⟨hgood, hrest⟩ := goodFrom_cons h
    obtain ⟨q, hread, hq⟩ := (reads_readField delim p).1 hgood.fits
    rw [if_pos hgood.closed] at hread
    obtain ⟨cell, hconv, hcell, hkind⟩ := convertField_good zero hgood
    rw [parseLoop_of_cell hread hconv]
    cases hnext : (firstField delim p).next with
    | none =>
      rw [fields_last hnext] at hfs
      obtain rfl : fs = [] := (List.cons.inj hfs).2.symm
      refine ⟨[cell], .cons hcell .nil, ?_, rfl⟩
      intro i c hc
      cases i with
      | zero =>
        cases hc
        exact hkind
      | succ i => cases hc
    | some p' =>
      obtain rfl := hq p' hnext
      rw [fields_cons hnext] at hfs
      obtain rfl : fs = fields delim q := (List.cons.inj hfs).2.symm
      have hlt := Nat.lt_of_lt_of_le (Field.length_next_lt hnext) (length_rest_le p)
      have hlen : (row.cells ++ [cell]).length = row.cells.length + 1 := List.length_append
      have hsum : row.cells.length + 1 + (fields delim q).length =
          row.cells.length + (firstField delim p :: fields delim q).length := by
        rw [List.length_cons]
        omega
      obtain ⟨cells, hcells, hkinds, hloop⟩ := ih (p := q) (by omega)
        ⟨(row.cells.length + 1 : Nat), row.cells ++ [cell],
          mark strtod row.cols (row.cells.length + 1) (firstField delim p).value⟩
        (by rw [hlen]; exact hrest)
      simp only [hlen, hsum, List.append_assoc, List.singleton_append] at hkinds hloop
      refine ⟨cell :: cells, .cons hcell hcells, ?_, hloop⟩
      intro i c hc
      cases i with
      | zero =>
        cases hc
        have hsettled := kind_markAll hrest (row.cells.length + 1)
        rw [markAll, Nat.add_zero, hsettled.2 (Nat.lt_succ_self _)]
        exact hkind
      | succ i =>
        have hindex : row.cells.length + 1 + (i + 1) = row.cells.length + 1 + 1 + i := by omega
        rw [hindex, markAll]
        exact hkinds i c hc

/-! ## One call -/

/-- The reader after a row. -/
def CsvData.next (strtod : List UInt8 → Num × Nat) (data : CsvData) (line rest : List UInt8) :
    CsvData :=
  let fs := fields data.delim (cstr line)
  { data with file := some rest, nfield := fs.length, cols := markAll strtod data.cols 1 fs
              line := data.line + 1 }

theorem fields_length_pos (delim : UInt8) (p : List UInt8) : 0 < (fields delim p).length := by
  rw [fields]
  exact Nat.succ_pos _

variable (zero) in
/-- A line in order gives its row. -/
theorem l_read_clean {rest : List UInt8} (hfile : data.file = some (line ++ rest))
    (hline : IsLine line rest)
    (h : CleanLine strtod data.delim data.nfield data.cols line) :
    ∃ cells, List.Forall₂ (CellOf strtod zero) (fields data.delim (cstr line)) cells ∧
      Kinds (data.next strtod line rest).cols 1 cells ∧
      l_read strtod zero data = .ok ([.table cells], data.next strtod line rest) := by
  obtain ⟨cells, hcells, hkinds, hloop⟩ := parseLoop_good zero
    (Nat.lt_succ_self (cstr line).length) ⟨0, [], data.cols⟩ h.good
  have hcount : data.nfield = 0 ∨ data.nfield = (fields data.delim (cstr line)).length := by
    by_contra hne
    rw [not_or] at hne
    exact h.right (.inr (.inl hne))
  have hpos := fields_length_pos data.delim (cstr line)
  simp only [List.length_nil, Nat.zero_add, List.nil_append] at hkinds hloop
  refine ⟨cells, hcells, hkinds, ?_⟩
  have hread : parse_csv_file strtod zero (line ++ rest) data.delim data.cols =
      .ok (⟨((fields data.delim (cstr line)).length : Nat), cells,
        markAll strtod data.cols 1 (fields data.delim (cstr line))⟩, rest) := by
    rw [parse_csv_file, fgets_line hline h.short]
    simp only [parse_csv_line, hloop]
    rfl
  rw [l_read, readline, hfile]
  simp only [hread, ok_bind]
  have hnonzero : ((fields data.delim (cstr line)).length : Int) ≠ 0 := by omega
  rw [report, if_neg hnonzero, CsvData.next]
  rcases hcount with hzero | heq
  · rw [if_neg (fun h => h.1 hzero), if_pos hzero]
    rfl
  · rw [if_neg (fun h => h.2 heq), if_neg (by rw [heq]; exact hnonzero)]
    simp only [heq]
    rfl

/-- Lua never receives two values, and the file is left as it is or closed. -/
theorem report_ok {n : Int} {table : Value Num} {push_error : Bool} {vs : List (Value Num)}
    (h : report data n table push_error = .ok (vs, data')) :
    vs.length ≤ 1 ∧ (data'.file = data.file ∨ data'.file = none) := by
  unfold report at h
  dsimp only at h
  generalize (if n < 0 then conversionFailed data.line (-n) else wrongNumber data.line n data.nfield)
    = msg at h
  split at h
  · cases h
    exact ⟨Nat.zero_le 1, .inr rfl⟩
  · split at h
    · split at h
      · cases h
        exact ⟨Nat.le_refl 1, .inl rfl⟩
      · cases h
    · split at h
      · cases h
        exact ⟨Nat.le_refl 1, .inl rfl⟩
      · cases h
        exact ⟨Nat.le_refl 1, .inl rfl⟩

theorem l_read_values {vs : List (Value Num)} (h : l_read strtod zero data = .ok (vs, data')) :
    vs.length ≤ 1 := by
  rw [l_read, readline] at h
  split at h
  · cases h
  · obtain ⟨⟨row, file⟩, -, h⟩ := bind_ok.mp h
    exact (report_ok h).1

/-- A call without a fault takes the line only if it fits, and then the accesses are in bounds. -/
theorem l_read_ok {rest : List UInt8} (hfile : data.file = some (line ++ rest))
    (hline : IsLine line rest) {vs : List (Value Num)}
    (h : l_read strtod zero data = .ok (vs, data')) (hrest : data'.file = some rest) :
    line.length < BUFSZ ∧ InBounds strtod data.cols 1 (fields data.delim (cstr line)) := by
  rw [l_read, readline, hfile] at h
  obtain ⟨⟨row, file⟩, hparse, hreport⟩ := bind_ok.mp h
  have hleft : file = rest := by
    rcases (report_ok hreport).2 with hsame | hclosed
    · rw [hrest] at hsame
      exact (Option.some.inj hsame).symm
    · rw [hrest] at hclosed
      cases hclosed
  rw [parse_csv_file] at hparse
  by_cases hshort : line.length < BUFSZ
  · refine ⟨hshort, ?_⟩
    rw [fgets_line hline hshort] at hparse
    obtain ⟨row, hrow, -⟩ := bind_ok.mp hparse
    cases hline : parse_csv_line strtod zero (cstr line) data.delim data.cols with
    | ok row => exact (parse_csv_line_safe_iff line data.delim data.cols).mp ⟨row, hline⟩
    | error e =>
      rw [hline] at hrow
      cases hrow
  · have hne : line ++ rest ≠ [] := List.append_ne_nil_of_left_ne_nil hline.ne_nil rest
    rw [fgets, if_neg hne] at hparse
    obtain ⟨row, -, hfile⟩ := bind_ok.mp hparse
    cases hfile
    have hlen := length_fgetsLine (BUFSZ - 1) (line ++ rest)
    have hle := fgetsLine_length (BUFSZ - 1) (line ++ rest)
    have hsize : BUFSZ = 1024 := rfl
    rw [hleft, List.length_append] at hlen
    omega

/-! ## All calls -/

theorem readsLines_file {rows : List (List (Cell Num))} (h : ReadsLines strtod zero data ls rows) :
    data.file = some ls.flatten := by
  cases h with
  | eof hfile _ => exact hfile
  | row hfile _ _ _ _ => exact hfile
  | message hfile _ _ _ _ => exact hfile

/-- Lines that are read are in order: none has been reported. -/
theorem clean_of_reads {rows : List (List (Cell Num))} (hls : AreLines ls)
    (h : ReadsLines strtod zero data ls rows) :
    Clean strtod data.delim data.nfield data.cols ls := by
  induction h with
  | eof _ _ => trivial
  | @row data data' line ls cells rows hfile hright hread hcells hrest ih =>
    cases hls with
    | cons hline hls =>
      obtain ⟨hshort, hbounds⟩ := l_read_ok hfile hline hread (readsLines_file hrest)
      have hclean : CleanLine strtod data.delim data.nfield data.cols line :=
        ⟨hshort, hright, hbounds⟩
      obtain ⟨cells', -, -, hread'⟩ := l_read_clean zero hfile hline hclean
      rw [hread] at hread'
      cases hread'
      exact ⟨hclean, ih hls⟩
  | message _ _ hread _ _ _ =>
    have hlen : 2 ≤ 1 := l_read_values hread
    exact absurd hlen (by decide)

/-- What the rows know of the flags before them. -/
def Agrees (cols : Option (List UInt8)) (cells : List (Cell Num)) : Prop :=
  ∀ i c, cells[i]? = some c → kind (flagAt cols (1 + i)) ≠ none →
    kind (flagAt cols (1 + i)) = some c.isNum

/-- Lines in order are read, and no column changes its kind. -/
theorem reads_of_clean (hls : AreLines ls) (hfile : data.file = some ls.flatten)
    (h : Clean strtod data.delim data.nfield data.cols ls) :
    ∃ rows, ReadsLines strtod zero data ls rows ∧ (∀ row ∈ rows, Agrees data.cols row) ∧
      Uniform rows := by
  induction ls generalizing data with
  | nil =>
    have hnil : ∀ {P : List (Cell Num) → Prop}, ∀ row ∈ ([] : List (List (Cell Num))), P row :=
      fun row h => absurd h List.not_mem_nil
    refine ⟨[], @ReadsLines.eof _ _ _ data { data with file := none } hfile ?_, hnil, hnil⟩
    rw [l_read, readline, hfile]
    rfl
  | cons line ls ih =>
    obtain ⟨hclean, hrest⟩ := h
    cases hls with
    | cons hline hls =>
      obtain ⟨cells, hcells, hkinds, hread⟩ := l_read_clean zero hfile hline hclean
      obtain ⟨rows, hreads, hagree, huniform⟩ :=
        @ih (data.next strtod line ls.flatten) hls rfl hrest
      have hsettled := kind_markAll hclean.good
      -- the flags after the row
      have hnext : ∀ j, flagAt (data.next strtod line ls.flatten).cols j =
          flagAt (markAll strtod data.cols 1 (fields data.delim (cstr line))) j := fun _ => rfl
      refine ⟨cells :: rows, .row hfile hclean.right hread hcells hreads, ?_, ?_⟩
      · intro row hrow i c hc hne
        have hkeep := (hsettled (1 + i)).1 hne
        rw [← hkeep, ← hnext]
        rcases List.mem_cons.mp hrow with rfl | hrow
        · exact hkinds i c hc
        · apply hagree row hrow i c hc
          rw [hnext, hkeep]
          exact hne
      · have hpair : ∀ row ∈ rows, ∀ (k : Nat) (c c' : Cell Num), cells[k]? = some c →
            row[k]? = some c' → c.isNum = c'.isNum := by
          intro row hrow k c c' hc hc'
          have hkind := hkinds k c hc
          have hne : kind (flagAt (data.next strtod line ls.flatten).cols (1 + k)) ≠ none := by
            rw [hkind]
            exact Option.some_ne_none _
          have hkind' := hagree row hrow k c' hc' hne
          rw [hkind] at hkind'
          exact Option.some.inj hkind'
        intro row hrow row' hrow' k c c' hc hc'
        rcases List.mem_cons.mp hrow with rfl | hmem
        · rcases List.mem_cons.mp hrow' with rfl | hmem'
          · rw [hc] at hc'
            cases hc'
            rfl
          · exact hpair row' hmem' k c c' hc hc'
        · rcases List.mem_cons.mp hrow' with rfl | hmem'
          · exact (hpair row hmem k c' c hc' hc).symm
          · exact huniform row hmem row' hmem' k c c' hc hc'

/-! ## The reader -/

/-- Where the reader stands after the header. -/
theorem l_reader_file {file : List UInt8} {headers try_convert : Bool} {header : List (Cell Num)}
    (h : l_reader strtod zero file delim headers try_convert = .ok (some (data, header))) :
    AreLines (dataLines file headers) ∧
      (data.file = some (dataLines file headers).flatten ↔
        (headers = true → ∀ line ∈ (lines file).head?, line.length < BUFSZ)) := by
  obtain ⟨hlines, hflatten⟩ := areLines_lines file
  cases headers with
  | false =>
    have hfile : data.file = some file := by
      rw [l_reader] at h
      cases try_convert with
      | false =>
        cases h
        rfl
      | true =>
        cases h
        rfl
    refine ⟨hlines, iff_of_true ?_ fun h => by cases h⟩
    show data.file = some (lines file).flatten
    rw [hfile, hflatten]
  | true =>
    rw [l_reader, if_pos rfl] at h
    obtain ⟨⟨row, rest⟩, hparse, h⟩ := bind_ok.mp h
    have hfile : data.file = some rest := by
      dsimp only at h
      split at h
      · cases h
      · cases try_convert with
        | false =>
          cases h
          rfl
        | true =>
          cases h
          rfl
    show AreLines (lines file).tail ∧ (data.file = some (lines file).tail.flatten ↔ _)
    rw [hfile]
    generalize lines file = ls at hlines hflatten
    cases hlines with
    | nil =>
      cases hflatten
      cases hparse
      exact ⟨.nil, iff_of_true rfl fun _ line h => by cases h⟩
    | @cons line ls hline hls =>
      refine ⟨hls, ?_⟩
      rw [List.flatten_cons] at hflatten
      have hne : file ≠ [] := by
        rw [← hflatten]
        exact List.append_ne_nil_of_left_ne_nil hline.ne_nil _
      have hrest : (fgetsLine (BUFSZ - 1) file).2 = rest := by
        rw [parse_csv_file, fgets, if_neg hne] at hparse
        obtain ⟨row, -, hfile⟩ := bind_ok.mp hparse
        cases hfile
        rfl
      show some rest = some ls.flatten ↔
        (true = true → ∀ l ∈ some line, l.length < BUFSZ)
      constructor
      · intro heq _ l hl
        cases hl
        have hlen := length_fgetsLine (BUFSZ - 1) file
        have hle := fgetsLine_length (BUFSZ - 1) file
        have hsize : BUFSZ = 1024 := rfl
        have hfile : file.length = line.length + ls.flatten.length := by
          rw [← hflatten, List.length_append]
        rw [hrest, Option.some.inj heq] at hlen
        omega
      · intro hshort
        have htake := fgets_line hline (hshort rfl line rfl)
        rw [hflatten, fgets, if_neg hne] at htake
        rw [← hrest]
        exact congrArg (fun r => some r.2) (Option.some.inj htake)

/-- The calls of `read` take the lines of the file one by one exactly if all lines, with the header,
fit in the buffer and are in order. -/
theorem csv_read_iff {file : List UInt8} {headers try_convert : Bool} {header : List (Cell Num)}
    (h : l_reader strtod zero file delim headers try_convert = .ok (some (data, header))) :
    (∃ rows, ReadsLines strtod zero data (dataLines file headers) rows ∧ Uniform rows) ↔
      (headers = true → ∀ line ∈ (lines file).head?, line.length < BUFSZ) ∧
        Clean strtod data.delim data.nfield data.cols (dataLines file headers) := by
  obtain ⟨hlines, hfile⟩ := l_reader_file h
  constructor
  · rintro ⟨rows, hreads, -⟩
    exact ⟨hfile.mp (readsLines_file hreads), clean_of_reads hlines hreads⟩
  · rintro ⟨hheader, hclean⟩
    obtain ⟨rows, hreads, -, huniform⟩ := reads_of_clean hlines (hfile.mpr hheader) hclean
    exact ⟨rows, hreads, huniform⟩

/-- A line with one column of two is reported by the message alone. -/
theorem csv_read_reports :
    let strtod : List UInt8 → Nat × Nat :=
      fun t => (t.foldl (fun n c => n * 10 + (c.toNat - 48)) 0, t.length)
    let file : List UInt8 := [97, 44, 98, 10, 49, 10, 50, 44, 51, 10]
    ∃ data data' header, l_reader strtod 0 file 44 true true = .ok (some (data, header)) ∧
      l_read strtod 0 data = .ok ([.string (wrongNumber 1 1 2)], data') ∧
      ¬ ∃ rows, ReadsLines strtod 0 data (dataLines file true) rows ∧ Uniform rows := by
  intro strtod file
  refine ⟨_, _, _, rfl, rfl, ?_⟩
  rintro ⟨rows, hreads, -⟩
  cases hreads with
  | row _ _ hread _ _ => cases hread
  | message _ _ hread _ _ => cases hread

theorem csv_read_iff_oneRow :
    let strtod : List UInt8 → Nat × Nat :=
      fun t => (t.foldl (fun n c => n * 10 + (c.toNat - 48)) 0, t.length)
    let file : List UInt8 := [49, 44, 50, 10]
    let data : CsvData := ⟨some file, 0, some (readerCols 0), 44, 1⟩
    (∃ rows, ReadsLines strtod 0 data (dataLines file false) rows ∧ Uniform rows) ↔
      (false = true → ∀ line ∈ (lines file).head?, line.length < BUFSZ) ∧
        Clean strtod data.delim data.nfield data.cols (dataLines file false) := by
  intro strtod file data
  exact @csv_read_iff Nat strtod 0 44 data file false true [] rfl

end Luaxx.Csv
