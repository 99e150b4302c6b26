import Luaxx.Auxlib.Buffer
import Luaxx.Lib.Result

/-!
# Comma-separated values (`lcsvlib.c`)

The line is a C string: a pointer into it is what is left of it before its NUL, so that `*p` is 0
at the empty list. An access outside the line, the array `field` or the block `cols` is a `Fault`.
What `strtod` does is a parameter: the number and the count of characters it has read.
-/

namespace Luaxx.Csv

open Luaxx.Auxlib

def MAXFIELD : Nat := 512
/-- `'"'`. -/
def QUOTE : UInt8 := 34
def LF : UInt8 := 10
def CR : UInt8 := 13

/-- `CHECK` and `NUMBER`. -/
def CHECK : UInt8 := 1
def NUMBER : UInt8 := 2

/-- The access that is outside. -/
inductive Fault where
  /-- A read after the terminating NUL of the line. -/
  | line
  /-- A write after `field[MAXFIELD-1]`. -/
  | field
  /-- A read of `field[-1]`. -/
  | trim
  /-- An access after the end of `cols`. -/
  | cols
  deriving DecidableEq, Repr

/-- The C string in a Lua string. -/
def cstr (s : List UInt8) : List UInt8 := s.takeWhile (· ≠ 0)

def strchr (s : List UInt8) (c : UInt8) : Bool := c == 0 || s.contains c

/-! ## Writing -/

section Writer

variable (room BUFSIZ : Nat)

/-- The loop that copies a string and doubles its quotes. -/
def putQuoted (B : luaL_Buffer) (str : List UInt8) : Option luaL_Buffer :=
  str.foldlM (fun B c => do
    let B ← luaL_addchar room BUFSIZ B c
    if c = QUOTE then luaL_addchar room BUFSIZ B QUOTE else return B) B

/-- A string, quoted if it contains a delimiter or a quote. -/
def putField (delim : UInt8) (B : luaL_Buffer) (str : List UInt8) : Option luaL_Buffer :=
  if strchr str delim || strchr str QUOTE then do
    let B ← luaL_addchar room BUFSIZ B QUOTE
    let B ← putQuoted room BUFSIZ B str
    luaL_addchar room BUFSIZ B QUOTE
  else luaL_addlstring room BUFSIZ B str

/-- The loop over the strings of the table, which stay on the stack. -/
def convertLoop (delim : UInt8) (B : luaL_Buffer) : List (List UInt8) → Option luaL_Buffer
  | [] => some B
  | str :: strs => do
    let L ← push room B.stack str
    let B ← putField room BUFSIZ delim { B with stack := L } (cstr str)
    let B ← if strs ≠ [] then luaL_addchar room BUFSIZ B delim else some B
    convertLoop delim B strs

/-- The string written for a table of strings; there is none if the stack overflows. -/
def convert_csv_line (strs : List (List UInt8)) (delim : UInt8) : Option (List UInt8) := do
  let B ← convertLoop room BUFSIZ delim (luaL_buffinit []) strs
  let B ← luaL_pushresult room B
  B.stack.head?

end Writer

/-! ## Reading -/

/-- `*field++ = c`. -/
def put (field : List UInt8) (c : UInt8) : Except Fault (List UInt8) :=
  if field.length < MAXFIELD then .ok (field ++ [c]) else .error .field

/-- The field, and what is left of the line. -/
def copy_field (delim : UInt8) : List UInt8 → List UInt8 → Except Fault (List UInt8 × List UInt8)
  | field, [] => do
    let _ ← put field 0
    return (field, [])
  | field, c :: p =>
    if c = delim then do
      let _ ← put field 0
      return (field, c :: p)
    else do
      let field ← put field c
      -- double-quotes are escaped by doubling-up
      match p with
      | q :: q' :: p' =>
        if q = QUOTE ∧ q' = QUOTE then do
          let field ← put field QUOTE
          copy_field delim field p'
        else copy_field delim field (q :: q' :: p')
      | p => copy_field delim field p

/-- `trim_line_end`, which looks at the character before the first `n`. -/
def trimFrom (field : List UInt8) : Nat → Except Fault (List UInt8)
  | 0 => .error .trim
  | n + 1 =>
    let c := field.getD n 0
    if c = LF ∨ c = CR then trimFrom field n else .ok (field.take (n + 1))

def trim_line_end (field : List UInt8) : Except Fault (List UInt8) := trimFrom field field.length

/-- What the loop of `parse_csv_line` takes from the line for one field: the text, the rest of the
line, and `eoln`. There is none where the closing quote is missing. -/
def readField (delim : UInt8) (p : List UInt8) :
    Except Fault (Option (List UInt8 × List UInt8 × Bool)) := do
  let quoted := p.head? = some QUOTE
  let (field, p) ← copy_field (if quoted then QUOTE else delim) [] (if quoted then p.tail else p)
  match p with
  | [] =>
    if quoted then return none
    else do
      let field ← trim_line_end field
      return some (field, [], true)
  | _ :: p =>
    if quoted then
      match p with
      | [] => .error .line
      | _ :: p =>
        if p.length ≤ 1 then do
          let field ← trim_line_end field
          return some (field, p, true)
        else return some (field, p, false)
    else return some (field, p, false)

/-- A value of a row. -/
inductive Cell (Num : Type) where
  | str (s : List UInt8)
  | num (v : Num)
  deriving DecidableEq, Repr

section Reader

variable {Num : Type} (strtod : List UInt8 → Num × Nat) (zero : Num)

/-- The conversion of a field. There is no value where it fails. -/
def convertField (field : List UInt8) (k : Nat) :
    Option (List UInt8) → Except Fault (Option (Cell Num × Option (List UInt8)))
  | none => return some (.str field, none)
  | some cols => do
    let flags ← (match cols[k]? with
      | some flags => .ok flags
      | none => .error .cols)
    if flags &&& CHECK ≠ 0 then
      let (val, endp) := strtod field
      -- no trailing space after a number
      if endp = 0 ∨ endp < field.length then
        if flags &&& NUMBER ≠ 0 then
          if field ≠ [] then return none
          else return some (.num zero, some cols)
        else return some (.str field, some (cols.set k 0))
      else return some (.num val, some (cols.set k (flags ||| NUMBER)))
    else return some (.str field, some cols)

/-- The result of `parse_csv_line`, the row it has set and the flags. -/
structure Row (Num : Type) where
  n : Int
  cells : List (Cell Num)
  cols : Option (List UInt8)
  deriving DecidableEq, Repr

/-- The loop over the fields. Each field but the last takes a character of the line, so that
`p.length + 1` iterations are enough. -/
def parseLoop (delim : UInt8) : Nat → List UInt8 → Row Num → Except Fault (Row Num)
  | 0, _, row => .ok row
  | fuel + 1, p, row => do
    let k := row.cells.length + 1
    match ← readField delim p with
    | none => return { row with n := 0 }
    | some (field, p, eoln) =>
      match ← convertField strtod zero field k row.cols with
      | none => return { row with n := -k }
      | some (cell, cols) =>
        let row := ⟨k, row.cells ++ [cell], cols⟩
        if eoln then return row else parseLoop delim fuel p row

def parse_csv_line (p : List UInt8) (delim : UInt8) (cols : Option (List UInt8)) :
    Except Fault (Row Num) :=
  parseLoop strtod zero delim (p.length + 1) p ⟨0, [], cols⟩

/-- `csv.parse` and `string.split`: the table, if any. -/
def l_parse (s : List UInt8) (delim : UInt8) : Except Fault (Option (List (Cell Num))) := do
  let row ← parse_csv_line strtod zero (cstr s) delim none
  return if row.n = 0 then none else some row.cells

end Reader

/-- The block `l_reader` allocates for the flags, with the number of columns of the header, or 0. -/
def readerCols (nfield : Nat) : List UInt8 :=
  List.replicate ((if nfield ≠ 0 then nfield else MAXFIELD) + 1) CHECK

end Luaxx.Csv
