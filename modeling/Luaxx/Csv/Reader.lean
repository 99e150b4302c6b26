import Luaxx.Csv.Bounds
import Luaxx.Lib.Stdio

/-!
# The reader of a file (`lcsvlib.c`)

A function of the library leaves values on the stack and returns how many of them, from the top,
Lua receives. The line counter, which only stands in messages, does not overflow here. The table
that the iterator of `rows` shares between its calls is left out.
-/

namespace Luaxx.Csv

open Luaxx.Stdio Luaxx.Result

def BUFSZ : Nat := 1024

structure CsvData where
  /-- What is left of the file, before `fclose`. -/
  file : Option (List UInt8)
  nfield : Int
  cols : Option (List UInt8)
  delim : UInt8
  line : Nat
  deriving DecidableEq, Repr

/-- What Lua receives. -/
inductive Value (Num : Type) where
  | nil
  | string (s : String)
  | table (cells : List (Cell Num))

/-- What ends a call without a result. -/
inductive Abort where
  | fault (f : Fault)
  /-- A use of the file after `fclose`. -/
  | closed
  /-- `lua_error`. -/
  | error (msg : String)
  deriving DecidableEq, Repr

def liftFault {α : Type} : Except Fault α → Except Abort α
  | .ok a => .ok a
  | .error f => .error (.fault f)

section

variable {Num : Type} (strtod : List UInt8 → Num × Nat) (zero : Num)

/-- The row, and what is left of the file. -/
def parse_csv_file (file : List UInt8) (delim : UInt8) (cols : Option (List UInt8)) :
    Except Abort (Row Num × List UInt8) :=
  match fgets BUFSZ file with
  | some (buffer, file) => do
    let row ← liftFault (parse_csv_line strtod zero (cstr buffer) delim cols)
    return (row, file)
  | none => return (⟨0, [], cols⟩, file)

/-- The values that Lua receives: `n` from the top of the stack, in order. -/
def results (stack : List (Value Num)) (n : Nat) : List (Value Num) := (stack.take n).reverse

/-- `l_reader` of a file that could be opened: the reader and the header, or `empty file`. -/
def l_reader (file : List UInt8) (delim : UInt8) (headers try_convert : Bool) :
    Except Abort (Option (CsvData × List (Cell Num))) := do
  let data : CsvData := ⟨some file, 0, none, delim, 1⟩
  let opened (data : CsvData) : CsvData :=
    if try_convert then { data with cols := some (readerCols data.nfield.toNat) } else data
  if headers then
    let (row, file) ← parse_csv_file strtod zero file delim none
    if row.n = 0 then return none
    else return some (opened { data with file := some file, nfield := row.n }, row.cells)
  else return some (opened data, [])

def conversionFailed (line : Nat) (field : Int) : String :=
  s!"line {line}: conversion failed on field {field}"

def wrongNumber (line : Nat) (n nfield : Int) : String :=
  s!"line {line}: wrong number of columns {n}, expecting {nfield}"

/-- What `readline` does with the result of `parse_csv_file`, the table being on the stack. -/
def report (data : CsvData) (n : Int) (table : Value Num) (push_error : Bool) :
    Except Abort (List (Value Num) × CsvData) :=
  if n = 0 then .ok (results [table] 0, { data with file := none })
  else if data.nfield ≠ 0 ∧ data.nfield ≠ n then
    let msg :=
      if n < 0 then conversionFailed data.line (-n) else wrongNumber data.line n data.nfield
    if push_error then
      .ok (results [.string msg, .nil, table] 1, { data with line := data.line + 1 })
    else .error (.error msg)
  else if data.nfield = 0 then
    .ok (results [table] 1, { data with nfield := n, line := data.line + 1 })
  else .ok (results [table] 1, { data with line := data.line + 1 })

/-- The values, and the reader after the call. -/
def readline (data : CsvData) (push_error : Bool) :
    Except Abort (List (Value Num) × CsvData) :=
  match data.file with
  | none => .error .closed
  | some file => do
    let (row, file) ← parse_csv_file strtod zero file data.delim data.cols
    report { data with file := some file, cols := row.cols } row.n (.table row.cells) push_error

def l_read (data : CsvData) : Except Abort (List (Value Num) × CsvData) :=
  readline strtod zero data true

def readr (data : CsvData) : Except Abort (List (Value Num) × CsvData) :=
  readline strtod zero data false

end

end Luaxx.Csv
