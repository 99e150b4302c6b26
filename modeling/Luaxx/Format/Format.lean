import Luaxx.Lib.Ctype
import Luaxx.Lib.Memory
import Luaxx.Vm.Compare

/-!
# `string.format` (`lstrlib.c`)

A pointer into the format string is an offset: what is there up to the terminating NUL may be read.
The arrays `form` and `buff` are blocks of memory, of which nothing has been written at first. What
`sprintf` writes is a parameter, and the buffer of the result is the text that was added to it.
-/

namespace Luaxx.Format

open Luaxx.Ctype Luaxx.Memory Luaxx.Vm

/-- Maximum size of each formatted item. -/
def MAX_ITEM : Nat := 512

/-- Valid flags in a format specification. -/
def FLAGS : List UInt8 := chars "-+ #0"

inductive Stop where
  /-- `luaL_error`. -/
  | error (msg : String)
  /-- `luaL_argerror`. -/
  | argerror (arg : Nat) (extramsg : String)
  /-- The format string is read behind its terminating NUL. -/
  | overread
  /-- An array is written outside, or it is read there or where it has not been written. -/
  | overrun
  | outOfFuel
  deriving DecidableEq, Repr

abbrev M := Except Stop

/-- The build options, and what the C library does. -/
structure Libc where
  LUA_USELONGLONG : Bool
  /-- The text that `sprintf` writes by the specification, for a number that is cast first. -/
  sprintfNumber : List UInt8 → Number → List UInt8
  sprintfString : List UInt8 → List UInt8 → List UInt8
  lua_number2str : Number → List UInt8
  /-- `luaO_str2d`. -/
  str2d : List UInt8 → Option Number

variable (libc : Libc)

def LUA_INTFRMLEN : List UInt8 := if libc.LUA_USELONGLONG then chars "ll" else chars "l"

/-- Maximum size of each format specification; a `sizeof` counts the NUL. -/
def MAX_FORMAT : Nat := (FLAGS.length + 1) + ((LUA_INTFRMLEN libc).length + 1) + 10

/-! ## Arrays -/

/-- `x[i] = c`. -/
def put (x : Block) (i : Nat) (c : UInt8) : M Block :=
  match write x i c with
  | some x => pure x
  | none => throw .overrun

/-- The bytes of a string, and then its NUL. -/
def strcpy (x : Block) : Nat → List UInt8 → M Block
  | i, [] => put x i 0
  | i, c :: s => do
    let x ← put x i c
    strcpy x (i + 1) s

/-- The string that begins at the start of the block. -/
def cstring : Block → M (List UInt8)
  | some c :: x => if c = 0 then pure [] else do
    let s ← cstring x
    pure (c :: s)
  | _ => throw .overrun

/-- `strlen`. -/
def strlen (x : Block) : M Nat := do
  let s ← cstring x
  pure s.length

/-! ## Arguments -/

/-- `luaL_typerror`. -/
def luaL_typerror {α : Type} (arg : Nat) (tname : String) (v : TValue) : M α :=
  throw (.argerror arg (tname ++ " expected, got " ++ luaT_typenames.getD v.ttype ""))

def luaL_checknumber (arg : Nat) (v : TValue) : M Number :=
  match v with
  | .number n => pure n
  | .string s =>
    match libc.str2d s with
    | some n => pure n
    | none => luaL_typerror arg "number" v
  | v => luaL_typerror arg "number" v

def luaL_checklstring (arg : Nat) (v : TValue) : M (List UInt8) :=
  match v with
  | .string s => pure s
  | .number n => pure (libc.lua_number2str n)
  | v => luaL_typerror arg "string" v

/-- What `addquoted` adds for a character. -/
def quoteChar (c : UInt8) : List UInt8 :=
  if c = ch '"' ∨ c = ch '\\' ∨ c = ch '\n' then [ch '\\', c]
  else if c = ch '\r' then chars "\\r"
  else if c = 0 then chars "\\000"
  else [c]

/-- `addquoted`: what it adds. -/
def addquoted (s : List UInt8) : List UInt8 := ch '"' :: s.flatMap quoteChar ++ [ch '"']

/-! ## Specifications -/

section

variable (frmt : List UInt8)

/-- `*p`. -/
def read (p : Nat) : M UInt8 :=
  if p ≤ frmt.length then pure (frmt.getD p 0) else throw .overread

/-- The first loop of `scanformat`: skip flags. -/
def skipFlags : Nat → Nat → M Nat
  | 0, _ => throw .outOfFuel
  | fuel + 1, p => do
    let c ← read frmt p
    if c ≠ 0 ∧ FLAGS.contains c then skipFlags fuel (p + 1) else pure p

/-- `if (isdigit(uchar(*p))) p++` -/
def skipDigit (p : Nat) : M Nat := do
  let c ← read frmt p
  pure (if isdigit c then p + 1 else p)

/-- `strncpy` from the format string, of what is left of `n` bytes: zeros follow its end. -/
def strncpy (form : Block) : Nat → Nat → Nat → M Block
  | _, _, 0 => pure form
  | i, p, n + 1 => do
    let c ← read frmt p
    let form ← put form i c
    strncpy form (i + 1) (if c = 0 then p else p + 1) n

def scanformat (strfrmt : Nat) (form : Block) : M (Nat × Block) := do
  let p ← skipFlags frmt (frmt.length + 1) strfrmt
  if p - strfrmt ≥ FLAGS.length + 1 then throw (.error "invalid format (repeated flags)")
  -- skip width (2 digits at most)
  let p ← skipDigit frmt p
  let p ← skipDigit frmt p
  let dot ← read frmt p
  -- skip precision (2 digits at most)
  let p ← if dot = ch '.' then do
      let p ← skipDigit frmt (p + 1)
      skipDigit frmt p
    else pure p
  let c ← read frmt p
  if isdigit c then throw (.error "invalid format (width or precision too long)")
  let form ← put form 0 (ch '%')
  let form ← strncpy frmt form 1 strfrmt (p - strfrmt + 1)
  let form ← put form (1 + (p - strfrmt + 1)) 0
  pure (p, form)

/-- `form[i]` -/
def get (form : Block) (i : Nat) : M UInt8 :=
  match form[i]? with
  | some (some c) => pure c
  | _ => throw .overrun

def addintlen (form : Block) : M Block := do
  let l ← strlen form
  let spec ← get form (l - 1)
  let form ← strcpy form (l - 1) (LUA_INTFRMLEN libc)
  let form ← put form (l + ((LUA_INTFRMLEN libc).length + 1) - 2) spec
  put form (l + ((LUA_INTFRMLEN libc).length + 1) - 1) 0

/-- `sprintf(buff, …)`, and then what `luaL_addlstring(&b, buff, strlen(buff))` adds. -/
def formatted (buff : Block) (text : List UInt8) : M (List UInt8) :=
  if text.length + 1 ≤ buff.length then pure (cstr text) else throw .overrun

/-! ## The function -/

/-- The conversions of a number, after `addintlen` or without it. -/
def formatNumber (form buff : Block) (intlen : Bool) (arg : Nat) (v : TValue) : M (List UInt8) := do
  let form ← if intlen then addintlen libc form else pure form
  let n ← luaL_checknumber libc arg v
  let spec ← cstring form
  formatted buff (libc.sprintfNumber spec n)

/-- The case `s`. -/
def formatString (form buff : Block) (arg : Nat) (v : TValue) : M (List UInt8) := do
  let s ← luaL_checklstring libc arg v
  let spec ← cstring form
  if ¬ spec.contains (ch '.') ∧ s.length ≥ 100 then
    -- no precision and string is too long to be formatted; keep original string
    pure s
  else formatted buff (libc.sprintfString spec (cstr s))

/-- The `switch` on the conversion: what is added. -/
def formatItem (form buff : Block) (c : UInt8) (arg : Nat) (v : TValue) : M (List UInt8) :=
  if c = ch 'c' then formatNumber libc form buff false arg v
  else if c = ch 'd' ∨ c = ch 'i' then formatNumber libc form buff true arg v
  else if c = ch 'o' ∨ c = ch 'u' ∨ c = ch 'x' ∨ c = ch 'X' then
    formatNumber libc form buff true arg v
  else if c = ch 'e' ∨ c = ch 'E' ∨ c = ch 'f' ∨ c = ch 'g' ∨ c = ch 'G' then
    formatNumber libc form buff false arg v
  else if c = ch 'q' then do
    let s ← luaL_checklstring libc arg v
    pure (addquoted s)
  else if c = ch 's' then formatString libc form buff arg v
  else throw (.error ("invalid option '%" ++ String.singleton (Char.ofNat c.toNat) ++ "' to 'format'"))

variable (args : List TValue)

/-- The loop of `str_format`, with the last argument that was used and the text of the buffer. -/
def formatLoop : Nat → Nat → Nat → List UInt8 → M (List UInt8)
  | 0, _, _, _ => throw .outOfFuel
  | fuel + 1, arg, strfrmt, b =>
    if strfrmt < frmt.length then do
      let c ← read frmt strfrmt
      if c ≠ ch '%' then formatLoop fuel arg (strfrmt + 1) (b ++ [c])
      else do
        let strfrmt := strfrmt + 1
        let c ← read frmt strfrmt
        if c = ch '%' then formatLoop fuel arg (strfrmt + 1) (b ++ [c])
        else do
          let arg := arg + 1
          -- the format string is the first argument
          match args[arg - 2]? with
          | none => throw (.argerror arg "no value")
          | some v => do
            let form := malloc (MAX_FORMAT libc)
            let buff := malloc MAX_ITEM
            let (strfrmt, form) ← scanformat frmt strfrmt form
            let c ← read frmt strfrmt
            let text ← formatItem libc form buff c arg v
            formatLoop fuel arg (strfrmt + 1) (b ++ text)
    else pure b

/-- `str_format`, with the arguments after the format string. -/
def str_format : M (List UInt8) := formatLoop libc frmt args (frmt.length + 1) 1 0 []

end

end Luaxx.Format
