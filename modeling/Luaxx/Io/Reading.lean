import Luaxx.Lib.Stdio
import Luaxx.Auxlib.Buffer

/-!
# What the two file libraries share

`lgziolib.c` was made from `liolib.c`: their functions that read are the same text around the calls
of the device. That text is here, with the calls as parameters. A `luaL_Buffer` is the characters it
has collected; each function also tells whether it succeeded. A loop gives up when its fuel runs
out.
-/

namespace Luaxx.Io

open Luaxx.Stdio Luaxx.Auxlib

/-- An argument of `read`. A number has been converted to `size_t`. -/
inductive Format where
  | count (l : Nat)
  | line
  | all
  deriving DecidableEq, Repr

/-- `~((size_t)0)`. -/
def MAX_SIZE_T : Nat := 2 ^ 64 - 1

def LUAI_MAXCSTACK : Nat := 8000

def strlen (p : List UInt8) : Nat := (p.takeWhile (· ≠ 0)).length

/-- What a library does with its files. -/
structure Library (F : Type) where
  gets : Nat → F → Option (List UInt8) × F
  read : Nat → F → List UInt8 × F
  test_eof : F → Bool × F
  /-- The conversion of a `size_t` to the type of `rlen`. -/
  cast : Nat → Nat

/-- What Lua gets from a call. -/
inductive Outcome where
  /-- The values, where `none` is nil. -/
  | returned (values : List (Option (List UInt8)))
  /-- `pushresult(L, 0, NULL)`: nil and what `errno` says. -/
  | failed
  /-- An error, without its position. -/
  | error (msg : String)
  deriving DecidableEq, Repr

/-- The values that are left on the stack: nil takes the place of the last after a failure. -/
def results (values : List (List UInt8)) (success : Bool) : List (Option (List UInt8)) :=
  if success then values.map some else values.dropLast.map some ++ [none]

/-- `luaL_checkstack` lets a call go on. The file and the arguments are on the stack. -/
def checkstack (nargs : Nat) : Bool := nargs + 1 + (nargs + LUA_MINSTACK) ≤ LUAI_MAXCSTACK

namespace Library

variable {F : Type} (LUAL_BUFFERSIZE : Nat) (lib : Library F)

def read_line : Nat → List UInt8 → F → Option ((List UInt8 × Bool) × F)
  | 0, _, _ => none
  | fuel + 1, b, f =>
    match lib.gets LUAL_BUFFERSIZE f with
    | (none, f) => some ((b, b.length > 0), f)
    | (some p, f) =>
      let l := strlen p
      if l = 0 ∨ p[l - 1]? ≠ some newline then read_line fuel (b ++ p.take l) f
      else some ((b ++ p.take (l - 1), true), f)

/-- The loop, entered with `rlen` and the `n` characters still to read. -/
def read_chars : Nat → List UInt8 → Nat → Nat → F → Option ((List UInt8 × Bool) × F)
  | 0, _, _, _, _ => none
  | fuel + 1, b, rlen, n, f =>
    let rlen := if rlen > n then lib.cast n else rlen
    let (p, f) := lib.read rlen f
    let nr := p.length
    let n := n - nr
    if n > 0 ∧ nr = rlen then read_chars fuel (b ++ p) rlen n f
    else some ((b ++ p, n = 0 || (b ++ p).length > 0), f)

/-- The body of the loop of `g_read`. -/
def readFormat (fuel : Nat) (f : F) : Format → Option ((List UInt8 × Bool) × F)
  | .count l =>
    if l = 0 then
      let (success, f) := lib.test_eof f
      some (([], success), f)
    else lib.read_chars fuel [] LUAL_BUFFERSIZE l f
  | .line => lib.read_line LUAL_BUFFERSIZE fuel [] f
  | .all =>
    match lib.read_chars fuel [] LUAL_BUFFERSIZE MAX_SIZE_T f with
    | none => none
    | some ((b, _), f) => some ((b, true), f)

/-- The loop of `g_read`, which ends with the first failure. -/
def readFormats (fuel : Nat) : List Format → F → Option ((List (List UInt8) × Bool) × F)
  | [], f => some (([], true), f)
  | fmt :: fmts, f =>
    match lib.readFormat LUAL_BUFFERSIZE fuel f fmt with
    | none => none
    | some ((v, false), f) => some (([v], false), f)
    | some ((v, true), f) =>
      match readFormats fuel fmts f with
      | none => none
      | some ((vs, success), f) => some ((v :: vs, success), f)

/-- The part of `g_read` between the treatment of errors before and after it. -/
def readArguments (fuel : Nat) (fmts : List Format) (f : F) :
    Option ((List (List UInt8) × Bool) × F) :=
  match fmts with
  | [] =>
    match lib.read_line LUAL_BUFFERSIZE fuel [] f with
    | none => none
    | some ((v, success), f) => some (([v], success), f)
  | _ :: _ => lib.readFormats LUAL_BUFFERSIZE fuel fmts f

end Library

/-- A sequence of calls. -/
def calls {F : Type} (f_read : List Format → F → Option (Outcome × F)) :
    List (List Format) → F → Option (List Outcome × F)
  | [], f => some ([], f)
  | fmts :: rest, f =>
    match f_read fmts f with
    | none => none
    | some (o, f) =>
      match calls f_read rest f with
      | none => none
      | some (os, f) => some (o :: os, f)

theorem results_cons (v : List UInt8) {vs : List (List UInt8)} {success : Bool}
    (h : success = false → vs ≠ []) :
    results (v :: vs) success = some v :: results vs success := by
  cases success with
  | true => rfl
  | false =>
    show (v :: vs).dropLast.map some ++ [none] = some v :: (vs.dropLast.map some ++ [none])
    rw [List.dropLast_cons_of_ne_nil (h rfl)]
    rfl

end Luaxx.Io
