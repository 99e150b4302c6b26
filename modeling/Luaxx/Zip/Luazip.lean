import Luaxx.Auxlib.Adding
import Luaxx.Lib.Lines

/-!
# Reading lines of a zip member (`luazip.c`)

A file is the bytes that are left of it. `zzip_read` of one byte gives the next one, or nothing at
the end. The variable `c` is an `int`, of which `zzip_read` writes the lowest byte.
-/

namespace Luaxx.Zip

open Luaxx.Auxlib Luaxx.Lines

/-- `zzip_read(f, &c, 1)`: whether it returns 1, `c`, and what is left. -/
def zzip_read (c : UInt8) : List UInt8 → Bool × UInt8 × List UInt8
  | [] => (false, c, [])
  | c :: f => (true, c, f)

/-- How the inner loop of `read_line` ends. -/
inductive Filled where
  /-- With a byte that ends the line, or `'\0'` at the end of the file. -/
  | ended (buff : List UInt8) (read_something : Bool) (c : UInt8) (f : List UInt8)
  /-- After `LUAL_BUFFERSIZE` bytes. -/
  | full (read_something : Bool) (f : List UInt8)

/-- The inner loop, for at most `n` bytes more. -/
def fill : Nat → List UInt8 → Bool → List UInt8 → Filled
  | 0, _, read_something, f => .full read_something f
  | n + 1, buff, read_something, f =>
    let (read, c, f) := zzip_read 0 f
    if read = false ∨ c = carriageReturn ∨ c = newline then .ended buff read_something c f
    else fill n (buff ++ [c]) true f

section

variable (LUAL_BUFFERSIZE : Nat)

/-- What follows the inner loop: the string that is pushed, and whether the call succeeds. -/
def finish (B : luaL_Buffer) (buff : List UInt8) (read_something : Bool) (c : UInt8)
    (f : List UInt8) : Option ((List UInt8 × Bool) × List UInt8) := do
  let B ← luaL_addsize LUAL_BUFFERSIZE B buff
  let B ← luaL_pushresult LUA_MINSTACK B
  -- skip next char \n (in windows)
  let (c, f) := if c = carriageReturn then (zzip_read c f).2 else (c, f)
  return ((B.stack.headD [], read_something || c = carriageReturn || c = newline), f)

/-- The outer loop. -/
def read_line : Nat → Bool → luaL_Buffer → List UInt8 →
    Option ((List UInt8 × Bool) × List UInt8)
  | 0, _, _, _ => none
  | fuel + 1, read_something, B, f => do
    let B ← luaL_prepbuffer LUA_MINSTACK B
    match fill LUAL_BUFFERSIZE [] read_something f with
    -- the size of the buffer has not been added to
    | .full read_something f => read_line fuel read_something B f
    | .ended buff read_something c f => finish LUAL_BUFFERSIZE B buff read_something c f

/-- A call of the iterator of `lines`: a line, or no result. -/
def zip_readline (fuel : Nat) (f : List UInt8) : Option (Option (List UInt8) × List UInt8) := do
  let ((line, success), f) ← read_line LUAL_BUFFERSIZE fuel false (luaL_buffinit []) f
  return (if success then some line else none, f)

/-- The results of so many calls, and what is left of the file. -/
def calls (fuel : Nat) : Nat → List UInt8 → Option (List (Option (List UInt8)) × List UInt8)
  | 0, f => some ([], f)
  | n + 1, f => do
    let (line, f) ← zip_readline LUAL_BUFFERSIZE fuel f
    let (lines, f) ← calls fuel n f
    return (line :: lines, f)

end

end Luaxx.Zip
