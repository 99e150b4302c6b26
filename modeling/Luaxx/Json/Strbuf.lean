import Luaxx.Lib.Result
import Mathlib.Tactic.Common
import Mathlib.Tactic.Ring

/-!
# String buffers (`strbuf_t` of `lua_cjson.c`)

An `int` is 32 bits and wraps around. A `realloc` or `malloc` succeeds except for a negative size,
which as a `size_t` is larger than any memory. What is written to the buffer is a list; a write
outside of `size` bytes is an outcome of its own. The fields that only the statistics use are left
out.
-/

namespace Luaxx.Json

open Luaxx.Result

inductive Stop where
  /-- `luaL_error`. -/
  | error (msg : String)
  /-- `die`. -/
  | exit (msg : String)
  /-- A loop without end. -/
  | diverges
  /-- A byte is written outside of the buffer. -/
  | overrun
  deriving DecidableEq, Repr

abbrev M := Except Stop

/-- The conversion to `int`. -/
def int (n : Int) : Int := (n + 2 ^ 31) % 2 ^ 32 - 2 ^ 31

def INT_MAX : Int := 2 ^ 31 - 1

def STRBUF_DEFAULT_SIZE : Int := 1023

def STRBUF_DEFAULT_INCREMENT : Int := -2

structure Strbuf where
  buf : List UInt8
  size : Int
  increment : Int
  deriving DecidableEq, Repr

namespace Strbuf

def length (s : Strbuf) : Int := s.buf.length

def strbuf_reset (s : Strbuf) : Strbuf := { s with buf := [] }

/-- Space is left for a zero byte. -/
def strbuf_empty_length (s : Strbuf) : Int := int (s.size - s.length - 1)

def strbuf_ensure_null (s : Strbuf) : M Unit :=
  if s.length < s.size then .ok () else .error .overrun

def strbuf_init (len : Int) : M Strbuf :=
  let size := if len ≤ 0 then STRBUF_DEFAULT_SIZE else int (len + 1)
  if size < 0 then .error (.exit "Out of memory")
  else .ok ⟨[], size, STRBUF_DEFAULT_INCREMENT⟩

def strbuf_new (len : Int) : M Strbuf := strbuf_init len

/-- The loop of the exponential sizing. There are 2^32 sizes, so that it has no end if it has none
after as many rounds. -/
def enlarge (increment reqsize : Int) : Nat → Int → M Int
  | 0, _ => .error .diverges
  | fuel + 1, newsize =>
    if newsize < reqsize then enlarge increment reqsize fuel (int (newsize * -increment))
    else .ok newsize

def calculate_new_size (s : Strbuf) (len : Int) : M Int :=
  if len ≤ 0 then .error (.exit "BUG: Invalid strbuf length requested")
  else
    let reqsize := int (len + 1)
    if reqsize < s.size then .ok reqsize
    else if s.increment < 0 then enlarge s.increment reqsize (2 ^ 32 + 1) s.size
    else
      .ok (int ((int (int (s.size + s.increment) - 1)).tdiv s.increment * s.increment))

def strbuf_resize (s : Strbuf) (len : Int) : M Strbuf := do
  let newsize ← calculate_new_size s len
  if newsize < 0 then .error (.exit "Out of memory") else .ok { s with size := newsize }

def strbuf_ensure_empty_length (s : Strbuf) (len : Int) : M Strbuf :=
  if strbuf_empty_length s < len then strbuf_resize s (int (s.length + len)) else .ok s

def strbuf_append_mem_unsafe (s : Strbuf) (c : List UInt8) : M Strbuf :=
  if s.length + c.length ≤ s.size then .ok { s with buf := s.buf ++ c } else .error .overrun

def strbuf_append_char_unsafe (s : Strbuf) (c : UInt8) : M Strbuf := strbuf_append_mem_unsafe s [c]

def strbuf_append_mem (s : Strbuf) (c : List UInt8) : M Strbuf := do
  let s ← strbuf_ensure_empty_length s (int c.length)
  strbuf_append_mem_unsafe s c

def strbuf_append_char (s : Strbuf) (c : UInt8) : M Strbuf := do
  let s ← strbuf_ensure_empty_length s 1
  strbuf_append_char_unsafe s c

/-- The space is computed once and counted down. -/
def strbuf_append_string (s : Strbuf) (str : List UInt8) : M Strbuf :=
  let rec loop (space : Int) (s : Strbuf) : List UInt8 → M Strbuf
    | [] => .ok s
    | c :: str =>
      if space < 1 then do
        let s ← strbuf_resize s (int (s.length + 1))
        let s' ← strbuf_append_char_unsafe s c
        loop (strbuf_empty_length s - 1) s' str
      else do
        let s ← strbuf_append_char_unsafe s c
        loop (space - 1) s str
  loop (strbuf_empty_length s) s str

end Strbuf

end Luaxx.Json
