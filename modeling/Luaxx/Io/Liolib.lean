import Luaxx.Io.Reading

/-!
# Reading files (`liolib.c`)

The file is a stream of the C library whose reads do not fail, so that `ferror` never holds. The
format `*n` is left out.
-/

namespace Luaxx.Io.Liolib

open Luaxx.Stdio

variable (LUAL_BUFFERSIZE fuel : Nat)

/-- Whether something is left. -/
def test_eof (f : Stream) : Bool × Stream :=
  let (c, f) := f.getc
  (c.isSome, f.ungetc c)

/-- `rlen` is a `size_t`. -/
def library : Library Stream := ⟨Stream.fgets, Stream.fread, test_eof, id⟩

def read_line (f : Stream) : Option ((List UInt8 × Bool) × Stream) :=
  library.read_line LUAL_BUFFERSIZE fuel [] f

def read_chars (f : Stream) (n : Nat) : Option ((List UInt8 × Bool) × Stream) :=
  library.read_chars fuel [] LUAL_BUFFERSIZE n f

def g_read (fmts : List Format) (f : Stream) : Option (Outcome × Stream) :=
  let f := f.clearerr
  if checkstack fmts.length then
    match library.readArguments LUAL_BUFFERSIZE fuel fmts f with
    | none => none
    | some ((values, success), f) => some (.returned (results values success), f)
  else some (.error "stack overflow (too many arguments)", f)

def f_read (fmts : List Format) (f : Stream) : Option (Outcome × Stream) :=
  g_read LUAL_BUFFERSIZE fuel fmts f

@[simp] theorem test_eof_rest (f : Stream) : (test_eof f).2.rest = f.rest :=
  f.getc_ungetc_rest

theorem test_eof_iff (f : Stream) : (test_eof f).1 = true ↔ f.rest ≠ [] :=
  f.getc_isSome

end Luaxx.Io.Liolib
