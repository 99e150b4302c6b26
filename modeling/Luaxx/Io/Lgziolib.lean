import Luaxx.Io.Reading

/-!
# Reading gzip files (`lgziolib.c`)

The functions of `zlib` are parameters. `Behaves` says what is relied on: seen from the decompressed
content they read as those of the C library do, and no error occurs. The format `*n` is left out.
-/

namespace Luaxx.Io

open Luaxx.Stdio

def Z_OK : Int := 0
def Z_STREAM_END : Int := 1

/-- The functions of `zlib` on a `gzFile`. -/
structure Zlib (G : Type) where
  gzgets : Nat → G → Option (List UInt8) × G
  gzread : Nat → G → List UInt8 × G
  gzeof : G → Bool
  /-- The number that `gzerror` stores. -/
  gzerror : G → Int

/-- What a `gzFile` reads is a stream of the C library. -/
structure Behaves {G : Type} (z : Zlib G) (content : G → Stream) : Prop where
  gzgets : ∀ size g, (z.gzgets size g).1 = ((content g).fgets size).1 ∧
    content (z.gzgets size g).2 = ((content g).fgets size).2
  gzread : ∀ n g, (z.gzread n g).1 = ((content g).fread n).1 ∧
    content (z.gzread n g).2 = ((content g).fread n).2
  gzeof : ∀ g, z.gzeof g = (content g).eof
  gzerror : ∀ g, z.gzerror g = Z_OK ∨ z.gzerror g = Z_STREAM_END

namespace Lgziolib

variable {G : Type} (z : Zlib G) (LUAL_BUFFERSIZE fuel : Nat)

def test_eof (g : G) : Bool × G := (z.gzeof g, g)

/-- `rlen` is an `unsigned`. -/
def library : Library G := ⟨z.gzgets, z.gzread, test_eof z, (· % 2 ^ 32)⟩

def read_line (g : G) : Option ((List UInt8 × Bool) × G) :=
  (library z).read_line LUAL_BUFFERSIZE fuel [] g

def read_chars (g : G) (n : Nat) : Option ((List UInt8 × Bool) × G) :=
  (library z).read_chars fuel [] LUAL_BUFFERSIZE n g

def g_read (fmts : List Format) (g : G) : Option (Outcome × G) :=
  if checkstack fmts.length then
    match (library z).readArguments LUAL_BUFFERSIZE fuel fmts g with
    | none => none
    | some ((values, success), g) =>
      if z.gzerror g ≠ Z_OK ∧ z.gzerror g ≠ Z_STREAM_END then some (.failed, g)
      else some (.returned (results values success), g)
  else some (.error "stack overflow (too many arguments)", g)

def f_read (fmts : List Format) (g : G) : Option (Outcome × G) :=
  g_read z LUAL_BUFFERSIZE fuel fmts g

end Lgziolib

/-- The functions of the C library in the place of those of `zlib`. -/
def Zlib.ofStream : Zlib Stream := ⟨Stream.fgets, Stream.fread, Stream.eof, fun _ => Z_OK⟩

theorem behaves_ofStream : Behaves Zlib.ofStream id where
  gzgets _ _ := ⟨rfl, rfl⟩
  gzread _ _ := ⟨rfl, rfl⟩
  gzeof _ := rfl
  gzerror _ := .inl rfl

end Luaxx.Io
