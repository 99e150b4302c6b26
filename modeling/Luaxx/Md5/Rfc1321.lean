import Luaxx.Lib.Blocks
import Luaxx.Lib.LittleEndian

/-!
# The MD5 message digest of RFC 1321

The algorithm in the words of the RFC: append the padding bits and the 64-bit length (section
3.1 and 3.2), split the result in blocks of sixteen 32-bit words, low-order byte first, and run
the four rounds of sixteen operations `[abcd k s i]` over each (section 3.4). It knows nothing
of the implementation in `loslib_addons.cc`; the two meet in `Luaxx.Md5.Verified`.
-/

namespace Luaxx.Rfc1321

open Luaxx.Blocks Luaxx.LittleEndian

/-- The four-word buffer `A`, `B`, `C`, `D`. -/
structure Buffer where
  a : UInt32
  b : UInt32
  c : UInt32
  d : UInt32
  deriving DecidableEq, Repr

/-- Section 3.3: the initial value of the buffer (given there low-order bytes first). -/
def init : Buffer := ⟨0x67452301, 0xefcdab89, 0x98badcfe, 0x10325476⟩

/-! ## Auxiliary functions -/

def auxF (x y z : UInt32) : UInt32 := (x &&& y) ||| (~~~x &&& z)
def auxG (x y z : UInt32) : UInt32 := (x &&& z) ||| (y &&& ~~~z)
def auxH (x y z : UInt32) : UInt32 := x ^^^ y ^^^ z
def auxI (x y z : UInt32) : UInt32 := y ^^^ (x ||| ~~~z)

/-- `X <<< s`: circular left shift of a 32-bit word. -/
def rotl (x s : UInt32) : UInt32 := (x <<< s) ||| (x >>> (32 - s))

/-! ## The operations -/

/-- An operation `[abcd k s i]`: the word it uses, the shift amount and the element of the sine
table. -/
structure Op where
  k : Nat
  s : UInt32
  t : UInt32

/-- `a = b + ((a + f(b,c,d) + X[k] + T[i]) <<< s)`, after which the four names move on by one
place (`[ABCD]`, `[DABC]`, `[CDAB]`, `[BCDA]`). -/
def operate (f : UInt32 → UInt32 → UInt32 → UInt32) (x : List UInt32) (q : Buffer) (o : Op) :
    Buffer :=
  ⟨q.d, q.b + rotl (q.a + f q.b q.c q.d + x.getD o.k 0 + o.t) o.s, q.b, q.c⟩

def round1 : List Op :=
  [⟨0, 7, 0xd76aa478⟩, ⟨1, 12, 0xe8c7b756⟩, ⟨2, 17, 0x242070db⟩, ⟨3, 22, 0xc1bdceee⟩,
   ⟨4, 7, 0xf57c0faf⟩, ⟨5, 12, 0x4787c62a⟩, ⟨6, 17, 0xa8304613⟩, ⟨7, 22, 0xfd469501⟩,
   ⟨8, 7, 0x698098d8⟩, ⟨9, 12, 0x8b44f7af⟩, ⟨10, 17, 0xffff5bb1⟩, ⟨11, 22, 0x895cd7be⟩,
   ⟨12, 7, 0x6b901122⟩, ⟨13, 12, 0xfd987193⟩, ⟨14, 17, 0xa679438e⟩, ⟨15, 22, 0x49b40821⟩]

def round2 : List Op :=
  [⟨1, 5, 0xf61e2562⟩, ⟨6, 9, 0xc040b340⟩, ⟨11, 14, 0x265e5a51⟩, ⟨0, 20, 0xe9b6c7aa⟩,
   ⟨5, 5, 0xd62f105d⟩, ⟨10, 9, 0x02441453⟩, ⟨15, 14, 0xd8a1e681⟩, ⟨4, 20, 0xe7d3fbc8⟩,
   ⟨9, 5, 0x21e1cde6⟩, ⟨14, 9, 0xc33707d6⟩, ⟨3, 14, 0xf4d50d87⟩, ⟨8, 20, 0x455a14ed⟩,
   ⟨13, 5, 0xa9e3e905⟩, ⟨2, 9, 0xfcefa3f8⟩, ⟨7, 14, 0x676f02d9⟩, ⟨12, 20, 0x8d2a4c8a⟩]

def round3 : List Op :=
  [⟨5, 4, 0xfffa3942⟩, ⟨8, 11, 0x8771f681⟩, ⟨11, 16, 0x6d9d6122⟩, ⟨14, 23, 0xfde5380c⟩,
   ⟨1, 4, 0xa4beea44⟩, ⟨4, 11, 0x4bdecfa9⟩, ⟨7, 16, 0xf6bb4b60⟩, ⟨10, 23, 0xbebfbc70⟩,
   ⟨13, 4, 0x289b7ec6⟩, ⟨0, 11, 0xeaa127fa⟩, ⟨3, 16, 0xd4ef3085⟩, ⟨6, 23, 0x04881d05⟩,
   ⟨9, 4, 0xd9d4d039⟩, ⟨12, 11, 0xe6db99e5⟩, ⟨15, 16, 0x1fa27cf8⟩, ⟨2, 23, 0xc4ac5665⟩]

def round4 : List Op :=
  [⟨0, 6, 0xf4292244⟩, ⟨7, 10, 0x432aff97⟩, ⟨14, 15, 0xab9423a7⟩, ⟨5, 21, 0xfc93a039⟩,
   ⟨12, 6, 0x655b59c3⟩, ⟨3, 10, 0x8f0ccc92⟩, ⟨10, 15, 0xffeff47d⟩, ⟨1, 21, 0x85845dd1⟩,
   ⟨8, 6, 0x6fa87e4f⟩, ⟨15, 10, 0xfe2ce6e0⟩, ⟨6, 15, 0xa3014314⟩, ⟨13, 21, 0x4e0811a1⟩,
   ⟨4, 6, 0xf7537e82⟩, ⟨11, 10, 0xbd3af235⟩, ⟨2, 15, 0x2ad7d2bb⟩, ⟨9, 21, 0xeb86d391⟩]

/-- The four rounds over one block `x` of sixteen words. -/
def rounds (x : List UInt32) (q : Buffer) : Buffer :=
  let q := round1.foldl (operate auxF x) q
  let q := round2.foldl (operate auxG x) q
  let q := round3.foldl (operate auxH x) q
  round4.foldl (operate auxI x) q

/-- Increment each register by the value it had before this block was started. -/
def addSaved (q saved : Buffer) : Buffer :=
  ⟨q.a + saved.a, q.b + saved.b, q.c + saved.c, q.d + saved.d⟩

/-! ## Bytes and words -/

/-- The word of four bytes, low-order byte first. -/
def word (b : List UInt8) : UInt32 :=
  UInt32.ofNat ((b.getD 0 0).toNat + 256 * (b.getD 1 0).toNat + 65536 * (b.getD 2 0).toNat
    + 16777216 * (b.getD 3 0).toNat)

/-- The sixteen words of a block of sixty-four bytes. -/
def words (block : List UInt8) : List UInt32 :=
  (List.range 16).map fun i => word (block.drop (4 * i))

/-- One block of the message. -/
def compress (q : Buffer) (block : List UInt8) : Buffer := addSaved (rounds (words block) q) q

/-! ## The digest -/

/-- Section 3.1: a single 1 bit, then 0 bits until the length is 448 modulo 512. -/
def paddingBits (len : Nat) : List UInt8 := 0x80 :: List.replicate ((119 - len % 64) % 64) 0

/-- Sections 3.1 and 3.2: the padding, then the length in bits as two words. -/
def padding (len : Nat) : List UInt8 := paddingBits len ++ bytesLE 8 (8 * len)

/-- Section 3.5: the digest begins with the low-order byte of `A` and ends with the high-order
byte of `D`. -/
def output (q : Buffer) : List UInt8 :=
  bytesLE 4 q.a.toNat ++ bytesLE 4 q.b.toNat ++ bytesLE 4 q.c.toNat ++ bytesLE 4 q.d.toNat

/-- The MD5 digest of a message given as a sequence of bytes. -/
def md5 (msg : List UInt8) : List UInt8 :=
  output (absorbAll 64 compress init (msg ++ padding msg.length))

/-! ## Lengths -/

@[simp] theorem length_words (block : List UInt8) : (words block).length = 16 := by simp [words]

theorem length_padding (len : Nat) :
    (padding len).length = 9 + (119 - len % 64) % 64 := by
  simp [padding, paddingBits]
  omega

/-- The padded message is a whole number of blocks. -/
theorem padded_dvd (len : Nat) : 64 ∣ len + (padding len).length := by
  rw [length_padding]
  omega

@[simp] theorem length_output (q : Buffer) : (output q).length = 16 := by simp [output]

/-- A digest has sixteen bytes. -/
theorem length_md5 (msg : List UInt8) : (md5 msg).length = 16 := length_output _

/-- The test suite of the RFC: `MD5 ("") = d41d8cd98f00b204e9800998ecf8427e`. -/
example : md5 [] = [0xd4, 0x1d, 0x8c, 0xd9, 0x8f, 0x00, 0xb2, 0x04, 0xe9, 0x80, 0x09, 0x98,
    0xec, 0xf8, 0x42, 0x7e] := by decide +kernel

end Luaxx.Rfc1321
