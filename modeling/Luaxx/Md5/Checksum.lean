import Mathlib.Tactic.Common
import Mathlib.Tactic.Ring

/-!
# `os.checksum` and its MD5 (`loslib_addons.cc`)

The functions of the source under their own names. `WORD32` is `UInt32`, `size_t` is `UInt64`
(and so is the `long` of `put_length`, read as a signed number); a buffer with its length is a
`List UInt8`. `message + i` of `md5_update` is `message.drop i`.
-/

namespace Luaxx.Checksum

abbrev WORD32 := UInt32

def HASHSIZE : Nat := 16

def rotate (D num : WORD32) : WORD32 := (D <<< num) ||| (D >>> (32 - num))

def F (x y z : WORD32) : WORD32 := (x &&& y) ||| (~~~x &&& z)
def G (x y z : WORD32) : WORD32 := (x &&& z) ||| (y &&& ~~~z)
def H (x y z : WORD32) : WORD32 := x ^^^ y ^^^ z
def I (x y z : WORD32) : WORD32 := y ^^^ (x ||| ~~~z)

def T : List WORD32 :=
  [0xd76aa478, 0xe8c7b756, 0x242070db, 0xc1bdceee,
   0xf57c0faf, 0x4787c62a, 0xa8304613, 0xfd469501,
   0x698098d8, 0x8b44f7af, 0xffff5bb1, 0x895cd7be,
   0x6b901122, 0xfd987193, 0xa679438e, 0x49b40821,
   0xf61e2562, 0xc040b340, 0x265e5a51, 0xe9b6c7aa,
   0xd62f105d, 0x02441453, 0xd8a1e681, 0xe7d3fbc8,
   0x21e1cde6, 0xc33707d6, 0xf4d50d87, 0x455a14ed,
   0xa9e3e905, 0xfcefa3f8, 0x676f02d9, 0x8d2a4c8a,
   0xfffa3942, 0x8771f681, 0x6d9d6122, 0xfde5380c,
   0xa4beea44, 0x4bdecfa9, 0xf6bb4b60, 0xbebfbc70,
   0x289b7ec6, 0xeaa127fa, 0xd4ef3085, 0x04881d05,
   0xd9d4d039, 0xe6db99e5, 0x1fa27cf8, 0xc4ac5665,
   0xf4292244, 0x432aff97, 0xab9423a7, 0xfc93a039,
   0x655b59c3, 0x8f0ccc92, 0xffeff47d, 0x85845dd1,
   0x6fa87e4f, 0xfe2ce6e0, 0xa3014314, 0x4e0811a1,
   0xf7537e82, 0xbd3af235, 0x2ad7d2bb, 0xeb86d391]

/-- The array `d[4]`. -/
structure Digest where
  d0 : WORD32
  d1 : WORD32
  d2 : WORD32
  d3 : WORD32
  deriving DecidableEq, Repr

/-- `md5_t`. -/
structure Md5T where
  d : Digest
  len : UInt64
  deriving DecidableEq, Repr

def inic_digest : Digest := ⟨0x67452301, 0xEFCDAB89, 0x98BADCFE, 0x10325476⟩

def bytestoword32 (pt : List UInt8) : List WORD32 :=
  (List.range 16).map fun i =>
    let j := i * 4
    ((((pt.getD (j + 3) 0).toUInt32 <<< 8 ||| (pt.getD (j + 2) 0).toUInt32) <<< 8 |||
      (pt.getD (j + 1) 0).toUInt32) <<< 8) ||| (pt.getD j 0).toUInt32

/-- The returned status: `0` normal message (full 64 bytes); `1` enough room for `0x80`, but not
for the message length; `2` enough room for `0x80` plus message length. -/
def converte (pt : List UInt8) (num : Nat) (old_status : Nat) : List WORD32 × Nat :=
  if num < 64 then
    let buff := pt.take num ++ List.replicate (64 - num) 0
    let buff := if old_status = 0 then buff.set num 0x80 else buff
    (bytestoword32 buff, if num ≤ 64 - 9 then 2 else 1)
  else (bytestoword32 pt, if num ≤ 64 - 9 then 2 else 0)

/-- In bits: `len << 3` in the low word, `len >> 29 & 7` in the high one. -/
def put_length (x : List WORD32) (len : UInt64) : List WORD32 :=
  (x.set 14 ((len <<< 3) &&& 0xFFFFFFFF).toUInt32).set 15 ((len.toInt64 >>> 29) &&& 7).toUInt64.toUInt32

/-! ## `digest`

One iteration of each of the four loops; `j` runs through 0, 4, 8, 12. -/

def passo1 (m : List WORD32) (d : Digest) (j : Nat) : Digest :=
  let d0 := rotate (d.d0 + F d.d1 d.d2 d.d3 + m.getD j 0 + T.getD j 0) 7 + d.d1
  let d3 := rotate (d.d3 + F d0 d.d1 d.d2 + m.getD (j + 1) 0 + T.getD (j + 1) 0) 12 + d0
  let d2 := rotate (d.d2 + F d3 d0 d.d1 + m.getD (j + 2) 0 + T.getD (j + 2) 0) 17 + d3
  let d1 := rotate (d.d1 + F d2 d3 d0 + m.getD (j + 3) 0 + T.getD (j + 3) 0) 22 + d2
  ⟨d0, d1, d2, d3⟩

def passo2 (m : List WORD32) (d : Digest) (j : Nat) : Digest :=
  let d0 := rotate (d.d0 + G d.d1 d.d2 d.d3 + m.getD ((5 * j + 1) &&& 0x0f) 0
    + T.getD (j + 16) 0) 5 + d.d1
  let d3 := rotate (d.d3 + G d0 d.d1 d.d2 + m.getD ((5 * (j + 1) + 1) &&& 0x0f) 0
    + T.getD (j + 17) 0) 9 + d0
  let d2 := rotate (d.d2 + G d3 d0 d.d1 + m.getD ((5 * (j + 2) + 1) &&& 0x0f) 0
    + T.getD (j + 1 + 17) 0) 14 + d3
  let d1 := rotate (d.d1 + G d2 d3 d0 + m.getD ((5 * (j + 3) + 1) &&& 0x0f) 0
    + T.getD (j + 2 + 17) 0) 20 + d2
  ⟨d0, d1, d2, d3⟩

def passo3 (m : List WORD32) (d : Digest) (j : Nat) : Digest :=
  let d0 := rotate (d.d0 + H d.d1 d.d2 d.d3 + m.getD ((3 * j + 5) &&& 0x0f) 0
    + T.getD (j + 32) 0) 4 + d.d1
  let d3 := rotate (d.d3 + H d0 d.d1 d.d2 + m.getD ((3 * (j + 1) + 5) &&& 0x0f) 0
    + T.getD (j + 33) 0) 11 + d0
  let d2 := rotate (d.d2 + H d3 d0 d.d1 + m.getD ((3 * (j + 2) + 5) &&& 0x0f) 0
    + T.getD (j + 1 + 33) 0) 16 + d3
  let d1 := rotate (d.d1 + H d2 d3 d0 + m.getD ((3 * (j + 3) + 5) &&& 0x0f) 0
    + T.getD (j + 2 + 33) 0) 23 + d2
  ⟨d0, d1, d2, d3⟩

def passo4 (m : List WORD32) (d : Digest) (j : Nat) : Digest :=
  let d0 := rotate (d.d0 + I d.d1 d.d2 d.d3 + m.getD ((7 * j) &&& 0x0f) 0
    + T.getD (j + 48) 0) 6 + d.d1
  let d3 := rotate (d.d3 + I d0 d.d1 d.d2 + m.getD ((7 * (j + 1)) &&& 0x0f) 0
    + T.getD (j + 49) 0) 10 + d0
  let d2 := rotate (d.d2 + I d3 d0 d.d1 + m.getD ((7 * (j + 2)) &&& 0x0f) 0
    + T.getD (j + 1 + 49) 0) 15 + d3
  let d1 := rotate (d.d1 + I d2 d3 d0 + m.getD ((7 * (j + 3)) &&& 0x0f) 0
    + T.getD (j + 2 + 49) 0) 21 + d2
  ⟨d0, d1, d2, d3⟩

def digest (m : List WORD32) (d : Digest) : Digest :=
  let d := [0, 4, 8, 12].foldl (passo1 m) d
  let d := [0, 4, 8, 12].foldl (passo2 m) d
  let d := [0, 4, 8, 12].foldl (passo3 m) d
  [0, 4, 8, 12].foldl (passo4 m) d

/-- One word of the loop: four bytes, `v & 0xff` first. -/
def wordtobytes (v : WORD32) : List UInt8 :=
  [(v &&& 0xff).toUInt8, (v >>> 8 &&& 0xff).toUInt8, (v >>> 8 >>> 8 &&& 0xff).toUInt8,
   (v >>> 8 >>> 8 >>> 8 &&& 0xff).toUInt8]

def word32tobytes (d : Digest) : List UInt8 :=
  wordtobytes d.d0 ++ wordtobytes d.d1 ++ wordtobytes d.d2 ++ wordtobytes d.d3

/-! ## The interface -/

def md5_init : Md5T := ⟨inic_digest, 0⟩

/-- `d[0]+=d_old[0]; …` -/
def addOld (d d_old : Digest) : Digest :=
  ⟨d.d0 + d_old.d0, d.d1 + d_old.d1, d.d2 + d_old.d2, d.d3 + d_old.d3⟩

/-- The loop of `md5_update`, at the head of an iteration. It ends with `status == 2`, or by the
`break` on the end of a message of whole blocks. -/
def updateLoop (message : List UInt8) (addlen : UInt64) (d : Digest) (status i : Nat) :
    Digest × Nat :=
  if status = 2 then (d, status)
  else
    let numbytes := if message.length - i ≥ 64 then 64 else message.length - i
    if status ≠ 1 ∧ numbytes = 0 ∧ message.length ≠ 0 then (d, status)
    else
      let c := converte (message.drop i) numbytes status
      let wbuff := if c.2 = 2 then put_length c.1 (addlen + UInt64.ofNat message.length) else c.1
      updateLoop message addlen (addOld (digest wbuff d) d) c.2 (i + numbytes)
termination_by (message.length - i, if status = 2 then 0 else 1)
decreasing_by
  simp only [converte]
  split_ifs <;> simp_all [Prod.lex_def] <;> omega

/-- Returns the new context and whether the message was finished. -/
def md5_update (m : Md5T) (message : List UInt8) : Md5T × Bool :=
  let r := updateLoop message m.len m.d 0 0
  (⟨r.1, m.len + UInt64.ofNat message.length⟩, r.2 == 2)

def md5_finish (m : Md5T) : List UInt8 := word32tobytes m.d

/-! ## `os_checksum` -/

/-- What successive `fread(data_in, 1, size, f)` deliver until `feof`: full chunks, except
possibly the last one. -/
def freadChunks (size : Nat) (content : List UInt8) : List (List UInt8) :=
  if 0 < size ∧ size ≤ content.length then
    content.take size :: freadChunks size (content.drop size)
  else [content]
termination_by content.length
decreasing_by simp; omega

/-- The body of the `while(!feof(f))` loop. -/
def checksumChunk (mm : Md5T) (data_in : List UInt8) : Md5T :=
  if data_in.length ≠ 0 then (md5_update mm data_in).1 else mm

/-- `data_out` of `os_checksum`, for a file that can be opened. -/
def checksumBytes (content : List UInt8) : List UInt8 :=
  md5_finish ((freadChunks 32768 content).foldl checksumChunk md5_init)

/-- The two characters of `%02x`. -/
def hex02 (b : UInt8) : List Char :=
  [Nat.digitChar (b.toNat / 16), Nat.digitChar (b.toNat % 16)]

/-- `os.checksum`: nil when `fopen` fails, else the `HASHSIZE*2+1` characters of `buff_out`, the
terminating NUL of the last `snprintf` among them. -/
def os_checksum (file : Option (List UInt8)) : Option (List Char) :=
  file.map fun content => (checksumBytes content).flatMap hex02 ++ ['\x00']

end Luaxx.Checksum
