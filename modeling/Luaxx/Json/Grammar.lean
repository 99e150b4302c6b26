import Luaxx.Json.Decode

/-!
# JSON texts

The grammar of JSON, for any forms of numbers, with the tree that a text denotes. Strings may
contain every character but the quote and the backslash.
-/

namespace Luaxx.Json

open Luaxx.Ctype

/-! ## Numbers -/

def Digits (s : List UInt8) : Prop := ∀ c ∈ s, isdigit c = true

instance : DecidablePred Digits := fun s => decidableForallMem (fun c => isdigit c = true) s

/-- `0|[1-9][0-9]*` -/
def IsWhole (s : List UInt8) : Prop :=
  Digits s ∧ s ≠ [] ∧ (s.head? = some (ch '0') → s = [ch '0'])

/-- `([eE][-+]?[0-9]+)?` -/
inductive IsExponent : List UInt8 → Prop
  | none : IsExponent []
  | some {e : UInt8} {sign digits : List UInt8} (he : e = ch 'e' ∨ e = ch 'E')
      (hsign : sign = [] ∨ sign = [ch '-'] ∨ sign = [ch '+']) (hdigits : Digits digits)
      (hne : digits ≠ []) : IsExponent (e :: (sign ++ digits))

/-- `(0|[1-9][0-9]*)(\.[0-9]+)?` -/
inductive IsDecimal : List UInt8 → Prop
  | whole {whole : List UInt8} (h : IsWhole whole) : IsDecimal whole
  | point {whole digits : List UInt8} (h : IsWhole whole) (hdigits : Digits digits)
      (hne : digits ≠ []) : IsDecimal (whole ++ ch '.' :: digits)

/-- A point without digits after it, or, after a minus, without digits before it. -/
inductive BarePoint : List UInt8 → List UInt8 → Prop
  | last {sign whole : List UInt8} (h : IsWhole whole) : BarePoint sign (whole ++ [ch '.'])
  | first {digits : List UInt8} (hdigits : Digits digits) (hne : digits ≠ []) :
      BarePoint [ch '-'] (ch '.' :: digits)

def IsSign (sign : List UInt8) : Prop := sign = [] ∨ sign = [ch '-']

/-- `-?(0|[1-9][0-9]*)(\.[0-9]+)?([eE][-+]?[0-9]+)?` -/
def IsNumber (s : List UInt8) : Prop :=
  ∃ sign decimal e, s = sign ++ (decimal ++ e) ∧ IsSign sign ∧ IsDecimal decimal ∧ IsExponent e

/-- A number that may have a bare point. -/
def LenientNumber (s : List UInt8) : Prop :=
  ∃ sign decimal e, s = sign ++ (decimal ++ e) ∧ IsSign sign ∧
    (IsDecimal decimal ∨ BarePoint sign decimal) ∧ IsExponent e

theorem IsNumber.lenient {s : List UInt8} (h : IsNumber s) : LenientNumber s := by
  obtain ⟨sign, decimal, e, hs, hsign, hdecimal, he⟩ := h
  exact ⟨sign, decimal, e, hs, hsign, .inl hdecimal, he⟩

/-! ## Strings -/

def hexValue (c : UInt8) : Option Nat :=
  if ch '0' ≤ c ∧ c ≤ ch '9' then some (c.toNat - 48)
  else if ch 'a' ≤ c ∧ c ≤ ch 'f' then some (c.toNat - 87)
  else if ch 'A' ≤ c ∧ c ≤ ch 'F' then some (c.toNat - 55)
  else none

/-- Four hexadecimal digits. -/
inductive Hex4 : List UInt8 → Nat → Prop
  | mk {a b c d : UInt8} {i j k l : Nat} (ha : hexValue a = some i) (hb : hexValue b = some j)
      (hc : hexValue c = some k) (hd : hexValue d = some l) :
      Hex4 [a, b, c, d] (i * 4096 + j * 256 + k * 16 + l)

/-- The escapes of one character. -/
def escapes : List (UInt8 × UInt8) :=
  [(ch '"', ch '"'), (ch '\\', ch '\\'), (ch '/', ch '/'), (ch 'b', 8), (ch 'f', 12), (ch 'n', 10),
    (ch 'r', 13), (ch 't', 9)]

/-- What is between the quotes, and the string that it is. -/
inductive Chars : List UInt8 → List UInt8 → Prop
  | nil : Chars [] []
  | char {c : UInt8} {b s : List UInt8} (hquote : c ≠ ch '"') (hback : c ≠ ch '\\')
      (h : Chars b s) : Chars (c :: b) (c :: s)
  | escape {e c : UInt8} {b s : List UInt8} (he : (e, c) ∈ escapes) (h : Chars b s) :
      Chars (ch '\\' :: e :: b) (c :: s)
  | unicode {u b s : List UInt8} {n : Nat} (hu : Hex4 u n) (hn : n < 0xD800 ∨ 0xE000 ≤ n)
      (h : Chars b s) : Chars (ch '\\' :: ch 'u' :: (u ++ b)) (codepoint_to_utf8 n ++ s)
  | pair {u v b s : List UInt8} {n m : Nat} (hu : Hex4 u n) (hn : 0xD800 ≤ n ∧ n < 0xDC00)
      (hv : Hex4 v m) (hm : 0xDC00 ≤ m ∧ m < 0xE000) (h : Chars b s) :
      Chars (ch '\\' :: ch 'u' :: (u ++ ch '\\' :: ch 'u' :: (v ++ b)))
        (codepoint_to_utf8 ((n - 0xD800) * 0x400 + (m - 0xDC00) + 0x10000) ++ s)

inductive IsString : List UInt8 → List UInt8 → Prop
  | mk {b s : List UInt8} (h : Chars b s) : IsString (ch '"' :: (b ++ [ch '"'])) s

/-! ## Values -/

inductive Tree where
  | null
  | boolean (b : Bool)
  | number (text : List UInt8)
  | string (s : List UInt8)
  | array (elements : List Tree)
  | object (members : List (List UInt8 × Tree))

def whitespace (c : UInt8) : Bool := c == ch ' ' || c == 9 || c == 10 || c == 13

def Whitespace (s : List UInt8) : Prop := ∀ c ∈ s, whitespace c = true

mutual

/-- The text of a value. -/
inductive Text (num : List UInt8 → Prop) : List UInt8 → Tree → Prop
  | null : Text num (chars "null") .null
  | true : Text num (chars "true") (.boolean true)
  | false : Text num (chars "false") (.boolean false)
  | number {t : List UInt8} (h : num t) : Text num t (.number t)
  | string {t s : List UInt8} (h : IsString t s) : Text num t (.string s)
  | emptyArray {w : List UInt8} (hw : Whitespace w) : Text num (ch '[' :: (w ++ [ch ']'])) (.array [])
  | array {t : List UInt8} {js : List Tree} (h : Elements num t js) :
      Text num (ch '[' :: (t ++ [ch ']'])) (.array js)
  | emptyObject {w : List UInt8} (hw : Whitespace w) :
      Text num (ch '{' :: (w ++ [ch '}'])) (.object [])
  | object {t : List UInt8} {ms : List (List UInt8 × Tree)} (h : Members num t ms) :
      Text num (ch '{' :: (t ++ [ch '}'])) (.object ms)

/-- One value or more with commas between them. -/
inductive Elements (num : List UInt8 → Prop) : List UInt8 → List Tree → Prop
  | one {w t w' : List UInt8} {j : Tree} (hw : Whitespace w) (h : Text num t j)
      (hw' : Whitespace w') : Elements num (w ++ (t ++ w')) [j]
  | more {w t w' ts : List UInt8} {j : Tree} {js : List Tree} (hw : Whitespace w)
      (h : Text num t j) (hw' : Whitespace w') (hs : Elements num ts js) :
      Elements num (w ++ (t ++ (w' ++ ch ',' :: ts))) (j :: js)

/-- One member or more with commas between them. -/
inductive Members (num : List UInt8 → Prop) : List UInt8 → List (List UInt8 × Tree) → Prop
  | one {m : List UInt8} {e : List UInt8 × Tree} (h : Member num m e) : Members num m [e]
  | more {m ts : List UInt8} {e : List UInt8 × Tree} {es : List (List UInt8 × Tree)}
      (h : Member num m e) (hs : Members num ts es) : Members num (m ++ ch ',' :: ts) (e :: es)

/-- A key, a colon and a value. -/
inductive Member (num : List UInt8 → Prop) : List UInt8 → List UInt8 × Tree → Prop
  | mk {w k w' v t w'' : List UInt8} {key : List UInt8} {j : Tree} (hw : Whitespace w)
      (hk : IsString k key) (hw' : Whitespace w') (hv : Whitespace v) (h : Text num t j)
      (hw'' : Whitespace w'') : Member num (w ++ (k ++ (w' ++ ch ':' :: (v ++ (t ++ w''))))) (key, j)

end

end Luaxx.Json
