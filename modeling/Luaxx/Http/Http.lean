import Luaxx.Lib.Ctype
import Luaxx.Lib.Result

/-!
# Links in HTML texts (`lhttplib.c`)

A pointer into a C string is what is left of it before its NUL, so that `*p` is 0 at the empty
list. `find_url` has fuel for its loops; that it suffices is proved. The copy of the base URL in
`concat_url` is a pair, what is before `protsep` and what `protsep` points to. Allocations succeed,
`char` is signed, and the strings are shorter than 2^31.
-/

namespace Luaxx.Http

open Luaxx.Ctype

inductive Stop where
  /-- A read after the terminating NUL. -/
  | pastEnd
  | outOfFuel
  deriving DecidableEq, Repr

abbrev M := Except Stop

/-- The C string in a Lua string. -/
def cstr (s : List UInt8) : List UInt8 := s.takeWhile (· ≠ 0)

/-- `strchr`, for a character other than NUL. -/
def strchr (s : List UInt8) (c : UInt8) : Option (List UInt8) :=
  match s.dropWhile (· ≠ c) with
  | [] => none
  | p => some p

/-- `_stricmp(s, t) == 0`. -/
def stricmp (s t : List UInt8) : Bool := s.map tolower == t.map tolower

/-! ## `find_url` -/

/-- A value after its `=`, and where it ends. -/
def readValue : List UInt8 → List UInt8 × List UInt8
  | [] => ([], [])
  | c :: p =>
    if c = ch '\'' ∨ c = ch '"' then (p.takeWhile (· ≠ c), (p.dropWhile (· ≠ c)).tail)
    else
      ((c :: p).takeWhile fun c => !isspace c && c ≠ ch '>',
        (c :: p).dropWhile fun c => !isspace c && c ≠ ch '>')

/-- The loop over the attributes: the value of the attribute, and where the loop ends. -/
def findAttr (tag_attr : List UInt8) : Nat → List UInt8 → M (List UInt8 × List UInt8)
  | 0, _ => .error .outOfFuel
  | _ + 1, [] => .ok ([], [])
  | fuel + 1, c :: ii =>
    if c = ch '>' then .ok ([], c :: ii)
    else
      let ii := (c :: ii).dropWhile isspace
      let attr := ii.takeWhile isalpha
      -- the character after the name is skipped whatever it is
      match ii.dropWhile isalpha with
      | [] => .error .pastEnd
      | _ :: ii =>
        if stricmp attr tag_attr then .ok (readValue ii)
        else findAttr tag_attr fuel (readValue ii).2

/-- The outer loop of `find_url`: the pointer that is returned, and `value`. -/
def findTag (tag_element tag_attr : List UInt8) :
    Nat → List UInt8 → M (Option (List UInt8) × List UInt8)
  | 0, _ => .error .outOfFuel
  | fuel + 1, start =>
    match strchr start (ch '<') with
    | none => .ok (none, [])
    | some ii =>
      let element := ii.tail.takeWhile isalpha
      let ii := ii.tail.dropWhile isalpha
      if stricmp tag_element element then do
        let (value, ii) ← findAttr tag_attr (ii.length + 1) ii
        return (strchr ii (ch '<'), value)
      else findTag tag_element tag_attr fuel ii

def find_url (tag_element tag_attr html : List UInt8) : M (Option (List UInt8) × List UInt8) :=
  findTag tag_element tag_attr (html.length + 1) html

/-- The calls of `find_url` in the loop of `hl_collect_resource`: what each returns. -/
def findAll (element attr : List UInt8) :
    Nat → List UInt8 → M (List (Option (List UInt8) × List UInt8))
  | 0, _ => .error .outOfFuel
  | fuel + 1, next => do
    let call ← find_url element attr next
    match call.1 with
    | none => return [call]
    | some next => return call :: (← findAll element attr fuel next)

/-! ## `concat_url` -/

def hasPrefix (s t : List UInt8) : Bool := t.isPrefixOf s

/-- `strstr`, as the number of characters before the first occurrence. -/
def strstr (s t : List UInt8) : Option Nat :=
  (List.range (s.length + 1)).find? fun i => hasPrefix (s.drop i) t

/-- What is before the last `c`: the string after `*strrchr(s, c) = 0`. -/
def cutLast (s : List UInt8) (c : UInt8) : Option (List UInt8) :=
  match s.reverse.dropWhile (· ≠ c) with
  | [] => none
  | _ :: r => some r.reverse

/-- The marks of a URL that is absolute. -/
def marks : List (List UInt8) :=
  [chars "http://", chars "https://", chars "www.", chars "ftp://", chars "ftps://"]

/-- `_snprintf_c(optr, 4, "%%%02x", c)`, for a character that is not in ASCII: it is negative, so
that `%x` writes eight digits of which two fit. -/
def escape (c : UInt8) : List UInt8 :=
  (ch '%' :: hexDigits 8 (2 ^ 32 - 256 + c.toNat)).take 3

def unescaped (c : UInt8) : Bool := iscntrl c || isspace c || isgraph c

/-- The loop that copies the new piece; `left` is the left side of the `?`. -/
def encode : Bool → List UInt8 → List UInt8
  | _, [] => []
  | left, c :: s =>
    if c = ch ' ' then (if left then chars "%20" else chars "+") ++ encode left s
    else (if unescaped c then [c] else escape c) ++ encode (left && c ≠ ch '?') s

/-- The same loop for the length. -/
def newlen : Bool → List UInt8 → Nat
  | _, [] => 0
  | left, c :: s =>
    if c = ch ' ' then (if left then 3 else 1) + newlen left s
    else (if unescaped c then 1 else 3) + newlen (left && c ≠ ch '?') s

/-- The number of characters of `useurl` before `host_sep`. -/
def hostSep (host_changed : Bool) (useurl : List UInt8) : Nat :=
  if host_changed then
    let sep := match strstr useurl (chars "//") with
      | none => 0
      | some i => i + 2
    let rest := useurl.drop sep
    sep + min (rest.takeWhile (· ≠ ch '/')).length (rest.takeWhile (· ≠ ch '?')).length
  else 0

/-- The copy of the base URL: what is before `protsep`, what `protsep` points to, and whether it is
`NULL`. -/
structure Clone where
  front : List UInt8
  back : List UInt8
  isNull : Bool
  deriving DecidableEq, Repr

/-- `*p = 0` at the first `c` from `protsep` on, if there is one. -/
def Clone.cut (url : Clone) (c : UInt8) : Clone := { url with back := url.back.takeWhile (· ≠ c) }

/-- `protsep` is set after the slashes. -/
def cloneOf (base : List UInt8) : Clone :=
  match strstr base (chars "//") with
  | none => ⟨[], base, false⟩
  | some i => ⟨base.take (i + 2), base.drop (i + 2), false⟩

/-- The `"../"` at the beginning: their number, and what follows. -/
def levels : List UInt8 → Nat × List UInt8
  | a :: b :: c :: s =>
    if a = ch '.' ∧ b = ch '.' ∧ c = ch '/' then ((levels s).1 + 1, (levels s).2)
    else (0, a :: b :: c :: s)
  | s => (0, s)

/-- The loop that cuts off one level after the other. -/
def cutLevels : Nat → List UInt8 → List UInt8
  | 0, path => path
  | level + 1, path =>
    match cutLast path (ch '/') with
    | some path => cutLevels level path
    | none => []

/-- A relative path: the URL to append to, and `useurl`. -/
def relative (url : Clone) (relurl : List UInt8) : Clone × List UInt8 :=
  let url := url.cut (ch '?')
  let url :=
    if relurl.head? ≠ some (ch '?') then
      { url with back := (cutLast url.back (ch '/')).getD url.back }
    else url
  -- any slash after the host name
  let host := url.back.takeWhile (· ≠ ch '/')
  let url := match url.back.dropWhile (· ≠ ch '/') with
    | [] => { url with isNull := true }
    | slash :: path => ⟨url.front ++ host ++ [slash], path, false⟩
  let useurl := if hasPrefix relurl (chars "./") then relurl.drop 2 else relurl
  let (level, useurl) := levels useurl
  (if url.isNull then url else { url with back := cutLevels level url.back }, useurl)

/-- An absolute path on the server. -/
def absolutePath (url : Clone) : Clone :=
  match strchr url.back (ch '/') with
  | some pathsep =>
    -- not the first slash if a '?' is before it
    match strchr url.back (ch '?') with
    | some sep => if pathsep.length < sep.length then url.cut (ch '?') else url.cut (ch '/')
    | none => url.cut (ch '/')
  | none => url.cut (ch '?')

/-- The new piece after the URL, with a slash between them if one is needed. -/
def append (url : Clone) (host_changed : Bool) (useurl : List UInt8) : List UInt8 :=
  let slash := useurl.head? = some (ch '/') ∨ (!url.isNull ∧ url.back = []) ∨
    useurl.head? = some (ch '?')
  let sep := hostSep host_changed useurl
  url.front ++ url.back ++ (if slash then [] else [ch '/']) ++
    (useurl.take sep ++ encode true (useurl.drop sep))

def concat_url (base relurl : List UInt8) : List UInt8 :=
  if marks.any fun mark => (strstr relurl mark).isSome then relurl
  else
    let url := cloneOf base
    if relurl.head? ≠ some (ch '/') then
      let (url, useurl) := relative url relurl
      append url false useurl
    else if relurl[1]? = some (ch '/') then append { url with back := [] } true (relurl.drop 2)
    else append (absolutePath url) false relurl

/-! ## The functions of the library -/

/-- `hl_collect_resource`: the elements of the table. -/
def hl_collect_resource (element attr html baseurl : List UInt8) : M (List (List UInt8)) := do
  let html := cstr html
  let calls ← findAll (cstr element) (cstr attr) (html.length + 1) html
  return (calls.filter fun call => call.2 ≠ []).map fun call => concat_url (cstr baseurl) call.2

def hl_collect_link (html baseurl : List UInt8) : M (List (List UInt8)) :=
  hl_collect_resource (chars "a") (chars "href") html baseurl

def hl_collect_image (html baseurl : List UInt8) : M (List (List UInt8)) :=
  hl_collect_resource (chars "img") (chars "src") html baseurl

end Luaxx.Http
