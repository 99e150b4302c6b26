import Luaxx.Json.Encode
import Luaxx.Lib.Result

/-!
# Decoding (`lua_cjson.c`)

A pointer into the text is what is left of it; the end of the list is the NUL after the text, and a
NUL in the text is read like it. The loops have fuel, which is shown to suffice. `char` is signed.
-/

namespace Luaxx.Json

open Luaxx.Ctype Luaxx.Result Strbuf

/-- `*p` -/
def peek (p : List UInt8) : UInt8 := p.headD 0

@[simp] theorem peek_cons (c : UInt8) (p : List UInt8) : peek (c :: p) = c := rfl

/-! ## `strtod` -/

/-- Digits with at most one point among them. -/
def strtodDigits (digit : UInt8 → Bool) (p : List UInt8) : Option (List UInt8 × List UInt8) :=
  let whole := p.takeWhile digit
  let p := p.dropWhile digit
  if peek p = ch '.' then
    let fraction := p.tail.takeWhile digit
    if whole = [] ∧ fraction = [] then none
    else some (whole ++ ch '.' :: fraction, p.tail.dropWhile digit)
  else if whole = [] then none
  else some (whole, p)

def strtodSign (p : List UInt8) : List UInt8 × List UInt8 :=
  if peek p = ch '+' ∨ peek p = ch '-' then ([peek p], p.tail) else ([], p)

/-- The exponent, if there is one after its letter. -/
def strtodExponent (letter : Char) (p : List UInt8) : List UInt8 × List UInt8 :=
  if tolower (peek p) = ch letter then
    let (sign, q) := strtodSign p.tail
    let digits := q.takeWhile isdigit
    if digits = [] then ([], p) else (peek p :: (sign ++ digits), q.dropWhile isdigit)
  else ([], p)

/-- `strncasecmp(p, word, strlen(word)) == 0`, for a word in lower case. -/
def strncasecmp (p : List UInt8) (word : String) : Bool :=
  (p.take (chars word).length).map tolower == chars word

/-- `inf` and `nan` in their forms. -/
def strtodWord (p : List UInt8) : Option (List UInt8 × List UInt8) :=
  let take (n : Nat) := some (p.take n, p.drop n)
  if strncasecmp p "infinity" then take 8
  else if strncasecmp p "inf" then take 3
  else if strncasecmp p "nan" then
    let name := (p.drop 4).takeWhile fun c => isalnum c || c == ch '_'
    if peek (p.drop 3) = ch '(' ∧ peek (p.drop (4 + name.length)) = ch ')' then
      take (5 + name.length)
    else take 3
  else none

def strtodUnsigned (p : List UInt8) : Option (List UInt8 × List UInt8) :=
  let hex := if peek p = ch '0' ∧ tolower (peek p.tail) = ch 'x' then
    strtodDigits isxdigit (p.drop 2) else none
  match hex with
  | some (digits, q) =>
    let (e, q) := strtodExponent 'p' q
    some (p.take 2 ++ (digits ++ e), q)
  | none =>
    match strtodDigits isdigit p with
    | some (digits, q) =>
      let (e, q) := strtodExponent 'e' q
      some (digits ++ e, q)
    | none => strtodWord p

/-- What `strtod` takes of the text, and `*endptr`; nothing if there is no number. The text does not
begin with white space. -/
def strtodSpan (p : List UInt8) : Option (List UInt8 × List UInt8) :=
  let (sign, q) := strtodSign p
  (strtodUnsigned q).map fun r => (sign ++ r.1, r.2)

/-! ## Tokens -/

inductive TokenType where
  | objBegin | objEnd | arrBegin | arrEnd | string | number | boolean | null | colon | comma
  | «end» | whitespace | error | unknown
  deriving DecidableEq, Repr

/-- `json_token_type_name` -/
def TokenType.name : TokenType → String
  | objBegin => "T_OBJ_BEGIN"
  | objEnd => "T_OBJ_END"
  | arrBegin => "T_ARR_BEGIN"
  | arrEnd => "T_ARR_END"
  | string => "T_STRING"
  | number => "T_NUMBER"
  | boolean => "T_BOOLEAN"
  | null => "T_NULL"
  | colon => "T_COLON"
  | comma => "T_COMMA"
  | «end» => "T_END"
  | whitespace => "T_WHITESPACE"
  | error => "T_ERROR"
  | unknown => "T_UNKNOWN"

/-- A token with its value; those without one have only their type. -/
inductive Token where
  | plain (type : TokenType)
  | string (s : List UInt8)
  | number (n : Number)
  | boolean (b : Bool)
  | error (errtype : String)
  deriving DecidableEq, Repr

/-- What an error message calls it. -/
def Token.found : Token → String
  | plain type => type.name
  | string _ => TokenType.string.name
  | number _ => TokenType.number.name
  | boolean _ => TokenType.boolean.name
  | error errtype => errtype

def ch2token (c : UInt8) : TokenType :=
  if c = ch '{' then .objBegin
  else if c = ch '}' then .objEnd
  else if c = ch '[' then .arrBegin
  else if c = ch ']' then .arrEnd
  else if c = ch ',' then .comma
  else if c = ch ':' then .colon
  else if c = 0 then .end
  else if c = ch ' ' ∨ c = 9 ∨ c = 10 ∨ c = 13 then .whitespace
  else if c ∈ chars "fiInNt\"+-" ∨ isdigit c then .unknown
  else .error

/-- 0 is an error. -/
def escape2char (c : UInt8) : UInt8 :=
  if c = ch '"' then ch '"'
  else if c = ch '\\' then ch '\\'
  else if c = ch '/' then ch '/'
  else if c = ch 'b' then 8
  else if c = ch 't' then 9
  else if c = ch 'n' then 10
  else if c = ch 'f' then 12
  else if c = ch 'r' then 13
  else if c = ch 'u' then ch 'u'
  else 0

/-- `hexdigit2int`, where it is not -1. -/
def hexdigit2int (hex : UInt8) : Option Nat :=
  if isdigit hex then some (hex.toNat - (ch '0').toNat)
  else
    let hex := hex ||| 0x20
    if ch 'a' ≤ hex ∧ hex ≤ ch 'f' then some (10 + hex.toNat - (ch 'a').toNat) else none

/-- `decode_hex4`, where it is not -1: the end of the text is no digit. -/
def decode_hex4 : List UInt8 → Option Nat
  | a :: b :: c :: d :: _ => do
    let a ← hexdigit2int a
    let b ← hexdigit2int b
    let c ← hexdigit2int c
    let d ← hexdigit2int d
    return (a <<< 12) + (b <<< 8) + (c <<< 4) + d
  | _ => none

def codepoint_to_utf8 (codepoint : Nat) : List UInt8 :=
  if codepoint ≤ 0x7F then [UInt8.ofNat codepoint]
  else if codepoint ≤ 0x7FF then
    [UInt8.ofNat (codepoint >>> 6 ||| 0xC0), UInt8.ofNat (codepoint &&& 0x3F ||| 0x80)]
  else if codepoint ≤ 0xFFFF then
    [UInt8.ofNat (codepoint >>> 12 ||| 0xE0), UInt8.ofNat (codepoint >>> 6 &&& 0x3F ||| 0x80),
      UInt8.ofNat (codepoint &&& 0x3F ||| 0x80)]
  else if codepoint ≤ 0x1FFFFF then
    [UInt8.ofNat (codepoint >>> 18 ||| 0xF0), UInt8.ofNat (codepoint >>> 12 &&& 0x3F ||| 0x80),
      UInt8.ofNat (codepoint >>> 6 &&& 0x3F ||| 0x80), UInt8.ofNat (codepoint &&& 0x3F ||| 0x80)]
  else []

/-- `json_append_unicode_escape`: the bytes, and where the text goes on. -/
def json_append_unicode_escape (ptr : List UInt8) : Option (List UInt8 × List UInt8) := do
  let codepoint ← decode_hex4 (ptr.drop 2)
  let (codepoint, escape_len) ←
    if codepoint &&& 0xF800 = 0xD800 then
      if codepoint &&& 0x400 ≠ 0 then none
      else if peek (ptr.drop 6) ≠ ch '\\' ∨ peek (ptr.drop 7) ≠ ch 'u' then none
      else do
        let surrogate_low ← decode_hex4 (ptr.drop 8)
        if surrogate_low &&& 0xFC00 ≠ 0xDC00 then none
        else
          some (((codepoint &&& 0x3FF) <<< 10 ||| (surrogate_low &&& 0x3FF)) + 0x10000, 12)
    else some (codepoint, 6)
  if codepoint_to_utf8 codepoint = [] then none
  else some (codepoint_to_utf8 codepoint, ptr.drop escape_len)

/-- A token and the text after it, or the type of an error and where it is. -/
abbrev Lexed := Token × List UInt8

/-- The loop of `json_next_string_token`. -/
def scanString : Nat → Strbuf → List UInt8 → M Lexed
  | 0, _, _ => .error .diverges
  | fuel + 1, tmp, ptr =>
    let c := peek ptr
    if c = ch '"' then do
      strbuf_ensure_null tmp
      return (.string tmp.buf, ptr.tail)
    else if c = 0 then .ok (.error "unexpected end of string", ptr)
    else if c = ch '\\' then
      let c := escape2char (peek ptr.tail)
      if c = ch 'u' then
        match json_append_unicode_escape ptr with
        | some (utf8, ptr) => do
          let tmp ← strbuf_append_mem_unsafe tmp utf8
          scanString fuel tmp ptr
        | none => .ok (.error "invalid unicode escape code", ptr)
      else if c = 0 then .ok (.error "invalid escape code", ptr)
      else do
        let tmp ← strbuf_append_char_unsafe tmp c
        scanString fuel tmp (ptr.drop 2)
    else do
      let tmp ← strbuf_append_char_unsafe tmp c
      scanString fuel tmp ptr.tail

def json_next_string_token (tmp : Strbuf) (ptr : List UInt8) : M Lexed :=
  scanString (ptr.length + 1) (strbuf_reset tmp) ptr.tail

def json_is_invalid_number (ptr : List UInt8) : Bool :=
  if peek ptr = ch '+' then true
  else
    let p := if peek ptr = ch '-' then ptr.tail else ptr
    if peek p = ch '0' then
      let ch2 := peek p.tail
      ch2 ||| 0x20 = ch 'x' || isdigit ch2
    -- the characters from 128 on are negative
    else if peek p ≤ ch '9' ∨ 128 ≤ peek p then false
    else strncasecmp p "inf" || strncasecmp p "nan"

section

variable (libc : Libc) (cfg : Config)

def json_next_number_token (ptr : List UInt8) : Lexed :=
  match strtodSpan ptr with
  | some (text, ptr) => (.number (libc.strtod text), ptr)
  | none => (.error "invalid number", ptr)

def skipWhitespace (ptr : List UInt8) : List UInt8 :=
  ptr.dropWhile fun c => ch2token c == .whitespace

/-- `json_next_token`, after the white space. -/
def lexToken (tmp : Strbuf) (ptr : List UInt8) : M Lexed :=
  let c := peek ptr
  match ch2token c with
  | .error => .ok (.error "invalid token", ptr)
  | .end => .ok (.plain .end, ptr)
  | .unknown =>
    if c = ch '"' then json_next_string_token tmp ptr
    else if c = ch '-' ∨ isdigit c = true then
      if !cfg.decode_invalid_numbers && json_is_invalid_number ptr then
        .ok (.error "invalid number", ptr)
      else .ok (json_next_number_token libc ptr)
    else if (chars "true").isPrefixOf ptr then .ok (.boolean true, ptr.drop 4)
    else if (chars "false").isPrefixOf ptr then .ok (.boolean false, ptr.drop 5)
    else if (chars "null").isPrefixOf ptr then .ok (.plain .null, ptr.drop 4)
    else if cfg.decode_invalid_numbers && json_is_invalid_number ptr then
      .ok (json_next_number_token libc ptr)
    else .ok (.error "invalid token", ptr)
  | type => .ok (.plain type, ptr.tail)

/-- The text, from which the index of a token is counted, and the buffer for strings. -/
structure Source where
  data : List UInt8
  tmp : Strbuf

/-- A token, its index, and the text after it. -/
abbrev Next := Token × Nat × List UInt8

def json_next_token (json : Source) (ptr : List UInt8) : M Next := do
  let start := skipWhitespace ptr
  let (token, ptr) ← lexToken libc cfg json.tmp start
  -- the index of an error is where it was found
  let place := match token with
    | .error _ => ptr
    | _ => start
  return (token, json.data.length - place.length, ptr)

def json_throw_parse_error {α : Type} (exp : String) (token : Token) (index : Nat) : M α :=
  .error (.error s!"Expected {exp} but found {token.found} at character {index + 1}")

/-! ## Values -/

def json_decode_descend (json : Source) (current_depth top slots : Nat) (ptr : List UInt8) :
    M Unit :=
  if current_depth ≤ cfg.decode_max_depth ∧ lua_checkstack top slots = true then .ok ()
  else
    let index := json.data.length - ptr.length
    .error (.error
      s!"Found too many nested data structures ({current_depth}) at character {index}")

/-- `lua_rawset`. The order of `lua_next` is not that of the fields. -/
def lua_rawset (fields : List (Key × Value)) (key : Key) (value : Value) : List (Key × Value) :=
  if fields.any fun e => e.1 == key then
    fields.map fun e => if e.1 == key then (key, value) else e
  else fields ++ [(key, value)]

/-- `json_process_value` for the values in a table. -/
abbrev Process := Next → (current_depth top : Nat) → M (Value × List UInt8)

/-- The loop of `json_parse_object_context`. -/
def objectLoop (json : Source) (process : Process) (current_depth top : Nat) :
    Nat → List (Key × Value) → Next → M (Value × List UInt8)
  | 0, _, _ => .error .diverges
  | fuel + 1, fields, (token, index, ptr) =>
    match token with
    | .string key => do
      let (token, index, ptr) ← json_next_token libc cfg json ptr
      if token ≠ .plain .colon then json_throw_parse_error "colon" token index
      else
        let next ← json_next_token libc cfg json ptr
        let (value, ptr) ← process next current_depth (top + 2)
        let fields := lua_rawset fields (.string key) value
        let (token, index, ptr) ← json_next_token libc cfg json ptr
        if token = .plain .objEnd then .ok (.table fields, ptr)
        else if token ≠ .plain .comma then
          json_throw_parse_error "comma or object end" token index
        else
          let next ← json_next_token libc cfg json ptr
          objectLoop json process current_depth top fuel fields next
    | token => json_throw_parse_error "object key string" token index

def json_parse_object_context (json : Source) (process : Process) (current_depth top : Nat)
    (ptr : List UInt8) : M (Value × List UInt8) := do
  json_decode_descend cfg json (current_depth + 1) top 3 ptr
  let next ← json_next_token libc cfg json ptr
  if next.1 = .plain .objEnd then .ok (.table [], next.2.2)
  else objectLoop libc cfg json process (current_depth + 1) top (ptr.length + 1) [] next

/-- The loop of `json_parse_array_context`. -/
def arrayLoop (json : Source) (process : Process) (current_depth top : Nat) :
    Nat → Nat → List (Key × Value) → Next → M (Value × List UInt8)
  | 0, _, _, _ => .error .diverges
  | fuel + 1, i, fields, next => do
    let (value, ptr) ← process next current_depth (top + 1)
    let fields := lua_rawset fields (.number (cast_num i)) value
    let (token, index, ptr) ← json_next_token libc cfg json ptr
    if token = .plain .arrEnd then .ok (.table fields, ptr)
    else if token ≠ .plain .comma then json_throw_parse_error "comma or array end" token index
    else
      let next ← json_next_token libc cfg json ptr
      arrayLoop json process current_depth top fuel (i + 1) fields next

def json_parse_array_context (json : Source) (process : Process) (current_depth top : Nat)
    (ptr : List UInt8) : M (Value × List UInt8) := do
  json_decode_descend cfg json (current_depth + 1) top 2 ptr
  let next ← json_next_token libc cfg json ptr
  if next.1 = .plain .arrEnd then .ok (.table [], next.2.2)
  else arrayLoop libc cfg json process (current_depth + 1) top (ptr.length + 1) 1 [] next

def json_process_value (json : Source) : Nat → Process
  | 0, _, _, _ => .error .diverges
  | fuel + 1, (token, index, ptr), current_depth, top =>
    match token with
    | .string s => .ok (.string s, ptr)
    | .number n => .ok (.number n, ptr)
    | .boolean b => .ok (.boolean b, ptr)
    | .plain .objBegin =>
      json_parse_object_context libc cfg json (json_process_value json fuel) current_depth top ptr
    | .plain .arrBegin =>
      json_parse_array_context libc cfg json (json_process_value json fuel) current_depth top ptr
    | .plain .null => .ok (.lightuserdata 0, ptr)
    | token => json_throw_parse_error "value" token index

def json_decode (data : List UInt8) : M Value := do
  if 2 ≤ data.length ∧ (data[0]? = some 0 ∨ data[1]? = some 0) then
    .error (.error "JSON parser does not support UTF-16 or UTF-32")
  else
    let tmp ← strbuf_new (int data.length)
    let json : Source := ⟨data, tmp⟩
    let next ← json_next_token libc cfg json data
    let (value, ptr) ← json_process_value libc cfg json (data.length + 1) next 0 1
    let (token, index, _) ← json_next_token libc cfg json ptr
    if token ≠ .plain .end then json_throw_parse_error "the end" token index
    else .ok value

end

end Luaxx.Json
