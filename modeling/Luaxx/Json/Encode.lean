import Luaxx.Core.Number
import Luaxx.Json.Strbuf
import Luaxx.Lib.Ctype

/-!
# Encoding (`lua_cjson.c`)

A table is its fields in the order of `lua_next`. The functions that write to the buffer take it and
return it; `top` is the number of values on the stack of the C function. The decimal point is that
of the "C" locale.
-/

namespace Luaxx.Json

open Luaxx.Ctype Strbuf

/-! ## Values -/

inductive Key where
  | number (n : Number)
  | string (s : List UInt8)
  /-- A key of another type. -/
  | other (typename : String)
  deriving DecidableEq, Repr

inductive Value where
  | nil
  | boolean (b : Bool)
  | number (n : Number)
  | string (s : List UInt8)
  | table (fields : List (Key × Value))
  | lightuserdata (p : Nat)
  /-- A function, userdata or thread. -/
  | other (typename : String)

def Key.typename : Key → String
  | number _ => "number"
  | string _ => "string"
  | other typename => typename

def Key.isIndex (i : Int) : Key → Bool
  | number n => luai_numeq n (cast_num i)
  | _ => false

/-- `lua_rawgeti`, for a value or what is known of it. -/
def lua_rawgeti {α : Type} (fields : List (Key × α)) (i : Int) : Option α :=
  (fields.find? fun e => e.1.isIndex i).map (·.2)

/-! ## The configuration -/

inductive InvalidNumbers where
  | off | on | null
  deriving DecidableEq, Repr

/-- `json_config_t`, with the ranges that the functions for the options check. -/
structure Config where
  encode_sparse_convert : Bool
  encode_sparse_ratio : Int
  encode_sparse_safe : Int
  encode_max_depth : Int
  encode_invalid_numbers : InvalidNumbers
  encode_number_precision : Int
  encode_keep_buffer : Bool
  decode_invalid_numbers : Bool
  decode_max_depth : Int
  ratio_range : 0 ≤ encode_sparse_ratio ∧ encode_sparse_ratio ≤ INT_MAX
  safe_range : 0 ≤ encode_sparse_safe ∧ encode_sparse_safe ≤ INT_MAX
  encode_depth_range : 1 ≤ encode_max_depth ∧ encode_max_depth ≤ INT_MAX
  precision_range : 1 ≤ encode_number_precision ∧ encode_number_precision ≤ 14
  decode_depth_range : 1 ≤ decode_max_depth ∧ decode_max_depth ≤ INT_MAX

/-- What `json_create_config` sets. -/
def Config.default : Config where
  encode_sparse_convert := false
  encode_sparse_ratio := 2
  encode_sparse_safe := 10
  encode_max_depth := 1000
  encode_invalid_numbers := .off
  encode_number_precision := 14
  encode_keep_buffer := true
  decode_invalid_numbers := true
  decode_max_depth := 1000
  ratio_range := by decide
  safe_range := by decide
  encode_depth_range := by decide
  precision_range := by decide
  decode_depth_range := by decide

def FPCONV_G_FMT_BUFSIZE : Nat := 32

/-- The conversions of the C library. -/
structure Libc where
  /-- What `snprintf` writes for `%.14g`, with another precision than 14. -/
  g_fmt : Int → Number → List UInt8
  g_fmt_length : ∀ precision n, (g_fmt precision n).length < FPCONV_G_FMT_BUFSIZE
  /-- The value of `strtod` for the text that it takes. -/
  strtod : List UInt8 → Number

def LUAI_MAXCSTACK : Nat := 8000

def lua_checkstack (top size : Nat) : Bool := top + size ≤ LUAI_MAXCSTACK

/-! ## Encoding -/

/-- The escape of a character, or `NULL`. -/
def char2escape (c : UInt8) : Option (List UInt8) :=
  if c = 8 then some (chars "\\b")
  else if c = 9 then some (chars "\\t")
  else if c = 10 then some (chars "\\n")
  else if c = 12 then some (chars "\\f")
  else if c = 13 then some (chars "\\r")
  else if c = ch '"' then some (chars "\\\"")
  else if c = ch '/' then some (chars "\\/")
  else if c = ch '\\' then some (chars "\\\\")
  else if c < 32 ∨ c = 127 then some (chars "\\u" ++ hexDigits 4 c.toNat)
  else none

/-- Appends to the buffer. -/
abbrev Writer := Strbuf → M Strbuf

/-- The body of the loop of `json_append_string`. -/
def json_append_escaped (json : Strbuf) (c : UInt8) : M Strbuf :=
  match char2escape c with
  | some escstr => strbuf_append_string json escstr
  | none => strbuf_append_char_unsafe json c

def json_append_string (str : List UInt8) : Writer := fun json => do
  let json ← strbuf_ensure_empty_length json (int (str.length * 6 + 2))
  let json ← strbuf_append_char_unsafe json (ch '"')
  let json ← str.foldlM json_append_escaped json
  strbuf_append_char_unsafe json (ch '"')

def json_encode_exception {α : Type} (typename reason : String) : M α :=
  .error (.error s!"Cannot serialise {typename}: {reason}")

section

variable (libc : Libc) (cfg : Config)

/-- The loop over the keys: `max` and `items`, if no key ends it. -/
def countKeys : List Key → Int → Int → Option (Int × Int)
  | [], max, items => some (max, items)
  | .number k :: keys, max, items =>
    if !k.isZero && k.isWhole && luai_numle (cast_num 1) k then
      countKeys keys (if luai_numlt (cast_num max) k then lua_number2int k else max)
        (int (items + 1))
    else none
  | _ :: _, _, _ => none

def lua_array_length (keys : List Key) : M Int :=
  match countKeys keys 0 0 with
  | none => .ok (-1)
  | some (max, items) =>
    if 0 < cfg.encode_sparse_ratio ∧ int (items * cfg.encode_sparse_ratio) < max ∧
        cfg.encode_sparse_safe < max then
      if !cfg.encode_sparse_convert then json_encode_exception "table" "excessively sparse array"
      else .ok (-1)
    else .ok max

def json_check_encode_depth (current_depth top : Nat) : M Unit :=
  if current_depth ≤ cfg.encode_max_depth ∧ lua_checkstack top 3 = true then .ok ()
  else .error (.error s!"Cannot serialise, excessive nesting ({current_depth})")

def json_append_number (num : Number) : Writer := fun json =>
  let format : M Strbuf := do
    let json ← strbuf_ensure_empty_length json FPCONV_G_FMT_BUFSIZE
    strbuf_append_mem_unsafe json (libc.g_fmt cfg.encode_number_precision num)
  match cfg.encode_invalid_numbers with
  | .off =>
    if num.isInf || num.isNaN then json_encode_exception "number" "must not be NaN or Inf"
    else format
  | .on => if num.isNaN then strbuf_append_mem json (chars "nan") else format
  | .null => if num.isInf || num.isNaN then strbuf_append_mem json (chars "null") else format

/-- The loop over elements with `comma`. -/
def appendList : List Writer → Bool → Writer
  | [], _ => fun json => .ok json
  | element :: elements, comma => fun json => do
    let json ← if comma then strbuf_append_char json (ch ',') else .ok json
    let json ← element json
    appendList elements true json

/-- The elements of an array from 1 on. The index does not overflow, since the buffer is full long
before. -/
def json_append_array (array_length : Int) (element : Nat → Writer) : Writer := fun json => do
  let json ← strbuf_append_char json (ch '[')
  let json ← appendList ((List.range' 1 array_length.toNat).map element) false json
  strbuf_append_char json (ch ']')

def json_append_key (key : Key) : Writer := fun json =>
  match key with
  | .number n => do
    let json ← strbuf_append_char json (ch '"')
    let json ← json_append_number libc cfg n json
    strbuf_append_mem json (chars "\":")
  | .string s => do
    let json ← json_append_string s json
    strbuf_append_char json (ch ':')
  | .other typename => json_encode_exception typename "table key must be a number or string"

def json_append_object (fields : List (Key × Writer)) : Writer := fun json => do
  let json ← strbuf_append_char json (ch '{')
  let json ← appendList (fields.map fun field json => do
    let json ← json_append_key libc cfg field.1 json
    field.2 json) false json
  strbuf_append_char json (ch '}')

mutual

def json_append_data : Value → Nat → Nat → Writer
  | .string s, _, _ => json_append_string s
  | .number n, _, _ => json_append_number libc cfg n
  | .boolean b, _, _ => fun json =>
    strbuf_append_mem json (if b then chars "true" else chars "false")
  | .table fields, current_depth, top => fun json => do
    json_check_encode_depth cfg (current_depth + 1) top
    let len ← lua_array_length cfg (fields.map (·.1))
    if 0 < len then
      let elements := appendFields fields (current_depth + 1) (top + 1)
      json_append_array len (fun i => (lua_rawgeti elements i).getD fun json =>
        strbuf_append_mem json (chars "null")) json
    else json_append_object libc cfg (appendFields fields (current_depth + 1) (top + 2)) json
  | .nil, _, _ => fun json => strbuf_append_mem json (chars "null")
  | .lightuserdata p, _, _ => fun json =>
    if p = 0 then strbuf_append_mem json (chars "null")
    else json_encode_exception "userdata" "type not supported"
  | .other typename, _, _ => fun _ => json_encode_exception typename "type not supported"

/-- The fields with what appends their values. -/
def appendFields : List (Key × Value) → Nat → Nat → List (Key × Writer)
  | [], _, _ => []
  | (key, value) :: fields, current_depth, top =>
    (key, json_append_data value current_depth top) :: appendFields fields current_depth top

end

/-- `encode_buf` is the buffer that is kept between calls: the string, and the buffer after the
call. -/
def json_encode (encode_buf : Strbuf) (value : Value) : M (List UInt8 × Strbuf) := do
  if !cfg.encode_keep_buffer then
    let json ← strbuf_init 0
    let json ← json_append_data libc cfg value 0 1 json
    return (json.buf, encode_buf)
  else
    let json ← json_append_data libc cfg value 0 1 (strbuf_reset encode_buf)
    return (json.buf, json)

end

end Luaxx.Json
