import Luaxx.Json.Text

/-!
# Space in the buffer

What the encoder does is a list of requests to the buffer, each of which makes the space that it
needs and writes to it. A run of the encoder is safe if no request writes outside of the buffer, and
a size that is no `int` is refused.
-/

namespace Luaxx.Json

open Luaxx.Ctype Luaxx.Result Strbuf

/-! ## Requests -/

inductive Request where
  /-- `strbuf_append_mem` and `strbuf_append_char`, of a constant. -/
  | text (c : List UInt8) (short : c.length < 6)
  | number (n : Number)
  | string (s : List UInt8)
  /-- `luaL_error`. -/
  | raise (msg : String)

def literal (s : String) (h : (chars s).length < 6) : Request := .text (chars s) h

/-- What a check lets through. -/
def requestsAfter {α : Type} (x : M α) (rs : α → List Request) : List Request :=
  match x with
  | .ok a => rs a
  | .error (.error msg) => [.raise msg]
  | .error _ => []

def requestsException (typename reason : String) : List Request :=
  requestsAfter (json_encode_exception typename reason) id

def separatedRequests : List (List Request) → Bool → List Request
  | [], _ => []
  | rs :: rss, comma =>
    (if comma then [literal "," (by decide)] else []) ++ (rs ++ separatedRequests rss true)

def arrayRequests (array_length : Int) (element : Nat → List Request) : List Request :=
  literal "[" (by decide) ::
    (separatedRequests ((List.range' 1 array_length.toNat).map element) false ++
      [literal "]" (by decide)])

def keyRequests : Key → List Request
  | .number n => [literal "\"" (by decide), .number n, literal "\":" (by decide)]
  | .string s => [.string s, literal ":" (by decide)]
  | .other typename => requestsException typename "table key must be a number or string"

def objectRequests (fields : List (Key × List Request)) : List Request :=
  literal "\x7b" (by decide) ::
    (separatedRequests (fields.map fun e => keyRequests e.1 ++ e.2) false ++
      [literal "\x7d" (by decide)])

section

variable (libc : Libc) (cfg : Config)

mutual

/-- What the encoder asks for. -/
def requests : Value → Nat → Nat → List Request
  | .string s, _, _ => [.string s]
  | .number n, _, _ => [.number n]
  | .boolean b, _, _ => [if b then literal "true" (by decide) else literal "false" (by decide)]
  | .table fields, depth, top =>
    requestsAfter (json_check_encode_depth cfg (depth + 1) top) fun _ =>
      requestsAfter (lua_array_length cfg (fields.map (·.1))) fun len =>
        if 0 < len then
          arrayRequests len fun i =>
            (lua_rawgeti (requestFields fields (depth + 1) (top + 1)) i).getD
              [literal "null" (by decide)]
        else objectRequests (requestFields fields (depth + 1) (top + 2))
  | .nil, _, _ => [literal "null" (by decide)]
  | .lightuserdata p, _, _ =>
    if p = 0 then [literal "null" (by decide)]
    else requestsException "userdata" "type not supported"
  | .other typename, _, _ => requestsException typename "type not supported"

def requestFields : List (Key × Value) → Nat → Nat → List (Key × List Request)
  | [], _, _ => []
  | (key, value) :: fields, depth, top =>
    (key, requests value depth top) :: requestFields fields depth top

end

def Request.perform : Request → Writer
  | text c _ => fun json => strbuf_append_mem json c
  | number n => json_append_number libc cfg n
  | string s => json_append_string s
  | raise msg => fun _ => .error (.error msg)

def performAll : List Request → Writer
  | [] => fun json => .ok json
  | r :: rs => fun json => do
    let json ← r.perform libc cfg json
    performAll rs json

end

variable {libc : Libc} {cfg : Config}

/-! ## The encoder performs its requests -/

theorem performAll_append (rs rs' : List Request) (json : Strbuf) :
    performAll libc cfg (rs ++ rs') json =
      performAll libc cfg rs json >>= performAll libc cfg rs' := by
  induction rs generalizing json with
  | nil => rfl
  | cons r rs ih =>
    rw [List.cons_append, performAll, performAll, bind_assoc]
    exact congrArg (_ >>= ·) (funext ih)

theorem performAll_singleton (r : Request) : performAll libc cfg [r] = r.perform libc cfg := by
  funext json
  show r.perform libc cfg json >>= pure = _
  exact bind_pure _

section

variable (libc : Libc) (cfg : Config)

/-- What the function does is to make these requests. -/
def Performs (f : Writer) (rs : List Request) : Prop :=
  ∀ json, f json = performAll libc cfg rs json

end

variable {f g : Writer} {rs rs' : List Request}

theorem Performs.bind (hf : Performs libc cfg f rs) (hg : Performs libc cfg g rs') :
    Performs libc cfg (fun json => f json >>= g) (rs ++ rs') := by
  intro json
  rw [performAll_append, ← hf json]
  exact congrArg (f json >>= ·) (funext hg)

theorem performs_request (r : Request) : Performs libc cfg (r.perform libc cfg) [r] := by
  intro json
  rw [performAll_singleton]

theorem performs_nothing : Performs libc cfg (fun json => .ok json) [] := fun _ => rfl

theorem performs_mem {s : String} (h : (chars s).length < 6) :
    Performs libc cfg (fun json => strbuf_append_mem json (chars s)) [literal s h] :=
  performs_request (literal s h)

theorem performs_char {s : String} (h : (chars s).length < 6) {c : UInt8} (hc : chars s = [c]) :
    Performs libc cfg (fun json => strbuf_append_char json c) [literal s h] := by
  intro json
  have hint : int [c].length = 1 := by simp [int]
  rw [← performs_mem h json, hc]
  show strbuf_append_char json c = strbuf_append_mem json [c]
  rw [strbuf_append_char, strbuf_append_mem, hint]
  rfl

theorem performs_exception (typename reason : String) :
    Performs libc cfg (fun _ => json_encode_exception typename reason)
      (requestsException typename reason) :=
  fun _ => rfl

theorem performs_after {α : Type} {x : M α} {f : α → Writer} {rs : α → List Request}
    (hx : ∀ e, x = .error e → ∃ msg, e = .error msg) (hf : ∀ a, Performs libc cfg (f a) (rs a)) :
    Performs libc cfg (fun json => x >>= fun a => f a json) (requestsAfter x rs) := by
  intro json
  cases x with
  | ok a => exact hf a json
  | error e =>
    obtain ⟨msg, rfl⟩ := hx e rfl
    rfl

theorem performs_list {fs : List Writer} {rss : List (List Request)}
    (h : List.Forall₂ (Performs libc cfg) fs rss) (comma : Bool) :
    Performs libc cfg (appendList fs comma) (separatedRequests rss comma) := by
  induction h generalizing comma with
  | nil => exact performs_nothing
  | cons hf hfs ih =>
    unfold appendList separatedRequests
    cases comma with
    | false => exact performs_nothing.bind (hf.bind (ih true))
    | true => exact (performs_char _ rfl).bind (hf.bind (ih true))

theorem performs_array {element : Nat → Writer} {rs : Nat → List Request}
    (h : ∀ i, Performs libc cfg (element i) (rs i)) (array_length : Int) :
    Performs libc cfg (json_append_array array_length element) (arrayRequests array_length rs) := by
  have hall : List.Forall₂ (Performs libc cfg) ((List.range' 1 array_length.toNat).map element)
      ((List.range' 1 array_length.toNat).map rs) := by
    rw [List.forall₂_map_left_iff, List.forall₂_map_right_iff, List.forall₂_same]
    exact fun i _ => h i
  exact (performs_char _ rfl).bind ((performs_list hall false).bind (performs_char _ rfl))

theorem performs_key (key : Key) :
    Performs libc cfg (json_append_key libc cfg key) (keyRequests key) := by
  cases key with
  | number n =>
    exact (performs_char _ rfl).bind ((performs_request (.number n)).bind (performs_mem _))
  | string s => exact (performs_request (.string s)).bind (performs_char _ rfl)
  | other typename => exact performs_exception _ _

theorem performs_object {fs : List (Key × Writer)} {rss : List (Key × List Request)}
    (h : List.Forall₂ (fun e e' => e.1 = e'.1 ∧ Performs libc cfg e.2 e'.2) fs rss) :
    Performs libc cfg (json_append_object libc cfg fs) (objectRequests rss) := by
  have hall : List.Forall₂ (Performs libc cfg)
      (fs.map fun field json => json_append_key libc cfg field.1 json >>= field.2)
      (rss.map fun e => keyRequests e.1 ++ e.2) := by
    rw [List.forall₂_map_left_iff, List.forall₂_map_right_iff]
    refine h.imp fun e e' he => ?_
    rw [← he.1]
    exact (performs_key e.1).bind he.2
  exact (performs_char _ rfl).bind ((performs_list hall false).bind (performs_char _ rfl))

theorem requestFields_eq (fields : List (Key × Value)) (depth top : Nat) :
    requestFields cfg fields depth top = fields.map fun e => (e.1, requests cfg e.2 depth top) := by
  induction fields with
  | nil => rfl
  | cons e fields ih => rw [requestFields, ih, List.map_cons]

theorem performs_rawgeti {fs : List (Key × Writer)} {rss : List (Key × List Request)}
    (h : List.Forall₂ (fun e e' => e.1 = e'.1 ∧ Performs libc cfg e.2 e'.2) fs rss) (i : Int) :
    Performs libc cfg
      ((lua_rawgeti fs i).getD fun json => strbuf_append_mem json (chars "null"))
      ((lua_rawgeti rss i).getD [literal "null" (by decide)]) := by
  induction h with
  | nil => exact performs_mem _
  | @cons e e' fs rss he hfields ih =>
    obtain ⟨key, f⟩ := e
    obtain ⟨key', rs⟩ := e'
    obtain ⟨rfl, hperforms⟩ : key = key' ∧ Performs libc cfg f rs := he
    rw [lua_rawgeti, lua_rawgeti, List.find?_cons, List.find?_cons]
    cases hkey : key.isIndex i with
    | true => exact hperforms
    | false => exact ih

theorem performs_data (v : Value) : ∀ depth top,
    Performs libc cfg (json_append_data libc cfg v depth top) (requests cfg v depth top) := by
  induction v using Value.induct with
  | atom v hatom =>
    intro depth top
    cases v with
    | nil => exact performs_mem _
    | boolean b =>
      cases b with
      | false => exact performs_mem _
      | true => exact performs_mem _
    | number n => exact performs_request (.number n)
    | string s => exact performs_request (.string s)
    | table fields => exact absurd rfl (hatom fields)
    | lightuserdata p =>
      unfold json_append_data requests
      split
      · exact performs_mem _
      · exact performs_exception _ _
    | other typename => exact performs_exception _ _
  | table fields ih =>
    intro depth top
    have hfields : ∀ depth top, List.Forall₂ (fun e e' => e.1 = e'.1 ∧ Performs libc cfg e.2 e'.2)
        (appendFields libc cfg fields depth top) (requestFields cfg fields depth top) := by
      intro depth top
      rw [appendFields_eq, requestFields_eq, List.forall₂_map_left_iff, List.forall₂_map_right_iff,
        List.forall₂_same]
      exact fun e he => ⟨rfl, ih e he depth top⟩
    unfold json_append_data requests
    refine performs_after (fun e => json_check_encode_depth_error) fun _ => ?_
    refine performs_after (fun e => lua_array_length_error) fun len => ?_
    split
    · refine performs_array (fun i => ?_) len
      exact performs_rawgeti (hfields (depth + 1) (top + 1)) i
    · exact performs_object (hfields (depth + 1) (top + 2))

end Luaxx.Json
