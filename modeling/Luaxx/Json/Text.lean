import Luaxx.Json.Encode
import Luaxx.Json.Output
import Mathlib.Data.List.Forall2

/-!
# The text of a value

What the encoder writes, as a function of the value and not of the buffer.
-/

namespace Luaxx.Json

open Luaxx.Ctype Luaxx.Result Strbuf

variable {libc : Libc} {cfg : Config}

/-! ## Values -/

mutual

/-- A property of every value follows from that of the fields of a table. -/
theorem Value.induct {P : Value → Prop} (atom : ∀ v, (∀ fields, v ≠ .table fields) → P v)
    (table : ∀ fields, (∀ e ∈ fields, P e.2) → P (.table fields)) : ∀ v, P v
  | .table fields => table fields (Value.induct_fields atom table fields)
  | .nil => atom _ (fun _ h => by cases h)
  | .boolean _ => atom _ (fun _ h => by cases h)
  | .number _ => atom _ (fun _ h => by cases h)
  | .string _ => atom _ (fun _ h => by cases h)
  | .lightuserdata _ => atom _ (fun _ h => by cases h)
  | .other _ => atom _ (fun _ h => by cases h)

theorem Value.induct_fields {P : Value → Prop} (atom : ∀ v, (∀ fields, v ≠ .table fields) → P v)
    (table : ∀ fields, (∀ e ∈ fields, P e.2) → P (.table fields)) :
    ∀ fields : List (Key × Value), ∀ e ∈ fields, P e.2
  | [], _, he => absurd he List.not_mem_nil
  | (key, v) :: fields, e, he => by
    rcases List.mem_cons.mp he with rfl | he
    · exact Value.induct atom table v
    · exact Value.induct_fields atom table fields e he

end

/-- A string whose escapes can be counted in an `int`. -/
def ShortString (s : List UInt8) : Prop := (s.length : Int) < INT_MAX / 6

def Key.Short : Key → Prop
  | .string s => ShortString s
  | _ => True

mutual

/-- All strings in it are short. -/
def Value.Short : Value → Prop
  | .string s => ShortString s
  | .table fields => ShortFields fields
  | _ => True

def ShortFields : List (Key × Value) → Prop
  | [] => True
  | (key, value) :: fields => key.Short ∧ value.Short ∧ ShortFields fields

end

theorem shortFields_iff {fields : List (Key × Value)} :
    ShortFields fields ↔ ∀ e ∈ fields, e.1.Short ∧ e.2.Short := by
  induction fields with
  | nil => simp [ShortFields]
  | cons e fields ih => rw [ShortFields, ih, List.forall_mem_cons, and_assoc]

/-! ## Outputs -/

def escaped (c : UInt8) : List UInt8 := (char2escape c).getD [c]

def quoted (s : List UInt8) : List UInt8 := ch '"' :: (s.flatMap escaped ++ [ch '"'])

def stringOutput (s : List UInt8) : Output := ⟨s.length * 6 + 2, .ok (quoted s)⟩

/-- The output after a check. -/
def Output.after {α : Type} (x : M α) (o : α → Output) : Output :=
  match x with
  | .ok a => o a
  | .error (.error msg) => .error msg
  | .error _ => .error ""

def Output.separated : List Output → Bool → Output
  | [], _ => .text []
  | o :: os, comma => (if comma then Output.text [ch ','] else .text []).append (o.append (separated os true))

section

variable (libc : Libc) (cfg : Config)

def numberOutput (n : Number) : Output :=
  let format : Output := ⟨FPCONV_G_FMT_BUFSIZE, .ok (libc.g_fmt cfg.encode_number_precision n)⟩
  match cfg.encode_invalid_numbers with
  | .off =>
    if n.isInf || n.isNaN then .after (json_encode_exception "number" "must not be NaN or Inf") id
    else format
  | .on => if n.isNaN then .text (chars "nan") else format
  | .null => if n.isInf || n.isNaN then .text (chars "null") else format

def arrayOutput (array_length : Int) (element : Nat → Output) : Output :=
  .append (.text [ch '['])
    (.append (.separated ((List.range' 1 array_length.toNat).map element) false) (.text [ch ']']))

def keyOutput : Key → Output
  | .number n => .append (.text [ch '"']) (.append (numberOutput libc cfg n) (.text (chars "\":")))
  | .string s => .append (stringOutput s) (.text [ch ':'])
  | .other typename =>
    .after (json_encode_exception typename "table key must be a number or string") id

def objectOutput (fields : List (Key × Output)) : Output :=
  .append (.text [ch '{'])
    (.append (.separated (fields.map fun e => (keyOutput libc cfg e.1).append e.2) false)
      (.text [ch '}']))

mutual

def output : Value → Nat → Nat → Output
  | .string s, _, _ => stringOutput s
  | .number n, _, _ => numberOutput libc cfg n
  | .boolean b, _, _ => .text (if b then chars "true" else chars "false")
  | .table fields, depth, top =>
    .after (json_check_encode_depth cfg (depth + 1) top) fun _ =>
      .after (lua_array_length cfg (fields.map (·.1))) fun len =>
        if 0 < len then
          arrayOutput len fun i =>
            (lua_rawgeti (outputFields fields (depth + 1) (top + 1)) i).getD (.text (chars "null"))
        else objectOutput libc cfg (outputFields fields (depth + 1) (top + 2))
  | .nil, _, _ => .text (chars "null")
  | .lightuserdata p, _, _ =>
    if p = 0 then .text (chars "null")
    else .after (json_encode_exception "userdata" "type not supported") id
  | .other typename, _, _ => .after (json_encode_exception typename "type not supported") id

def outputFields : List (Key × Value) → Nat → Nat → List (Key × Output)
  | [], _, _ => []
  | (key, value) :: fields, depth, top =>
    (key, output value depth top) :: outputFields fields depth top

end

end

/-! ## Strings and numbers -/

theorem escaped_length (c : UInt8) : (escaped c).length ≤ 6 :=
  forall_byte (P := fun c => (escaped c).length ≤ 6) (by decide) c

theorem strbuf_append_string_loop {str : List UInt8} {s : Strbuf} {space : Int}
    (hspace : (str.length : Int) ≤ space) (hroom : s.length + str.length ≤ s.size) :
    strbuf_append_string.loop space s str = .ok { s with buf := s.buf ++ str } := by
  induction str generalizing s space with
  | nil =>
    rw [strbuf_append_string.loop, List.append_nil]
  | cons c str ih =>
    rw [List.length_cons, Nat.cast_add] at hspace hroom
    have hstep : strbuf_append_char_unsafe s c = .ok { s with buf := s.buf ++ [c] } := by
      apply strbuf_append_mem_unsafe_eq
      rw [List.length_singleton]
      omega
    have hlength : ({ s with buf := s.buf ++ [c] } : Strbuf).length = s.length + 1 := by
      rw [Strbuf.length, List.length_append]
      rfl
    rw [strbuf_append_string.loop, if_neg (by omega), hstep, ok_bind, ih (by omega)]
    · rw [List.append_assoc]
      rfl
    · rw [hlength]
      show s.length + 1 + (str.length : Int) ≤ s.size
      omega

theorem strbuf_append_string_eq {str : List UInt8} {s : Strbuf} (hs : s.Valid)
    (hroom : s.length + str.length < s.size) :
    strbuf_append_string s str = .ok { s with buf := s.buf ++ str } := by
  have hsize := hs.size_le
  have hlimit : limit = 1023 * 2 ^ 21 := rfl
  have hlength : (0 : Int) ≤ s.length := Int.natCast_nonneg _
  have hempty : strbuf_empty_length s = s.size - s.length - 1 := int_eq (by omega) (by omega)
  rw [strbuf_append_string, hempty]
  exact strbuf_append_string_loop (by omega) (by omega)

/-- The loop over the characters, in a buffer with room for six bytes for each. -/
theorem json_append_string_loop (str : List UInt8) {s : Strbuf} (hs : s.Valid)
    (hroom : s.length + str.length * 6 < s.size) :
    str.foldlM json_append_escaped s = .ok { s with buf := s.buf ++ str.flatMap escaped } := by
  induction str generalizing s with
  | nil =>
    rw [List.foldlM_nil, List.flatMap_nil, List.append_nil]
    rfl
  | cons c str ih =>
    rw [List.length_cons, Nat.cast_add] at hroom
    have hlen := escaped_length c
    have hlength : ∀ t, ({ s with buf := s.buf ++ t } : Strbuf).length = s.length + t.length := by
      intro t
      rw [Strbuf.length, List.length_append, Nat.cast_add]
      rfl
    have hstep : json_append_escaped s c = .ok { s with buf := s.buf ++ escaped c } := by
      rw [escaped] at hlen ⊢
      rw [json_append_escaped]
      cases hc : char2escape c with
      | some escstr =>
        rw [hc] at hlen
        apply strbuf_append_string_eq hs
        rw [Option.getD_some] at hlen
        omega
      | none =>
        apply strbuf_append_mem_unsafe_eq
        rw [List.length_singleton]
        omega
    rw [List.foldlM_cons, hstep, ok_bind,
      ih (s := { s with buf := s.buf ++ escaped c }) ⟨hs.increment, hs.size, ?_⟩ ?_]
    · rw [List.flatMap_cons, List.append_assoc]
    · rw [hlength]
      show s.length + _ < s.size
      omega
    · rw [hlength]
      show s.length + _ + _ < s.size
      omega

theorem quoted_length (s : List UInt8) : (quoted s).length ≤ s.length * 6 + 2 := by
  have hflat : (s.flatMap escaped).length ≤ s.length * 6 := by
    induction s with
    | nil => exact le_refl _
    | cons c s ih =>
      have hlen := escaped_length c
      rw [List.flatMap_cons, List.length_append, List.length_cons]
      omega
  rw [quoted, List.length_cons, List.length_append, List.length_singleton]
  omega

theorem writes_string {str : List UInt8} (h : ShortString str) :
    Writes (json_append_string str) (stringOutput str) := by
  have hlt : str.length * 6 + 2 < 2 ^ 31 := by
    rw [ShortString, INT_MAX] at h
    omega
  have hint : int (str.length * 6 + 2) = ((str.length * 6 + 2 : Nat) : Int) := by
    rw [int_eq (by omega) (by omega), Nat.cast_add, Nat.cast_mul]
    rfl
  refine writes_within (quoted_length str) hlt (fun s s' hs hs' hbuf hroom heq => ?_)
    fun s e heq => ?_
  · have hlength : s'.length = s.length := by rw [Strbuf.length, hbuf, Strbuf.length]
    rw [Nat.cast_add, Nat.cast_mul] at hroom
    have hfirst : strbuf_append_char_unsafe s' (ch '"') =
        .ok { s' with buf := s'.buf ++ [ch '"'] } := by
      apply strbuf_append_mem_unsafe_eq
      rw [List.length_singleton]
      omega
    have hquote : ({ s' with buf := s'.buf ++ [ch '"'] } : Strbuf).length = s.length + 1 := by
      rw [Strbuf.length, List.length_append, Nat.cast_add, ← hlength]
      rfl
    have hmid : ({ s' with buf := s'.buf ++ [ch '"'] } : Strbuf).Valid := by
      refine ⟨hs'.increment, hs'.size, ?_⟩
      show _ < s'.size
      omega
    have hloop := json_append_string_loop str hmid (by
      show _ < s'.size
      omega)
    have hlast : s'.length + (quoted str).length ≤ s'.size := by
      have hlen := quoted_length str
      omega
    rw [json_append_string, hint, heq, ok_bind, hfirst, ok_bind, hloop, ok_bind,
      strbuf_append_char_unsafe, strbuf_append_mem_unsafe_eq ?_]
    · show Except.ok { s' with buf := _ } = _
      rw [quoted, List.append_assoc, List.append_assoc]
      rfl
    · rw [quoted, List.length_cons, List.length_append, List.length_singleton] at hlast
      show (((s'.buf ++ [ch '"'] ++ str.flatMap escaped).length : Nat) : Int) + _ ≤ s'.size
      have hbuf' : s'.length = s'.buf.length := rfl
      rw [List.append_assoc, List.length_append, List.length_append, List.length_singleton]
      omega
  · rw [json_append_string, hint, heq]
    rfl

theorem writes_after {α : Type} {x : M α} {f : α → Writer} {o : α → Output}
    (hx : ∀ e, x = .error e → ∃ msg, e = .error msg) (hf : ∀ a, x = .ok a → Writes (f a) (o a)) :
    Writes (fun s => x >>= fun a => f a s) (Output.after x o) := by
  cases x with
  | ok a => exact hf a rfl
  | error e =>
    obtain ⟨msg, rfl⟩ := hx e rfl
    exact writes_error msg

theorem writes_exception (typename reason : String) :
    Writes (fun _ => json_encode_exception typename reason)
      (.after (json_encode_exception typename reason) id) :=
  writes_error _

theorem writes_number (n : Number) :
    Writes (json_append_number libc cfg n) (numberOutput libc cfg n) := by
  have hformat : Writes (fun json => do
      let json ← strbuf_ensure_empty_length json FPCONV_G_FMT_BUFSIZE
      strbuf_append_mem_unsafe json (libc.g_fmt cfg.encode_number_precision n))
      ⟨FPCONV_G_FMT_BUFSIZE, .ok (libc.g_fmt cfg.encode_number_precision n)⟩ := by
    have hlen := libc.g_fmt_length cfg.encode_number_precision n
    refine writes_within (le_of_lt hlen) (by decide) (fun s s' _ _ hbuf hroom heq => ?_)
      fun s e heq => ?_
    · rw [heq, ok_bind]
      apply strbuf_append_mem_unsafe_eq
      have hlength : s'.length = s.length := by rw [Strbuf.length, hbuf, Strbuf.length]
      omega
    · rw [heq]
      rfl
  have hmem : ∀ c : List UInt8, c.length < 5 → Writes (fun s => strbuf_append_mem s c) (.text c) :=
    fun c hc => writes_mem (by omega)
  unfold json_append_number numberOutput
  cases cfg.encode_invalid_numbers with
  | off =>
    simp only
    split
    · exact writes_exception _ _
    · exact hformat
  | on =>
    simp only
    split
    · exact hmem _ (by decide)
    · exact hformat
  | null =>
    simp only
    split
    · exact hmem _ (by decide)
    · exact hformat

/-! ## Tables -/

/-- Each writer writes its output. -/
abbrev WriteAll : List Writer → List Output → Prop := List.Forall₂ Writes

theorem writes_list {fs : List Writer} {os : List Output} (h : WriteAll fs os) (comma : Bool) :
    Writes (appendList fs comma) (.separated os comma) := by
  induction h generalizing comma with
  | nil => exact writes_nothing
  | cons hf hfs ih =>
    unfold appendList Output.separated
    cases comma with
    | false => exact writes_nothing.bind (hf.bind (ih true))
    | true => exact (writes_char _).bind (hf.bind (ih true))

theorem writes_array {element : Nat → Writer} {o : Nat → Output}
    (h : ∀ i, Writes (element i) (o i)) (array_length : Int) :
    Writes (json_append_array array_length element) (arrayOutput array_length o) := by
  have hall : WriteAll ((List.range' 1 array_length.toNat).map element)
      ((List.range' 1 array_length.toNat).map o) := by
    rw [WriteAll, List.forall₂_map_left_iff, List.forall₂_map_right_iff, List.forall₂_same]
    exact fun i _ => h i
  exact (writes_char _).bind ((writes_list hall false).bind (writes_char _))

theorem writes_key {key : Key} (h : key.Short) :
    Writes (json_append_key libc cfg key) (keyOutput libc cfg key) := by
  cases key with
  | number n => exact (writes_char _).bind ((writes_number n).bind (writes_mem (by decide)))
  | string s => exact (writes_string h).bind (writes_char _)
  | other typename => exact writes_exception _ _

/-- The fields, with what is written for the values. -/
abbrev WriteFields : List (Key × Writer) → List (Key × Output) → Prop :=
  List.Forall₂ fun e e' => e.1 = e'.1 ∧ e.1.Short ∧ Writes e.2 e'.2

theorem writes_object {fs : List (Key × Writer)} {os : List (Key × Output)}
    (h : WriteFields fs os) :
    Writes (json_append_object libc cfg fs) (objectOutput libc cfg os) := by
  have hall : WriteAll
      (fs.map fun field json => json_append_key libc cfg field.1 json >>= field.2)
      (os.map fun e => (keyOutput libc cfg e.1).append e.2) := by
    rw [WriteAll, List.forall₂_map_left_iff, List.forall₂_map_right_iff]
    refine h.imp fun e e' he => ?_
    obtain ⟨hkey, hshort, hwrites⟩ := he
    rw [← hkey]
    exact (writes_key hshort).bind hwrites
  exact (writes_char _).bind ((writes_list hall false).bind (writes_char _))

theorem WriteFields.rawgeti {fs : List (Key × Writer)} {os : List (Key × Output)}
    (h : WriteFields fs os) (i : Int) :
    Option.Rel Writes (lua_rawgeti fs i) (lua_rawgeti os i) := by
  induction h with
  | nil => exact .none
  | @cons e e' fs os he hfields ih =>
    obtain ⟨key, f⟩ := e
    obtain ⟨key', o⟩ := e'
    obtain ⟨rfl, -, hwrites⟩ : key = key' ∧ key.Short ∧ Writes f o := he
    rw [lua_rawgeti, lua_rawgeti, List.find?_cons, List.find?_cons]
    cases hkey : key.isIndex i with
    | true => exact .some hwrites
    | false => exact ih

theorem appendFields_eq (fields : List (Key × Value)) (depth top : Nat) :
    appendFields libc cfg fields depth top =
      fields.map fun e => (e.1, json_append_data libc cfg e.2 depth top) := by
  induction fields with
  | nil => rfl
  | cons e fields ih => rw [appendFields, ih, List.map_cons]

theorem outputFields_eq (fields : List (Key × Value)) (depth top : Nat) :
    outputFields libc cfg fields depth top =
      fields.map fun e => (e.1, output libc cfg e.2 depth top) := by
  induction fields with
  | nil => rfl
  | cons e fields ih => rw [outputFields, ih, List.map_cons]

theorem json_check_encode_depth_error {depth top : Nat} {e : Stop}
    (h : json_check_encode_depth cfg depth top = .error e) : ∃ msg, e = .error msg := by
  rw [json_check_encode_depth] at h
  split at h
  · cases h
  · cases h
    exact ⟨_, rfl⟩

theorem lua_array_length_error {keys : List Key} {e : Stop}
    (h : lua_array_length cfg keys = .error e) : ∃ msg, e = .error msg := by
  rw [lua_array_length] at h
  split at h
  · cases h
  · split at h
    · split at h
      · cases h
        exact ⟨_, rfl⟩
      · cases h
    · cases h

/-- What is written for a table, from what is written for its values. -/
def tableOutput (libc : Libc) (cfg : Config) (keys : List Key) (depth top : Nat)
    (elements members : List (Key × Output)) : Output :=
  .after (json_check_encode_depth cfg depth top) fun _ =>
    .after (lua_array_length cfg keys) fun len =>
      if 0 < len then
        arrayOutput len fun i => (lua_rawgeti elements i).getD (.text (chars "null"))
      else objectOutput libc cfg members

theorem writes_table {fields : List (Key × Value)} {depth top : Nat}
    {elements members : List (Key × Output)}
    (helements : WriteFields (appendFields libc cfg fields (depth + 1) (top + 1)) elements)
    (hmembers : WriteFields (appendFields libc cfg fields (depth + 1) (top + 2)) members) :
    Writes (json_append_data libc cfg (.table fields) depth top)
      (tableOutput libc cfg (fields.map (·.1)) (depth + 1) top elements members) := by
  unfold json_append_data tableOutput
  refine writes_after (fun e => json_check_encode_depth_error) fun _ _ => ?_
  refine writes_after (fun e => lua_array_length_error) fun len _ => ?_
  split
  · refine writes_array (fun i => ?_) len
    have hrel := helements.rawgeti i
    generalize lua_rawgeti (appendFields libc cfg fields (depth + 1) (top + 1)) i = f at hrel ⊢
    generalize lua_rawgeti elements i = o at hrel ⊢
    cases hrel with
    | none => exact writes_mem (by decide)
    | some h => exact h
  · exact writes_object hmembers

/-- The encoder writes the output of a value to every buffer. -/
theorem writes_data (v : Value) : v.Short → ∀ depth top,
    Writes (json_append_data libc cfg v depth top) (output libc cfg v depth top) := by
  have hliteral : ∀ s : String, (chars s).length < 6 →
      Writes (fun json => strbuf_append_mem json (chars s)) (.text (chars s)) :=
    fun s hs => writes_mem (by omega)
  induction v using Value.induct with
  | atom v hatom =>
    intro hshort depth top
    cases v with
    | nil => exact hliteral "null" (by decide)
    | boolean b =>
      cases b with
      | false => exact hliteral "false" (by decide)
      | true => exact hliteral "true" (by decide)
    | number n => exact writes_number n
    | string s => exact writes_string hshort
    | table fields => exact absurd rfl (hatom fields)
    | lightuserdata p =>
      unfold json_append_data output
      split
      · exact hliteral "null" (by decide)
      · exact writes_exception _ _
    | other typename => exact writes_exception _ _
  | table fields ih =>
    intro hshort depth top
    have hfields : ∀ depth top, WriteFields (appendFields libc cfg fields depth top)
        (outputFields libc cfg fields depth top) := by
      intro depth top
      have hall := shortFields_iff.mp hshort
      rw [appendFields_eq, outputFields_eq, WriteFields, List.forall₂_map_left_iff,
        List.forall₂_map_right_iff, List.forall₂_same]
      exact fun e he => ⟨rfl, (hall e he).1, ih e he (hall e he).2 depth top⟩
    rw [output]
    exact writes_table (hfields (depth + 1) (top + 1)) (hfields (depth + 1) (top + 2))

/-! ## The encoder -/

/-- What the encoder returns, whatever is in the buffer that is kept. -/
theorem json_encode_writes {encode_buf : Strbuf} (hbuf : encode_buf.Valid) {v : Value} {o : Output}
    (h : Writes (json_append_data libc cfg v 0 1) o) :
    (o.need < limit ∧
      ((∃ t buf, o.result = .ok t ∧ json_encode libc cfg encode_buf v = .ok (t, buf) ∧
          t.length < limit) ∨
        ∃ msg, o.result = .error msg ∧
          json_encode libc cfg encode_buf v = .error (.error msg))) ∨
    (limit ≤ o.need ∧ ∃ e, Stop.Stuck e ∧ json_encode libc cfg encode_buf v = .error e) := by
  -- the buffer that is written to, and what is returned with the text
  obtain ⟨s, hs, hempty, kept, hencode⟩ : ∃ s : Strbuf, s.Valid ∧ s.buf = [] ∧
      ∃ kept : Strbuf → Strbuf, json_encode libc cfg encode_buf v =
        json_append_data libc cfg v 0 1 s >>= fun json => .ok (json.buf, kept json) := by
    obtain ⟨k, hk, hsize⟩ := hbuf.size
    have hpos : (0 : Int) < 2 ^ k := Int.pow_pos (by decide)
    cases hkeep : cfg.encode_keep_buffer with
    | false =>
      refine ⟨⟨[], STRBUF_DEFAULT_SIZE, STRBUF_DEFAULT_INCREMENT⟩, ⟨rfl, ⟨0, by omega, rfl⟩, by decide⟩,
        rfl, fun _ => encode_buf, ?_⟩
      rw [json_encode, hkeep]
      rfl
    | true =>
      refine ⟨strbuf_reset encode_buf, ⟨hbuf.increment, ⟨k, hk, hsize⟩, ?_⟩, rfl, id, ?_⟩
      · show (0 : Int) < encode_buf.size
        omega
      · rw [json_encode, hkeep]
        rfl
  rw [hencode]
  rcases h s hs with
    ⟨hneed, ⟨t, s', ht, heq, hs', hbuf'⟩ | ⟨msg, hmsg, heq⟩⟩ | ⟨hneed, e, he, heq⟩
  · left
    rw [hempty, List.length_nil, Nat.zero_add] at hneed
    rw [hempty, List.nil_append] at hbuf'
    refine ⟨hneed, .inl ⟨t, kept s', ht, ?_, ?_⟩⟩
    · rw [heq, ok_bind, hbuf']
    · have hle := hs'.size_le
      have hroom : (s'.buf.length : Int) < s'.size := hs'.room
      rw [hbuf'] at hroom
      omega
  · left
    rw [hempty, List.length_nil, Nat.zero_add] at hneed
    refine ⟨hneed, .inr ⟨msg, hmsg, ?_⟩⟩
    rw [heq]
    rfl
  · right
    rw [hempty, List.length_nil, Nat.zero_add] at hneed
    refine ⟨hneed, e, he, ?_⟩
    rw [heq]
    rfl

end Luaxx.Json
