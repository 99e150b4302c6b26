import Luaxx.Json.Written

/-!
# Tables with whole numbers as keys

Whether all entries of such a table are written, and whether the order of iteration makes a
difference. It does where some keys are an `int` and others are not: then the array that is written
may end before the large keys.
-/

namespace Luaxx.Json

open Luaxx.Ctype Luaxx.Result Luaxx.Number Strbuf

variable {libc : Libc} {cfg : Config}

/-! ## Tables -/

/-- An entry whose value can be encoded: what is written for it as an element and as a member. -/
structure Entry (libc : Libc) (cfg : Config) where
  key : Number
  value : Value
  need : Nat
  text : List UInt8
  index : key.Index
  element : Writes (json_append_data libc cfg value 1 2) ⟨need, .ok text⟩
  member : Writes (json_append_data libc cfg value 1 3) ⟨need, .ok text⟩

/-- A value with short strings, with what is written for it. -/
def Entry.ofShort {key : Number} (index : key.Index) {value : Value} (short : value.Short)
    {need : Nat} {text : List UInt8} (element : output libc cfg value 1 2 = ⟨need, .ok text⟩)
    (member : output libc cfg value 1 3 = ⟨need, .ok text⟩) : Entry libc cfg where
  key := key
  value := value
  need := need
  text := text
  index := index
  element := element ▸ writes_data value short 1 2
  member := member ▸ writes_data value short 1 3

/-- The table, with its entries in the order of iteration. -/
def tableOf (entries : List (Entry libc cfg)) : Value :=
  .table (entries.map fun e => (.number e.key, e.value))

def outputs (entries : List (Entry libc cfg)) : List (Key × Output) :=
  entries.map fun e => (.number e.key, ⟨e.need, .ok e.text⟩)

def entriesOutput (entries : List (Entry libc cfg)) : Output :=
  tableOutput libc cfg ((entries.map Entry.key).map Key.number) 1 1 (outputs entries) (outputs entries)

theorem writes_entries (entries : List (Entry libc cfg)) :
    Writes (json_append_data libc cfg (tableOf entries) 0 1) (entriesOutput entries) := by
  have hfields : ∀ top, (∀ e : Entry libc cfg, Writes (json_append_data libc cfg e.value 1 top)
      ⟨e.need, .ok e.text⟩) →
      WriteFields (appendFields libc cfg (entries.map fun e => (.number e.key, e.value)) 1 top)
        (outputs entries) := by
    intro top h
    rw [appendFields_eq, outputs, WriteFields, List.map_map, List.forall₂_map_left_iff,
      List.forall₂_map_right_iff, List.forall₂_same]
    exact fun e _ => ⟨rfl, trivial, h e⟩
  have hkeys : (entries.map Entry.key).map Key.number =
      (entries.map fun e => (Key.number e.key, e.value)).map (·.1) := by
    rw [List.map_map, List.map_map]
    rfl
  rw [entriesOutput, hkeys]
  exact writes_table (hfields 2 Entry.element) (hfields 3 Entry.member)

/-! ## Texts -/

def arrayText (ts : List (List UInt8)) : List UInt8 := ch '[' :: (commas ts false ++ [ch ']'])

/-- What is written for a number. -/
def numberText (libc : Libc) (cfg : Config) (n : Number) : List UInt8 :=
  if cfg.encode_invalid_numbers = .null ∧ n.isInf = true then chars "null"
  else libc.g_fmt cfg.encode_number_precision n

def memberText (m : List UInt8 × List UInt8) : List UInt8 :=
  ch '"' :: (m.1 ++ (ch '"' :: ch ':' :: m.2))

def objectText (ms : List (List UInt8 × List UInt8)) : List UInt8 :=
  ch '{' :: (commas (ms.map memberText) false ++ [ch '}'])

/-- The text is an array with every entry at its index and nulls at the others. -/
def InArray (entries : List (Entry libc cfg)) (t : List UInt8) : Prop :=
  ∃ ts, t = arrayText ts ∧ (∀ e ∈ entries, ts[e.key.truncate - 1]? = some e.text) ∧
    ∀ i < ts.length, (∀ e ∈ entries, e.key.truncate ≠ i + 1) → ts[i]? = some (chars "null")

/-- The text is an object whose members are the entries. -/
def InObject (entries : List (Entry libc cfg)) (t : List UInt8) : Prop :=
  ∃ ms, t = objectText ms ∧ ms.Perm (entries.map fun e => (numberText libc cfg e.key, e.text))

/-- In every order of iteration an error is raised, or one array has every entry, or an object. -/
def Lossless (entries : List (Entry libc cfg)) : Prop :=
  (∀ entries', entries'.Perm entries → ∀ encode_buf : Strbuf, encode_buf.Valid →
    ∃ msg, json_encode libc cfg encode_buf (tableOf entries') = .error (.error msg)) ∨
  (∃ t, InArray entries t ∧ ∀ entries', entries'.Perm entries → ∀ encode_buf : Strbuf,
    encode_buf.Valid → ∃ buf, json_encode libc cfg encode_buf (tableOf entries') = .ok (t, buf)) ∨
  ∀ entries', entries'.Perm entries → ∀ encode_buf : Strbuf, encode_buf.Valid →
    ∃ t buf, json_encode libc cfg encode_buf (tableOf entries') = .ok (t, buf) ∧ InObject entries t

/-! ## What is written -/

theorem separated_texts {os : List Output} {ts : List (List UInt8)}
    (h : List.Forall₂ (fun o t => o.result = .ok t) os ts) {a b : List UInt8} :
    (Output.append (.text a) (.append (.separated os false) (.text b))).result =
      .ok (a ++ (commas ts false ++ b)) :=
  Output.append_eq_ok.mpr ⟨a, _, rfl, Output.append_eq_ok.mpr ⟨_, b,
    separated_eq_ok.mpr ⟨ts, h, rfl⟩, rfl, rfl⟩, rfl⟩

def keyed (entries : List (Entry libc cfg)) : List (Key × Entry libc cfg) :=
  entries.map fun e => (.number e.key, e)

theorem outputs_get (entries : List (Entry libc cfg)) (i : Int) :
    lua_rawgeti (outputs entries) i =
      (lua_rawgeti (keyed entries) i).map fun e => ⟨e.need, .ok e.text⟩ := by
  rw [← lua_rawgeti_map, keyed, outputs, List.map_map]
  rfl

def elementText (entries : List (Entry libc cfg)) (i : Nat) : List UInt8 :=
  match lua_rawgeti (keyed entries) i with
  | some e => e.text
  | none => chars "null"

/-- The elements from 1 on. -/
def elements (entries : List (Entry libc cfg)) (n : Nat) : List (List UInt8) :=
  (List.range' 1 n).map (elementText entries)

theorem array_result (entries : List (Entry libc cfg)) (len : Int) :
    (arrayOutput len fun i => (lua_rawgeti (outputs entries) i).getD (.text (chars "null"))).result =
      .ok (arrayText (elements entries len.toNat)) := by
  have hall : List.Forall₂ (fun (o : Output) t => o.result = .ok t)
      ((List.range' 1 len.toNat).map fun i : Nat =>
        (lua_rawgeti (outputs entries) i).getD (.text (chars "null")))
      (elements entries len.toNat) := by
    rw [elements, List.forall₂_map_left_iff, List.forall₂_map_right_iff, List.forall₂_same]
    intro i _
    rw [outputs_get, elementText]
    cases lua_rawgeti (keyed entries) i with
    | none => rfl
    | some e => rfl
  exact separated_texts hall

theorem error_of_not_ok {o : Output} (h : ¬ ∃ t, o.result = .ok t) :
    ∃ msg, o.result = .error msg := by
  cases ho : o.result with
  | ok t => exact absurd ⟨t, ho⟩ h
  | error msg => exact ⟨msg, rfl⟩

/-- The number cannot be written. -/
def Unwritable (cfg : Config) (n : Number) : Prop :=
  cfg.encode_invalid_numbers = .off ∧ n.isInf = true

theorem number_result {n : Number} (hnan : n.isNaN = false) :
    (Unwritable cfg n ∧ ∃ msg, (numberOutput libc cfg n).result = .error msg) ∨
      (¬ Unwritable cfg n ∧ (numberOutput libc cfg n).result = .ok (numberText libc cfg n)) := by
  unfold numberOutput numberText Unwritable
  cases cfg.encode_invalid_numbers <;> cases hinf : n.isInf <;>
    simp [hnan, Output.after, json_encode_exception, Output.error, Output.text]

theorem object_result (entries : List (Entry libc cfg)) :
    ((∃ e ∈ entries, Unwritable cfg e.key) ∧
      ∃ msg, (objectOutput libc cfg (outputs entries)).result = .error msg) ∨
    ((∀ e ∈ entries, ¬ Unwritable cfg e.key) ∧
      (objectOutput libc cfg (outputs entries)).result =
        .ok (objectText (entries.map fun e => (numberText libc cfg e.key, e.text)))) := by
  by_cases hbad : ∃ e ∈ entries, Unwritable cfg e.key
  · refine .inl ⟨hbad, error_of_not_ok ?_⟩
    rw [objectOutput, brackets_ok, separated_ok]
    intro hall
    obtain ⟨e, he, hunwritable⟩ := hbad
    obtain ⟨t, ht⟩ := hall _ (List.mem_map_of_mem (List.mem_map_of_mem he))
    obtain ⟨k, u, hk, -, -⟩ := Output.append_eq_ok.mp ht
    obtain ⟨q, r, -, hr, -⟩ := Output.append_eq_ok.mp hk
    obtain ⟨n, v, hn, -, -⟩ := Output.append_eq_ok.mp hr
    rcases @number_result libc cfg e.key e.index.not_nan with ⟨-, msg, hmsg⟩ | ⟨hok, -⟩
    · rw [hn] at hmsg
      cases hmsg
    · exact hok hunwritable
  · rw [not_exists] at hbad
    have hgood : ∀ e ∈ entries, ¬ Unwritable cfg e.key := fun e he h => hbad e ⟨he, h⟩
    refine .inr ⟨hgood, ?_⟩
    have hall : List.Forall₂ (fun (o : Output) t => o.result = .ok t)
        ((outputs entries).map fun e => (keyOutput libc cfg e.1).append e.2)
        ((entries.map fun e => (numberText libc cfg e.key, e.text)).map memberText) := by
      rw [outputs, List.map_map, List.map_map, List.forall₂_map_left_iff, List.forall₂_map_right_iff,
        List.forall₂_same]
      intro e he
      rcases @number_result libc cfg e.key e.index.not_nan with ⟨hbad, -⟩ | ⟨-, hok⟩
      · exact absurd hbad (hgood e he)
      · refine Output.append_eq_ok.mpr ⟨_, e.text, Output.append_eq_ok.mpr ⟨_, _, rfl,
          Output.append_eq_ok.mpr ⟨_, _, hok, rfl, rfl⟩, rfl⟩, rfl, ?_⟩
        simp [memberText, chars]
    exact separated_texts hall

/-! ## The form -/

/-- The maximum that the loop over the keys computes. -/
def entriesMax (entries : List (Entry libc cfg)) : Int := (entries.map Entry.key).foldl keyMax 0

theorem keys_index (entries : List (Entry libc cfg)) : ∀ k ∈ entries.map Entry.key, k.Index := by
  intro k hk
  obtain ⟨e, -, rfl⟩ := List.mem_map.mp hk
  exact e.index

theorem entriesMax_cases (entries : List (Entry libc cfg)) :
    entriesMax entries ≤ 0 ∨
      ∃ e ∈ entries, Small e.key ∧ entriesMax entries = e.key.truncate := by
  rcases foldl_keyMax (keys_index entries) (by omega : -2 ^ 31 ≤ (0 : Int) ∧ _) with h | h |
    ⟨k, hk, hsmall, h⟩
  · exact .inl (le_of_eq h)
  · exact .inl (by rw [entriesMax, h]; decide)
  · obtain ⟨e, he, rfl⟩ := List.mem_map.mp hk
    exact .inr ⟨e, he, hsmall, h⟩

/-- An error, an object or an array is written. -/
theorem entries_result (entries : List (Entry libc cfg)) :
    (Sparse cfg entries.length (entriesMax entries) ∧ cfg.encode_sparse_convert = false ∧
      ∃ msg, (entriesOutput entries).result = .error msg) ∨
    (((Sparse cfg entries.length (entriesMax entries) ∧ cfg.encode_sparse_convert = true) ∨
        entriesMax entries ≤ 0) ∧
      (entriesOutput entries).result = (objectOutput libc cfg (outputs entries)).result) ∨
    (¬ Sparse cfg entries.length (entriesMax entries) ∧ 0 < entriesMax entries ∧
      (entriesOutput entries).result =
        .ok (arrayText (elements entries (entriesMax entries).toNat))) := by
  have hcheck : json_check_encode_depth cfg 1 1 = .ok () := by
    have hrange := cfg.encode_depth_range
    rw [json_check_encode_depth, if_pos]
    exact ⟨by omega, by decide⟩
  have hlength := @lua_array_length_eq cfg _ (keys_index entries)
  rw [List.length_map, ← entriesMax] at hlength
  rw [entriesOutput, tableOutput, hcheck, hlength]
  by_cases hsparse : Sparse cfg entries.length (entriesMax entries)
  · rw [if_pos hsparse]
    cases hconvert : cfg.encode_sparse_convert with
    | false => exact .inl ⟨hsparse, rfl, _, rfl⟩
    | true => exact .inr (.inl ⟨.inl ⟨hsparse, rfl⟩, rfl⟩)
  · rw [if_neg hsparse]
    by_cases hpos : 0 < entriesMax entries
    · refine .inr (.inr ⟨hsparse, hpos, ?_⟩)
      show (if 0 < entriesMax entries then _ else _ : Output).result = _
      rw [if_pos hpos]
      exact array_result entries _
    · refine .inr (.inl ⟨.inr (not_lt.mp hpos), ?_⟩)
      show (if 0 < entriesMax entries then _ else _ : Output).result = _
      rw [if_neg hpos]

section

variable {entries entries' : List (Entry libc cfg)}

/-- Without keys that are no `int` the order makes no difference. -/
theorem entriesMax_perm (hperm : entries'.Perm entries) (hsmall : ∀ e ∈ entries, Small e.key) :
    entriesMax entries' = entriesMax entries := by
  have hbounds : ∀ es : List (Entry libc cfg), (∀ e ∈ es, Small e.key) →
      0 ≤ entriesMax es ∧ ∀ e ∈ es, (e.key.truncate : Int) ≤ entriesMax es := by
    intro es hes
    obtain ⟨hle, -, hall⟩ := @foldl_keyMax_small (es.map Entry.key) (keys_index es) (by
      intro k hk
      obtain ⟨e, he, rfl⟩ := List.mem_map.mp hk
      exact hes e he) 0 (by omega)
    exact ⟨hle, fun e he => hall e.key (List.mem_map_of_mem he)⟩
  obtain ⟨hle, hall⟩ := hbounds entries hsmall
  obtain ⟨hle', hall'⟩ := hbounds entries' fun e he => hsmall e (hperm.mem_iff.mp he)
  apply le_antisymm
  · rcases entriesMax_cases entries' with h | ⟨e, he, -, h⟩
    · omega
    · rw [h]
      exact hall e (hperm.mem_iff.mp he)
  · rcases entriesMax_cases entries with h | ⟨e, he, -, h⟩
    · omega
    · rw [h]
      exact hall' e (hperm.mem_iff.mpr he)

theorem keyed_keys (es : List (Entry libc cfg)) :
    (keyed es).map (·.1) = (es.map Entry.key).map Key.number := by
  rw [keyed, List.map_map, List.map_map]
  rfl

/-- The element at the index of an entry. -/
theorem elementText_entry (hdistinct : (entries.map Entry.key).Nodup) {e : Entry libc cfg}
    (he : e ∈ entries) (hsmall : Small e.key) : elementText entries e.key.truncate = e.text := by
  rw [elementText, rawgeti_of_mem (keyed_keys entries) (keys_index entries) hdistinct
    (List.mem_map.mpr ⟨e, he, rfl⟩) hsmall]

theorem elementText_missing {i : Nat} (hi : 1 ≤ i ∧ i < 2 ^ 31)
    (hnot : ∀ e ∈ entries, e.key.truncate ≠ i) : elementText entries i = chars "null" := by
  rw [elementText, rawgeti_none (keyed_keys entries) (keys_index entries) hi]
  intro k hk
  obtain ⟨e, he, rfl⟩ := List.mem_map.mp hk
  exact hnot e he

theorem elementText_perm (hdistinct : (entries.map Entry.key).Nodup) (hperm : entries'.Perm entries)
    (hsmall : ∀ e ∈ entries, Small e.key) {i : Nat} (hi : 1 ≤ i ∧ i < 2 ^ 31) :
    elementText entries' i = elementText entries i := by
  have hdistinct' : (entries'.map Entry.key).Nodup := (hperm.map Entry.key).nodup_iff.mpr hdistinct
  by_cases h : ∃ e ∈ entries, e.key.truncate = i
  · obtain ⟨e, he, rfl⟩ := h
    rw [elementText_entry hdistinct he (hsmall e he),
      elementText_entry hdistinct' (hperm.mem_iff.mpr he) (hsmall e he)]
  · have hnot : ∀ e ∈ entries, e.key.truncate ≠ i := fun e he heq => h ⟨e, he, heq⟩
    rw [elementText_missing hi hnot, elementText_missing hi fun e he =>
      hnot e (hperm.mem_iff.mp he)]

/-- An array that is as long as the largest key has every entry. -/
theorem inArray_elements (hdistinct : (entries.map Entry.key).Nodup)
    (hsmall : ∀ e ∈ entries, Small e.key) {n : Nat} (hn : n < 2 ^ 31)
    (hall : ∀ e ∈ entries, e.key.truncate ≤ n) : InArray entries (arrayText (elements entries n)) := by
  refine ⟨elements entries n, rfl, fun e he => ?_, fun i hi hnot => ?_⟩
  · have hpos := e.index.truncate_pos
    have hle := hall e he
    rw [elements, List.getElem?_map, List.getElem?_range' (by omega), Option.map_some,
      Nat.one_mul, Nat.add_sub_cancel' hpos, elementText_entry hdistinct he (hsmall e he)]
  · rw [elements, List.length_map, List.length_range'] at hi
    rw [elements, List.getElem?_map, List.getElem?_range' hi, Option.map_some, Nat.one_mul,
      Nat.add_comm, elementText_missing (by omega) hnot]

end

/-! ## What is returned -/

section

variable {entries entries' : List (Entry libc cfg)} {encode_buf : Strbuf}

theorem encode_ok (hbuf : encode_buf.Valid) (hneed : (entriesOutput entries).need < limit)
    {t : List UInt8} (h : (entriesOutput entries).result = .ok t) :
    t.length < limit ∧ ∃ buf, json_encode libc cfg encode_buf (tableOf entries) = .ok (t, buf) := by
  rcases json_encode_writes hbuf (writes_entries entries) with
    ⟨-, ⟨t', buf, ht, hok, hlt⟩ | ⟨msg, hmsg, -⟩⟩ | ⟨hle, -⟩
  · rw [h] at ht
    cases ht
    exact ⟨hlt, buf, hok⟩
  · rw [h] at hmsg
    cases hmsg
  · omega

theorem encode_error (hbuf : encode_buf.Valid) (hneed : (entriesOutput entries).need < limit)
    (h : ∃ msg, (entriesOutput entries).result = .error msg) :
    ∃ msg, json_encode libc cfg encode_buf (tableOf entries) = .error (.error msg) := by
  obtain ⟨msg, h⟩ := h
  rcases json_encode_writes hbuf (writes_entries entries) with
    ⟨-, ⟨t', buf, ht, hok, hlt⟩ | ⟨msg', -, herror⟩⟩ | ⟨hle, -⟩
  · rw [h] at ht
    cases ht
  · exact ⟨msg', herror⟩
  · omega

/-- The form of an object is taken in every order. -/
theorem lossless_of_objects (hneed : ∀ entries', entries'.Perm entries →
      (entriesOutput entries').need < limit)
    (h : ∀ entries', entries'.Perm entries →
      (entriesOutput entries').result = (objectOutput libc cfg (outputs entries')).result) :
    Lossless entries := by
  by_cases hbad : ∃ e ∈ entries, Unwritable cfg e.key
  · refine .inl fun entries' hperm encode_buf hbuf => encode_error hbuf (hneed _ hperm) ?_
    rw [h _ hperm]
    rcases object_result entries' with ⟨-, herror⟩ | ⟨hgood, -⟩
    · exact herror
    · obtain ⟨e, he, hunwritable⟩ := hbad
      exact absurd hunwritable (hgood e (hperm.mem_iff.mpr he))
  · refine .inr (.inr fun entries' hperm encode_buf hbuf => ?_)
    have hobject := h _ hperm
    rcases object_result entries' with ⟨⟨e, he, hunwritable⟩, -⟩ | ⟨-, hok⟩
    · exact absurd ⟨e, hperm.mem_iff.mp he, hunwritable⟩ hbad
    · rw [hok] at hobject
      obtain ⟨-, buf, hencode⟩ := encode_ok hbuf (hneed _ hperm) hobject
      exact ⟨_, buf, hencode, _, rfl, hperm.map _⟩

theorem sparse_pos {items : Nat} {max : Int} (h : Sparse cfg items max) : 0 < max := by
  have hrange := cfg.safe_range
  have hlt := h.2.2
  omega

/-- The form does not depend on the order: the keys are all an `int`, or none is, or those that are
make no array. -/
def OrderFree (entries : List (Entry libc cfg)) : Prop :=
  (∀ e ∈ entries, Small e.key) ∨ (∀ e ∈ entries, ¬ Small e.key) ∨
    ((∀ e ∈ entries, Small e.key → Sparse cfg entries.length e.key.truncate) ∧
      (cfg.encode_sparse_convert = true ∨ ∃ e ∈ entries, Unwritable cfg e.key))

theorem lossless_small (hdistinct : (entries.map Entry.key).Nodup)
    (hneed : ∀ entries', entries'.Perm entries → (entriesOutput entries').need < limit)
    (hsmall : ∀ e ∈ entries, Small e.key) : Lossless entries := by
  have hmax : ∀ entries', entries'.Perm entries → entriesMax entries' = entriesMax entries ∧
      entries'.length = entries.length :=
    fun entries' hperm => ⟨entriesMax_perm hperm hsmall, hperm.length_eq⟩
  by_cases hsparse : Sparse cfg entries.length (entriesMax entries)
  · have hpos := sparse_pos hsparse
    cases hconvert : cfg.encode_sparse_convert with
    | false =>
      refine .inl fun entries' hperm encode_buf hbuf => encode_error hbuf (hneed _ hperm) ?_
      obtain ⟨heq, hlen⟩ := hmax entries' hperm
      rcases entries_result entries' with ⟨-, -, herror⟩ | ⟨⟨-, htrue⟩ | hle, -⟩ | ⟨hnot, -, -⟩
      · exact herror
      · rw [hconvert] at htrue
        cases htrue
      · omega
      · rw [heq, hlen] at hnot
        exact absurd hsparse hnot
    | true =>
      refine lossless_of_objects hneed fun entries' hperm => ?_
      obtain ⟨heq, hlen⟩ := hmax entries' hperm
      rcases entries_result entries' with ⟨-, hfalse, -⟩ | ⟨-, hobject⟩ | ⟨hnot, -, -⟩
      · rw [hconvert] at hfalse
        cases hfalse
      · exact hobject
      · rw [heq, hlen] at hnot
        exact absurd hsparse hnot
  · by_cases hpos : 0 < entriesMax entries
    · have hlt : entriesMax entries < 2 ^ 31 := by
        rcases entriesMax_cases entries with h | ⟨e, he, hs, h⟩
        · omega
        · rw [Small] at hs
          omega
      refine .inr (.inl ⟨arrayText (elements entries (entriesMax entries).toNat),
        inArray_elements hdistinct hsmall (by omega) fun e he => ?_,
        fun entries' hperm encode_buf hbuf => ?_⟩)
      · obtain ⟨-, -, hall⟩ := @foldl_keyMax_small (entries.map Entry.key) (keys_index entries) (by
          intro k hk
          obtain ⟨e, he, rfl⟩ := List.mem_map.mp hk
          exact hsmall e he) 0 (by omega)
        have hle := hall e.key (List.mem_map_of_mem he)
        rw [← entriesMax] at hle
        omega
      · obtain ⟨heq, hlen⟩ := hmax entries' hperm
        have hresult : (entriesOutput entries').result =
            .ok (arrayText (elements entries (entriesMax entries).toNat)) := by
          rcases entries_result entries' with ⟨hs, -, -⟩ | ⟨⟨hs, -⟩ | hle, -⟩ | ⟨-, -, hok⟩
          · rw [heq, hlen] at hs
            exact absurd hs hsparse
          · rw [heq, hlen] at hs
            exact absurd hs hsparse
          · omega
          · rw [hok, heq]
            refine congrArg (fun ts => Except.ok (arrayText ts)) (List.map_congr_left fun i hi => ?_)
            rw [List.mem_range'_1] at hi
            exact elementText_perm hdistinct hperm hsmall (by omega)
        exact (encode_ok hbuf (hneed _ hperm) hresult).2
    · refine lossless_of_objects hneed fun entries' hperm => ?_
      obtain ⟨heq, hlen⟩ := hmax entries' hperm
      rcases entries_result entries' with ⟨hs, -, -⟩ | ⟨-, hobject⟩ | ⟨-, hpos', -⟩
      · rw [heq, hlen] at hs
        exact absurd hs hsparse
      · exact hobject
      · omega

theorem lossless_of_orderFree (hdistinct : (entries.map Entry.key).Nodup)
    (hneed : ∀ entries', entries'.Perm entries → (entriesOutput entries').need < limit)
    (h : OrderFree entries) : Lossless entries := by
  rcases h with hsmall | hbig | ⟨hsparse, hconvert⟩
  · exact lossless_small hdistinct hneed hsmall
  · refine lossless_of_objects hneed fun entries' hperm => ?_
    have hle : entriesMax entries' ≤ 0 := by
      rcases entriesMax_cases entries' with h | ⟨e, he, hs, -⟩
      · exact h
      · exact absurd hs (hbig e (hperm.mem_iff.mp he))
    rcases entries_result entries' with ⟨hs, -, -⟩ | ⟨-, hobject⟩ | ⟨-, hpos, -⟩
    · have hpos := sparse_pos hs
      omega
    · exact hobject
    · omega
  · -- an order in which an `int` is the maximum makes no array either
    have hform : ∀ entries', entries'.Perm entries → ¬ Sparse cfg entries'.length
        (entriesMax entries') → entriesMax entries' ≤ 0 := by
      intro entries' hperm hnot
      rcases entriesMax_cases entries' with h | ⟨e, he, hs, h⟩
      · exact h
      · rw [h, hperm.length_eq] at hnot
        exact absurd (hsparse e (hperm.mem_iff.mp he) hs) hnot
    cases hc : cfg.encode_sparse_convert with
    | true =>
      refine lossless_of_objects hneed fun entries' hperm => ?_
      rcases entries_result entries' with ⟨-, hfalse, -⟩ | ⟨-, hobject⟩ | ⟨hnot, hpos, -⟩
      · rw [hc] at hfalse
        cases hfalse
      · exact hobject
      · have hle := hform entries' hperm hnot
        omega
    | false =>
      have hbad : ∃ e ∈ entries, Unwritable cfg e.key := by
        rcases hconvert with htrue | hbad
        · rw [hc] at htrue
          cases htrue
        · exact hbad
      refine .inl fun entries' hperm encode_buf hbuf => encode_error hbuf (hneed _ hperm) ?_
      rcases entries_result entries' with ⟨-, -, herror⟩ | ⟨-, hobject⟩ | ⟨hnot, hpos, -⟩
      · exact herror
      · rw [hobject]
        rcases object_result entries' with ⟨-, herror⟩ | ⟨hgood, -⟩
        · exact herror
        · obtain ⟨e, he, hunwritable⟩ := hbad
          exact absurd hunwritable (hgood e (hperm.mem_iff.mpr he))
      · have hle := hform entries' hperm hnot
        omega

/-! ## Orders that differ -/

/-- The buffer before the first call. -/
def firstBuffer : Strbuf := ⟨[], STRBUF_DEFAULT_SIZE, STRBUF_DEFAULT_INCREMENT⟩

theorem firstBuffer_valid : firstBuffer.Valid := ⟨rfl, ⟨0, by decide, rfl⟩, by decide⟩

theorem need_of_lossless (h : Lossless entries) (hperm : entries'.Perm entries) :
    (entriesOutput entries').need < limit := by
  rcases json_encode_writes firstBuffer_valid (writes_entries entries') with
    ⟨hlt, -⟩ | ⟨-, e, he, hstuck⟩
  · exact hlt
  · rcases h with herror | ⟨t, -, hok⟩ | hok
    · obtain ⟨msg, hmsg⟩ := herror entries' hperm firstBuffer firstBuffer_valid
      rw [hstuck] at hmsg
      cases hmsg
      exact absurd he id
    · obtain ⟨buf, hbuf⟩ := hok entries' hperm firstBuffer firstBuffer_valid
      rw [hstuck] at hbuf
      cases hbuf
    · obtain ⟨t, buf, hbuf, -⟩ := hok entries' hperm firstBuffer firstBuffer_valid
      rw [hstuck] at hbuf
      cases hbuf

/-- The order that ends with a key. -/
theorem exists_last {e : Entry libc cfg} (he : e ∈ entries) : ∃ es, (es ++ [e]).Perm entries := by
  obtain ⟨l, r, rfl⟩ := List.append_of_mem he
  refine ⟨l ++ r, ?_⟩
  rw [List.append_assoc]
  exact (@List.perm_append_comm _ r [e]).append_left l

/-- The order that ends with two keys. -/
theorem exists_last_two {e e' : Entry libc cfg} (he : e ∈ entries) (he' : e' ∈ entries)
    (hne : e ≠ e') : ∃ es, (es ++ [e, e']).Perm entries := by
  obtain ⟨l, r, rfl⟩ := List.append_of_mem he
  have hmem : e' ∈ l ++ r := by
    rw [List.mem_append, List.mem_cons] at he'
    rw [List.mem_append]
    rcases he' with h | rfl | h
    · exact .inl h
    · exact absurd rfl hne
    · exact .inr h
  obtain ⟨es, hes⟩ := exists_last hmem
  refine ⟨es, ?_⟩
  have hsplit : es ++ [e, e'] = es ++ ([e] ++ [e']) := rfl
  rw [hsplit]
  calc es ++ ([e] ++ [e'])
      |>.Perm (es ++ ([e'] ++ [e])) := List.perm_append_comm.append_left es
    _ |>.Perm (l ++ r ++ [e]) := by
      rw [← List.append_assoc]
      exact hes.append_right [e]
    _ |>.Perm (l ++ e :: r) := by
      rw [List.append_assoc]
      exact (@List.perm_append_comm _ r [e]).append_left l

theorem entriesMax_last {es : List (Entry libc cfg)} {e : Entry libc cfg} (hbig : ¬ Small e.key) :
    entriesMax (es ++ [e]) = -2 ^ 31 := by
  rw [entriesMax, List.map_append]
  exact foldl_keyMax_reset (keys_index es) e.index hbig

theorem entriesMax_last_two {es : List (Entry libc cfg)} {e e' : Entry libc cfg}
    (hbig : ¬ Small e.key) (hsmall : Small e'.key) :
    entriesMax (es ++ [e, e']) = e'.key.truncate := by
  have hreset := @foldl_keyMax_reset _ [e'.key] _ (keys_index es) e.index hbig
  have hmax := keyMax_eq e'.index (m := -2 ^ 31) (by omega)
  rw [if_pos hsmall] at hmax
  rw [entriesMax, List.map_append]
  refine hreset.trans ?_
  rw [List.foldl_cons, List.foldl_nil, hmax]
  omega

theorem arrayText_ne_objectText (ts : List (List UInt8)) (ms : List (List UInt8 × List UInt8)) :
    arrayText ts ≠ objectText ms := by
  intro h
  exact absurd (List.cons.inj h).1 (by decide)

/-- An array cannot have a key that is no `int`. -/
theorem not_inArray {e : Entry libc cfg} (he : e ∈ entries) (hbig : ¬ Small e.key) {t : List UInt8}
    (ht : t.length < limit) : ¬ InArray entries t := by
  rintro ⟨ts, rfl, hentry, -⟩
  have hlimit : limit = 1023 * 2 ^ 21 := rfl
  obtain ⟨hlt, -⟩ := List.getElem?_eq_some_iff.mp (hentry e he)
  have hcount := commas_count ts false
  rw [arrayText, List.length_cons, List.length_append, List.length_singleton] at ht
  rw [Small] at hbig
  omega

theorem orderFree_of_lossless (h : Lossless entries) : OrderFree entries := by
  by_cases hallsmall : ∀ e ∈ entries, Small e.key
  · exact .inl hallsmall
  by_cases hnosmall : ∀ e ∈ entries, ¬ Small e.key
  · exact .inr (.inl hnosmall)
  right
  right
  simp only [not_forall, not_not] at hallsmall hnosmall
  obtain ⟨big, hbig, hbigkey⟩ := hallsmall
  obtain ⟨small, hsmall, hsmallkey⟩ := hnosmall
  -- in the order that ends with an `int` after the large key, the `int` is the maximum
  have hmax : ∀ e ∈ entries, Small e.key → ∃ es, (es ++ [big, e]).Perm entries ∧
      entriesMax (es ++ [big, e]) = e.key.truncate := by
    intro e he hs
    obtain ⟨es, hes⟩ := exists_last_two hbig he fun heq => hbigkey (heq ▸ hs)
    exact ⟨es, hes, entriesMax_last_two hbigkey hs⟩
  have hsparse : ∀ e ∈ entries, Small e.key → Sparse cfg entries.length e.key.truncate := by
    intro e he hs
    by_contra hnot
    obtain ⟨es, hes, heq⟩ := hmax e he hs
    have hneed := need_of_lossless h hes
    have hpos := e.index.truncate_pos
    rcases entries_result (es ++ [big, e]) with ⟨hsp, -, -⟩ | ⟨⟨hsp, -⟩ | hle, -⟩ | ⟨-, -, hok⟩
    · rw [heq, hes.length_eq] at hsp
      exact hnot hsp
    · rw [heq, hes.length_eq] at hsp
      exact hnot hsp
    · omega
    · obtain ⟨hlt, buf, hencode⟩ := encode_ok firstBuffer_valid hneed hok
      rcases h with herror | ⟨t, harray, hall⟩ | hobject
      · obtain ⟨msg, hmsg⟩ := herror _ hes firstBuffer firstBuffer_valid
        rw [hencode] at hmsg
        cases hmsg
      · obtain ⟨buf', hbuf'⟩ := hall _ hes firstBuffer firstBuffer_valid
        rw [hencode] at hbuf'
        cases hbuf'
        exact not_inArray hbig hbigkey hlt harray
      · obtain ⟨t, buf', hbuf', ms, ht, -⟩ := hobject _ hes firstBuffer firstBuffer_valid
        rw [hencode] at hbuf'
        cases hbuf'
        exact arrayText_ne_objectText _ _ ht
  refine ⟨hsparse, ?_⟩
  cases hconvert : cfg.encode_sparse_convert with
  | true => exact .inl rfl
  | false =>
    right
    -- one order raises an error, so the others have to
    have herrors : ∀ entries', entries'.Perm entries → ∀ encode_buf : Strbuf, encode_buf.Valid →
        ∃ msg, json_encode libc cfg encode_buf (tableOf entries') = .error (.error msg) := by
      obtain ⟨es, hes, heq⟩ := hmax small hsmall hsmallkey
      have hsp := hsparse small hsmall hsmallkey
      rw [← hes.length_eq, ← heq] at hsp
      have herror : ∃ msg, (entriesOutput (es ++ [big, small])).result = .error msg := by
        have hpos := sparse_pos hsp
        rcases entries_result (es ++ [big, small]) with ⟨-, -, herror⟩ | ⟨⟨-, htrue⟩ | hle, -⟩ |
          ⟨hnot, -, -⟩
        · exact herror
        · rw [hconvert] at htrue
          cases htrue
        · omega
        · exact absurd hsp hnot
      obtain ⟨msg, hmsg⟩ := encode_error firstBuffer_valid (need_of_lossless h hes) herror
      rcases h with herrors | ⟨t, -, hok⟩ | hok
      · exact herrors
      · obtain ⟨buf, hbuf⟩ := hok _ hes firstBuffer firstBuffer_valid
        rw [hmsg] at hbuf
        cases hbuf
      · obtain ⟨t, buf, hbuf, -⟩ := hok _ hes firstBuffer firstBuffer_valid
        rw [hmsg] at hbuf
        cases hbuf
    obtain ⟨es, hes⟩ := exists_last hbig
    have hlast := @entriesMax_last libc cfg es big hbigkey
    obtain ⟨msg, hmsg⟩ := herrors _ hes firstBuffer firstBuffer_valid
    rcases entries_result (es ++ [big]) with ⟨hsp, -, -⟩ | ⟨-, hobject⟩ | ⟨-, hpos, -⟩
    · have hpos := sparse_pos hsp
      omega
    · rcases object_result (es ++ [big]) with ⟨⟨e, he, hunwritable⟩, -⟩ | ⟨-, hok⟩
      · exact ⟨e, hes.mem_iff.mp he, hunwritable⟩
      · rw [hok] at hobject
        obtain ⟨-, buf, hbuf⟩ := encode_ok firstBuffer_valid (need_of_lossless h hes) hobject
        rw [hmsg] at hbuf
        cases hbuf
    · omega

/-- Every entry is written whatever the order, unless a key that is no `int` is among others that
are, or the text is too long for the buffer. -/
theorem json_encode_lossless_iff (entries : List (Entry libc cfg))
    (hdistinct : (entries.map Entry.key).Nodup) :
    Lossless entries ↔
      OrderFree entries ∧ ∀ entries', entries'.Perm entries → (entriesOutput entries').need < limit :=
  ⟨fun h => ⟨orderFree_of_lossless h, fun _ => need_of_lossless h⟩,
    fun h => lossless_of_orderFree hdistinct h.2 h.1⟩

end

/-- The entry `[2147483648] = true` is lost if the key 1 comes after it. -/
theorem json_encode_loses :
    let libc : Libc := ⟨fun _ n => if n = cast_num 1 then chars "1" else chars "2147483648",
      fun _ n => by split <;> decide, fun _ => 0⟩
    let one : Entry libc Config.default :=
      @Entry.ofShort libc Config.default (cast_num 1) (by decide +kernel) (.boolean true) trivial 4
        (chars "true") rfl rfl
    let large : Entry libc Config.default :=
      @Entry.ofShort libc Config.default 0x41E0000000000000 (by decide +kernel) (.boolean true)
        trivial 4 (chars "true") rfl rfl
    ([one, large].map Entry.key).Nodup ∧
      ([one, large].map fun e => numberText libc Config.default e.key).Nodup ∧
      ¬ Lossless [one, large] := by
  intro libc one large
  refine ⟨by decide +kernel, by decide +kernel, fun h => ?_⟩
  have hone : Small one.key := by
    show Small (cast_num 1)
    decide +kernel
  have hlarge : ¬ Small large.key := by
    show ¬ Small 0x41E0000000000000
    decide +kernel
  rcases orderFree_of_lossless h with hsmall | hbig | ⟨hsparse, -⟩
  · exact hlarge (hsmall large (List.mem_cons_of_mem _ List.mem_cons_self))
  · exact hbig one List.mem_cons_self hone
  · have hpos := (hsparse one List.mem_cons_self hone).2.2
    revert hpos
    show ¬ (Config.default.encode_sparse_safe < ((cast_num 1).truncate : Int))
    decide +kernel

/-- A table with the key 1 alone. -/
theorem json_encode_lossless_one :
    let libc : Libc := ⟨fun _ _ => chars "1", fun _ _ => by decide, fun _ => 0⟩
    let one : Entry libc Config.default :=
      @Entry.ofShort libc Config.default (cast_num 1) (by decide +kernel) (.boolean true) trivial 4
        (chars "true") rfl rfl
    Lossless [one] ↔ OrderFree [one] ∧ ∀ entries', entries'.Perm [one] →
      (entriesOutput entries').need < limit := by
  intro libc one
  exact json_encode_lossless_iff [one] (List.nodup_singleton _)

end Luaxx.Json
