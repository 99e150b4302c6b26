import Luaxx.Json.Arrays
import Luaxx.Json.Strict

/-!
# What the encoder writes is a text

It is one of the grammar, of a tree that is made of the value like the text.
-/

namespace Luaxx.Json

open Luaxx.Ctype Luaxx.Result Luaxx.Number Strbuf

variable {libc : Libc} {cfg : Config}

/-! ## Texts of strings -/

theorem chars_escaped (c : UInt8) {b s : List UInt8} (h : Chars b s) :
    Chars (escaped c ++ b) (c :: s) := by
  have hescape : ∀ e, escaped c = [ch '\\', e] → (e, c) ∈ escapes → Chars (escaped c ++ b) (c :: s) := by
    intro e heq he
    rw [heq]
    exact .escape he h
  have hkinds := forall_byte (P := fun c => (escaped c = [c] ∧ c ≠ ch '"' ∧ c ≠ ch '\\') ∨
    (∃ e ∈ escapes, escaped c = [ch '\\', e.1] ∧ c = e.2) ∨
    (escaped c = ch '\\' :: ch 'u' :: hexDigits 4 c.toNat ∧
      decode_hex4 (hexDigits 4 c.toNat) = some c.toNat ∧ c.toNat < 0xD800 ∧
      codepoint_to_utf8 c.toNat = [c])) (by decide) c
  rcases hkinds with ⟨heq, hquote, hback⟩ | ⟨⟨e, c'⟩, he, heq, rfl⟩ | ⟨heq, hhex, hlow, hutf8⟩
  · rw [heq]
    exact .char hquote hback h
  · exact hescape e heq he
  · obtain ⟨u, rest, hsplit, hu⟩ := exists_hex4 hhex
    have hrest : rest = [] := by
      have hlength := congrArg List.length hsplit
      rw [hexDigits_length, List.length_append, hu.length] at hlength
      exact List.eq_nil_of_length_eq_zero (by omega)
    rw [hrest, List.append_nil] at hsplit
    rw [heq, hsplit]
    have hchars := Chars.unicode hu (.inl hlow) h
    rw [hutf8] at hchars
    exact hchars

theorem isString_quoted (s : List UInt8) : IsString (quoted s) s := by
  have hchars : ∀ s : List UInt8, Chars (s.flatMap escaped) s := by
    intro s
    induction s with
    | nil => exact .nil
    | cons c s ih =>
      rw [List.flatMap_cons]
      exact chars_escaped c ih
  exact .mk (hchars s)

theorem quoted_nul (s : List UInt8) : 0 ∉ quoted s := by
  have hquote : (0 : UInt8) ≠ ch '"' := by decide
  have hflat : 0 ∉ s.flatMap escaped := by
    rw [List.mem_flatMap]
    rintro ⟨c, -, hmem⟩
    exact forall_byte (P := fun c => 0 ∉ escaped c) (by decide) c hmem
  simp only [quoted, List.mem_cons, List.mem_append, List.not_mem_nil, hquote, hflat, or_false,
    not_false_eq_true]

/-- The text of a number, as the name of a member. -/
theorem isString_number {t : List UInt8} (h : IsNumber t) : IsString (ch '"' :: (t ++ [ch '"'])) t := by
  have hplain : ∀ c : UInt8, numberChar c = true → c ≠ ch '"' ∧ c ≠ ch '\\' := fun c =>
    forall_byte (P := fun c => numberChar c = true → c ≠ ch '"' ∧ c ≠ ch '\\') (by decide) c
  have hchars : ∀ t : List UInt8, (∀ c ∈ t, numberChar c = true) → Chars t t := by
    intro t
    induction t with
    | nil => exact fun _ => .nil
    | cons c t ih =>
      intro hall
      obtain ⟨hc, ht⟩ := List.forall_mem_cons.mp hall
      exact .char (hplain c hc).1 (hplain c hc).2 (ih ht)
  exact .mk (hchars t h.lenient.chars)

/-! ## Outputs -/

/-- The texts with commas between them, and one before the first. -/
def commas : List (List UInt8) → Bool → List UInt8
  | [], _ => []
  | t :: ts, comma => (if comma then [ch ','] else []) ++ (t ++ commas ts true)

theorem Output.append_eq_ok {o o' : Output} {t : List UInt8} :
    (o.append o').result = .ok t ↔ ∃ s s', o.result = .ok s ∧ o'.result = .ok s' ∧ t = s ++ s' := by
  constructor
  · intro h
    rw [append] at h
    cases ho : o.result with
    | ok s =>
      rw [ho] at h
      cases ho' : o'.result with
      | ok s' =>
        have heq : Except.map (s ++ ·) o'.result = Except.ok t := h
        rw [ho'] at heq
        exact ⟨s, s', rfl, rfl, (Except.ok.inj heq).symm⟩
      | error msg =>
        have heq : Except.map (s ++ ·) o'.result = Except.ok t := h
        rw [ho'] at heq
        cases heq
    | error msg =>
      rw [ho] at h
      simp only at h
      rw [ho] at h
      cases h
  · rintro ⟨s, s', hs, hs', rfl⟩
    exact append_ok hs hs'

theorem Output.text_eq_ok {s t : List UInt8} : (Output.text s).result = .ok t ↔ t = s :=
  ⟨fun h => (Except.ok.inj h).symm, fun h => congrArg Except.ok h.symm⟩

theorem Output.after_eq_ok {α : Type} {x : M α} {o : α → Output} {t : List UInt8} :
    (Output.after x o).result = .ok t ↔ ∃ a, x = .ok a ∧ (o a).result = .ok t := by
  cases x with
  | ok a => exact ⟨fun h => ⟨a, rfl, h⟩, fun ⟨a', ha, h⟩ => by cases ha; exact h⟩
  | error e =>
    constructor
    · intro h
      cases e <;> cases h
    · rintro ⟨a, ha, -⟩
      cases ha

theorem separated_eq_ok {os : List Output} {comma : Bool} {t : List UInt8} :
    (Output.separated os comma).result = .ok t ↔
      ∃ ts, List.Forall₂ (fun o t => o.result = .ok t) os ts ∧ t = commas ts comma := by
  induction os generalizing comma t with
  | nil =>
    rw [Output.separated, Output.text_eq_ok]
    constructor
    · rintro rfl
      exact ⟨[], .nil, rfl⟩
    · rintro ⟨ts, hts, rfl⟩
      cases hts
      rfl
  | cons o os ih =>
    have hcomma : ∀ s, (if comma then Output.text [ch ','] else .text []).result = .ok s ↔
        s = if comma then [ch ','] else [] := by
      intro s
      cases comma <;> exact Output.text_eq_ok
    rw [Output.separated, Output.append_eq_ok]
    constructor
    · rintro ⟨s, s', hs, hs', rfl⟩
      obtain ⟨u, u', hu, hu', rfl⟩ := Output.append_eq_ok.mp hs'
      obtain ⟨ts, hts, rfl⟩ := ih.mp hu'
      rw [(hcomma s).mp hs]
      exact ⟨u :: ts, .cons hu hts, rfl⟩
    · rintro ⟨ts, hts, rfl⟩
      cases hts with
      | cons hu hts =>
        exact ⟨_, _, (hcomma _).mpr rfl, Output.append_eq_ok.mpr ⟨_, _, hu, ih.mpr ⟨_, hts, rfl⟩, rfl⟩,
          rfl⟩

theorem separated_ok {os : List Output} (comma : Bool) :
    (∃ t, (Output.separated os comma).result = .ok t) ↔ ∀ o ∈ os, ∃ t, o.result = .ok t := by
  constructor
  · rintro ⟨t, h⟩ o ho
    obtain ⟨ts, hts, -⟩ := separated_eq_ok.mp h
    clear h
    induction hts with
    | nil => cases ho
    | cons hu hus ih =>
      rcases List.mem_cons.mp ho with rfl | ho
      · exact ⟨_, hu⟩
      · exact ih ho
  · intro h
    obtain ⟨ts, hts⟩ : ∃ ts, List.Forall₂ (fun o t => o.result = .ok t) os ts := by
      induction os with
      | nil => exact ⟨[], .nil⟩
      | cons o os ih =>
        obtain ⟨⟨t, ht⟩, hos⟩ := List.forall_mem_cons.mp h
        obtain ⟨ts, hts⟩ := ih hos
        exact ⟨t :: ts, .cons ht hts⟩
    exact ⟨_, separated_eq_ok.mpr ⟨ts, hts, rfl⟩⟩

theorem brackets_ok {o : Output} {a b : List UInt8} :
    (∃ t, (Output.append (.text a) (o.append (.text b))).result = .ok t) ↔
      ∃ t, o.result = .ok t := by
  constructor
  · rintro ⟨t, h⟩
    obtain ⟨-, s, -, hs, -⟩ := Output.append_eq_ok.mp h
    obtain ⟨u, -, hu, -, -⟩ := Output.append_eq_ok.mp hs
    exact ⟨u, hu⟩
  · rintro ⟨t, h⟩
    exact ⟨_, Output.append_eq_ok.mpr ⟨a, _, rfl, Output.append_eq_ok.mpr ⟨t, b, h, rfl, rfl⟩, rfl⟩⟩

theorem after_ok {α : Type} {x : M α} {o : α → Output} :
    (∃ t, (Output.after x o).result = .ok t) ↔ ∃ a, x = .ok a ∧ ∃ t, (o a).result = .ok t := by
  constructor
  · rintro ⟨t, h⟩
    obtain ⟨a, ha, ht⟩ := Output.after_eq_ok.mp h
    exact ⟨a, ha, t, ht⟩
  · rintro ⟨a, ha, t, ht⟩
    exact ⟨t, Output.after_eq_ok.mpr ⟨a, ha, ht⟩⟩

theorem commas_mem_length {ts : List (List UInt8)} {t : List UInt8} (h : t ∈ ts) (comma : Bool) :
    t.length ≤ (commas ts comma).length := by
  induction ts generalizing comma with
  | nil => cases h
  | cons t' ts ih =>
    simp only [commas, List.length_append]
    rcases List.mem_cons.mp h with rfl | h
    · omega
    · have hle := ih h true
      omega

theorem commas_count (ts : List (List UInt8)) (comma : Bool) :
    ts.length ≤ (commas ts comma).length + 1 := by
  have htrue : ∀ ts : List (List UInt8), ts.length ≤ (commas ts true).length := by
    intro ts
    induction ts with
    | nil => exact le_refl _
    | cons t ts ih =>
      simp only [commas, if_true, List.length_append, List.length_cons, List.length_nil]
      omega
  rcases ts with _ | ⟨t, ts⟩
  · exact Nat.zero_le _
  · have hle := htrue ts
    simp only [commas, List.length_append, List.length_cons]
    omega

theorem commas_nul {ts : List (List UInt8)} (h : ∀ t ∈ ts, 0 ∉ t) (comma : Bool) :
    0 ∉ commas ts comma := by
  induction ts generalizing comma with
  | nil => exact List.not_mem_nil
  | cons t ts ih =>
    obtain ⟨ht, hts⟩ := List.forall_mem_cons.mp h
    have hcomma : (0 : UInt8) ∉ if comma then [ch ','] else [] := by
      cases comma <;> decide
    simp only [commas, List.mem_append, hcomma, ht, ih hts true, or_false, not_false_eq_true]

theorem commas_length {ts : List (List UInt8)} (h : ∀ t ∈ ts, t ≠ []) (comma : Bool) :
    ts.length ≤ (commas ts comma).length := by
  induction ts generalizing comma with
  | nil => exact Nat.zero_le _
  | cons t ts ih =>
    obtain ⟨ht, hts⟩ := List.forall_mem_cons.mp h
    have hpos := List.length_pos_iff.mpr ht
    have hle := ih hts true
    simp only [commas, List.length_append, List.length_cons]
    omega

/-! ## Containers -/

theorem commas_true (t : List UInt8) (ts : List (List UInt8)) :
    commas (t :: ts) true = ch ',' :: commas (t :: ts) false := rfl

theorem elements_commas {num : List UInt8 → Prop} {ts : List (List UInt8)} {js : List Tree}
    (h : List.Forall₂ (Text num) ts js) (hne : ts ≠ []) : Elements num (commas ts false) js := by
  have hnil : Whitespace [] := fun _ h => by cases h
  induction h with
  | nil => exact absurd rfl hne
  | @cons t j ts js ht hts ih =>
    cases hts with
    | nil => exact .one hnil ht hnil
    | @cons t' j' ts js ht' hts => exact .more hnil ht hnil (ih (List.cons_ne_nil _ _))

theorem members_commas {num : List UInt8 → Prop} {ts : List (List UInt8)}
    {ms : List (List UInt8 × Tree)} (h : List.Forall₂ (Member num) ts ms) (hne : ts ≠ []) :
    Members num (commas ts false) ms := by
  induction h with
  | nil => exact absurd rfl hne
  | @cons t e ts ms ht hts ih =>
    have hfirst : commas (t :: ts) false = t ++ commas ts true := rfl
    cases hts with
    | nil =>
      rw [hfirst, commas, List.append_nil]
      exact .one ht
    | @cons t' e' ts ms ht' hts =>
      rw [hfirst, commas_true]
      exact .more ht (ih (List.cons_ne_nil _ _))

theorem member_mk {num : List UInt8 → Prop} {k key t : List UInt8} {j : Tree} (hk : IsString k key)
    (ht : Text num t j) : Member num (k ++ ch ':' :: t) (key, j) := by
  have hnil : Whitespace [] := fun _ h => by cases h
  have hm := Member.mk hnil hk hnil hnil ht hnil
  simpa only [List.nil_append, List.append_nil] using hm

/-! ## The tree of a value -/

/-- What the library does with finite numbers: the text is one of JSON, and what is read has the same
text, at this precision. -/
structure Libc.Reads (libc : Libc) (precision : Int) : Prop where
  number : ∀ n : Number, n.isInf = false → n.isNaN = false → IsNumber (libc.g_fmt precision n)
  back : ∀ n : Number, n.isInf = false → n.isNaN = false →
    libc.g_fmt precision (libc.strtod (libc.g_fmt precision n)) = libc.g_fmt precision n

section

variable (libc : Libc) (cfg : Config)

def Key.text : Key → List UInt8
  | .number n => libc.g_fmt cfg.encode_number_precision n
  | .string s => s
  | .other _ => []

mutual

/-- The tree whose text is written for a value. -/
def Value.tree : Value → Tree
  | .string s => .string s
  | .number n => .number (libc.g_fmt cfg.encode_number_precision n)
  | .boolean b => .boolean b
  | .table fields =>
    match lua_array_length cfg (fields.map (·.1)) with
    | .ok len =>
      if 0 < len then
        .array ((List.range' 1 len.toNat).map fun i : Nat => (lua_rawgeti (treeFields fields) i).getD .null)
      else .object ((treeFields fields).map fun e => (e.1.text libc cfg, e.2))
    | .error _ => .null
  | _ => .null

def treeFields : List (Key × Value) → List (Key × Tree)
  | [] => []
  | (key, value) :: fields => (key, value.tree) :: treeFields fields

end

theorem treeFields_eq (fields : List (Key × Value)) :
    treeFields libc cfg fields = fields.map fun e => (e.1, e.2.tree libc cfg) := by
  induction fields with
  | nil => rfl
  | cons e fields ih => rw [treeFields, ih, List.map_cons]

end

theorem lua_rawgeti_map {α β : Type} (f : α → β) (fields : List (Key × α)) (i : Int) :
    lua_rawgeti (fields.map fun e => (e.1, f e.2)) i = (lua_rawgeti fields i).map f := by
  rw [lua_rawgeti, lua_rawgeti, List.find?_map, Option.map_map, Option.map_map]
  rfl

theorem lua_rawgeti_mem {α : Type} {fields : List (Key × α)} {i : Int} {a : α}
    (h : lua_rawgeti fields i = some a) : ∃ e ∈ fields, e.2 = a ∧ e.1.isIndex i = true := by
  rw [lua_rawgeti, Option.map_eq_some_iff] at h
  obtain ⟨e, he, rfl⟩ := h
  have hindex := List.find?_some he
  exact ⟨e, List.mem_of_find?_eq_some he, rfl, hindex⟩

/-! ## Values -/

/-- The keys are the numbers from 1 on. -/
def ArrayKeys (keys : List Key) : Prop :=
  ∃ ks : List Number, keys = ks.map .number ∧ ks ≠ [] ∧ (∀ k ∈ ks, k.Index) ∧
    (ks.map truncate).Perm (List.range' 1 ks.length)

/-- The keys are strings. -/
def StringKeys (keys : List Key) : Prop :=
  keys.Nodup ∧ ∀ key ∈ keys, ∃ s, key = .string s ∧ ShortString s

mutual

/-- A value of strings, booleans, finite numbers, nulls, dense arrays and tables with strings as
keys. -/
def Value.Plain : Value → Prop
  | .lightuserdata p => p = 0
  | .boolean _ => True
  | .number n => n.isInf = false ∧ n.isNaN = false
  | .string s => ShortString s
  | .table fields =>
    (ArrayKeys (fields.map (·.1)) ∨ StringKeys (fields.map (·.1))) ∧ PlainFields fields
  | _ => False

def PlainFields : List (Key × Value) → Prop
  | [] => True
  | (_, value) :: fields => value.Plain ∧ PlainFields fields

end

theorem plainFields_iff {fields : List (Key × Value)} :
    PlainFields fields ↔ ∀ e ∈ fields, e.2.Plain := by
  induction fields with
  | nil => simp [PlainFields]
  | cons e fields ih => rw [PlainFields, ih, List.forall_mem_cons]

/-! ## The text of a value -/

theorem numberOutput_finite {n : Number} (hinf : n.isInf = false) (hnan : n.isNaN = false) :
    (numberOutput libc cfg n).result = .ok (libc.g_fmt cfg.encode_number_precision n) := by
  unfold numberOutput
  cases cfg.encode_invalid_numbers <;> simp only [hinf, hnan, Bool.or_self, Bool.false_eq_true, if_false]

theorem not_inf_of_small {k : Number} (hs : Small k) : k.isInf = false := by
  rw [Bool.eq_false_iff]
  intro hinf
  rw [isInf, Bool.and_eq_true, beq_iff_eq] at hinf
  have hle : 1 * 2 ^ 31 ≤ (2 ^ 52 + k.fraction) * 2 ^ (k.exponent - (1023 + 52)) :=
    Nat.mul_le_mul (by omega) (Nat.pow_le_pow_right (by decide) (by omega))
  rw [Small, truncate, if_neg (by omega), if_neg (by omega)] at hs
  omega

/-- A string, or a number that is written as it is. -/
def Key.Writable : Key → Prop
  | .number n => n.isInf = false ∧ n.isNaN = false
  | .string _ => True
  | .other _ => False

theorem exists_key (hlibc : libc.Reads cfg.encode_number_precision) {key : Key} (h : key.Writable) :
    ∃ k, (keyOutput libc cfg key).result = .ok (k ++ [ch ':']) ∧ IsString k (key.text libc cfg) ∧
      0 ∉ k := by
  cases key with
  | number n =>
    have hn := hlibc.number n h.1 h.2
    refine ⟨ch '"' :: (libc.g_fmt cfg.encode_number_precision n ++ [ch '"']), ?_, isString_number hn, ?_⟩
    · refine Output.append_eq_ok.mpr ⟨[ch '"'], _, rfl, Output.append_eq_ok.mpr ⟨_, chars "\":",
        numberOutput_finite h.1 h.2, rfl, rfl⟩, ?_⟩
      rw [List.cons_append, List.append_assoc]
      rfl
    · have hquote : (0 : UInt8) ≠ ch '"' := by decide
      have hnul := hn.lenient.nul
      simp only [List.mem_cons, List.mem_append, List.not_mem_nil, hquote, hnul, or_false,
        not_false_eq_true]
  | string s =>
    exact ⟨quoted s, Output.append_eq_ok.mpr ⟨quoted s, [ch ':'], rfl, rfl, rfl⟩, isString_quoted s,
      quoted_nul s⟩
  | other typename => exact absurd h id

/-- The keys of an array whose length is an `int` are. -/
theorem ArrayKeys.small {ks : List Number} (hlt : ks.length < 2 ^ 31)
    (h : (ks.map truncate).Perm (List.range' 1 ks.length)) : ∀ k ∈ ks, Small k := by
  intro k hk
  have hmem := (h.mem_iff (a := k.truncate)).mp (List.mem_map_of_mem hk)
  rw [List.mem_range'_1] at hmem
  rw [Small]
  omega

/-- The parts of a text, from what is written for each. -/
theorem forall₂_parts {ι β : Type} {R : List UInt8 → β → Prop} {Q : List UInt8 → Prop} {l : List ι}
    {O : ι → Output} {J : ι → β} {ts : List (List UInt8)}
    (hts : List.Forall₂ (fun o t => o.result = .ok t) (l.map O) ts)
    (h : ∀ i ∈ l, ∀ t ∈ ts, (O i).result = .ok t → R t (J i) ∧ Q t) :
    List.Forall₂ R ts (l.map J) ∧ ∀ t ∈ ts, Q t := by
  induction l generalizing ts with
  | nil =>
    cases hts
    exact ⟨.nil, fun _ h => absurd h List.not_mem_nil⟩
  | cons i l ih =>
    cases hts with
    | @cons _ t _ ts ht hts =>
      obtain ⟨hR, hQ⟩ := h i List.mem_cons_self t List.mem_cons_self ht
      obtain ⟨hall, hQs⟩ := ih hts fun i hi t ht => h i (List.mem_cons_of_mem _ hi) t
        (List.mem_cons_of_mem _ ht)
      exact ⟨.cons hR hall, List.forall_mem_cons.mpr ⟨hQ, hQs⟩⟩

/-- There is a byte for every field. -/
theorem fields_length {fields : List (Key × Output)} {ts : List (List UInt8)}
    (hts : List.Forall₂ (fun o t => o.result = .ok t)
      (fields.map fun e => (keyOutput libc cfg e.1).append e.2) ts) :
    fields.length ≤ (commas ts false).length := by
  have hparts : ∀ e ∈ fields, ∀ t ∈ ts, ((keyOutput libc cfg e.1).append e.2).result = .ok t →
      True ∧ t ≠ [] := by
    intro e _ t _ hi
    obtain ⟨k, u, hk, -, rfl⟩ := Output.append_eq_ok.mp hi
    refine ⟨trivial, fun h => ?_⟩
    have hnil := (List.append_eq_nil_iff.mp h).1
    subst hnil
    cases hkey : e.1 with
    | number n =>
      rw [hkey] at hk
      obtain ⟨q, r, hq, -, hnil⟩ := Output.append_eq_ok.mp hk
      obtain rfl := Output.text_eq_ok.mp hq
      cases hnil
    | string s =>
      rw [hkey] at hk
      obtain ⟨q, r, hq, -, hnil⟩ := Output.append_eq_ok.mp hk
      cases hq
      cases hnil
    | other typename =>
      rw [hkey] at hk
      cases hk
  have hne := (forall₂_parts (R := fun _ _ => True) (J := fun _ => ()) hts hparts).2
  have hcount := hts.length_eq
  rw [List.length_map] at hcount
  rw [hcount]
  exact commas_length hne false

/-- What is written for a value is the text of its tree. -/
theorem plain_text (hlibc : libc.Reads cfg.encode_number_precision) (v : Value) : v.Plain →
    ∀ {depth top : Nat} {t : List UInt8}, (output libc cfg v depth top).result = .ok t →
      t.length < 2 ^ 31 → Text IsNumber t (v.tree libc cfg) ∧ 0 ∉ t := by
  induction v using Value.induct with
  | atom v hatom =>
    intro hplain depth top t h ht
    cases v with
    | nil => exact absurd hplain id
    | boolean b =>
      obtain rfl := Output.text_eq_ok.mp h
      cases b with
      | false => exact ⟨.false, by decide⟩
      | true => exact ⟨.true, by decide⟩
    | number n =>
      have hn := hlibc.number n hplain.1 hplain.2
      rw [output, numberOutput_finite hplain.1 hplain.2] at h
      cases h
      exact ⟨.number hn, hn.lenient.nul⟩
    | string s =>
      cases h
      exact ⟨.string (isString_quoted s), quoted_nul s⟩
    | table fields => exact absurd rfl (hatom fields)
    | lightuserdata p =>
      obtain rfl : p = 0 := hplain
      obtain rfl := Output.text_eq_ok.mp h
      exact ⟨.null, by decide⟩
    | other typename => exact absurd hplain id
  | table fields ih =>
    intro hplain depth top t h ht
    obtain ⟨hkeys, hfields⟩ := hplain
    rw [plainFields_iff] at hfields
    rw [output] at h
    obtain ⟨-, -, hafter⟩ := Output.after_eq_ok.mp h
    obtain ⟨len, hlen, hbody⟩ := Output.after_eq_ok.mp hafter
    rw [Value.tree, hlen]
    simp only
    split at hbody
    · next hpos =>
      rw [if_pos hpos]
      obtain ⟨s, s', hs, hrest, rfl⟩ := Output.append_eq_ok.mp hbody
      obtain ⟨u, u', hu, hu', rfl⟩ := Output.append_eq_ok.mp hrest
      obtain ⟨ts, hts, rfl⟩ := separated_eq_ok.mp hu
      obtain rfl := Output.text_eq_ok.mp hs
      obtain rfl := Output.text_eq_ok.mp hu'
      rw [List.length_append, List.length_append] at ht
      have hparts : ∀ (i : Nat) (t : List UInt8), t ∈ ts →
          ((lua_rawgeti (outputFields libc cfg fields (depth + 1) (top + 1)) i).getD
            (.text (chars "null"))).result = .ok t →
          Text IsNumber t ((lua_rawgeti (treeFields libc cfg fields) i).getD .null) ∧ 0 ∉ t := by
        intro i t hmem hi
        have hlt := commas_mem_length hmem false
        rw [outputFields_eq, lua_rawgeti_map fun v => output libc cfg v (depth + 1) (top + 1)] at hi
        rw [treeFields_eq, lua_rawgeti_map (Value.tree libc cfg)]
        cases hget : lua_rawgeti fields i with
        | none =>
          rw [hget] at hi
          obtain rfl := Output.text_eq_ok.mp hi
          exact ⟨.null, by decide⟩
        | some v =>
          rw [hget] at hi
          obtain ⟨e, he, rfl, -⟩ := lua_rawgeti_mem hget
          exact ih e he (hfields e he) hi (by omega)
      obtain ⟨htexts, hnul⟩ := forall₂_parts hts fun i _ t => hparts i t
      have hne : ts ≠ [] := by
        rintro rfl
        have hlength := hts.length_eq
        rw [List.length_map, List.length_range', List.length_nil] at hlength
        omega
      refine ⟨.array (elements_commas htexts hne), ?_⟩
      have hopen : (0 : UInt8) ∉ [ch '['] := by decide
      have hclose : (0 : UInt8) ∉ [ch ']'] := by decide
      simp only [List.mem_append, hopen, hclose, commas_nul hnul false, or_false, not_false_eq_true]
    · next hpos =>
      rw [if_neg hpos]
      obtain ⟨s, s', hs, hrest, rfl⟩ := Output.append_eq_ok.mp hbody
      obtain ⟨u, u', hu, hu', rfl⟩ := Output.append_eq_ok.mp hrest
      obtain ⟨ts, hts, rfl⟩ := separated_eq_ok.mp hu
      obtain rfl := Output.text_eq_ok.mp hs
      obtain rfl := Output.text_eq_ok.mp hu'
      rw [List.length_append, List.length_append] at ht
      have hwritable : ∀ e ∈ fields, e.1.Writable := by
        intro e he
        have hmem := List.mem_map_of_mem (f := (·.1)) he
        rcases hkeys with ⟨ks, heq, hne, hindex, hperm⟩ | ⟨-, hstrings⟩
        · -- the text is not long enough for a key that is no int
          have hlt : ks.length < 2 ^ 31 := by
            have hlength := congrArg List.length heq
            rw [List.length_map, List.length_map] at hlength
            have hle := fields_length hts
            rw [outputFields_eq, List.length_map] at hle
            omega
          rw [heq, List.mem_map] at hmem
          obtain ⟨k, hk, hkey⟩ := hmem
          rw [← hkey]
          exact ⟨not_inf_of_small (ArrayKeys.small hlt hperm k hk), (hindex k hk).not_nan⟩
        · obtain ⟨s, hs, -⟩ := hstrings _ hmem
          rw [hs]
          trivial
      rw [outputFields_eq, List.map_map] at hts
      rw [treeFields_eq, List.map_map]
      have hparts : ∀ (e : Key × Value), e ∈ fields → ∀ t ∈ ts,
          ((keyOutput libc cfg e.1).append (output libc cfg e.2 (depth + 1) (top + 2))).result = .ok t →
          Member IsNumber t (e.1.text libc cfg, e.2.tree libc cfg) ∧ 0 ∉ t := by
        intro e he t hmem hi
        have hlt := commas_mem_length hmem false
        obtain ⟨k, u, hk, hu, rfl⟩ := Output.append_eq_ok.mp hi
        obtain ⟨key, hkey, hstring, hnulkey⟩ := exists_key hlibc (hwritable e he)
        rw [hkey] at hk
        cases hk
        rw [List.length_append] at hlt
        obtain ⟨htext, hnul⟩ := ih e he (hfields e he) hu (by omega)
        have hcolon : (0 : UInt8) ∉ [ch ':'] := by decide
        rw [List.append_assoc]
        refine ⟨member_mk hstring htext, ?_⟩
        simp only [List.mem_append, hnulkey, hcolon, hnul, or_false, not_false_eq_true]
      obtain ⟨hmembers, hnul⟩ := forall₂_parts hts hparts
      have hopen : (0 : UInt8) ∉ [ch '{'] := by decide
      have hclose : (0 : UInt8) ∉ [ch '}'] := by decide
      refine ⟨?_, ?_⟩
      · rcases ts with _ | ⟨t, ts⟩
        · have hnil : fields = [] := by
            have hlength := hts.length_eq
            rw [List.length_map, List.length_nil] at hlength
            exact List.eq_nil_of_length_eq_zero hlength
          rw [hnil]
          exact .emptyObject (w := []) fun _ h => by cases h
        · exact .object (members_commas hmembers (List.cons_ne_nil _ _))
      · simp only [List.mem_append, hopen, hclose, commas_nul hnul false, or_false, not_false_eq_true]

end Luaxx.Json
