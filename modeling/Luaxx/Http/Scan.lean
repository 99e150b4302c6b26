import Luaxx.Http.Http
import Luaxx.Lib.Spans
import Mathlib.Logic.Relation

/-!
# The scan of an HTML text stays inside it

What `find_url` reads, as a grammar of the text: values, attributes and tags as the scan takes them,
which need not be what they are in HTML. The only step that can leave the text is the one over the
character after the name of an attribute, and it does where the text ends with that name
(`CutOff`).
-/

namespace Luaxx.Http

open Luaxx.Ctype Luaxx.Result Luaxx.Spans Relation

variable {p q v w rest element attr name : List UInt8}

/-! ## Values -/

def IsQuote (c : UInt8) : Prop := c = ch '\'' ∨ c = ch '"'

instance (c : UInt8) : Decidable (IsQuote c) := by
  unfold IsQuote
  infer_instance

/-- A character that ends a value without quotes. -/
def EndsValue (c : UInt8) : Prop := isspace c = true ∨ c = ch '>'

instance (c : UInt8) : Decidable (EndsValue c) := by
  unfold EndsValue
  infer_instance

/-- The text begins with a value, and goes on with `rest`. -/
inductive ValueAt : List UInt8 → List UInt8 → List UInt8 → Prop
  | quoted {c : UInt8} {v rest : List UInt8} (hc : IsQuote c) (hv : c ∉ v) :
      ValueAt (c :: (v ++ c :: rest)) v rest
  | unclosed {c : UInt8} {v : List UInt8} (hc : IsQuote c) (hv : c ∉ v) : ValueAt (c :: v) v []
  | bare {v rest : List UInt8} (hv : ∀ c ∈ v, ¬ EndsValue c) (hhead : ∀ c, v.head? = some c → ¬ IsQuote c)
      (hrest : ∀ c, rest.head? = some c → EndsValue c) : ValueAt (v ++ rest) v rest

theorem bareChar_eq (c : UInt8) : (!isspace c && decide (c ≠ ch '>')) = true ↔ ¬ EndsValue c := by
  rw [EndsValue, not_or, Bool.and_eq_true, Bool.not_eq_true', decide_eq_true_eq, Bool.not_eq_true]

theorem readValue_eq (h : ValueAt p v rest) : readValue p = (v, rest) := by
  cases h with
  | @quoted c v rest hc hv =>
    have hc' : c = ch '\'' ∨ c = ch '"' := hc
    have hspan := span_ne hv rest
    rw [readValue, if_pos hc', hspan.1, hspan.2]
    rfl
  | @unclosed c v hc hv =>
    have hc' : c = ch '\'' ∨ c = ch '"' := hc
    have hspan := span_ne_end hv
    rw [readValue, if_pos hc', hspan.1, hspan.2]
    rfl
  | bare hv hhead hrest =>
    have hspan := span_eq (fun c => !isspace c && c ≠ ch '>') rest
      (fun c hc => (bareChar_eq c).mpr (hv c hc)) fun c hc => by
        rw [Bool.eq_false_iff, ne_eq, bareChar_eq, not_not]
        exact hrest c hc
    rcases hp : v ++ rest with _ | ⟨c, p⟩
    · obtain ⟨rfl, rfl⟩ := List.append_eq_nil_iff.mp hp
      rfl
    · have hquote : ¬ (c = ch '\'' ∨ c = ch '"') := by
        cases v with
        | nil =>
          rw [List.nil_append] at hp
          have hend := hrest c (by rw [hp]; rfl)
          rintro (rfl | rfl) <;> revert hend <;> unfold EndsValue <;> decide
        | cons d v =>
          cases hp
          exact hhead c rfl
      rw [readValue, if_neg hquote, ← hp, hspan.1, hspan.2]

theorem exists_value (p : List UInt8) : ∃ v rest, ValueAt p v rest := by
  rcases p with _ | ⟨c, p⟩
  · refine ⟨[], [], .bare (fun _ h => absurd h List.not_mem_nil) (fun _ h => ?_) fun _ h => ?_⟩
    · cases h
    · cases h
  by_cases hc : IsQuote c
  · obtain ⟨v, rest, hp, hv, hrest⟩ := exists_span (fun d => decide (d ≠ c)) p
    have hmem : c ∉ v := fun h => by simpa using hv c h
    cases rest with
    | nil =>
      rw [List.append_nil] at hp
      subst hp
      exact ⟨p, [], .unclosed hc hmem⟩
    | cons d rest =>
      have hd : d = c := by simpa using hrest d rfl
      rw [hp, hd]
      exact ⟨v, rest, .quoted hc hmem⟩
  · obtain ⟨v, rest, hp, hv, hrest⟩ := exists_span (fun c => !isspace c && c ≠ ch '>') (c :: p)
    refine ⟨v, rest, hp ▸ .bare (fun d hd => (bareChar_eq d).mp (hv d hd)) (fun d hd => ?_)
      fun d hd => ?_⟩
    · obtain rfl : c = d := by
        cases v with
        | nil => cases hd
        | cons e v =>
          cases hp
          exact Option.some.inj hd
      exact hc
    · by_contra hno
      have := hrest d hd
      rw [(bareChar_eq d).mpr hno] at this
      cases this

theorem ValueAt.suffix (h : ValueAt p v rest) : rest <:+ p := by
  cases h with
  | @quoted c v rest hc hv => exact ⟨c :: (v ++ [c]), by simp⟩
  | unclosed hc hv => exact List.nil_suffix
  | bare hv hhead hrest => exact List.suffix_append ..

/-! ## Attributes -/

/-- White space, letters, the character after them, and a value after that. -/
inductive AttributeAt : List UInt8 → List UInt8 → List UInt8 → List UInt8 → Prop
  | mk {space name w v rest : List UInt8} {c : UInt8} (hspace : ∀ d ∈ space, isspace d = true)
      (hname : ∀ d ∈ name, isalpha d = true) (hc : isalpha c = false)
      (hnil : name = [] → isspace c = false) (hw : ValueAt w v rest) :
      AttributeAt (space ++ (name ++ c :: w)) name v rest

/-- There is white space and letters only. -/
def NameOnly (p : List UInt8) : Prop :=
  ∃ space name, p = space ++ name ∧ (∀ d ∈ space, isspace d = true) ∧ ∀ d ∈ name, isalpha d = true

theorem not_isspace_of_isalpha : ∀ c : UInt8, isalpha c = true → isspace c = false :=
  forall_byte (by decide)

/-- White space ends at a letter, and at a character that is none. -/
theorem head_not_isspace {name : List UInt8} (w : List UInt8) (hname : ∀ d ∈ name, isalpha d = true)
    (hw : name = [] → ∀ c, w.head? = some c → isspace c = false) :
    ∀ c, (name ++ w).head? = some c → isspace c = false := by
  intro c hc
  cases name with
  | nil => exact hw rfl c hc
  | cons d name =>
    obtain rfl := Option.some.inj hc
    exact not_isspace_of_isalpha d (hname d (List.mem_cons_self ..))

theorem AttributeAt.scan (h : AttributeAt p name v rest) :
    (p.dropWhile isspace).takeWhile isalpha = name ∧
      ∃ c w, (p.dropWhile isspace).dropWhile isalpha = c :: w ∧ readValue w = (v, rest) := by
  cases h with
  | @mk space name w v rest c hspace hname hc hnil hw =>
    have hhead := head_not_isspace (c :: w) hname fun h d hd => by
      rw [← Option.some.inj hd]
      exact hnil h
    have hspan := span_eq isalpha (c :: w) hname fun d hd => by
      rw [← Option.some.inj hd]
      exact hc
    rw [(span_eq isspace _ hspace hhead).2, hspan.1, hspan.2]
    exact ⟨rfl, c, w, rfl, readValue_eq hw⟩

theorem NameOnly.scan (h : NameOnly p) : (p.dropWhile isspace).dropWhile isalpha = [] := by
  obtain ⟨space, name, rfl, hspace, hname⟩ := h
  have hhead := head_not_isspace [] hname fun _ c hc => by cases hc
  have hspan := span_eq isalpha [] hname fun c hc => by cases hc
  rw [List.append_nil] at hhead hspan
  rw [(span_eq isspace _ hspace hhead).2, hspan.2]

/-- A text begins with an attribute or ends before the character after its name. -/
theorem attribute_or_nameOnly (p : List UInt8) :
    (∃ name v rest, AttributeAt p name v rest) ∨ NameOnly p := by
  obtain ⟨space, q, rfl, hspace, hq⟩ := exists_span isspace p
  obtain ⟨name, r, rfl, hname, hr⟩ := exists_span isalpha q
  rcases r with _ | ⟨c, w⟩
  · rw [List.append_nil]
    exact .inr ⟨space, name, rfl, hspace, hname⟩
  · obtain ⟨v, rest, hw⟩ := exists_value w
    refine .inl ⟨name, v, rest, .mk hspace hname (hr c rfl) (fun hnil => ?_) hw⟩
    rw [hnil] at hq
    exact hq c rfl

theorem AttributeAt.length_lt (h : AttributeAt p name v rest) : rest.length < p.length := by
  cases h with
  | @mk space name w v rest c hspace hname hc hnil hw =>
    have := hw.suffix.length_le
    simp only [List.length_append, List.length_cons]
    omega

theorem AttributeAt.suffix (h : AttributeAt p name v rest) : rest <:+ p := by
  cases h with
  | @mk space name w v rest c hspace hname hc hnil hw =>
    refine hw.suffix.trans ⟨space ++ (name ++ [c]), ?_⟩
    simp only [List.append_assoc, List.cons_append, List.nil_append]

/-- The loop over the attributes goes on. -/
def InTag (p : List UInt8) : Prop := p ≠ [] ∧ p.head? ≠ some (ch '>')

/-- The loop goes over an attribute of another name. -/
def Passes (attr : List UInt8) (p q : List UInt8) : Prop :=
  InTag p ∧ ∃ name v, AttributeAt p name v q ∧ stricmp name attr = false

/-- The loop comes to an attribute that the end of the text cuts off. -/
def CutOff (attr : List UInt8) (p : List UInt8) : Prop :=
  ∃ q, ReflTransGen (Passes attr) p q ∧ q ≠ [] ∧ NameOnly q

/-- The loop ends with the value `v` at `rest`. -/
def Leaves (attr : List UInt8) (p v rest : List UInt8) : Prop :=
  ∃ q, ReflTransGen (Passes attr) p q ∧
    (¬ InTag q ∧ v = [] ∧ rest = q ∨
      InTag q ∧ ∃ name, AttributeAt q name v rest ∧ stricmp name attr = true)

theorem NameOnly.inTag (h : NameOnly p) (hp : p ≠ []) : InTag p := by
  refine ⟨hp, fun hhead => ?_⟩
  obtain ⟨space, name, rfl, hspace, hname⟩ := h
  have hmem : ch '>' ∈ space ++ name := List.mem_of_mem_head? hhead
  rcases List.mem_append.mp hmem with h | h
  · exact absurd (hspace _ h) (by decide)
  · exact absurd (hname _ h) (by decide)

theorem findAttr_end (h : ¬ InTag p) (fuel : Nat) : findAttr attr (fuel + 1) p = .ok ([], p) := by
  rcases p with _ | ⟨c, p⟩
  · rfl
  · have hc : c = ch '>' := by
      by_contra hc
      exact h ⟨List.cons_ne_nil c p, fun hhead => hc (Option.some.inj hhead)⟩
    rw [findAttr, if_pos hc]

theorem findAttr_attribute (h : InTag p) (ha : AttributeAt p name v rest) (fuel : Nat) :
    findAttr attr (fuel + 1) p =
      if stricmp name attr then .ok (v, rest) else findAttr attr fuel rest := by
  rcases p with _ | ⟨c, p⟩
  · exact absurd rfl h.1
  · have hc : c ≠ ch '>' := fun hc => h.2 (hc ▸ rfl)
    obtain ⟨hname, d, w, hd, hw⟩ := ha.scan
    rw [findAttr, if_neg hc]
    simp only [hname, hd, hw]

theorem findAttr_cut (h : NameOnly p) (hp : p ≠ []) (fuel : Nat) :
    findAttr attr (fuel + 1) p = .error .pastEnd := by
  have hin := h.inTag hp
  rcases p with _ | ⟨c, p⟩
  · exact absurd rfl hp
  · have hc : c ≠ ch '>' := fun hc => hin.2 (hc ▸ rfl)
    rw [findAttr, if_neg hc]
    simp only [h.scan]

theorem Passes.findAttr_eq {fuel : Nat} (h : Passes attr p q) :
    findAttr attr (fuel + 1) p = findAttr attr fuel q := by
  obtain ⟨hin, name, v, ha, hne⟩ := h
  rw [findAttr_attribute hin ha, if_neg (by rw [hne]; exact Bool.false_ne_true)]

/-- The loop takes one iteration for each attribute that it passes. -/
theorem findAttr_passes (h : ReflTransGen (Passes attr) p q) {fuel : Nat} (hfuel : p.length < fuel) :
    ∃ fuel', q.length < fuel' ∧ findAttr attr fuel p = findAttr attr fuel' q := by
  induction h using ReflTransGen.head_induction_on generalizing fuel with
  | refl => exact ⟨fuel, hfuel, rfl⟩
  | head hpass _ ih =>
    obtain ⟨fuel, rfl⟩ : ∃ n, fuel = n + 1 := ⟨fuel - 1, by omega⟩
    have hlt : _ < _ := hpass.2.choose_spec.choose_spec.1.length_lt
    have hfuel' : _ < fuel := Nat.lt_of_lt_of_le hlt (Nat.le_of_lt_succ hfuel)
    obtain ⟨fuel', hlt', heq⟩ := ih hfuel'
    exact ⟨fuel', hlt', hpass.findAttr_eq.trans heq⟩

theorem CutOff.findAttr_eq (h : CutOff attr p) {fuel : Nat} (hfuel : p.length < fuel) :
    findAttr attr fuel p = .error .pastEnd := by
  obtain ⟨q, hq, hne, hcut⟩ := h
  obtain ⟨fuel', hlt, heq⟩ := findAttr_passes hq hfuel
  obtain ⟨fuel', rfl⟩ : ∃ n, fuel' = n + 1 := ⟨fuel' - 1, by omega⟩
  rw [heq, findAttr_cut hcut hne]

theorem Leaves.findAttr_eq (h : Leaves attr p v rest) {fuel : Nat} (hfuel : p.length < fuel) :
    findAttr attr fuel p = .ok (v, rest) := by
  obtain ⟨q, hq, hend⟩ := h
  obtain ⟨fuel', hlt, heq⟩ := findAttr_passes hq hfuel
  obtain ⟨fuel', rfl⟩ : ∃ n, fuel' = n + 1 := ⟨fuel' - 1, by omega⟩
  rw [heq]
  rcases hend with ⟨hin, rfl, rfl⟩ | ⟨hin, name, ha, hname⟩
  · exact findAttr_end hin fuel'
  · rw [findAttr_attribute hin ha, if_pos hname]

/-- Every text is one or the other. -/
theorem cutOff_or_leaves (attr p : List UInt8) :
    CutOff attr p ∨ ∃ v rest, Leaves attr p v rest ∧ rest <:+ p := by
  induction hn : p.length using Nat.strong_induction_on generalizing p with
  | _ n ih =>
    subst hn
    by_cases hin : InTag p
    swap
    · exact .inr ⟨[], p, ⟨p, .refl, .inl ⟨hin, rfl, rfl⟩⟩, List.suffix_refl p⟩
    rcases attribute_or_nameOnly p with ⟨name, v, rest, ha⟩ | hcut
    swap
    · exact .inl ⟨p, .refl, hin.1, hcut⟩
    cases hname : stricmp name attr with
    | true => exact .inr ⟨v, rest, ⟨p, .refl, .inr ⟨hin, name, ha, hname⟩⟩, ha.suffix⟩
    | false =>
      have hpass : Passes attr p rest := ⟨hin, name, v, ha, hname⟩
      rcases ih _ ha.length_lt rest rfl with ⟨q, hq, hcut⟩ | ⟨u, r, ⟨q, hq, hend⟩, hsuf⟩
      · exact .inl ⟨q, .head hpass hq, hcut⟩
      · exact .inr ⟨u, r, ⟨q, .head hpass hq, hend⟩, hsuf.trans ha.suffix⟩

/-! ## Tags -/

/-- The first tag of the text has the name `name`, and `rest` follows it. -/
inductive TagAt : List UInt8 → List UInt8 → List UInt8 → Prop
  | mk {text name rest : List UInt8} (htext : ch '<' ∉ text)
      (hname : ∀ d ∈ name, isalpha d = true) (hrest : ∀ c, rest.head? = some c → isalpha c = false) :
      TagAt (text ++ ch '<' :: (name ++ rest)) name rest

/-- The scan of the text comes to a tag of the element with an attribute that is cut off. -/
inductive CutOffIn (element attr : List UInt8) : List UInt8 → Prop
  | here {p name rest : List UInt8} (ht : TagAt p name rest) (hname : stricmp element name = true)
      (hcut : CutOff attr rest) : CutOffIn element attr p
  | other {p name rest : List UInt8} (ht : TagAt p name rest)
      (hname : stricmp element name = false) (h : CutOffIn element attr rest) :
      CutOffIn element attr p
  | after {p name rest v rest' : List UInt8} (ht : TagAt p name rest)
      (hname : stricmp element name = true) (hleaves : Leaves attr rest v rest')
      (h : CutOffIn element attr rest') : CutOffIn element attr p

theorem strchr_of_notMem {c : UInt8} (h : c ∉ p) : strchr p c = none := by
  rw [strchr, (span_ne_end h).2]

theorem strchr_append {c : UInt8} {text : List UInt8} (h : c ∉ text) (p : List UInt8) :
    strchr (text ++ c :: p) c = some (c :: p) := by
  rw [strchr, (span_ne h p).2]

theorem tag_or_none (p : List UInt8) : ch '<' ∉ p ∨ ∃ name rest, TagAt p name rest := by
  by_cases hmem : ch '<' ∈ p
  · obtain ⟨text, r, rfl, htext⟩ := List.eq_append_cons_of_mem hmem
    obtain ⟨name, rest, rfl, hname, hrest⟩ := exists_span isalpha r
    exact .inr ⟨name, rest, .mk htext hname hrest⟩
  · exact .inl hmem

theorem TagAt.mem (h : TagAt p name rest) : ch '<' ∈ p := by
  cases h with
  | mk htext hname hrest => exact List.mem_append_right _ (List.mem_cons_self ..)

theorem TagAt.suffix (h : TagAt p name rest) : rest <:+ p := by
  cases h with
  | @mk text name rest htext hname hrest =>
    refine ⟨text ++ ch '<' :: name, ?_⟩
    rw [List.append_assoc, List.cons_append]

theorem TagAt.length_lt (h : TagAt p name rest) : rest.length < p.length := by
  cases h with
  | mk htext hname hrest =>
    simp only [List.length_append, List.length_cons]
    omega

/-- A text has one first tag, which `strchr` finds. -/
theorem TagAt.strchr_eq (h : TagAt p name rest) :
    ∃ q, strchr p (ch '<') = some q ∧ q.tail.takeWhile isalpha = name ∧
      q.tail.dropWhile isalpha = rest ∧ TagAt q name rest ∧ q <:+ p := by
  cases h with
  | @mk text name rest htext hname hrest =>
    have hspan := span_eq isalpha _ hname hrest
    refine ⟨_, strchr_append htext _, hspan.1, hspan.2, ?_, List.suffix_append ..⟩
    exact @TagAt.mk [] name rest List.not_mem_nil hname hrest

/-! ## The calls of `find_url` -/

theorem findTag_none (h : ch '<' ∉ p) (fuel : Nat) :
    findTag element attr (fuel + 1) p = .ok (none, []) := by
  rw [findTag, strchr_of_notMem h]

theorem findTag_tag (h : TagAt p name rest) (fuel : Nat) :
    findTag element attr (fuel + 1) p =
      if stricmp element name then
        findAttr attr (rest.length + 1) rest >>= fun r => .ok (strchr r.2 (ch '<'), r.1)
      else findTag element attr fuel rest := by
  obtain ⟨q, hq, hname, hrest, -⟩ := h.strchr_eq
  rw [findTag, hq]
  simp only [hname, hrest]
  rfl

theorem findTag_fuel {p : List UInt8} {fuel fuel' : Nat} (h : p.length < fuel) (h' : p.length < fuel') :
    findTag element attr fuel p = findTag element attr fuel' p := by
  induction fuel generalizing fuel' p with
  | zero => exact absurd h (Nat.not_lt_zero _)
  | succ fuel ih =>
    obtain ⟨fuel', rfl⟩ : ∃ n, fuel' = n + 1 := ⟨fuel' - 1, by omega⟩
    rcases tag_or_none p with hno | ⟨name, rest, ht⟩
    · rw [findTag_none hno, findTag_none hno]
    · have hlt := ht.length_lt
      have heq := ih (p := rest) (Nat.lt_of_lt_of_le hlt (Nat.le_of_lt_succ h))
        (Nat.lt_of_lt_of_le hlt (Nat.le_of_lt_succ h'))
      rw [findTag_tag ht, findTag_tag ht, heq]

theorem find_url_none (h : ch '<' ∉ p) : find_url element attr p = .ok (none, []) :=
  findTag_none h _

theorem find_url_other (h : TagAt p name rest) (hname : stricmp element name = false) :
    find_url element attr p = find_url element attr rest := by
  have hlt := h.length_lt
  rw [find_url, findTag_tag h, if_neg (by rw [hname]; exact Bool.false_ne_true), find_url]
  exact findTag_fuel hlt (Nat.lt_succ_self _)

theorem find_url_tag (h : TagAt p name rest) (hname : stricmp element name = true) :
    find_url element attr p =
      findAttr attr (rest.length + 1) rest >>= fun r => .ok (strchr r.2 (ch '<'), r.1) := by
  rw [find_url, findTag_tag h, if_pos hname]

theorem TagAt.unique {name' rest' : List UInt8} (h : TagAt p name rest)
    (h' : TagAt p name' rest') : name = name' ∧ rest = rest' := by
  obtain ⟨q, hq, hname, hrest, -⟩ := h.strchr_eq
  obtain ⟨q', hq', hname', hrest', -⟩ := h'.strchr_eq
  rw [hq] at hq'
  cases hq'
  exact ⟨hname.symm.trans hname', hrest.symm.trans hrest'⟩

theorem CutOffIn.cases (h : CutOffIn element attr p) (ht : TagAt p name rest) :
    (stricmp element name = true ∧ CutOff attr rest) ∨
    (stricmp element name = false ∧ CutOffIn element attr rest) ∨
    (stricmp element name = true ∧
      ∃ v rest', Leaves attr rest v rest' ∧ CutOffIn element attr rest') := by
  cases h with
  | here ht' hname hcut =>
    obtain ⟨rfl, rfl⟩ := ht.unique ht'
    exact .inl ⟨hname, hcut⟩
  | other ht' hname h =>
    obtain ⟨rfl, rfl⟩ := ht.unique ht'
    exact .inr (.inl ⟨hname, h⟩)
  | after ht' hname hleaves h =>
    obtain ⟨rfl, rfl⟩ := ht.unique ht'
    exact .inr (.inr ⟨hname, _, _, hleaves, h⟩)

theorem CutOffIn.mem (h : CutOffIn element attr p) : ch '<' ∈ p := by
  cases h with
  | here ht _ _ => exact ht.mem
  | other ht _ _ => exact ht.mem
  | after ht _ _ _ => exact ht.mem

/-- The text before the first tag does not matter. -/
theorem cutOffIn_strchr (h : strchr p (ch '<') = some q) :
    CutOffIn element attr q ↔ CutOffIn element attr p := by
  have hmem : ch '<' ∈ p := by
    by_contra hno
    rw [strchr_of_notMem hno] at h
    cases h
  obtain ⟨name, rest, ht⟩ := (tag_or_none p).resolve_left (not_not.mpr hmem)
  obtain ⟨q', hq', -, -, htq, -⟩ := ht.strchr_eq
  rw [h] at hq'
  cases hq'
  constructor
  · intro hc
    rcases hc.cases htq with ⟨hname, hcut⟩ | ⟨hname, hcut⟩ | ⟨hname, v, r, hleaves, hcut⟩
    · exact .here ht hname hcut
    · exact .other ht hname hcut
    · exact .after ht hname hleaves hcut
  · intro hc
    rcases hc.cases ht with ⟨hname, hcut⟩ | ⟨hname, hcut⟩ | ⟨hname, v, r, hleaves, hcut⟩
    · exact .here htq hname hcut
    · exact .other htq hname hcut
    · exact .after htq hname hleaves hcut

theorem strchr_suffix {c : UInt8} (h : strchr p c = some q) : q <:+ p := by
  by_cases hmem : c ∈ p
  · obtain ⟨text, r, rfl, htext⟩ := List.eq_append_cons_of_mem hmem
    rw [strchr_append htext] at h
    cases h
    exact List.suffix_append ..
  · rw [strchr_of_notMem hmem] at h
    cases h

/-- What a call of `find_url` returns. -/
structure Returned (element attr p : List UInt8) (next : Option (List UInt8)) : Prop where
  suffix : ∀ q, next = some q → q <:+ p
  shorter : ∀ q, next = some q → q.length < p.length
  cutOffIn : CutOffIn element attr p ↔ ∃ q, next = some q ∧ CutOffIn element attr q

theorem find_url_spec (element attr p : List UInt8) :
    (find_url element attr p = .error .pastEnd ∧ CutOffIn element attr p) ∨
    ∃ next v, find_url element attr p = .ok (next, v) ∧ Returned element attr p next := by
  induction hn : p.length using Nat.strong_induction_on generalizing p with
  | _ n ih =>
    subst hn
    rcases tag_or_none p with hno | ⟨name, rest, ht⟩
    · refine .inr ⟨none, [], find_url_none hno, nofun, nofun, fun h => absurd h.mem hno, ?_⟩
      rintro ⟨q, hq, -⟩
      cases hq
    have hlt := ht.length_lt
    cases hname : stricmp element name with
    | false =>
      rw [find_url_other ht hname]
      have hiff : CutOffIn element attr p ↔ CutOffIn element attr rest := by
        refine ⟨fun h => ?_, .other ht hname⟩
        rcases h.cases ht with ⟨heq, -⟩ | ⟨-, hcut⟩ | ⟨heq, -⟩
        · rw [hname] at heq
          cases heq
        · exact hcut
        · rw [hname] at heq
          cases heq
      rcases ih _ hlt rest rfl with ⟨herr, hcut⟩ | ⟨next, v, hok, hret⟩
      · exact .inl ⟨herr, hiff.mpr hcut⟩
      · refine .inr ⟨next, v, hok, fun q hq => (hret.suffix q hq).trans ht.suffix, fun q hq => ?_,
          hiff.trans hret.cutOffIn⟩
        exact Nat.lt_trans (hret.shorter q hq) hlt
    | true =>
      have hfuel := Nat.lt_succ_self rest.length
      rw [find_url_tag ht hname]
      rcases cutOff_or_leaves attr rest with hcut | ⟨v, rest', hleaves, hsuf⟩
      · rw [hcut.findAttr_eq hfuel]
        exact .inl ⟨rfl, .here ht hname hcut⟩
      · rw [hleaves.findAttr_eq hfuel, ok_bind]
        refine .inr ⟨_, v, rfl, fun q hq => ?_, fun q hq => ?_, fun h => ?_, ?_⟩
        · exact ((strchr_suffix hq).trans hsuf).trans ht.suffix
        · exact Nat.lt_of_le_of_lt ((strchr_suffix hq).trans hsuf).length_le hlt
        · rcases h.cases ht with ⟨-, hcut⟩ | ⟨heq, -⟩ | ⟨-, u, r, hleaves', hcut⟩
          · have := hcut.findAttr_eq hfuel
            rw [hleaves.findAttr_eq hfuel] at this
            cases this
          · rw [hname] at heq
            cases heq
          · have := hleaves'.findAttr_eq hfuel
            rw [hleaves.findAttr_eq hfuel] at this
            cases this
            cases hq : strchr rest' (ch '<') with
            | none =>
              obtain ⟨name', r', ht'⟩ := (tag_or_none rest').resolve_left (not_not.mpr hcut.mem)
              obtain ⟨q, hq', -⟩ := ht'.strchr_eq
              rw [hq] at hq'
              cases hq'
            | some q => exact ⟨q, rfl, (cutOffIn_strchr hq).mpr hcut⟩
        · rintro ⟨q, hq, hcut⟩
          exact .after ht hname hleaves ((cutOffIn_strchr hq).mp hcut)

/-- The repeated calls of `find_url`. -/
theorem findAll_spec {fuel : Nat} (hfuel : p.length < fuel) :
    (findAll element attr fuel p = .error .pastEnd ∧ CutOffIn element attr p) ∨
    ∃ calls, findAll element attr fuel p = .ok calls ∧ ¬ CutOffIn element attr p ∧
      ∀ call ∈ calls, ∀ q, call.1 = some q → q <:+ p := by
  induction fuel generalizing p with
  | zero => exact absurd hfuel (Nat.not_lt_zero _)
  | succ fuel ih =>
    rw [findAll]
    rcases find_url_spec element attr p with ⟨herr, hcut⟩ | ⟨next, v, hok, hret⟩
    · rw [herr]
      exact .inl ⟨rfl, hcut⟩
    rw [hok, ok_bind]
    cases next with
    | none =>
      refine .inr ⟨[(none, v)], rfl, fun h => ?_, fun call hcall q hq => ?_⟩
      · obtain ⟨q, hq, -⟩ := hret.cutOffIn.mp h
        cases hq
      · rw [List.mem_singleton.mp hcall] at hq
        cases hq
    | some next =>
      have hlt := hret.shorter next rfl
      rcases ih (p := next) (by omega) with ⟨herr, hcut⟩ | ⟨calls, hok', hno, hsuf⟩
      · simp only [herr]
        exact .inl ⟨rfl, hret.cutOffIn.mpr ⟨next, rfl, hcut⟩⟩
      · simp only [hok']
        refine .inr ⟨(some next, v) :: calls, rfl, fun h => ?_, fun call hcall q hq => ?_⟩
        · obtain ⟨q, hq, hcut⟩ := hret.cutOffIn.mp h
          cases hq
          exact hno hcut
        · rcases List.mem_cons.mp hcall with rfl | hcall
          · exact hret.suffix q hq
          · exact (hsuf call hcall q hq).trans (hret.suffix next rfl)

/-- `hl_collect_resource` reads no byte after the NUL of the text and comes to an end, with pointers
into the text, exactly if no tag of the element is cut off in an attribute that is looked at. -/
theorem hl_collect_resource_safe_iff (element attr html baseurl : List UInt8) :
    ((∃ calls, findAll (cstr element) (cstr attr) ((cstr html).length + 1) (cstr html) = .ok calls ∧
        ∀ call ∈ calls, ∀ q, call.1 = some q → q <:+ cstr html) ∧
      ∃ links, hl_collect_resource element attr html baseurl = .ok links) ↔
    ¬ CutOffIn (cstr element) (cstr attr) (cstr html) := by
  rcases @findAll_spec (cstr html) (cstr element) (cstr attr) _ (Nat.lt_succ_self _) with
    ⟨herr, hcut⟩ | ⟨calls, hok, hno, hsuf⟩
  · refine iff_of_false ?_ (not_not.mpr hcut)
    rintro ⟨⟨calls, hok, -⟩, -⟩
    rw [herr] at hok
    cases hok
  · refine iff_of_true ⟨⟨calls, hok, hsuf⟩, ?_⟩ hno
    rw [hl_collect_resource, hok]
    exact ⟨_, rfl⟩

/-- A link without a value at the end of the text. -/
theorem hl_collect_link_pastEnd : hl_collect_link (chars "<a href") [] = .error .pastEnd := by
  decide +kernel

end Luaxx.Http
