import Luaxx.Http.Scan

/-!
# Links of well-formed documents

Plain text and tags, with the links that are in it (`links`), and when the scan finds them. The scan
takes a letter sequence, one character and a value for an attribute, so that it is thrown off by an
attribute without a value, by white space before the end of a tag, and by names that are not only
letters (`Scannable`).
-/

namespace Luaxx.Http

open Luaxx.Ctype Luaxx.Result Luaxx.Spans Relation

/-- An attribute as it is written. -/
inductive Attr where
  | bare (name : List UInt8)
  | unquoted (name value : List UInt8)
  | quoted (quote : UInt8) (name value : List UInt8)
  deriving DecidableEq, Repr

namespace Attr

def name : Attr → List UInt8
  | bare name => name
  | unquoted name _ => name
  | quoted _ name _ => name

def value : Attr → List UInt8
  | bare _ => []
  | unquoted _ value => value
  | quoted _ _ value => value

/-- What is written after the name. -/
def tail : Attr → List UInt8
  | bare _ => []
  | unquoted _ value => ch '=' :: value
  | quoted quote _ value => ch '=' :: quote :: (value ++ [quote])

def text (a : Attr) : List UInt8 := a.name ++ a.tail

def IsBare : Attr → Prop
  | bare _ => True
  | _ => False

instance : DecidablePred IsBare := fun a => by
  cases a <;> unfold IsBare <;> infer_instance

/-- A character of a name. -/
def NameChar (c : UInt8) : Prop :=
  isspace c = false ∧ ¬ IsQuote c ∧ c ≠ ch '=' ∧ c ≠ ch '<' ∧ c ≠ ch '>' ∧ c ≠ 0

instance : DecidablePred NameChar := fun c => by
  unfold NameChar
  infer_instance

/-- The value ends where it is meant to. -/
def Delimited : Attr → Prop
  | bare _ => True
  | unquoted _ value => (∀ c ∈ value, ¬ EndsValue c) ∧ ∀ c ∈ value.take 1, ¬ IsQuote c
  | quoted quote _ value => IsQuote quote ∧ quote ∉ value

instance : DecidablePred Delimited := fun a => by
  cases a <;> unfold Delimited <;> infer_instance

structure WellFormed (a : Attr) : Prop where
  name_ne : a.name ≠ []
  name : ∀ c ∈ a.name, NameChar c
  value : ∀ c ∈ a.value, c ≠ ch '<' ∧ c ≠ 0
  delimited : a.Delimited

instance : DecidablePred WellFormed := fun a =>
  decidable_of_iff (a.name ≠ [] ∧ (∀ c ∈ a.name, NameChar c) ∧
      (∀ c ∈ a.value, c ≠ ch '<' ∧ c ≠ 0) ∧ a.Delimited)
    ⟨fun h => ⟨h.1, h.2.1, h.2.2.1, h.2.2.2⟩, fun h => ⟨h.1, h.2, h.3, h.4⟩⟩

end Attr

/-- A tag: its name, the attributes with the white space before each, and that before the `>`. -/
structure Tag where
  name : List UInt8
  attrs : List (List UInt8 × Attr)
  space : List UInt8
  deriving DecidableEq, Repr

def IsSpace (s : List UInt8) : Prop := ∀ c ∈ s, isspace c = true

instance : DecidablePred IsSpace := fun s => by
  unfold IsSpace
  infer_instance

namespace Tag

/-- What follows the name. -/
def rest (attrs : List (List UInt8 × Attr)) (space : List UInt8) : List UInt8 :=
  (attrs.flatMap fun a => a.1 ++ a.2.text) ++ (space ++ [ch '>'])

def text (t : Tag) : List UInt8 := ch '<' :: (t.name ++ rest t.attrs t.space)

structure WellFormed (t : Tag) : Prop where
  name_ne : t.name ≠ []
  name : ∀ c ∈ t.name, isalpha c = true
  attrs : ∀ a ∈ t.attrs, a.1 ≠ [] ∧ IsSpace a.1 ∧ a.2.WellFormed
  space : IsSpace t.space

instance : DecidablePred WellFormed := fun t =>
  decidable_of_iff (t.name ≠ [] ∧ (∀ c ∈ t.name, isalpha c = true) ∧
      (∀ a ∈ t.attrs, a.1 ≠ [] ∧ IsSpace a.1 ∧ a.2.WellFormed) ∧ IsSpace t.space)
    ⟨fun h => ⟨h.1, h.2.1, h.2.2.1, h.2.2.2⟩, fun h => ⟨h.1, h.2, h.3, h.4⟩⟩

/-- The value of the first attribute of the name that has one. -/
def link (t : Tag) (attr : List UInt8) : Option (List UInt8) :=
  (t.attrs.find? fun a => stricmp a.2.name attr && a.2.value ≠ []).map fun a => a.2.value

end Tag

inductive Part where
  | text (s : List UInt8)
  | tag (t : Tag)
  deriving DecidableEq, Repr

namespace Part

def source : Part → List UInt8
  | text s => s
  | tag t => t.text

def WellFormed : Part → Prop
  | text s => ∀ c ∈ s, c ≠ ch '<' ∧ c ≠ 0
  | tag t => t.WellFormed

instance : DecidablePred WellFormed := fun part => by
  cases part <;> unfold WellFormed <;> infer_instance

/-- The link in a tag of the element. -/
def link (element attr : List UInt8) : Part → Option (List UInt8)
  | text _ => none
  | tag t => if stricmp element t.name then t.link attr else none

end Part

abbrev Document : Type := List Part

namespace Document

def text (d : Document) : List UInt8 := d.flatMap Part.source

def WellFormed (d : Document) : Prop := ∀ part ∈ d, part.WellFormed

instance : DecidablePred WellFormed := fun d => by
  unfold WellFormed
  infer_instance

/-- The values of the attribute in the tags of the element, in their order. -/
def links (d : Document) (element attr : List UInt8) : List (List UInt8) :=
  d.filterMap (Part.link element attr)

end Document

/-! ## What the scan can read -/

/-- The scan takes all of an attribute of another name for one attribute of another name. -/
def Attr.Passed (attr : List UInt8) (a : Attr) : Prop :=
  match a.name.dropWhile isalpha with
  | [] => ¬ a.IsBare
  | _ :: post =>
    stricmp (a.name.takeWhile isalpha) attr = false ∧ ∀ c ∈ post ++ a.tail, ¬ EndsValue c

/-- The attributes up to the first of the name `attr` are what the scan takes them for. -/
def Scannable (attr : List UInt8) : List (List UInt8 × Attr) → List UInt8 → Prop
  | [], space => space = []
  | a :: attrs, space =>
    if stricmp a.2.name attr then
      ¬ a.2.IsBare ∧
        (a.2.value = [] → ∀ b ∈ attrs, stricmp b.2.name attr = true → b.2.value = [])
    else a.2.Passed attr ∧ Scannable attr attrs space

instance (attr : List UInt8) (a : Attr) : Decidable (a.Passed attr) := by
  unfold Attr.Passed
  split <;> infer_instance

instance decidableScannable (attr : List UInt8) :
    ∀ (attrs : List (List UInt8 × Attr)) (space : List UInt8), Decidable (Scannable attr attrs space)
  | [], space => inferInstanceAs (Decidable (space = []))
  | a :: attrs, space => by
    have := decidableScannable attr attrs space
    unfold Scannable
    infer_instance

variable {element attr space rest : List UInt8} {a : Attr} {attrs : List (List UInt8 × Attr)}

/-! ## One tag -/

theorem isalpha_of_tolower : ∀ c : UInt8, islower (tolower c) = true → isalpha c = true :=
  forall_byte (by decide)

theorem islower_tolower : ∀ c : UInt8, isalpha c = true → islower (tolower c) = true :=
  forall_byte (by decide)

theorem alphabetic_of_stricmp {s t : List UInt8} (h : stricmp s t = true)
    (ht : ∀ c ∈ t, isalpha c = true) : ∀ c ∈ s, isalpha c = true := by
  intro c hc
  have heq : s.map tolower = t.map tolower := by simpa [stricmp] using h
  have hmem : tolower c ∈ t.map tolower := heq ▸ List.mem_map_of_mem hc
  obtain ⟨d, hd, hdc⟩ := List.mem_map.mp hmem
  exact isalpha_of_tolower c (hdc ▸ islower_tolower d (ht d hd))

/-- The white space or `>` after an attribute. -/
theorem head_rest (hattrs : ∀ a ∈ attrs, a.1 ≠ [] ∧ IsSpace a.1) (hspace : IsSpace space)
    (rest : List UInt8) : ∀ c, (Tag.rest attrs space ++ rest).head? = some c → EndsValue c := by
  intro c hc
  have hhead : ∀ {s t : List UInt8}, IsSpace s → (s = [] → t.head? = some c → EndsValue c) →
      (s ++ t).head? = some c → EndsValue c := by
    intro s t hs ht hst
    cases s with
    | nil => exact ht rfl hst
    | cons d s =>
      obtain rfl := Option.some.inj hst
      exact .inl (hs d (List.mem_cons_self ..))
  cases attrs with
  | nil =>
    rw [Tag.rest, List.flatMap_nil, List.nil_append, List.append_assoc] at hc
    refine hhead hspace (fun _ hgt => ?_) hc
    exact .inr (Option.some.inj hgt).symm
  | cons a attrs =>
    obtain ⟨hne, hs⟩ := hattrs a (List.mem_cons_self ..)
    rw [Tag.rest, List.flatMap_cons, List.append_assoc, List.append_assoc, List.append_assoc] at hc
    exact hhead hs (fun hnil => absurd hnil hne) hc

theorem rest_cons (s : List UInt8) (a : Attr) (attrs : List (List UInt8 × Attr))
    (space rest : List UInt8) :
    Tag.rest ((s, a) :: attrs) space ++ rest =
      s ++ (a.name ++ (a.tail ++ (Tag.rest attrs space ++ rest))) := by
  simp only [Tag.rest, List.flatMap_cons, Attr.text, List.append_assoc]

/-- An attribute with a value and a name of letters. -/
theorem Attr.attributeAt {s : List UInt8} (ha : a.WellFormed) (hs : IsSpace s)
    (hname : ∀ c ∈ a.name, isalpha c = true) (hbare : ¬ a.IsBare)
    (hrest : ∀ c, rest.head? = some c → EndsValue c) :
    AttributeAt (s ++ (a.name ++ (a.tail ++ rest))) a.name a.value rest := by
  have heq : isalpha (ch '=') = false := by decide
  have hne : ∀ {P : Prop}, a.name = [] → P := fun hnil => absurd hnil ha.name_ne
  cases a with
  | bare name => exact absurd trivial hbare
  | unquoted name value =>
    obtain ⟨hv, hhead⟩ := ha.delimited
    refine .mk hs hname heq (fun h => hne h) (.bare hv (fun c hc => hhead c ?_) hrest)
    obtain ⟨value, rfl⟩ := List.head?_eq_some_iff.mp hc
    exact List.mem_cons_self ..
  | quoted quote name value =>
    obtain ⟨hq, hv⟩ := ha.delimited
    refine .mk (w := quote :: (value ++ [quote]) ++ rest) hs hname heq (fun h => hne h) ?_
    have hvalue : ValueAt (quote :: (value ++ quote :: rest)) value rest := .quoted hq hv
    rwa [List.cons_append, List.append_assoc, List.singleton_append]

/-- The scan goes over an attribute of another name. -/
theorem Attr.Passed.passes {s : List UInt8} (hp : a.Passed attr) (ha : a.WellFormed)
    (hne : s ≠ []) (hs : IsSpace s) (hname : stricmp a.name attr = false)
    (hrest : ∀ c, rest.head? = some c → EndsValue c) :
    Passes attr (s ++ (a.name ++ (a.tail ++ rest))) rest := by
  have hin : InTag (s ++ (a.name ++ (a.tail ++ rest))) := by
    obtain ⟨d, s', rfl⟩ := List.exists_cons_of_ne_nil hne
    refine ⟨List.cons_ne_nil _ _, fun hd => ?_⟩
    have := hs d (List.mem_cons_self ..)
    rw [Option.some.inj hd] at this
    exact absurd this (by decide)
  obtain ⟨pre, post, heq, hpre, hpost⟩ := exists_span isalpha a.name
  have hspan := span_eq isalpha _ hpre hpost
  rw [Attr.Passed, heq, hspan.1, hspan.2] at hp
  rcases post with _ | ⟨c, post⟩
  · rw [List.append_nil] at heq
    rw [← heq] at hpre
    exact ⟨hin, a.name, a.value, Attr.attributeAt ha hs hpre hp hrest, hname⟩
  · obtain ⟨hother, hv⟩ := hp
    have hc : Attr.NameChar c := ha.name c (by rw [heq]; simp)
    have hhead : ∀ d, (post ++ a.tail).head? = some d → ¬ IsQuote d := by
      intro d hd
      cases post with
      | nil =>
        cases a with
        | bare name => cases hd
        | unquoted name value =>
          obtain rfl := Option.some.inj hd
          decide
        | quoted quote name value =>
          obtain rfl := Option.some.inj hd
          decide
      | cons e post =>
        obtain rfl := Option.some.inj hd
        exact (ha.name e (by rw [heq]; simp)).2.1
    refine ⟨hin, pre, post ++ a.tail, ?_, hother⟩
    have hat := AttributeAt.mk (w := post ++ a.tail ++ rest) hs hpre (hpost c rfl) (fun _ => hc.1)
      (.bare hv hhead hrest)
    rw [heq]
    simpa using hat

/-- The value that is found. -/
def found (attr : List UInt8) (attrs : List (List UInt8 × Attr)) : List UInt8 :=
  ((attrs.find? fun a => stricmp a.2.name attr && a.2.value ≠ []).map fun a => a.2.value).getD []

/-- The scan of the attributes ends with the link of the tag, in the tag. -/
theorem leaves_rest (hattr : ∀ c ∈ attr, isalpha c = true)
    (hattrs : ∀ a ∈ attrs, a.1 ≠ [] ∧ IsSpace a.1 ∧ a.2.WellFormed) (hspace : IsSpace space)
    (hscan : Scannable attr attrs space) (rest : List UInt8) :
    ∃ r, r <:+ Tag.rest attrs space ∧
      Leaves attr (Tag.rest attrs space ++ rest) (found attr attrs) (r ++ rest) := by
  induction attrs with
  | nil =>
    have hnil : space = [] := hscan
    subst hnil
    refine ⟨_, List.suffix_refl _, _, .refl, .inl ⟨fun h => h.2 rfl, rfl, rfl⟩⟩
  | cons b attrs ih =>
    obtain ⟨s, a⟩ := b
    obtain ⟨⟨hne, hs, ha⟩, hattrs⟩ := List.forall_mem_cons.mp hattrs
    have hends := head_rest (fun b hb => ⟨(hattrs b hb).1, (hattrs b hb).2.1⟩) hspace rest
    have hsuf : Tag.rest attrs space <:+ Tag.rest ((s, a) :: attrs) space := by
      have := rest_cons s a attrs space []
      rw [List.append_nil, List.append_nil] at this
      rw [this, ← List.append_assoc, ← List.append_assoc]
      exact List.suffix_append ..
    rw [Scannable] at hscan
    by_cases hname : stricmp a.name attr = true
    · rw [if_pos hname] at hscan
      obtain ⟨hbare, hlater⟩ := hscan
      have hletters := alphabetic_of_stricmp hname hattr
      have hat := Attr.attributeAt ha hs hletters hbare hends
      have hin : InTag (s ++ (a.name ++ (a.tail ++ (Tag.rest attrs space ++ rest)))) := by
        obtain ⟨d, s', rfl⟩ := List.exists_cons_of_ne_nil hne
        refine ⟨List.cons_ne_nil _ _, fun hd => ?_⟩
        have := hs d (List.mem_cons_self ..)
        rw [Option.some.inj hd] at this
        exact absurd this (by decide)
      have hfound : found attr ((s, a) :: attrs) = a.value := by
        by_cases hv : a.value = []
        · rw [found, List.find?_eq_none.mpr]
          · exact hv.symm
          · intro b hb
            rcases List.mem_cons.mp hb with rfl | hb
            · simp [hv]
            · simpa using hlater hv b hb
        · rw [found, List.find?_cons_of_pos (by simp [hname, hv])]
          rfl
      refine ⟨_, hsuf, ?_⟩
      rw [rest_cons, hfound]
      exact ⟨_, .refl, .inr ⟨hin, a.name, hat, hname⟩⟩
    · rw [if_neg hname] at hscan
      obtain ⟨hpassed, hscan⟩ := hscan
      have hpass := hpassed.passes ha hne hs (Bool.eq_false_iff.mpr hname) hends
      obtain ⟨r, hr, q, hq, hend⟩ := ih hattrs hscan
      have hfound : found attr ((s, a) :: attrs) = found attr attrs := by
        rw [found, List.find?_cons_of_neg (by simp [hname])]
        rfl
      refine ⟨r, hr.trans hsuf, ?_⟩
      rw [rest_cons, hfound]
      exact ⟨q, .head hpass hq, hend⟩

theorem found_eq (t : Tag) (attr : List UInt8) :
    (if found attr t.attrs ≠ [] then [found attr t.attrs] else []) = (t.link attr).toList := by
  rw [found, Tag.link]
  cases hfind : t.attrs.find? fun a => stricmp a.2.name attr && a.2.value ≠ [] with
  | none => rfl
  | some a =>
    have ha := List.find?_some hfind
    have hne : a.2.value ≠ [] := by simpa using (Bool.and_eq_true_iff.mp ha).2
    simp [hne]

theorem NameChar.ne_lt {c : UInt8} (h : Attr.NameChar c) : c ≠ ch '<' ∧ c ≠ 0 :=
  ⟨h.2.2.2.1, h.2.2.2.2.2⟩

/-- No tag begins in a tag. -/
theorem rest_chars (hattrs : ∀ a ∈ attrs, a.1 ≠ [] ∧ IsSpace a.1 ∧ a.2.WellFormed)
    (hspace : IsSpace space) : ∀ c ∈ Tag.rest attrs space, c ≠ ch '<' ∧ c ≠ 0 := by
  have hspaces : ∀ c : UInt8, isspace c = true → c ≠ ch '<' ∧ c ≠ 0 :=
    forall_byte (by decide)
  have hquote : ∀ c : UInt8, IsQuote c → c ≠ ch '<' ∧ c ≠ 0 := by
    rintro c (rfl | rfl) <;> decide
  have htail : ∀ a : Attr, a.WellFormed → ∀ c ∈ a.tail, c ≠ ch '<' ∧ c ≠ 0 := by
    intro a ha c hc
    cases a with
    | bare name => cases hc
    | unquoted name value =>
      rcases List.mem_cons.mp hc with rfl | hc
      · decide
      · exact ha.value c hc
    | quoted quote name value =>
      have hq := hquote quote ha.delimited.1
      simp only [Attr.tail, List.mem_cons, List.mem_append, List.not_mem_nil, or_false] at hc
      rcases hc with rfl | rfl | hc | rfl
      · decide
      · exact hq
      · exact ha.value c hc
      · exact hq
  intro c hc
  rw [Tag.rest, List.mem_append, List.mem_flatMap, List.mem_append, List.mem_singleton] at hc
  rcases hc with ⟨a, ha, hc⟩ | hc | rfl
  · obtain ⟨-, hs, hwf⟩ := hattrs a ha
    rcases List.mem_append.mp hc with hc | hc
    · exact hspaces c (hs c hc)
    · rcases List.mem_append.mp hc with hc | hc
      · exact NameChar.ne_lt (hwf.name c hc)
      · exact htail a.2 hwf c hc
  · exact hspaces c (hspace c hc)
  · decide

/-! ## The document -/

/-- The links among what the calls of `find_url` have returned. -/
def values (calls : List (Option (List UInt8) × List UInt8)) : List (List UInt8) :=
  (calls.filter fun call => call.2 ≠ []).map fun call => call.2

theorem find_url_strchr {p q : List UInt8} (h : strchr p (ch '<') = some q) :
    find_url element attr q = find_url element attr p := by
  have hmem : ch '<' ∈ p := by
    by_contra hno
    rw [strchr_of_notMem hno] at h
    cases h
  obtain ⟨name, rest, ht⟩ := (tag_or_none p).resolve_left (not_not.mpr hmem)
  obtain ⟨q', hq', -, -, htq, -⟩ := ht.strchr_eq
  rw [h] at hq'
  cases hq'
  cases hname : stricmp element name with
  | false => rw [find_url_other ht hname, find_url_other htq hname]
  | true => rw [find_url_tag ht hname, find_url_tag htq hname]

theorem findAll_congr {p q : List UInt8} (h : find_url element attr q = find_url element attr p)
    (fuel : Nat) : findAll element attr fuel q = findAll element attr fuel p := by
  cases fuel with
  | zero => rfl
  | succ fuel => rw [findAll, findAll, h]

theorem findAll_none {p : List UInt8} (h : ch '<' ∉ p) (fuel : Nat) :
    findAll element attr (fuel + 1) p = .ok [(none, [])] := by
  rw [findAll, find_url_none h]
  rfl

/-- One call of `find_url`, and the calls after it. -/
theorem findAll_tag {p name v r : List UInt8} (ht : TagAt p name rest)
    (hname : stricmp element name = true) (hleaves : Leaves attr rest v r) (fuel : Nat)
    {calls : List (Option (List UInt8) × List UInt8)}
    (hcalls : findAll element attr (fuel + 1) r = .ok calls) :
    ∃ calls', findAll element attr (fuel + 1 + 1) p = .ok calls' ∧
      values calls' = (if v ≠ [] then [v] else []) ++ values calls := by
  have hvalues : ∀ next calls, values ((next, v) :: calls) =
      (if v ≠ [] then [v] else []) ++ values calls := by
    intro next calls
    by_cases hv : v = []
    · simp [values, hv]
    · simp [values, hv]
  rw [findAll, find_url_tag ht hname, hleaves.findAttr_eq (Nat.lt_succ_self _), ok_bind, ok_bind]
  cases hq : strchr r (ch '<') with
  | none =>
    have hno : ch '<' ∉ r := by
      intro hmem
      obtain ⟨text, r', rfl, htext⟩ := List.eq_append_cons_of_mem hmem
      rw [strchr_append htext] at hq
      cases hq
    rw [findAll_none hno] at hcalls
    cases hcalls
    exact ⟨_, rfl, hvalues none []⟩
  | some q =>
    have hcalls' : findAll element attr (fuel + 1) q = .ok calls := by
      rw [findAll_congr (find_url_strchr hq), hcalls]
    simp only [hcalls', ok_bind]
    exact ⟨_, rfl, hvalues (some q) calls⟩

def Part.Scannable (element attr : List UInt8) : Part → Prop
  | .text _ => True
  | .tag t => stricmp element t.name = true → Http.Scannable attr t.attrs t.space

instance (element attr : List UInt8) : DecidablePred (Part.Scannable element attr) := fun part => by
  cases part <;> unfold Part.Scannable <;> infer_instance

/-- Every tag of the element can be scanned. -/
def Document.Scannable (d : Document) (element attr : List UInt8) : Prop :=
  ∀ part ∈ d, part.Scannable element attr

instance (d : Document) (element attr : List UInt8) : Decidable (d.Scannable element attr) := by
  unfold Document.Scannable
  infer_instance

theorem findAll_document (hattr : ∀ c ∈ attr, isalpha c = true) {d : Document} (hd : d.WellFormed)
    (hscan : d.Scannable element attr) {u : List UInt8} (hu : ch '<' ∉ u) {fuel : Nat}
    (hfuel : (u ++ d.text).length < fuel) :
    ∃ calls, findAll element attr fuel (u ++ d.text) = .ok calls ∧
      values calls = d.links element attr := by
  induction d generalizing u fuel with
  | nil =>
    obtain ⟨fuel, rfl⟩ : ∃ n, fuel = n + 1 := ⟨fuel - 1, by omega⟩
    refine ⟨_, findAll_none ?_ fuel, rfl⟩
    rw [Document.text, List.flatMap_nil, List.append_nil]
    exact hu
  | cons part d ih =>
    obtain ⟨hpart, hd'⟩ := List.forall_mem_cons.mp hd
    obtain ⟨htag, hscan'⟩ := List.forall_mem_cons.mp hscan
    have htext : Document.text (part :: d) = part.source ++ Document.text d := List.flatMap_cons
    cases part with
    | text s =>
      have hus : ch '<' ∉ u ++ s := by
        intro hmem
        rcases List.mem_append.mp hmem with h | h
        · exact hu h
        · exact (hpart _ h).1 rfl
      rw [htext, ← List.append_assoc] at hfuel ⊢
      exact ih hd' hscan' hus hfuel
    | tag t =>
      have hwf : t.WellFormed := hpart
      have hrest : ∀ c, (Tag.rest t.attrs t.space ++ Document.text d).head? = some c →
          isalpha c = false := by
        intro c hc
        have hends := head_rest (fun a ha => ⟨(hwf.attrs a ha).1, (hwf.attrs a ha).2.1⟩) hwf.space
          (Document.text d) c hc
        have hend : ∀ c : UInt8, isspace c = true → isalpha c = false :=
          forall_byte (by decide)
        rcases hends with h | rfl
        · exact hend c h
        · decide
      have ht := TagAt.mk hu hwf.name hrest
      have hp : u ++ Document.text (.tag t :: d) =
          u ++ ch '<' :: (t.name ++ (Tag.rest t.attrs t.space ++ Document.text d)) := by
        rw [htext]
        simp only [Part.source, Tag.text, List.cons_append, List.append_assoc]
      have hchars : ∀ {r : List UInt8}, r <:+ Tag.rest t.attrs t.space → ch '<' ∉ r :=
        fun hr hmem => (rest_chars hwf.attrs hwf.space _ (hr.subset hmem)).1 rfl
      rw [hp] at hfuel ⊢
      have hlen := ht.length_lt
      cases hname : stricmp element t.name with
      | false =>
        rw [← findAll_congr (find_url_other ht hname).symm]
        obtain ⟨calls, hcalls, hvalues⟩ := ih hd' hscan' (hchars (List.suffix_refl _))
          (Nat.lt_trans hlen hfuel)
        refine ⟨calls, hcalls, ?_⟩
        rw [hvalues, Document.links, Document.links, List.filterMap_cons]
        simp only [Part.link, hname, Bool.false_eq_true, if_false]
      | true =>
        obtain ⟨r, hr, hleaves⟩ := leaves_rest hattr hwf.attrs hwf.space
          (htag hname) (Document.text d)
        have hlt : (r ++ Document.text d).length ≤
            (Tag.rest t.attrs t.space ++ Document.text d).length := by
          have := hr.length_le
          simp only [List.length_append]
          omega
        obtain ⟨fuel, rfl⟩ : ∃ n, fuel = n + 1 + 1 := ⟨fuel - 2, by omega⟩
        have hfuel' : (r ++ Document.text d).length < fuel + 1 := by omega
        obtain ⟨calls, hcalls, hvalues⟩ := ih hd' hscan' (hchars hr) hfuel'
        obtain ⟨calls', hcalls', hvalues'⟩ := findAll_tag ht hname hleaves fuel hcalls
        refine ⟨calls', hcalls', ?_⟩
        rw [hvalues', hvalues, found_eq, Document.links, Document.links, List.filterMap_cons]
        simp only [Part.link, hname, if_true]
        cases t.link attr <;> rfl

theorem cstr_eq {s : List UInt8} (h : ∀ c ∈ s, c ≠ 0) : cstr s = s := by
  rw [cstr, List.takeWhile_eq_self_iff]
  intro c hc
  exact decide_eq_true (h c hc)

theorem ne_zero_of_isalpha : ∀ c : UInt8, isalpha c = true → c ≠ 0 :=
  forall_byte (by decide)

theorem Document.WellFormed.text_ne {d : Document} (hd : d.WellFormed) :
    ∀ c ∈ Document.text d, c ≠ 0 := by
  intro c hc
  obtain ⟨part, hpart, hc⟩ := List.mem_flatMap.mp hc
  have hwf := hd part hpart
  cases part with
  | text s => exact (hwf c hc).2
  | tag t =>
    have hwf : t.WellFormed := hwf
    rcases List.mem_cons.mp hc with rfl | hc
    · decide
    · rcases List.mem_append.mp hc with hc | hc
      · exact ne_zero_of_isalpha c (hwf.name c hc)
      · exact (rest_chars hwf.attrs hwf.space c hc).2

/-- Where every tag of the element can be scanned, the links of the document are collected. -/
theorem hl_collect_resource_links {d : Document} (hd : d.WellFormed)
    (helement : ∀ c ∈ element, isalpha c = true) (hattr : ∀ c ∈ attr, isalpha c = true)
    (hscan : d.Scannable element attr) (baseurl : List UInt8) :
    hl_collect_resource element attr d.text baseurl =
      .ok ((d.links element attr).map (concat_url (cstr baseurl))) := by
  have hfuel : ([] ++ Document.text d).length < (Document.text d).length + 1 := Nat.lt_succ_self _
  obtain ⟨calls, hcalls, hvalues⟩ := findAll_document hattr hd hscan List.not_mem_nil hfuel
  rw [hl_collect_resource, cstr_eq hd.text_ne,
    cstr_eq fun c hc => ne_zero_of_isalpha c (helement c hc),
    cstr_eq fun c hc => ne_zero_of_isalpha c (hattr c hc)]
  rw [List.nil_append] at hcalls
  rw [hcalls, ok_bind, ← hvalues, values, List.map_map]
  rfl

/-- `text <a class=b data-x="y" href='z' checked> text`. -/
def scannable : Document :=
  [.text (chars "text "),
    .tag ⟨chars "a", [(chars " ", .unquoted (chars "class") (chars "b")),
      (chars " ", .quoted (ch '"') (chars "data-x") (chars "y")),
      (chars " ", .quoted (ch '\'') (chars "href") (chars "z")),
      (chars " ", .bare (chars "checked"))], []⟩,
    .text (chars " text")]

/-- `<a checked href="z">`. -/
def bareFirst : Document :=
  [.tag ⟨chars "a", [(chars " ", .bare (chars "checked")),
    (chars " ", .quoted (ch '"') (chars "href") (chars "z"))], []⟩]

theorem hl_collect_resource_links_scannable :
    hl_collect_resource (chars "A") (chars "href") (Document.text scannable) (chars "http://h") =
      .ok [chars "http://h/z"] :=
  hl_collect_resource_links (d := scannable) (by decide +kernel) (by decide +kernel)
    (by decide +kernel) (by decide +kernel) (chars "http://h")

/-- The value of the link is taken for that of the attribute before it. -/
theorem hl_collect_resource_skipsLink :
    Document.links bareFirst (chars "a") (chars "href") = [chars "z"] ∧
      hl_collect_resource (chars "a") (chars "href") (Document.text bareFirst) (chars "http://h") =
        .ok [] := by
  decide +kernel

end Luaxx.Http
