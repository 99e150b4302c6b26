import Mathlib.Data.List.TakeWhile
import Luaxx.Csv.Csv

/-!
# Writing a line and reading it back

The line of a list of strings (`lineOf`), what the writer makes of it on the Lua stack
(`convert_csv_line_eq`), and what the reader makes of the line. The reader gives a field back unless
a quote begins it or follows another quote. It goes wrong at the end of the line: after a quoted
field it skips a character that may not be there, and drops what follows if it is one character;
a last field that is empty makes it look before the field.
-/

namespace Luaxx.Csv

open Luaxx.Auxlib Luaxx.Result

/-! ## The line of a list -/

def needsQuotes (delim : UInt8) (f : List UInt8) : Bool := f.contains delim || f.contains QUOTE

def doubled (f : List UInt8) : List UInt8 :=
  f.flatMap fun c => if c = QUOTE then [QUOTE, QUOTE] else [c]

def fieldText (delim : UInt8) (f : List UInt8) : List UInt8 :=
  if needsQuotes delim f then QUOTE :: (doubled f ++ [QUOTE]) else f

def lineOf (delim : UInt8) : List (List UInt8) → List UInt8
  | [] => []
  | [f] => fieldText delim f
  | f :: fs => fieldText delim f ++ delim :: lineOf delim fs

/-- The line before its last field. -/
def beforeLast (delim : UInt8) (l : List (List UInt8)) : List UInt8 :=
  l.dropLast.flatMap fun f => fieldText delim f ++ [delim]

/-- A string as the claim has them. -/
structure Plain (f : List UInt8) : Prop where
  short : f.length < MAXFIELD
  chars : ∀ c ∈ f, c ≠ 0 ∧ c ≠ CR ∧ c ≠ LF

structure PlainDelim (delim : UInt8) : Prop where
  quote : delim ≠ QUOTE
  nul : delim ≠ 0
  cr : delim ≠ CR
  lf : delim ≠ LF

variable {delim : UInt8} {f g : List UInt8} {fs l : List (List UInt8)}

variable (delim f) in
theorem lineOf_cons (hfs : fs ≠ []) :
    lineOf delim (f :: fs) = fieldText delim f ++ delim :: lineOf delim fs := by
  cases fs with
  | nil => exact absurd rfl hfs
  | cons g fs => rfl

variable (delim f) in
theorem beforeLast_cons (hfs : fs ≠ []) :
    beforeLast delim (f :: fs) = fieldText delim f ++ delim :: beforeLast delim fs := by
  rw [beforeLast, List.dropLast_cons_of_ne_nil hfs, List.flatMap_cons, List.append_assoc]
  rfl

theorem length_doubled_le (f : List UInt8) : (doubled f).length ≤ 2 * f.length := by
  induction f with
  | nil => exact Nat.le_refl 0
  | cons c f ih =>
    rw [doubled, List.flatMap_cons, List.length_append, ← doubled, List.length_cons]
    split_ifs <;> simp only [List.length_cons, List.length_nil] <;> omega

theorem length_fieldText_le (delim : UInt8) (f : List UInt8) :
    (fieldText delim f).length ≤ 2 * f.length + 2 := by
  have := length_doubled_le f
  rw [fieldText]
  split_ifs
  · simp only [List.length_cons, List.length_append, List.length_nil]
    omega
  · omega

theorem cstr_eq (h : ∀ c ∈ f, c ≠ 0) : cstr f = f :=
  List.takeWhile_eq_self_iff.mpr fun c hc => decide_eq_true (h c hc)

theorem Plain.cstr (hf : Plain f) : cstr f = f := cstr_eq fun c hc => (hf.chars c hc).1

/-! ## The writer -/

section Writer

variable {room BUFSIZ : Nat} {B : luaL_Buffer}

theorem putQuoted_eq : putQuoted room BUFSIZ B f = luaL_addlstring room BUFSIZ B (doubled f) := by
  induction f generalizing B with
  | nil => rfl
  | cons c f ih =>
    have hcons : putQuoted room BUFSIZ B (c :: f) = ((luaL_addchar room BUFSIZ B c).bind fun B =>
        if c = QUOTE then luaL_addchar room BUFSIZ B QUOTE else some B).bind fun B =>
          putQuoted room BUFSIZ B f := rfl
    rw [hcons, doubled, List.flatMap_cons, luaL_addlstring_append]
    simp only [ih]
    congr 1
    split_ifs with hc
    · subst hc
      rw [luaL_addlstring_cons]
      simp only [luaL_addlstring_singleton]
    · rw [luaL_addlstring_singleton]
      exact Option.bind_fun_some _

theorem putField_eq (hdelim : delim ≠ 0) : putField room BUFSIZ delim B f =
    luaL_addlstring room BUFSIZ B (fieldText delim f) := by
  have hquote : (QUOTE == 0) = false := rfl
  have hneeds : (strchr f delim || strchr f QUOTE) = needsQuotes delim f := by
    rw [strchr, strchr, needsQuotes, beq_eq_false_iff_ne.mpr hdelim, hquote, Bool.false_or,
      Bool.false_or]
  rw [putField, hneeds, fieldText]
  split_ifs
  · rw [luaL_addlstring_cons]
    simp only [luaL_addlstring_append, luaL_addlstring_singleton, ← putQuoted_eq]
    rfl
  · rfl

theorem convertLoop_cons (hdelim : delim ≠ 0) (hf : Plain f) :
    convertLoop room BUFSIZ delim B (f :: fs) = (push room B.stack f).bind fun L =>
      (luaL_addlstring room BUFSIZ { B with stack := L }
        (fieldText delim f ++ if fs ≠ [] then [delim] else [])).bind fun B =>
          convertLoop room BUFSIZ delim B fs := by
  rw [convertLoop]
  show (push room B.stack f).bind _ = _
  congr 1
  funext L
  rw [hf.cstr, putField_eq hdelim, luaL_addlstring_append, Option.bind_assoc]
  show Option.bind _ _ = _
  congr 1
  funext B'
  by_cases hfs : fs ≠ []
  · simp only [if_pos hfs, luaL_addlstring_singleton]
    rfl
  · simp only [if_neg hfs]
    rfl

theorem convertLoop_last (hdelim : delim ≠ 0) (hf : Plain f) :
    convertLoop room BUFSIZ delim B [f] = (push room B.stack f).bind fun L =>
      luaL_addlstring room BUFSIZ { B with stack := L } (fieldText delim f) := by
  rw [convertLoop_cons hdelim hf]
  congr 1
  funext L
  rw [if_neg (fun h => h rfl), List.append_nil]
  exact Option.bind_fun_some _

variable (room) in
/-- The line is written if no string has to go to the stack before the last one is pushed. -/
theorem convertLoop_eq (hB : MAXFIELD ≤ BUFSIZ) (hdelim : delim ≠ 0) (hfs : fs ≠ [])
    (hplain : ∀ f ∈ fs, Plain f) (L : List (List UInt8)) {out : List UInt8}
    (hout : out.length + (beforeLast delim fs).length ≤ BUFSIZ) :
    (((convertLoop room BUFSIZ delim ⟨L, 0, out⟩ fs).bind (luaL_pushresult room)).bind
        fun B => B.stack.head?) =
      if L.length + fs.length + max 1 (pieces BUFSIZ (out.length + (lineOf delim fs).length)) ≤ room
        then some (out ++ lineOf delim fs) else none := by
  induction fs generalizing L out with
  | nil => exact absurd rfl hfs
  | cons f fs ih =>
    obtain ⟨hf, hplain⟩ := List.forall_mem_cons.mp hplain
    have hlen : (f :: fs).length = fs.length + 1 := rfl
    by_cases hroom : L.length < room
    swap
    · have hno : ¬ L.length + (f :: fs).length +
          max 1 (pieces BUFSIZ (out.length + (lineOf delim (f :: fs)).length)) ≤ room := by
        rw [hlen]
        omega
      rw [convertLoop_cons hdelim hf, push, if_neg hroom, if_neg hno]
      rfl
    by_cases hnil : fs = []
    · subst hnil
      have hholds : Holds BUFSIZ (f :: L) [] ⟨f :: L, 0, out⟩ :=
        ⟨rfl, rfl, fun _ h => absurd h List.not_mem_nil, Nat.le_of_add_right_le hout,
          fun h => absurd rfl h⟩
      have hlimit : pieces BUFSIZ (out.length + (fieldText delim f).length) ≤ LIMIT := by
        have := length_fieldText_le delim f
        have hshort := hf.short
        rw [pieces]
        refine Nat.div_le_of_le_mul ?_
        simp only [LIMIT, LUA_MINSTACK, MAXFIELD] at *
        omega
      have hresult := hholds.result room (by unfold MAXFIELD at hB; omega)
        (fieldText delim f) hlimit
      have hcontents : contents [] ⟨f :: L, 0, out⟩ = out := rfl
      rw [hcontents] at hresult
      rw [convertLoop_last hdelim hf, push, if_pos hroom, Option.bind_some, hresult]
      by_cases hall : (f :: L).length +
          max 1 (pieces BUFSIZ (out.length + (fieldText delim f).length)) ≤ room
      · rw [if_pos hall]
        exact (if_pos hall).symm
      · rw [if_neg hall]
        exact (if_neg hall).symm
    · have hbefore := beforeLast_cons delim f hnil
      have hline := lineOf_cons delim f hnil
      have hfits : out.length + (fieldText delim f ++ [delim]).length ≤ BUFSIZ := by
        simp only [hbefore, List.length_append, List.length_cons, List.length_nil] at hout ⊢
        omega
      have hout' : (out ++ (fieldText delim f ++ [delim])).length + (beforeLast delim fs).length ≤
          BUFSIZ := by
        simp only [hbefore, List.length_append, List.length_cons, List.length_nil] at hout ⊢
        omega
      rw [convertLoop_cons hdelim hf, push, if_pos hroom, Option.bind_some, if_pos hnil,
        luaL_addlstring_fits hfits, Option.bind_some, ih hnil hplain _ hout']
      have hsum : (out ++ (fieldText delim f ++ [delim])).length + (lineOf delim fs).length =
          out.length + (lineOf delim (f :: fs)).length := by
        simp only [hline, List.length_append, List.length_cons, List.length_nil]
        omega
      have hroom' : (f :: L).length + fs.length = L.length + (f :: fs).length := by
        simp only [List.length_cons]
        omega
      rw [hsum, hroom', hline]
      simp only [List.append_assoc, List.singleton_append]

/-- The writer writes the line of the list, if no string has to go to the stack before the last one
of the list has been pushed, and there is room for them all. -/
theorem convert_csv_line_eq (hB : MAXFIELD ≤ BUFSIZ) (hdelim : delim ≠ 0) (hl : l ≠ [])
    (hplain : ∀ f ∈ l, Plain f) (hfits : (beforeLast delim l).length ≤ BUFSIZ) :
    convert_csv_line room BUFSIZ l delim =
      if l.length + max 1 (pieces BUFSIZ (lineOf delim l).length) ≤ room then some (lineOf delim l)
      else none := by
  have hout : ([] : List UInt8).length + (beforeLast delim l).length ≤ BUFSIZ := by
    rw [List.length_nil, Nat.zero_add]
    exact hfits
  have h := convertLoop_eq room hB hdelim hl hplain [] hout
  simp only [List.length_nil, Nat.zero_add, List.nil_append] at h
  rw [← h, Option.bind_assoc]
  rfl

end Writer

/-! ## The reader -/

theorem put_ok {field : List UInt8} {c : UInt8} (h : field.length < MAXFIELD) :
    put field c = .ok (field ++ [c]) := if_pos h

/-- No quote begins the field or follows another one. -/
def Spaced (f : List UInt8) : Prop :=
  (QUOTE :: f).IsChain fun c d => ¬ (c = QUOTE ∧ d = QUOTE)

instance : Decidable (Spaced f) := inferInstanceAs (Decidable (List.IsChain _ _))

/-- An iteration of the loop that copies, where no doubled quote follows. -/
theorem copy_field_cons {field p : List UInt8} {c : UInt8} (hc : c ≠ delim)
    (hlt : field.length < MAXFIELD) (hp : ∀ p', p ≠ QUOTE :: QUOTE :: p') :
    copy_field delim field (c :: p) = copy_field delim (field ++ [c]) p := by
  rw [copy_field, if_neg hc, put_ok hlt, ok_bind]
  split
  · next q q' p' =>
    rw [if_neg]
    rintro ⟨rfl, rfl⟩
    exact hp p' rfl
  · rfl

theorem copy_field_doubled {field p : List UInt8} {c : UInt8} (hc : c ≠ delim)
    (hlt : field.length + 1 < MAXFIELD) :
    copy_field delim field (c :: QUOTE :: QUOTE :: p) =
      copy_field delim (field ++ [c] ++ [QUOTE]) p := by
  rw [copy_field, if_neg hc, put_ok (by omega), ok_bind]
  show (if QUOTE = QUOTE ∧ QUOTE = QUOTE then _ else _) = _
  rw [if_pos ⟨rfl, rfl⟩, put_ok (by simpa using hlt), ok_bind]

theorem copy_field_stop {field p : List UInt8} (hlt : field.length < MAXFIELD)
    (hp : ∀ c, p.head? = some c → c = delim) : copy_field delim field p = .ok (field, p) := by
  cases p with
  | nil =>
    rw [copy_field, put_ok hlt]
    rfl
  | cons c p =>
    rw [copy_field, if_pos (hp c rfl), put_ok hlt]
    rfl

/-- A field without delimiters and quotes. -/
theorem copy_field_plain (field : List UInt8) {p : List UInt8} (hdelim : delim ≠ QUOTE)
    (hf : needsQuotes delim f = false) (hlt : field.length + f.length < MAXFIELD)
    (hp : ∀ c, p.head? = some c → c = delim) :
    copy_field delim field (f ++ p) = .ok (field ++ f, p) := by
  induction f generalizing field with
  | nil =>
    rw [List.append_nil]
    exact copy_field_stop hlt hp
  | cons c f ih =>
    have hmem : c ≠ delim ∧ c ≠ QUOTE ∧ needsQuotes delim f = false := by
      simp only [needsQuotes, List.contains_cons, Bool.or_eq_false_iff, beq_eq_false_iff_ne] at hf
      exact ⟨Ne.symm hf.1.1, Ne.symm hf.2.1, by rw [needsQuotes, hf.1.2, hf.2.2]; rfl⟩
    obtain ⟨hc, -, hf'⟩ := hmem
    rw [List.length_cons] at hlt
    have hnext : ∀ p', f ++ p ≠ QUOTE :: QUOTE :: p' := by
      intro p' heq
      cases f with
      | nil =>
        refine hdelim (hp QUOTE ?_).symm
        rw [List.nil_append] at heq
        rw [heq]
        rfl
      | cons d f =>
        simp only [needsQuotes, List.contains_cons, Bool.or_eq_false_iff,
          beq_eq_false_iff_ne] at hf'
        exact hf'.2.1 (List.cons.inj heq).1.symm
    rw [List.cons_append, copy_field_cons hc (by omega) hnext,
      ih _ hf' (by simp only [List.length_append, List.length_cons, List.length_nil]; omega),
      List.append_assoc, List.singleton_append]

@[simp] theorem doubled_quote (f : List UInt8) :
    doubled (QUOTE :: f) = QUOTE :: QUOTE :: doubled f := rfl

theorem doubled_cons {c : UInt8} (hc : c ≠ QUOTE) (f : List UInt8) :
    doubled (c :: f) = c :: doubled f := by
  rw [doubled, List.flatMap_cons, if_neg hc]
  rfl

theorem spaced_nil : Spaced [] := List.IsChain.singleton _

theorem spaced_cons {c : UInt8} (hc : c ≠ QUOTE) :
    Spaced (c :: f) ↔ (c :: f).IsChain fun c d => ¬ (c = QUOTE ∧ d = QUOTE) := by
  rw [Spaced, List.isChain_cons_cons]
  exact and_iff_right fun h => hc h.2

theorem not_spaced_quote : ¬ Spaced (QUOTE :: f) := fun h =>
  (List.isChain_cons_cons.mp h).1 ⟨rfl, rfl⟩

/-- After a character that is no quote, a doubled quote or another character follows. -/
theorem spaced_cons_quote {c : UInt8} (hc : c ≠ QUOTE) : Spaced (c :: QUOTE :: f) ↔ Spaced f := by
  rw [spaced_cons hc, List.isChain_cons_cons]
  exact and_iff_right fun h => hc h.1

theorem spaced_cons_cons {c d : UInt8} (hc : c ≠ QUOTE) (hd : d ≠ QUOTE) :
    Spaced (c :: d :: f) ↔ Spaced (d :: f) := by
  rw [spaced_cons hc, List.isChain_cons_cons, spaced_cons hd]
  exact and_iff_right fun h => hc h.1

/-- A quoted field is copied up to its first quote that is out of place, which passes for the
closing one. -/
theorem copy_field_quoted {p : List UInt8} (hp : p.head? ≠ some QUOTE) (f : List UInt8) :
    ∀ field : List UInt8, field.length + f.length < MAXFIELD →
      ∃ g p', copy_field QUOTE field (doubled f ++ QUOTE :: p) = .ok (field ++ g, p') ∧
        (Spaced f → g = f ∧ p' = QUOTE :: p) ∧ (¬ Spaced f → g.length < f.length) := by
  have hnext : ∀ p', QUOTE :: p ≠ QUOTE :: QUOTE :: p' := by
    intro p' heq
    rw [(List.cons.inj heq).2] at hp
    exact hp rfl
  have hstop : ∀ field p' : List UInt8, field.length < MAXFIELD →
      copy_field QUOTE field (QUOTE :: p') = .ok (field, QUOTE :: p') :=
    fun field p' hlt => copy_field_stop hlt fun c hc => (Option.some.inj hc).symm
  induction hn : f.length using Nat.strong_induction_on generalizing f with
  | _ n ih =>
  subst hn
  intro field hlt
  rcases f with _ | ⟨c, f⟩
  · refine ⟨[], _, ?_, fun _ => ⟨rfl, rfl⟩, fun h => absurd spaced_nil h⟩
    rw [List.append_nil]
    exact hstop _ _ hlt
  · rw [List.length_cons] at hlt
    by_cases hc : c = QUOTE
    · subst hc
      refine ⟨[], QUOTE :: QUOTE :: (doubled f ++ QUOTE :: p), ?_,
        fun h => absurd h not_spaced_quote, fun _ => Nat.succ_pos _⟩
      rw [List.append_nil]
      exact hstop _ _ (by omega)
    rcases f with _ | ⟨d, f⟩
    · refine ⟨[c], _, ?_, fun _ => ⟨rfl, rfl⟩, fun h => absurd ?_ h⟩
      · rw [doubled_cons hc]
        show copy_field QUOTE field (c :: QUOTE :: p) = _
        rw [copy_field_cons hc (by omega) hnext]
        exact hstop _ _ (by simpa using hlt)
      · exact (spaced_cons hc).mpr (List.IsChain.singleton _)
    · rw [List.length_cons] at hlt
      by_cases hd : d = QUOTE
      · subst hd
        obtain ⟨g, p', hcopy, hgood, hbad⟩ := ih f.length (by simp only [List.length_cons]; omega) f rfl
          (field ++ [c] ++ [QUOTE])
          (by simp only [List.length_append, List.length_cons, List.length_nil]; omega)
        refine ⟨c :: QUOTE :: g, p', ?_, ?_, ?_⟩
        · rw [doubled_cons hc, doubled_quote, List.cons_append, List.cons_append, List.cons_append,
            copy_field_doubled hc (by omega), hcopy]
          simp only [List.append_assoc, List.cons_append, List.nil_append]
        · rw [spaced_cons_quote hc]
          intro h
          obtain ⟨rfl, hp'⟩ := hgood h
          exact ⟨rfl, hp'⟩
        · rw [spaced_cons_quote hc]
          intro h
          have := hbad h
          simp only [List.length_cons]
          omega
      · obtain ⟨g, p', hcopy, hgood, hbad⟩ := ih (f.length + 1) (by simp only [List.length_cons]; omega) (d :: f) rfl
          (field ++ [c])
          (by simp only [List.length_append, List.length_cons, List.length_nil]; omega)
        refine ⟨c :: g, p', ?_, ?_, ?_⟩
        · rw [doubled_cons hc, List.cons_append, copy_field_cons hc (by omega), hcopy,
            List.append_assoc, List.singleton_append]
          rw [doubled_cons hd]
          exact fun p' heq => hd (List.cons.inj heq).1
        · rw [spaced_cons_cons hc hd]
          intro h
          obtain ⟨rfl, hp'⟩ := hgood h
          exact ⟨rfl, hp'⟩
        · rw [spaced_cons_cons hc hd]
          intro h
          have := hbad h
          simp only [List.length_cons] at this ⊢
          omega

theorem trim_line_end_plain (hf : Plain f) (hne : f ≠ []) : trim_line_end f = .ok f := by
  obtain ⟨f', c, rfl⟩ := List.eq_nil_or_concat' f |>.resolve_left hne
  have hc := hf.chars c (List.mem_append_right _ List.mem_cons_self)
  rw [trim_line_end, List.length_append, List.length_singleton, trimFrom]
  have hget : (f' ++ [c]).getD f'.length 0 = c := by simp
  simp only [hget]
  rw [if_neg (by rintro (h | h); exacts [hc.2.2 h, hc.2.1 h])]
  congr 1
  exact List.take_of_length_le (by simp)

theorem length_of_trimFrom {n : Nat} (h : trimFrom f n = .ok g) : g.length ≤ f.length := by
  induction n with
  | zero => cases h
  | succ n ih =>
    rw [trimFrom] at h
    split_ifs at h with hc
    · exact ih h
    · cases h
      exact List.length_take_le' _ _

section Fields

variable (hdelim : PlainDelim delim) (hf : Plain f)

include hdelim hf

theorem readField_plain (hneeds : needsQuotes delim f = false) (p : List UInt8) :
    readField delim (f ++ delim :: p) = .ok (some (f, p, false)) := by
  have hquoted : ¬ (f ++ delim :: p).head? = some QUOTE := by
    cases f with
    | nil => exact fun h => hdelim.quote (Option.some.inj h)
    | cons c f =>
      simp only [needsQuotes, List.contains_cons, Bool.or_eq_false_iff,
        beq_eq_false_iff_ne] at hneeds
      exact fun h => hneeds.2.1 (Option.some.inj h).symm
  have hcopy := copy_field_plain [] (p := delim :: p) hdelim.quote hneeds
    (by rw [List.length_nil, Nat.zero_add]; exact hf.short)
    fun c hc => (Option.some.inj hc).symm
  simp only [readField, hquoted, if_false, hcopy, ok_bind]
  rfl

theorem readField_plain_last (hneeds : needsQuotes delim f = false) : readField delim f =
    if f = [] then .error .trim else .ok (some (f, [], true)) := by
  have hquoted : ¬ f.head? = some QUOTE := by
    cases f with
    | nil => exact fun h => nomatch h
    | cons c f =>
      simp only [needsQuotes, List.contains_cons, Bool.or_eq_false_iff,
        beq_eq_false_iff_ne] at hneeds
      exact fun h => hneeds.2.1 (Option.some.inj h).symm
  have hcopy := copy_field_plain [] (p := []) hdelim.quote hneeds
    (by rw [List.length_nil, Nat.zero_add]; exact hf.short) fun c hc => nomatch hc
  rw [List.append_nil] at hcopy
  simp only [readField, hquoted, if_false, hcopy, ok_bind, List.nil_append]
  by_cases hne : f = []
  · subst hne
    rfl
  · rw [if_neg hne, trim_line_end_plain hf hne]
    rfl

end Fields

theorem readField_of_copy {q p : List UInt8} (h : copy_field QUOTE [] q = .ok (g, p)) :
    readField delim (QUOTE :: q) = match p with
      | [] => .ok none
      | [_] => .error .line
      | _ :: _ :: p =>
        if p.length ≤ 1 then (trim_line_end g).bind fun g => .ok (some (g, p, true))
        else .ok (some (g, p, false)) := by
  have hquoted : (QUOTE :: q).head? = some QUOTE := rfl
  simp only [readField, hquoted, if_true, List.tail_cons, h, ok_bind]
  rcases p with _ | ⟨c, _ | ⟨d, p⟩⟩ <;> rfl

/-- A quoted field, with what follows its closing quote. -/
theorem readField_quoted (hf : Plain f) (hneeds : needsQuotes delim f = true) {p : List UInt8}
    (hp : p.head? ≠ some QUOTE) :
    (Spaced f → (p = [] → readField delim (fieldText delim f ++ p) = .error .line) ∧
      ∀ c p', p = c :: p' → readField delim (fieldText delim f ++ p) =
        .ok (some (f, p', decide (p'.length ≤ 1)))) ∧
    (¬ Spaced f → ∀ g p' b, readField delim (fieldText delim f ++ p) = .ok (some (g, p', b)) →
      g.length < f.length) := by
  have htext : fieldText delim f ++ p = QUOTE :: (doubled f ++ QUOTE :: p) := by
    rw [fieldText, if_pos hneeds, List.cons_append, List.append_assoc]
    rfl
  obtain ⟨g, q, hcopy, hgood, hbad⟩ := copy_field_quoted hp f []
    (by rw [List.length_nil, Nat.zero_add]; exact hf.short)
  rw [List.nil_append] at hcopy
  rw [htext, readField_of_copy hcopy]
  refine ⟨fun h => ?_, fun h g' p' b hg' => ?_⟩
  · obtain ⟨rfl, rfl⟩ := hgood h
    have hne : g ≠ [] := by
      rintro rfl
      cases hneeds
    refine ⟨fun hnil => ?_, fun c p' hcons => ?_⟩
    · subst hnil
      rfl
    · subst hcons
      show (if p'.length ≤ 1 then _ else _) = _
      by_cases hlen : p'.length ≤ 1
      · rw [if_pos hlen, trim_line_end_plain hf hne, decide_eq_true hlen]
        rfl
      · rw [if_neg hlen, decide_eq_false hlen]
  · have hlt := hbad h
    rcases q with _ | ⟨c, _ | ⟨d, q⟩⟩
    · cases hg'
    · cases hg'
    · simp only at hg'
      split_ifs at hg' with hlen
      · obtain ⟨g'', htrim, hg''⟩ := bind_ok.mp hg'
        cases hg''
        exact Nat.lt_of_le_of_lt (length_of_trimFrom htrim) hlt
      · cases hg'
        exact hlt

/-! ## The loop over the fields -/

section Loop

variable {Num : Type} {strtod : List UInt8 → Num × Nat} {zero : Num}

/-- An iteration that converts nothing. -/
theorem parseLoop_succ (fuel : Nat) (p : List UInt8) (n : Int) (cells : List (Cell Num)) :
    parseLoop strtod zero delim (fuel + 1) p ⟨n, cells, none⟩ =
      (readField delim p).bind fun
        | none => .ok ⟨0, cells, none⟩
        | some (field, p, eoln) =>
          if eoln then .ok ⟨(cells.length + 1 : Nat), cells ++ [.str field], none⟩
          else parseLoop strtod zero delim fuel p
            ⟨(cells.length + 1 : Nat), cells ++ [.str field], none⟩ := by
  rw [parseLoop]
  cases readField delim p with
  | error e => rfl
  | ok r =>
    rcases r with _ | ⟨field, p, eoln⟩
    · rfl
    · rfl

theorem prefix_of_parseLoop {fuel : Nat} {p : List UInt8} {n : Int} {cells : List (Cell Num)}
    {row : Row Num} (h : parseLoop strtod zero delim fuel p ⟨n, cells, none⟩ = .ok row) :
    cells <+: row.cells := by
  induction fuel generalizing p n cells with
  | zero =>
    cases h
    exact List.prefix_refl _
  | succ fuel ih =>
    rw [parseLoop_succ] at h
    obtain ⟨r, -, h⟩ := bind_ok.mp h
    rcases r with _ | ⟨field, p, eoln⟩
    · cases h
      exact List.prefix_refl _
    · simp only at h
      split_ifs at h
      · cases h
        exact List.prefix_append _ _
      · exact (List.prefix_append _ _).trans (ih h)

/-- What the reader gives back. -/
structure Readable (delim : UInt8) (l : List (List UInt8)) : Prop where
  spaced : ∀ f ∈ l, Spaced f
  last : ∀ g, l.getLast? = some g → g ≠ [] ∧ needsQuotes delim g = false
  single : ∀ pre f c, l = pre ++ [f, [c]] → needsQuotes delim f = false

theorem Readable.lineOf_ne (h : Readable delim l) (hl : l ≠ []) : lineOf delim l ≠ [] := by
  obtain ⟨f, fs, rfl⟩ := List.exists_cons_of_ne_nil hl
  rcases fs with _ | ⟨g, fs⟩
  · obtain ⟨hne, hneeds⟩ := h.last f rfl
    rw [lineOf, fieldText, hneeds]
    exact hne
  · rw [lineOf_cons _ _ (List.cons_ne_nil _ _)]
    exact fun heq => List.cons_ne_nil _ _ (List.append_eq_nil_iff.mp heq).2

theorem readable_singleton :
    Readable delim [f] ↔ Spaced f ∧ f ≠ [] ∧ needsQuotes delim f = false := by
  constructor
  · exact fun h => ⟨h.spaced f List.mem_cons_self, h.last f rfl⟩
  · rintro ⟨hs, hlast⟩
    refine ⟨List.forall_mem_singleton.mpr hs, fun g hg => ?_, fun pre f' c heq => ?_⟩
    · cases hg
      exact hlast
    · have := congrArg List.length heq
      simp only [List.length_append, List.length_cons, List.length_nil] at this
      omega

theorem readable_cons_cons : Readable delim (f :: g :: fs) ↔ Spaced f ∧
    (needsQuotes delim f = true → 1 < (lineOf delim (g :: fs)).length) ∧
    Readable delim (g :: fs) := by
  constructor
  · intro h
    have htail : Readable delim (g :: fs) :=
      ⟨fun f' hf' => h.spaced f' (List.mem_cons_of_mem _ hf'),
        fun g' hg' => h.last g' (by rw [List.getLast?_cons_cons]; exact hg'),
        fun pre f' c heq => h.single (f :: pre) f' c (by rw [heq]; rfl)⟩
    refine ⟨h.spaced f List.mem_cons_self, fun hneeds => ?_, htail⟩
    rcases fs with _ | ⟨g', fs⟩
    · obtain ⟨hne, hplain⟩ := htail.last g rfl
      rcases g with _ | ⟨c, _ | ⟨d, g⟩⟩
      · exact absurd rfl hne
      · have := h.single [] f c rfl
        rw [hneeds] at this
        cases this
      · rw [lineOf, fieldText, hplain]
        exact Nat.lt_add_left_iff_pos.mpr (Nat.succ_pos _)
    · have hne : Readable delim (g' :: fs) :=
        ⟨fun f' hf' => htail.spaced f' (List.mem_cons_of_mem _ hf'),
          fun g'' hg'' => htail.last g'' (by rw [List.getLast?_cons_cons]; exact hg''),
          fun pre f' c heq => htail.single (g :: pre) f' c (by rw [heq]; rfl)⟩
      have := List.length_pos_iff.mpr (hne.lineOf_ne (List.cons_ne_nil _ _))
      rw [lineOf_cons _ _ (List.cons_ne_nil _ _), List.length_append, List.length_cons]
      omega
  · rintro ⟨hs, hneeds, htail⟩
    refine ⟨List.forall_mem_cons.mpr ⟨hs, htail.spaced⟩, fun g' hg' => ?_, fun pre f' c heq => ?_⟩
    · rw [List.getLast?_cons_cons] at hg'
      exact htail.last g' hg'
    · rcases pre with _ | ⟨f'', pre⟩
      · simp only [List.nil_append, List.cons.injEq] at heq
        obtain ⟨rfl, rfl, rfl⟩ := heq
        by_contra hf
        have hlt := hneeds (by simpa using hf)
        rw [lineOf, fieldText, (htail.last [c] rfl).2] at hlt
        exact absurd hlt (Nat.lt_irrefl 1)
      · exact htail.single pre f' c (List.cons.inj heq).2

theorem spaced_of_plain (hneeds : needsQuotes delim f = false) : Spaced f := by
  have hmem : ∀ c ∈ f, c ≠ QUOTE := by
    rintro c hc rfl
    simp only [needsQuotes, Bool.or_eq_false_iff, List.contains_eq_mem,
      decide_eq_false_iff_not] at hneeds
    exact hneeds.2 hc
  clear hneeds
  induction f with
  | nil => exact spaced_nil
  | cons c f ih =>
    obtain ⟨hc, hf⟩ := List.forall_mem_cons.mp hmem
    rcases f with _ | ⟨d, f⟩
    · exact (spaced_cons hc).mpr (List.IsChain.singleton _)
    · exact (spaced_cons_cons hc (hf d List.mem_cons_self)).mpr (ih hf)

/-- The loop gives the list back. -/
def Gives (strtod : List UInt8 → Num × Nat) (zero : Num) (delim : UInt8) (fuel : Nat)
    (p : List UInt8) (cells : List (Cell Num)) (l : List (List UInt8)) : Prop :=
  ∃ row : Row Num, parseLoop strtod zero delim fuel p ⟨cells.length, cells, none⟩ = .ok row ∧
    row.cells = cells ++ l.map .str ∧ row.n ≠ 0

variable {fuel : Nat} {p p' : List UInt8} {cells : List (Cell Num)}

theorem not_gives_of_field (h : ∀ g p' b, readField delim p = .ok (some (g, p', b)) → g ≠ f) :
    ¬ Gives strtod zero delim (fuel + 1) p cells (f :: fs) := by
  rintro ⟨row, hrow, hcells, hn⟩
  rw [parseLoop_succ] at hrow
  obtain ⟨r, hr, hrow⟩ := bind_ok.mp hrow
  rcases r with _ | ⟨g, p', eoln⟩
  · cases hrow
    exact hn rfl
  have hprefix : cells ++ [.str g] <+: row.cells := by
    simp only at hrow
    split_ifs at hrow
    · cases hrow
      exact List.prefix_refl _
    · exact prefix_of_parseLoop hrow
  rw [hcells, List.prefix_append_right_inj, List.map_cons, List.cons_prefix_cons] at hprefix
  exact h g p' eoln hr (Cell.str.inj hprefix.1)

theorem not_gives_of_error {e : Fault} (h : readField delim p = .error e) :
    ¬ Gives strtod zero delim (fuel + 1) p cells (f :: fs) := by
  refine not_gives_of_field fun g p' b hr => ?_
  rw [h] at hr
  cases hr

theorem gives_last (h : readField delim p = .ok (some (f, p', true))) :
    Gives strtod zero delim (fuel + 1) p cells (f :: fs) ↔ fs = [] := by
  constructor
  · rintro ⟨row, hrow, hcells, -⟩
    rw [parseLoop_succ, h] at hrow
    cases hrow
    have := List.append_cancel_left hcells
    exact List.map_eq_nil_iff.mp (List.cons.inj this).2.symm
  · rintro rfl
    refine ⟨⟨(cells.length + 1 : Nat), cells ++ [.str f], none⟩, ?_, rfl, ?_⟩
    · rw [parseLoop_succ, h]
      rfl
    · exact Int.natCast_ne_zero.mpr (Nat.succ_ne_zero _)

theorem gives_cons (h : readField delim p = .ok (some (f, p', false))) :
    Gives strtod zero delim (fuel + 1) p cells (f :: fs) ↔
      Gives strtod zero delim fuel p' (cells ++ [.str f]) fs := by
  have hlen : (cells ++ [Cell.str f]).length = cells.length + 1 := List.length_append
  rw [Gives, Gives, parseLoop_succ, h, hlen, List.append_assoc]
  rfl

variable (strtod zero cells) in
/-- The loop gives the list back exactly if it is readable. -/
theorem gives_lineOf (hdelim : PlainDelim delim) (hl : l ≠ []) (hplain : ∀ f ∈ l, Plain f)
    (hfuel : (lineOf delim l).length < fuel) :
    Gives strtod zero delim fuel (lineOf delim l) cells l ↔ Readable delim l := by
  induction l generalizing fuel cells with
  | nil => exact absurd rfl hl
  | cons f fs ih =>
    obtain ⟨hf, hplain⟩ := List.forall_mem_cons.mp hplain
    obtain ⟨fuel, rfl⟩ : ∃ k, fuel = k + 1 := ⟨fuel - 1, by omega⟩
    cases hneeds : needsQuotes delim f with
    | false =>
      have hs := spaced_of_plain hneeds
      have htext : fieldText delim f = f := by rw [fieldText, hneeds]; rfl
      rcases fs with _ | ⟨g, fs⟩
      · have hread := readField_plain_last hdelim hf hneeds
        rw [lineOf, htext, readable_singleton]
        by_cases hne : f = []
        · rw [if_pos hne] at hread
          exact iff_of_false (not_gives_of_error hread) fun h => h.2.1 hne
        · rw [if_neg hne] at hread
          exact iff_of_true ((gives_last hread).mpr rfl) ⟨hs, hne, hneeds⟩
      · rw [lineOf_cons _ _ (List.cons_ne_nil _ _), htext, List.length_append, List.length_cons] at hfuel
        rw [lineOf_cons _ _ (List.cons_ne_nil _ _), htext,
          gives_cons (readField_plain hdelim hf hneeds _),
          ih _ (List.cons_ne_nil _ _) hplain (by omega), readable_cons_cons, hneeds]
        exact ⟨fun h => ⟨hs, nofun, h⟩, fun h => h.2.2⟩
    | true =>
      rcases fs with _ | ⟨g, fs⟩
      · have hread := readField_quoted hf hneeds (p := []) nofun
        rw [List.append_nil] at hread
        rw [lineOf, readable_singleton]
        refine iff_of_false ?_ fun h => by rw [hneeds] at h; exact nomatch h.2.2
        by_cases hs : Spaced f
        · exact not_gives_of_error ((hread.1 hs).1 rfl)
        · exact not_gives_of_field fun g p' b hr heq => by
            have := hread.2 hs g p' b hr
            rw [heq] at this
            exact Nat.lt_irrefl _ this
      · have hread := readField_quoted hf hneeds
          (p := delim :: lineOf delim (g :: fs)) fun h => hdelim.quote (Option.some.inj h)
        rw [lineOf_cons _ _ (List.cons_ne_nil _ _), List.length_append, List.length_cons] at hfuel
        rw [lineOf_cons _ _ (List.cons_ne_nil _ _), readable_cons_cons, hneeds]
        by_cases hs : Spaced f
        swap
        · refine iff_of_false (not_gives_of_field fun g p' b hr heq => ?_) fun h => hs h.1
          have := hread.2 hs g p' b hr
          rw [heq] at this
          exact Nat.lt_irrefl _ this
        have hr := (hread.1 hs).2 delim _ rfl
        by_cases hlen : (lineOf delim (g :: fs)).length ≤ 1
        · rw [decide_eq_true hlen] at hr
          refine iff_of_false (fun h => List.cons_ne_nil _ _ ((gives_last hr).mp h)) fun h => ?_
          exact absurd (h.2.1 rfl) (Nat.not_lt.mpr hlen)
        · rw [decide_eq_false hlen] at hr
          rw [gives_cons hr, ih _ (List.cons_ne_nil _ _) hplain (by omega)]
          exact ⟨fun h => ⟨hs, fun _ => Nat.lt_of_not_le hlen, h⟩, fun h => h.2.2⟩

end Loop

/-! ## The round trip -/

section

variable {Num : Type} {strtod : List UInt8 → Num × Nat} {zero : Num} {room BUFSIZ : Nat}

theorem lineOf_nonzero (hdelim : delim ≠ 0) (hplain : ∀ f ∈ l, Plain f) :
    ∀ c ∈ lineOf delim l, c ≠ 0 := by
  have htext : ∀ f : List UInt8, Plain f → ∀ c ∈ fieldText delim f, c ≠ 0 := by
    intro f hf c hc
    rw [fieldText] at hc
    split_ifs at hc
    · simp only [List.mem_cons, List.mem_append, List.not_mem_nil, or_false, doubled,
        List.mem_flatMap] at hc
      rcases hc with rfl | ⟨d, hd, hc⟩ | rfl
      · decide
      · split_ifs at hc with hq
        · simp only [List.mem_cons, List.not_mem_nil, or_false, or_self] at hc
          exact hc ▸ (by decide)
        · rw [List.mem_singleton] at hc
          exact hc ▸ (hf.chars d hd).1
      · decide
    · exact (hf.chars c hc).1
  induction l with
  | nil => exact fun c hc => absurd hc List.not_mem_nil
  | cons f fs ih =>
    obtain ⟨hf, hplain⟩ := List.forall_mem_cons.mp hplain
    intro c hc
    by_cases hfs : fs = []
    · subst hfs
      exact htext f hf c hc
    · rw [lineOf_cons _ _ hfs, List.mem_append, List.mem_cons] at hc
      rcases hc with hc | rfl | hc
      · exact htext f hf c hc
      · exact hdelim
      · exact ih hplain c hc

variable (strtod zero) in
/-- What `l_parse` makes of the line of a list. -/
theorem l_parse_lineOf (hdelim : PlainDelim delim) (hl : l ≠ []) (hplain : ∀ f ∈ l, Plain f) :
    l_parse strtod zero (lineOf delim l) delim = .ok (some (l.map .str)) ↔ Readable delim l := by
  have hgives := gives_lineOf strtod zero [] hdelim hl hplain
    (Nat.lt_succ_self _)
  rw [← hgives, l_parse, cstr_eq (lineOf_nonzero hdelim.nul hplain), Gives]
  refine bind_ok.trans ?_
  refine exists_congr fun row => and_congr_right fun _ => ?_
  rw [List.nil_append]
  show Except.ok (if row.n = 0 then none else some row.cells) = _ ↔ _
  rw [Except.ok.injEq]
  by_cases hn : row.n = 0
  · rw [if_pos hn]
    exact iff_of_false nofun fun h => h.2 hn
  · rw [if_neg hn, Option.some.injEq]
    exact ⟨fun h => ⟨h, hn⟩, fun h => h.1⟩

/-- What is written for the list and read back. -/
def convertParse (strtod : List UInt8 → Num × Nat) (zero : Num) (room BUFSIZ : Nat)
    (l : List (List UInt8)) (delim : UInt8) : Option (Except Fault (Option (List (Cell Num)))) :=
  (convert_csv_line room BUFSIZ l delim).map fun s => l_parse strtod zero s delim

/-- A list comes back, and from a line that does not overflow the array of the buffer before the
last string is pushed only such a list. -/
theorem convert_parse_iff (hB : MAXFIELD ≤ BUFSIZ) (hdelim : PlainDelim delim) (hl : l ≠ [])
    (hplain : ∀ f ∈ l, Plain f) :
    ((beforeLast delim l).length ≤ BUFSIZ ∧
        l.length + max 1 (pieces BUFSIZ (lineOf delim l).length) ≤ room ∧ Readable delim l →
      convertParse strtod zero room BUFSIZ l delim = some (.ok (some (l.map .str)))) ∧
    ((beforeLast delim l).length ≤ BUFSIZ →
      convertParse strtod zero room BUFSIZ l delim = some (.ok (some (l.map .str))) →
        l.length + max 1 (pieces BUFSIZ (lineOf delim l).length) ≤ room ∧ Readable delim l) := by
  have hparse := l_parse_lineOf strtod zero hdelim hl hplain
  constructor
  · rintro ⟨hfits, hroom, hread⟩
    rw [convertParse, convert_csv_line_eq hB hdelim.nul hl hplain hfits, if_pos hroom,
      Option.map_some, hparse.mpr hread]
  · intro hfits h
    rw [convertParse, convert_csv_line_eq hB hdelim.nul hl hplain hfits] at h
    by_cases hroom : l.length + max 1 (pieces BUFSIZ (lineOf delim l).length) ≤ room
    · rw [if_pos hroom, Option.map_some, Option.some.injEq, hparse] at h
      exact ⟨hroom, h⟩
    · rw [if_neg hroom] at h
      cases h

theorem convert_parse_iff_threeFields :
    convertParse (fun _ => ((), 0)) () 20 512 [[97, 44], [98, 34], [99, 100]] 44 =
      some (.ok (some [.str [97, 44], .str [98, 34], .str [99, 100]])) := by
  have hplain : ∀ f ∈ [[97, 44], [98, 34], [99, 100]], Plain f := by
    intro f hf
    simp only [List.mem_cons, List.not_mem_nil, or_false] at hf
    rcases hf with rfl | rfl | rfl
    · exact ⟨by decide, by decide +kernel⟩
    · exact ⟨by decide, by decide +kernel⟩
    · exact ⟨by decide, by decide +kernel⟩
  have hread : Readable 44 [[97, 44], [98, 34], [99, 100]] := by
    rw [readable_cons_cons, readable_cons_cons, readable_singleton]
    decide
  exact (convert_parse_iff (by decide) ⟨by decide, by decide, by decide, by decide⟩ (by decide)
    hplain).1 ⟨by decide, by decide, hread⟩

/-- The field after a quoted one is lost if it is a single character. -/
theorem convertParse_lastCharacter :
    convertParse (fun _ => ((), 0)) () 20 512 [[97, 44], [98]] 44 =
      some (.ok (some [.str [97, 44]])) := by
  decide

end

end Luaxx.Csv
