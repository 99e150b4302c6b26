import Mathlib.Data.List.GetD
import Luaxx.Lib.Result
import Luaxx.Format.Format

/-!
# `string.format` stays inside its arrays

What `scanformat` accepts is a specification with its parts, and `form` holds the text of it; its
length is bounded by the lengths of the parts.
-/

namespace Luaxx.Format

open Luaxx.Ctype Luaxx.Memory Luaxx.Result Luaxx.Vm

/-! ## Specifications -/

/-- Two digits at most. -/
def TwoDigits (s : List UInt8) : Prop := s.length ≤ 2 ∧ ∀ c ∈ s, isdigit c = true

def digitsValue (s : List UInt8) : Nat := s.foldl (fun n c => 10 * n + (c.toNat - 48)) 0

/-- The parts of a conversion specification. -/
structure Spec where
  flags : List UInt8
  width : List UInt8
  /-- What is behind the point, where there is one. -/
  precision : Option (List UInt8)
  modifier : List UInt8
  conversion : UInt8
  length_flags : flags.length ≤ FLAGS.length
  mem_flags : ∀ c ∈ flags, c ∈ FLAGS
  width_digits : TwoDigits width
  precision_digits : ∀ p ∈ precision, TwoDigits p

namespace Spec

/-- The precision with its point. -/
def point (spec : Spec) : List UInt8 := spec.precision.elim [] (ch '.' :: ·)

/-- What is before the modifier. -/
def start (spec : Spec) : List UInt8 := ch '%' :: (spec.flags ++ spec.width ++ spec.point)

def text (spec : Spec) : List UInt8 := spec.start ++ spec.modifier ++ [spec.conversion]

end Spec

/-- What is known of `sprintf`: the text of a number is shorter than an item, and that of a string
is as long as the string up to its precision, or as its width. -/
structure Libc.Bounded (libc : Libc) : Prop where
  number : ∀ (spec : Spec) (n : Number),
    spec.conversion ∈ chars "ceEfgG" ∧ spec.modifier = [] ∨
      spec.conversion ∈ chars "diouxX" ∧ spec.modifier = LUA_INTFRMLEN libc →
    (libc.sprintfNumber spec.text n).length < MAX_ITEM
  string : ∀ (spec : Spec) (s : List UInt8), spec.conversion = ch 's' → spec.modifier = [] →
    (libc.sprintfString spec.text s).length ≤
      max (digitsValue spec.width) (spec.precision.elim s.length fun p => min s.length (digitsValue p))

/-- An error of Lua. -/
def Stop.Raised : Stop → Prop
  | .error _ => True
  | .argerror _ _ => True
  | _ => False

variable {libc : Libc} {frmt : List UInt8} {x : Block} {s t : List UInt8} {spec : Spec} {p q r : Nat}

theorem digitsValue_le (h : TwoDigits s) : digitsValue s ≤ 99 := by
  obtain ⟨hlen, hdigits⟩ := h
  have hle : ∀ c ∈ s, c.toNat - 48 ≤ 9 := by
    intro c hc
    have hc' := hdigits c hc
    rw [isdigit, Bool.and_eq_true, decide_eq_true_eq, decide_eq_true_eq] at hc'
    have : c.toNat ≤ (ch '9').toNat := hc'.2
    have h9 : (ch '9').toNat = 57 := rfl
    omega
  match s, hlen with
  | [], _ => decide
  | [a], _ =>
    have := hle a (by simp)
    show 10 * 0 + (a.toNat - 48) ≤ 99
    omega
  | [a, b], _ =>
    have ha := hle a (by simp)
    have hb := hle b (by simp)
    show 10 * (10 * 0 + (a.toNat - 48)) + (b.toNat - 48) ≤ 99
    omega

theorem Spec.length_start (spec : Spec) : spec.start.length ≤ 11 := by
  have hflags := spec.length_flags
  have hwidth := spec.width_digits.1
  have hconst : FLAGS.length = 5 := rfl
  have hpoint : spec.point.length ≤ 3 := by
    rw [point]
    cases h : spec.precision with
    | none => exact Nat.zero_le 3
    | some p => exact Nat.succ_le_succ (spec.precision_digits p h).1
  rw [start, List.length_cons, List.length_append, List.length_append]
  omega

/-- A character of the part before the modifier. -/
theorem Spec.mem_start {c : UInt8} (h : c ∈ spec.start) :
    c = ch '%' ∨ c ∈ FLAGS ∨ isdigit c = true ∨ c = ch '.' ∧ spec.precision ≠ none := by
  rw [start, List.mem_cons, List.mem_append, List.mem_append] at h
  rcases h with h | (h | h) | h
  · exact .inl h
  · exact .inr (.inl (spec.mem_flags c h))
  · exact .inr (.inr (.inl (spec.width_digits.2 c h)))
  · rw [point] at h
    cases hp : spec.precision with
    | none =>
      rw [hp] at h
      exact absurd h List.not_mem_nil
    | some p =>
      rw [hp] at h
      rcases List.mem_cons.mp h with h | h
      · exact .inr (.inr (.inr ⟨h, Option.some_ne_none p⟩))
      · exact .inr (.inr (.inl ((spec.precision_digits p hp).2 c h)))

theorem Spec.zero_not_mem_start : 0 ∉ spec.start := by
  intro h
  rcases Spec.mem_start h with h | h | h | ⟨h, -⟩
  · exact absurd h (by decide)
  · exact absurd h (by decide)
  · exact absurd h (by decide)
  · exact absurd h (by decide)

/-! ## Reading the format string -/

/-- The characters from one place of the format string up to another. -/
structure Between (frmt : List UInt8) (p q : Nat) (t : List UInt8) : Prop where
  stop : q = p + t.length
  le : q ≤ frmt.length
  drop_eq : frmt.drop p = t ++ frmt.drop q

theorem between_nil (h : p ≤ frmt.length) : Between frmt p p [] := ⟨rfl, h, rfl⟩

theorem between_one (h : p < frmt.length) : Between frmt p (p + 1) [frmt.getD p 0] := by
  refine ⟨rfl, h, ?_⟩
  rw [List.drop_eq_getElem_cons h, List.getD_eq_getElem _ _ h]
  rfl

theorem Between.trans (h1 : Between frmt p q s) (h2 : Between frmt q r t) :
    Between frmt p r (s ++ t) := by
  refine ⟨?_, h2.le, ?_⟩
  · rw [h2.stop, h1.stop, List.length_append, Nat.add_assoc]
  · rw [h1.drop_eq, h2.drop_eq, List.append_assoc]

theorem Between.cons {c : UInt8} (h : Between frmt p q (c :: t)) :
    p < frmt.length ∧ frmt.getD p 0 = c ∧ Between frmt (p + 1) q t := by
  have hstop := h.stop
  have hle := h.le
  rw [List.length_cons] at hstop
  have hlt : p < frmt.length := by omega
  have hdrop := h.drop_eq
  rw [List.drop_eq_getElem_cons hlt, List.cons_append, List.cons.injEq] at hdrop
  refine ⟨hlt, ?_, ⟨by omega, hle, hdrop.2⟩⟩
  rw [List.getD_eq_getElem _ _ hlt]
  exact hdrop.1

theorem read_eq (h : p ≤ frmt.length) : read frmt p = .ok (frmt.getD p 0) := if_pos h

/-- At the end there is a NUL. -/
theorem lt_length_of_getD (h : frmt.getD p 0 ≠ 0) : p < frmt.length := by
  by_contra hge
  exact h (List.getD_eq_default _ _ (Nat.le_of_not_lt hge))

theorem skipFlags_spec {fuel : Nat} (hfuel : frmt.length < fuel + p) (hp : p ≤ frmt.length) :
    ∃ q flags, skipFlags frmt fuel p = .ok q ∧ Between frmt p q flags ∧ ∀ c ∈ flags, c ∈ FLAGS := by
  induction fuel generalizing p with
  | zero => omega
  | succ fuel ih =>
    rw [skipFlags, read_eq hp, ok_bind]
    split_ifs with hc
    · have hlt := lt_length_of_getD hc.1
      obtain ⟨q, flags, hskip, hbetween, hflags⟩ := ih (by omega) hlt
      refine ⟨q, _, hskip, (between_one hlt).trans hbetween, fun c hmem => ?_⟩
      rcases List.mem_cons.mp hmem with rfl | hmem
      · exact List.contains_iff_mem.mp hc.2
      · exact hflags c hmem
    · exact ⟨p, [], rfl, between_nil hp, fun c hmem => absurd hmem List.not_mem_nil⟩

theorem skipDigit_spec (hp : p ≤ frmt.length) :
    ∃ q d, skipDigit frmt p = .ok q ∧ Between frmt p q d ∧ d.length ≤ 1 ∧ ∀ c ∈ d, isdigit c = true := by
  rw [skipDigit, read_eq hp, ok_bind]
  split_ifs with hc
  · have hlt : p < frmt.length := lt_length_of_getD fun h0 => by
      rw [h0] at hc
      cases hc
    refine ⟨p + 1, _, rfl, between_one hlt, Nat.le_refl 1, fun c hmem => ?_⟩
    rw [List.mem_singleton.mp hmem]
    exact hc
  · exact ⟨p, [], rfl, between_nil hp, Nat.zero_le 1, fun c hmem => absurd hmem List.not_mem_nil⟩

/-- What is skipped twice. -/
theorem skipDigit_twice (hp : p ≤ frmt.length) :
    ∃ q r d, skipDigit frmt p = .ok q ∧ skipDigit frmt q = .ok r ∧ Between frmt p r d ∧
      TwoDigits d := by
  obtain ⟨q, d, hq, hd, hlen, hdigit⟩ := skipDigit_spec hp
  obtain ⟨r, d', hr, hd', hlen', hdigit'⟩ := skipDigit_spec hd.le
  refine ⟨q, r, d ++ d', hq, hr, hd.trans hd', ?_, fun c hmem => ?_⟩
  · rw [List.length_append]
    omega
  · rcases List.mem_append.mp hmem with h | h
    · exact hdigit c h
    · exact hdigit' c h

/-! ## Writing the arrays -/

theorem put_spec (h : Starts x s) {i : Nat} (hi : i ≤ s.length) (hlt : i < x.length) (c : UInt8) :
    ∃ y, put x i c = .ok y ∧ y.length = x.length ∧ Starts y (s.take i ++ [c]) := by
  obtain ⟨y, hy, hlen, hstarts⟩ := h.write hi hlt c
  refine ⟨y, ?_, hlen, hstarts⟩
  rw [put, hy]
  rfl

/-- A write right behind what is known. -/
theorem put_end (h : Starts x s) (hlt : s.length < x.length) (c : UInt8) :
    ∃ y, put x s.length c = .ok y ∧ y.length = x.length ∧ Starts y (s ++ [c]) := by
  obtain ⟨y, hy, hlen, hstarts⟩ := put_spec h (Nat.le_refl s.length) hlt c
  rw [List.take_length] at hstarts
  exact ⟨y, hy, hlen, hstarts⟩

theorem strcpy_spec (h : Starts x s) (hlt : s.length + t.length < x.length) :
    ∃ y, strcpy x s.length t = .ok y ∧ y.length = x.length ∧ Starts y (s ++ t ++ [0]) := by
  induction t generalizing x s with
  | nil =>
    rw [List.append_nil]
    exact put_end h hlt 0
  | cons c t ih =>
    rw [List.length_cons] at hlt
    obtain ⟨y, hput, hlen, hy⟩ := put_end h (by omega) c
    have hnext : (s ++ [c]).length = s.length + 1 := List.length_append
    obtain ⟨z, hcopy, hlen', hz⟩ := ih hy (by omega)
    refine ⟨z, ?_, hlen'.trans hlen, ?_⟩
    · rw [strcpy, hput, ok_bind, ← hnext]
      exact hcopy
    · rwa [List.append_cons s c t]

theorem strncpy_spec (h : Starts x s) (hbetween : Between frmt p q t) (h0 : 0 ∉ t)
    (hlt : s.length + t.length < x.length) :
    ∃ y, strncpy frmt x s.length p (t.length + 1) = .ok y ∧ y.length = x.length ∧
      Starts y (s ++ t ++ [frmt.getD q 0]) := by
  induction t generalizing x s p with
  | nil =>
    obtain rfl : q = p := hbetween.stop
    obtain ⟨y, hput, hlen, hy⟩ := put_end h hlt (frmt.getD q 0)
    refine ⟨y, ?_, hlen, ?_⟩
    · show (read frmt q >>= _) = _
      rw [read_eq hbetween.le, ok_bind, hput]
      rfl
    · rwa [List.append_nil]
  | cons c t ih =>
    rw [List.length_cons] at hlt
    obtain ⟨hp, hc, hrest⟩ := hbetween.cons
    obtain ⟨y, hput, hlen, hy⟩ := put_end h (by omega) c
    have hnext : (s ++ [c]).length = s.length + 1 := List.length_append
    obtain ⟨z, hcopy, hlen', hz⟩ := ih hy hrest (fun hmem => h0 (List.mem_cons_of_mem c hmem)) (by omega)
    have hne : c ≠ 0 := fun hc => h0 (hc ▸ List.mem_cons_self)
    refine ⟨z, ?_, hlen'.trans hlen, ?_⟩
    · rw [List.length_cons, strncpy, read_eq (Nat.le_of_lt hp), ok_bind, hc, hput, ok_bind,
        if_neg hne, ← hnext]
      exact hcopy
    · rwa [List.append_cons s c t]

theorem cstring_eq (h : Starts x (s ++ [0])) (h0 : 0 ∉ s) : cstring x = .ok s := by
  obtain ⟨rest, rfl⟩ := h
  induction s with
  | nil => exact if_pos rfl
  | cons c s ih =>
    have hne : c ≠ 0 := fun hc => h0 (hc ▸ List.mem_cons_self)
    show (if c = 0 then pure [] else cstring _ >>= fun s => pure (c :: s)) = _
    rw [if_neg hne]
    have hrest := ih fun hmem => h0 (List.mem_cons_of_mem c hmem)
    exact congrArg (· >>= fun s => pure (c :: s)) hrest

/-! ## The parts of `str_format` -/

/-- `form` holds the text of a specification, and its NUL. -/
structure Holds (libc : Libc) (form : Block) (spec : Spec) : Prop where
  length_form : form.length = MAX_FORMAT libc
  starts : Starts form (spec.text ++ [0])

theorem MAX_FORMAT_eq : MAX_FORMAT libc = 17 + (LUA_INTFRMLEN libc).length := by
  rw [MAX_FORMAT, Nat.add_right_comm]
  have hflags : FLAGS.length = 5 := rfl
  omega

/-- The end of `scanformat`, where the parts have been skipped: the copy into `form`. -/
theorem accepted_spec (spec : Spec) (hmodifier : spec.modifier = [])
    (hconversion : spec.conversion = frmt.getD q 0)
    (hbetween : Between frmt p q (spec.flags ++ spec.width ++ spec.point))
    (hform : x.length = MAX_FORMAT libc) :
    Yields Stop.Raised
      (fun r => p ≤ r.1 ∧ r.1 ≤ frmt.length ∧ ∃ spec : Spec, Holds libc r.2 spec ∧
        spec.modifier = [] ∧ spec.conversion = frmt.getD r.1 0)
      (do
        let c ← read frmt q
        if isdigit c then throw (.error "invalid format (width or precision too long)")
        let form ← put x 0 (ch '%')
        let form ← strncpy frmt form 1 p (q - p + 1)
        let form ← put form (1 + (q - p + 1)) 0
        pure (q, form)) := by
  rw [read_eq hbetween.le, ok_bind]
  split_ifs with hlong
  · exact trivial
  have hmax : MAX_FORMAT libc = _ := MAX_FORMAT_eq
  have h0 : 0 ∉ spec.flags ++ spec.width ++ spec.point := fun h =>
    spec.zero_not_mem_start (List.mem_cons_of_mem _ h)
  have hlength := spec.length_start
  have htext : spec.text = spec.start ++ [] ++ [frmt.getD q 0] := by
    rw [Spec.text, hmodifier, hconversion]
  rw [Spec.start] at hlength htext
  generalize spec.flags ++ spec.width ++ spec.point = body at hbetween h0 hlength htext
  rw [List.length_cons] at hlength
  have hstop : q - p = body.length := by
    rw [hbetween.stop]
    omega
  obtain ⟨x₁, hput, hlen₁, hx₁⟩ := put_end (starts_nil x) (by rw [List.length_nil]; omega) (ch '%')
  obtain ⟨x₂, hcopy, hlen₂, hx₂⟩ :=
    strncpy_spec hx₁ hbetween h0 (by rw [List.nil_append, List.length_singleton]; omega)
  have hcopied : ([] ++ [ch '%'] ++ body ++ [frmt.getD q 0]).length = 1 + (body.length + 1) := by
    simp only [List.length_append, List.nil_append, List.length_singleton]
    omega
  obtain ⟨x₃, hend, hlen₃, hx₃⟩ := put_end hx₂ (by omega) 0
  have hput' : put x 0 (ch '%') = .ok x₁ := hput
  have hcopy' : strncpy frmt x₁ 1 p (body.length + 1) = .ok x₂ := hcopy
  rw [hcopied] at hend
  simp only [hput', ok_bind, hstop, hcopy', hend]
  refine ⟨?_, hbetween.le, spec, ⟨?_, ?_⟩, hmodifier, hconversion⟩
  · rw [hbetween.stop]
    exact Nat.le_add_right p body.length
  · rw [hlen₃, hlen₂, hlen₁, hform]
  · rw [htext, List.append_nil]
    exact hx₃

theorem scanformat_spec (hp : p ≤ frmt.length) (hform : x.length = MAX_FORMAT libc) :
    Yields Stop.Raised
      (fun r => p ≤ r.1 ∧ r.1 ≤ frmt.length ∧ ∃ spec : Spec, Holds libc r.2 spec ∧
        spec.modifier = [] ∧ spec.conversion = frmt.getD r.1 0)
      (scanformat frmt p x) := by
  obtain ⟨p₁, flags, hskip, hflags, hmem⟩ := skipFlags_spec (Nat.lt_add_right p (Nat.lt_succ_self _)) hp
  rw [scanformat, hskip, ok_bind]
  split_ifs with hrepeated
  · exact trivial
  have hlength : flags.length ≤ FLAGS.length := by
    have := hflags.stop
    omega
  obtain ⟨p₂, p₃, width, h₂, h₃, hwidth, hdigits⟩ := skipDigit_twice hflags.le
  simp only [h₂, h₃, ok_bind, read_eq hwidth.le]
  split_ifs with hdot
  · have hlt : p₃ < frmt.length := lt_length_of_getD (by rw [hdot]; decide)
    obtain ⟨p₄, p₅, d, h₄, h₅, hd, hdigits'⟩ := skipDigit_twice (Nat.succ_le_of_lt hlt)
    simp only [h₄, h₅, ok_bind]
    have hpoint := (between_one hlt).trans hd
    rw [hdot] at hpoint
    exact accepted_spec ⟨flags, width, some d, [], frmt.getD p₅ 0, hlength, hmem, hdigits,
      fun d' hd' => Option.some.inj hd' ▸ hdigits'⟩ rfl rfl ((hflags.trans hwidth).trans hpoint) hform
  · exact accepted_spec ⟨flags, width, none, [], frmt.getD p₃ 0, hlength, hmem, hdigits,
      fun d hd => nomatch hd⟩ rfl rfl ((hflags.trans hwidth).trans (between_nil hwidth.le)) hform

theorem zero_not_mem_LUA_INTFRMLEN : 0 ∉ LUA_INTFRMLEN libc := by
  rw [LUA_INTFRMLEN]
  split_ifs
  · decide
  · decide

theorem Spec.zero_not_mem_text (hm : 0 ∉ spec.modifier) (hc : spec.conversion ≠ 0) :
    0 ∉ spec.text := by
  rw [text, List.mem_append, List.mem_append, List.mem_singleton]
  rintro ((h | h) | h)
  · exact spec.zero_not_mem_start h
  · exact hm h
  · exact hc h.symm

theorem get_eq {c : UInt8} (h : Starts x (s ++ c :: t)) : get x s.length = .ok c := by
  obtain ⟨rest, rfl⟩ := h
  have hget : (List.map some (s ++ c :: t) ++ rest)[s.length]? = some (some c) := by
    rw [List.map_append, List.append_assoc, List.getElem?_append_right (by rw [List.length_map]),
      List.length_map, Nat.sub_self]
    rfl
  rw [get, hget]
  rfl

/-- The length modifier is inserted before the conversion. -/
theorem addintlen_spec (h : Holds libc x spec) (hm : spec.modifier = []) (hc : spec.conversion ≠ 0) :
    ∃ y, addintlen libc x = .ok y ∧ Holds libc y { spec with modifier := LUA_INTFRMLEN libc } := by
  have hstart := spec.length_start
  have hmax : MAX_FORMAT libc = _ := MAX_FORMAT_eq
  have hform := h.length_form
  have hstarts := h.starts
  have h0 : 0 ∉ spec.text := Spec.zero_not_mem_text (by rw [hm]; exact List.not_mem_nil) hc
  have htext : spec.text = spec.start ++ [spec.conversion] := by
    rw [Spec.text, hm, List.append_nil]
  have hlen : strlen x = .ok (spec.start.length + 1) := by
    rw [strlen, cstring_eq hstarts h0, ok_bind, htext, List.length_append]
    rfl
  rw [htext, List.append_assoc] at hstarts
  have hget : get x spec.start.length = .ok spec.conversion := get_eq hstarts
  obtain ⟨x₁, hcopy, hlen₁, hx₁⟩ :=
    strcpy_spec (t := LUA_INTFRMLEN libc) hstarts.of_append (by omega)
  have hlength : (spec.start ++ LUA_INTFRMLEN libc).length =
      spec.start.length + (LUA_INTFRMLEN libc).length := List.length_append
  obtain ⟨x₂, hput, hlen₂, hx₂⟩ := put_end hx₁.of_append (by omega) spec.conversion
  have hlength' : (spec.start ++ LUA_INTFRMLEN libc ++ [spec.conversion]).length =
      spec.start.length + (LUA_INTFRMLEN libc).length + 1 := by
    rw [List.length_append, hlength, List.length_singleton]
  obtain ⟨x₃, hend, hlen₃, hx₃⟩ := put_end hx₂ (by omega) 0
  refine ⟨x₃, ?_, ⟨by omega, hx₃⟩⟩
  have h1 : spec.start.length + 1 + ((LUA_INTFRMLEN libc).length + 1) - 2 =
      (spec.start ++ LUA_INTFRMLEN libc).length := by omega
  have h2 : spec.start.length + 1 + ((LUA_INTFRMLEN libc).length + 1) - 1 =
      (spec.start ++ LUA_INTFRMLEN libc ++ [spec.conversion]).length := by omega
  rw [addintlen, hlen, ok_bind, Nat.add_sub_cancel, hget, ok_bind, hcopy, ok_bind, h1, hput, ok_bind,
    h2, hend]

theorem luaL_checknumber_spec (arg : Nat) (v : TValue) :
    Yields Stop.Raised (fun _ => True) (luaL_checknumber libc arg v) := by
  cases v with
  | number n => exact trivial
  | string s =>
    rw [luaL_checknumber]
    cases libc.str2d s with
    | none => exact trivial
    | some n => exact trivial
  | _ => exact trivial

theorem luaL_checklstring_spec (arg : Nat) (v : TValue) :
    Yields Stop.Raised (fun _ => True) (luaL_checklstring libc arg v) := by
  cases v with
  | number n => exact trivial
  | string s => exact trivial
  | _ => exact trivial

theorem formatted_spec (h : t.length < x.length) : formatted x t = .ok (cstr t) := if_pos h

theorem formatNumber_spec (hlibc : libc.Bounded) (h : Holds libc x spec) (hm : spec.modifier = [])
    {intlen : Bool} (hc : spec.conversion ∈ if intlen then chars "diouxX" else chars "ceEfgG")
    (arg : Nat) (v : TValue) :
    Yields Stop.Raised (fun _ => True)
      (formatNumber libc x (malloc MAX_ITEM) intlen arg v) := by
  rw [formatNumber]
  cases intlen with
  | false =>
    have h0 : spec.conversion ≠ 0 := fun h0 => by
      rw [h0] at hc
      exact absurd hc (by decide)
    have hcstring := cstring_eq h.starts
      (Spec.zero_not_mem_text (by rw [hm]; exact List.not_mem_nil) h0)
    refine (luaL_checknumber_spec arg v).bind fun n _ => ?_
    rw [hcstring, ok_bind, formatted_spec]
    · exact trivial
    · rw [length_malloc]
      exact hlibc.number spec n (.inl ⟨hc, hm⟩)
  | true =>
    have h0 : spec.conversion ≠ 0 := fun h0 => by
      rw [h0] at hc
      exact absurd hc (by decide)
    obtain ⟨y, hadd, hy⟩ := addintlen_spec h hm h0
    have hcstring := cstring_eq hy.starts (Spec.zero_not_mem_text zero_not_mem_LUA_INTFRMLEN h0)
    simp only [if_true, hadd, ok_bind]
    refine (luaL_checknumber_spec arg v).bind fun n _ => ?_
    rw [hcstring, ok_bind, formatted_spec]
    · exact trivial
    · rw [length_malloc]
      exact hlibc.number _ n (.inr ⟨hc, rfl⟩)

/-- Without a precision there is no point in the specification. -/
theorem Spec.point_not_mem (hp : spec.precision = none) (hm : spec.modifier = [])
    (hc : spec.conversion = ch 's') : ch '.' ∉ spec.text := by
  rw [text, hm, hc, List.append_nil, List.mem_append]
  rintro (h | h)
  · rcases Spec.mem_start h with h | h | h | ⟨-, h⟩
    · exact absurd h (by decide)
    · exact absurd h (by decide)
    · exact absurd h (by decide)
    · exact h hp
  · exact absurd h (by decide)

theorem formatString_spec (hlibc : libc.Bounded) (h : Holds libc x spec) (hm : spec.modifier = [])
    (hc : spec.conversion = ch 's') (arg : Nat) (v : TValue) :
    Yields Stop.Raised (fun _ => True) (formatString libc x (malloc MAX_ITEM) arg v) := by
  have hcstring := cstring_eq h.starts
    (Spec.zero_not_mem_text (by rw [hm]; exact List.not_mem_nil) (by rw [hc]; decide))
  rw [formatString]
  refine (luaL_checklstring_spec arg v).bind fun s _ => ?_
  rw [hcstring, ok_bind]
  split_ifs with hlong
  · exact trivial
  have hwidth := digitsValue_le spec.width_digits
  have hcstr : (cstr s).length ≤ s.length := (List.takeWhile_prefix _).length_le
  have hbound := hlibc.string spec (cstr s) hc hm
  have hprecision : spec.precision.elim (cstr s).length
      (fun p => min (cstr s).length (digitsValue p)) ≤ 99 := by
    cases hp : spec.precision with
    | none =>
      have hpoint : ¬ spec.text.contains (ch '.') := fun hmem =>
        Spec.point_not_mem hp hm hc (List.contains_iff_mem.mp hmem)
      have hshort : ¬ s.length ≥ 100 := fun hge => hlong ⟨hpoint, hge⟩
      show (cstr s).length ≤ 99
      omega
    | some p => exact (Nat.min_le_right _ _).trans (digitsValue_le (spec.precision_digits p hp))
  rw [formatted_spec]
  · exact trivial
  · rw [length_malloc]
    have hitem : MAX_ITEM = 512 := rfl
    omega

theorem formatItem_spec (hlibc : libc.Bounded) (h : Holds libc x spec) (hm : spec.modifier = [])
    (arg : Nat) (v : TValue) :
    Yields Stop.Raised (fun _ => True)
      (formatItem libc x (malloc MAX_ITEM) spec.conversion arg v) := by
  rw [formatItem]
  split_ifs with h1 h2 h3 h4 h5 h6
  · exact formatNumber_spec hlibc h hm (by rw [h1]; decide) arg v
  · exact formatNumber_spec hlibc h hm (by rcases h2 with h2 | h2 <;> rw [h2] <;> decide) arg v
  · exact formatNumber_spec hlibc h hm
      (by rcases h3 with h3 | h3 | h3 | h3 <;> rw [h3] <;> decide) arg v
  · exact formatNumber_spec hlibc h hm
      (by rcases h4 with h4 | h4 | h4 | h4 | h4 <;> rw [h4] <;> decide) arg v
  · exact (luaL_checklstring_spec arg v).bind fun s _ => trivial
  · exact formatString_spec hlibc h hm h6 arg v
  · exact trivial

/-- A specification that ends with the format string has no conversion. -/
theorem formatItem_nul (form buff : Block) (arg : Nat) (v : TValue) :
    Yields Stop.Raised (fun _ => False) (formatItem libc form buff 0 arg v) := trivial

/-! ## The loop -/

theorem formatLoop_spec (hlibc : libc.Bounded) (args : List TValue) {fuel : Nat} (arg : Nat)
    (b : List UInt8) (hp : p ≤ frmt.length) (hfuel : frmt.length < fuel + p) :
    Yields Stop.Raised (fun _ => True) (formatLoop libc frmt args fuel arg p b) := by
  induction fuel generalizing p arg b with
  | zero => omega
  | succ fuel ih =>
    rw [formatLoop]
    split_ifs with hlt
    swap
    · exact trivial
    rw [read_eq hp, ok_bind]
    split_ifs with hpercent
    · exact ih arg _ hlt (by omega)
    simp only [read_eq (show p + 1 ≤ frmt.length from hlt), ok_bind]
    split_ifs with hesc
    · have hlt' : p + 1 < frmt.length := lt_length_of_getD (by rw [hesc]; decide)
      exact ih arg _ hlt' (by omega)
    cases hv : args[arg + 1 - 2]? with
    | none => exact trivial
    | some v =>
      refine (scanformat_spec hlt (length_malloc _)).bind fun r hscan => ?_
      obtain ⟨hle, hr, spec, hspec, hm, hc⟩ := hscan
      rw [read_eq hr, ok_bind, ← hc]
      by_cases h0 : spec.conversion = 0
      · rw [h0]
        exact (formatItem_nul r.2 _ _ v).bind fun _ h => h.elim
      · have hend : r.1 < frmt.length := lt_length_of_getD (hc ▸ h0)
        exact (formatItem_spec hlibc hspec hm _ v).bind fun text _ => ih _ _ hend (by omega)

/-- `str_format` returns or raises an error: nothing is read behind the format string or written
behind the arrays. -/
theorem str_format_bounded (hlibc : libc.Bounded) (frmt : List UInt8) (args : List TValue) :
    (∃ text, str_format libc frmt args = .ok text) ∨
      (∃ msg, str_format libc frmt args = .error (.error msg)) ∨
      ∃ arg msg, str_format libc frmt args = .error (.argerror arg msg) := by
  have h : Yields Stop.Raised (fun _ => True) (str_format libc frmt args) :=
    formatLoop_spec hlibc args 1 [] (Nat.zero_le _) (Nat.lt_succ_self _)
  generalize str_format libc frmt args = r at h
  match r, h with
  | .ok text, _ => exact .inl ⟨text, rfl⟩
  | .error (.error msg), _ => exact .inr (.inl ⟨msg, rfl⟩)
  | .error (.argerror arg msg), _ => exact .inr (.inr ⟨arg, msg, rfl⟩)

/-- `sprintf` on the plain conversions of a string and of zero. -/
def plainLibc : Libc where
  LUA_USELONGLONG := false
  sprintfNumber spec n := if spec = chars "%ld" ∧ n = 0 then chars "0" else []
  sprintfString spec s := if spec = chars "%s" then s else []
  lua_number2str _ := []
  str2d _ := none

theorem plainLibc_bounded : plainLibc.Bounded := by
  constructor
  · intro spec n _
    show (if spec.text = chars "%ld" ∧ n = 0 then chars "0" else []).length < MAX_ITEM
    split_ifs
    · decide
    · decide
  · intro spec s _ _
    show (if spec.text = chars "%s" then s else []).length ≤ _
    split_ifs with htext
    · cases hp : spec.precision with
      | none => exact Nat.le_max_right _ _
      | some p =>
        have hpoint : ch '.' ∈ spec.text := by
          rw [Spec.text, Spec.start, Spec.point, hp]
          simp
        rw [htext] at hpoint
        exact absurd hpoint (by decide)
    · exact Nat.zero_le _

theorem str_format_bounded_plain :
    str_format plainLibc (chars "%s=%d") [.string (chars "x"), .number 0] = .ok (chars "x=0") ∧
      ((∃ text, str_format plainLibc (chars "%s=%d%") [.string (chars "x"), .number 0] = .ok text) ∨
        (∃ msg, str_format plainLibc (chars "%s=%d%") [.string (chars "x"), .number 0] =
          .error (.error msg)) ∨
        ∃ arg msg, str_format plainLibc (chars "%s=%d%") [.string (chars "x"), .number 0] =
          .error (.argerror arg msg)) :=
  ⟨by decide +kernel, str_format_bounded plainLibc_bounded _ _⟩

end Luaxx.Format
