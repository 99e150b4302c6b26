import Luaxx.Io.Liolib
import Luaxx.Io.Lgziolib

/-!
# Reading a gzip file and reading a plain file

Both libraries take the same bytes from the same position, whatever the format; they differ in how
they test for the end of the file. A call always returns: each round of a loop that is not the last
takes a byte.
-/

namespace Luaxx.Io

open Luaxx.Stdio

/-! ## The loops end -/

/-- `left` counts what the device can still give. -/
structure Library.Consumes {F : Type} (lib : Library F) (LUAL_BUFFERSIZE : Nat) (left : F → Nat) :
    Prop where
  gets : ∀ f, left (lib.gets LUAL_BUFFERSIZE f).2 ≤ left f
  gets_some : ∀ f p, (lib.gets LUAL_BUFFERSIZE f).1 = some p →
    left (lib.gets LUAL_BUFFERSIZE f).2 < left f
  read : ∀ n f, left (lib.read n f).2 + (lib.read n f).1.length = left f
  test_eof : ∀ f, left (lib.test_eof f).2 ≤ left f
  cast : ∀ n < LUAL_BUFFERSIZE, lib.cast n = n

namespace Library

variable {F : Type} {lib : Library F} {LUAL_BUFFERSIZE : Nat} {left : F → Nat}

theorem read_line_returns (h : lib.Consumes LUAL_BUFFERSIZE left) (fuel : Nat) (b : List UInt8)
    (f : F) (hfuel : left f < fuel) :
    ∃ a f', lib.read_line LUAL_BUFFERSIZE fuel b f = some (a, f') ∧ left f' ≤ left f := by
  induction fuel generalizing b f with
  | zero => exact absurd hfuel (Nat.not_lt_zero _)
  | succ fuel ih =>
    have hle := h.gets f
    have hlt := h.gets_some f
    rw [read_line]
    rcases hgets : lib.gets LUAL_BUFFERSIZE f with ⟨_ | p, f'⟩
    · rw [hgets] at hle
      exact ⟨_, f', rfl, hle⟩
    · rw [hgets] at hlt hle
      have hless : left f' < left f := hlt p rfl
      by_cases hl : strlen p = 0 ∨ p[strlen p - 1]? ≠ some newline
      · obtain ⟨a, f'', hret, hleft⟩ := ih (b ++ p.take (strlen p)) f' (by omega)
        refine ⟨a, f'', ?_, by omega⟩
        simp only [if_pos hl]
        exact hret
      · refine ⟨(b ++ p.take (strlen p - 1), true), f', ?_, hle⟩
        simp only [if_neg hl]

theorem read_chars_returns (h : lib.Consumes LUAL_BUFFERSIZE left) (hsize : 0 < LUAL_BUFFERSIZE)
    (fuel : Nat) (b : List UInt8) (n : Nat) (f : F) (hfuel : left f < fuel) :
    ∃ a f', lib.read_chars fuel b LUAL_BUFFERSIZE n f = some (a, f') ∧ left f' ≤ left f := by
  induction fuel generalizing b n f with
  | zero => exact absurd hfuel (Nat.not_lt_zero _)
  | succ fuel ih =>
    rw [read_chars]
    by_cases hn : LUAL_BUFFERSIZE > n
    · -- The last round: it asks for all the characters still to read.
      have hread := h.read n f
      rcases hp : lib.read n f with ⟨p, f'⟩
      rw [hp] at hread
      have hstop : ¬ (n - p.length > 0 ∧ p.length = n) := by omega
      simp only [if_pos hn, h.cast n hn, hp, if_neg hstop]
      exact ⟨_, f', rfl, Nat.le.intro hread⟩
    · have hread := h.read LUAL_BUFFERSIZE f
      rcases hp : lib.read LUAL_BUFFERSIZE f with ⟨p, f'⟩
      rw [hp] at hread
      have hread' : left f' + p.length = left f := hread
      by_cases hgo : n - p.length > 0 ∧ p.length = LUAL_BUFFERSIZE
      · obtain ⟨a, f'', hret, hleft⟩ := ih (b ++ p) (n - p.length) f' (by omega)
        refine ⟨a, f'', ?_, by omega⟩
        simp only [if_neg hn, hp, if_pos hgo]
        exact hret
      · simp only [if_neg hn, hp, if_neg hgo]
        exact ⟨_, f', rfl, Nat.le.intro hread'⟩

theorem readFormat_returns (h : lib.Consumes LUAL_BUFFERSIZE left) (hsize : 0 < LUAL_BUFFERSIZE)
    (fuel : Nat) (f : F) (fmt : Format) (hfuel : left f < fuel) :
    ∃ a f', lib.readFormat LUAL_BUFFERSIZE fuel f fmt = some (a, f') ∧ left f' ≤ left f := by
  cases fmt with
  | count l =>
    rw [readFormat]
    split
    · exact ⟨_, _, rfl, h.test_eof f⟩
    · exact read_chars_returns h hsize fuel [] l f hfuel
  | line => exact read_line_returns h fuel [] f hfuel
  | all =>
    obtain ⟨a, f', hret, hleft⟩ := read_chars_returns h hsize fuel [] MAX_SIZE_T f hfuel
    refine ⟨(a.1, true), f', ?_, hleft⟩
    rw [readFormat, hret]

theorem readFormats_returns (h : lib.Consumes LUAL_BUFFERSIZE left) (hsize : 0 < LUAL_BUFFERSIZE)
    (fuel : Nat) (fmts : List Format) (f : F) (hfuel : left f < fuel) :
    ∃ a f', lib.readFormats LUAL_BUFFERSIZE fuel fmts f = some (a, f') ∧ left f' ≤ left f := by
  induction fmts generalizing f with
  | nil => exact ⟨_, f, rfl, Nat.le_refl _⟩
  | cons fmt fmts ih =>
    obtain ⟨⟨v, success⟩, f', hret, hleft⟩ := readFormat_returns h hsize fuel f fmt hfuel
    rw [readFormats, hret]
    cases success with
    | false => exact ⟨_, f', rfl, hleft⟩
    | true =>
      obtain ⟨a, f'', hret', hleft'⟩ := ih f' (Nat.lt_of_le_of_lt hleft hfuel)
      refine ⟨(v :: a.1, a.2), f'', ?_, Nat.le_trans hleft' hleft⟩
      simp only [hret']

theorem readArguments_returns (h : lib.Consumes LUAL_BUFFERSIZE left) (hsize : 0 < LUAL_BUFFERSIZE)
    (fuel : Nat) (fmts : List Format) (f : F) (hfuel : left f < fuel) :
    ∃ a f', lib.readArguments LUAL_BUFFERSIZE fuel fmts f = some (a, f') ∧ left f' ≤ left f := by
  cases fmts with
  | nil =>
    obtain ⟨a, f', hret, hleft⟩ := read_line_returns h fuel [] f hfuel
    refine ⟨([a.1], a.2), f', ?_, hleft⟩
    rw [readArguments, hret]
  | cons fmt fmts => exact readFormats_returns h hsize fuel (fmt :: fmts) f hfuel

end Library

theorem calls_returns {F : Type} {f_read : List Format → F → Option (Outcome × F)} (left : F → Nat)
    {fuel : Nat}
    (h : ∀ fmts f, left f < fuel → ∃ o f', f_read fmts f = some (o, f') ∧ left f' ≤ left f)
    (cs : List (List Format)) (f : F) (hfuel : left f < fuel) :
    ∃ os f', calls f_read cs f = some (os, f') := by
  induction cs generalizing f with
  | nil => exact ⟨[], f, rfl⟩
  | cons fmts cs ih =>
    obtain ⟨o, f', hret, hleft⟩ := h fmts f hfuel
    obtain ⟨os, f'', hrest⟩ := ih f' (Nat.lt_of_le_of_lt hleft hfuel)
    refine ⟨o :: os, f'', ?_⟩
    rw [calls, hret]
    simp only [hrest]

/-! ## The same bytes are taken -/

variable {G : Type} {z : Zlib G} {content : G → Stream} {LUAL_BUFFERSIZE : Nat}

theorem Liolib.library_consumes (hsize : 2 ≤ LUAL_BUFFERSIZE) :
    Liolib.library.Consumes LUAL_BUFFERSIZE (·.rest.length) where
  gets f := f.fgets_length_le LUAL_BUFFERSIZE
  gets_some _ _ h := Stream.fgets_some hsize h
  read n f := by
    rw [Nat.add_comm]
    show (f.rest.take n).length + (f.rest.drop n).length = f.rest.length
    rw [← List.length_append, List.take_append_drop]
  test_eof f := Nat.le_of_eq (congrArg List.length (Liolib.test_eof_rest f))
  cast _ _ := rfl

theorem Lgziolib.library_consumes (hz : Behaves z content) (hsize : 2 ≤ LUAL_BUFFERSIZE)
    (hunsigned : LUAL_BUFFERSIZE < 2 ^ 32) :
    (Lgziolib.library z).Consumes LUAL_BUFFERSIZE (fun g => (content g).rest.length) where
  gets g := by
    show (content (z.gzgets LUAL_BUFFERSIZE g).2).rest.length ≤ _
    rw [(hz.gzgets LUAL_BUFFERSIZE g).2]
    exact (content g).fgets_length_le LUAL_BUFFERSIZE
  gets_some g p h := by
    show (content (z.gzgets LUAL_BUFFERSIZE g).2).rest.length < _
    rw [(hz.gzgets LUAL_BUFFERSIZE g).2]
    exact Stream.fgets_some hsize ((hz.gzgets LUAL_BUFFERSIZE g).1.symm.trans h)
  read n g := by
    show (content (z.gzread n g).2).rest.length + (z.gzread n g).1.length = _
    rw [(hz.gzread n g).1, (hz.gzread n g).2]
    exact (Liolib.library_consumes hsize).read n (content g)
  test_eof g := Nat.le_refl _
  cast n hn := Nat.mod_eq_of_lt (Nat.lt_trans hn hunsigned)

/-- What is seen of a result: the value, and the bytes that are left. -/
def seen {F α : Type} (left : F → List UInt8) (r : Option (α × F)) : Option (α × List UInt8) :=
  r.map (fun x => (x.1, left x.2))

theorem seen_some {F G α : Type} {left : F → List UInt8} {left' : G → List UInt8}
    {r : Option (α × F)} {r' : Option (α × G)} (h : seen left r = seen left' r') {a : α} {f : F}
    (hr : r = some (a, f)) : ∃ g, r' = some (a, g) ∧ left f = left' g := by
  rw [hr] at h
  cases r' with
  | none => exact absurd h (Option.some_ne_none _)
  | some x =>
    obtain ⟨b, g⟩ := x
    simp only [seen, Option.map_some, Option.some.injEq, Prod.mk.injEq] at h
    exact ⟨g, by rw [h.1], h.2⟩

theorem read_line_agrees (hz : Behaves z content) (LUAL_BUFFERSIZE fuel : Nat) (b : List UInt8)
    {f : Stream} {g : G} (hfg : f.rest = (content g).rest) :
    seen Stream.rest (Liolib.library.read_line LUAL_BUFFERSIZE fuel b f) =
      seen (fun g => (content g).rest)
        ((Lgziolib.library z).read_line LUAL_BUFFERSIZE fuel b g) := by
  induction fuel generalizing b f g with
  | zero => rfl
  | succ fuel ih =>
    obtain ⟨hline, hleft⟩ := hz.gzgets LUAL_BUFFERSIZE g
    have hfgets := Stream.fgets_congr LUAL_BUFFERSIZE hfg
    rcases hf : Liolib.library.gets LUAL_BUFFERSIZE f with ⟨line, f'⟩
    rcases hg : (Lgziolib.library z).gets LUAL_BUFFERSIZE g with ⟨line', g'⟩
    have hf' : (content g).fgets LUAL_BUFFERSIZE = (line, f') := hfgets.symm.trans hf
    have hg' : z.gzgets LUAL_BUFFERSIZE g = (line', g') := hg
    rw [hf', hg'] at hline hleft
    have hline' : line' = line := hline
    have hleft' : f'.rest = (content g').rest := congrArg Stream.rest hleft.symm
    rw [Library.read_line, Library.read_line, hf, hg, hline']
    cases line with
    | none => simp only [seen, Option.map_some, hleft']
    | some p =>
      by_cases hl : strlen p = 0 ∨ p[strlen p - 1]? ≠ some newline
      · simp only [if_pos hl]
        exact ih (b ++ p.take (strlen p)) hleft'
      · simp only [if_neg hl, seen, Option.map_some, hleft']

theorem read_chars_agrees (hz : Behaves z content) (hunsigned : LUAL_BUFFERSIZE < 2 ^ 32)
    (fuel : Nat) (b : List UInt8) (n : Nat) {f : Stream} {g : G}
    (hfg : f.rest = (content g).rest) :
    seen Stream.rest (Liolib.library.read_chars fuel b LUAL_BUFFERSIZE n f) =
      seen (fun g => (content g).rest)
        ((Lgziolib.library z).read_chars fuel b LUAL_BUFFERSIZE n g) := by
  induction fuel generalizing b n f g with
  | zero => rfl
  | succ fuel ih =>
    -- Both ask for the same number of characters.
    obtain ⟨rlen, hplain, hgz, hrlen⟩ : ∃ rlen,
        (if LUAL_BUFFERSIZE > n then Liolib.library.cast n else LUAL_BUFFERSIZE) = rlen ∧
        (if LUAL_BUFFERSIZE > n then (Lgziolib.library z).cast n else LUAL_BUFFERSIZE) = rlen ∧
        (rlen = LUAL_BUFFERSIZE ∨ rlen = n) := by
      split
      · next hn =>
        exact ⟨n, rfl, Nat.mod_eq_of_lt (Nat.lt_trans hn hunsigned), .inr rfl⟩
      · exact ⟨LUAL_BUFFERSIZE, rfl, rfl, .inl rfl⟩
    obtain ⟨hchars, hleft⟩ := hz.gzread rlen g
    obtain ⟨hchars', hleft'⟩ := Stream.fread_congr rlen hfg
    rcases hf : Liolib.library.read rlen f with ⟨p, f'⟩
    rcases hg : (Lgziolib.library z).read rlen g with ⟨p', g'⟩
    have hf' : f.fread rlen = (p, f') := hf
    have hg' : z.gzread rlen g = (p', g') := hg
    rw [hf'] at hchars' hleft'
    rw [hg'] at hchars hleft
    have hp : p' = p := hchars.trans hchars'.symm
    have hrest : f'.rest = (content g').rest := hleft'.trans (congrArg Stream.rest hleft).symm
    rw [Library.read_chars, Library.read_chars]
    simp only [hplain, hgz, hf, hg, hp]
    by_cases hgo : n - p.length > 0 ∧ p.length = rlen
    · -- A round that is not the last was one of a full buffer.
      have hfull : rlen = LUAL_BUFFERSIZE := by omega
      rw [if_pos hgo, if_pos hgo, hfull]
      exact ih (b ++ p) (n - p.length) hrest
    · simp only [if_neg hgo, seen, Option.map_some, hrest]

theorem Library.readFormat_all {F : Type} (lib : Library F) (fuel : Nat) (f : F) :
    lib.readFormat LUAL_BUFFERSIZE fuel f .all =
      (lib.read_chars fuel [] LUAL_BUFFERSIZE MAX_SIZE_T f).map
        fun r => ((r.1.1, true), r.2) := by
  rw [Library.readFormat]
  cases lib.read_chars fuel [] LUAL_BUFFERSIZE MAX_SIZE_T f with
  | none => rfl
  | some r => rfl

theorem readFormat_agrees (hz : Behaves z content) (hunsigned : LUAL_BUFFERSIZE < 2 ^ 32)
    (fuel : Nat) {fmt : Format} (hfmt : fmt ≠ .count 0) {f : Stream} {g : G}
    (hfg : f.rest = (content g).rest) :
    seen Stream.rest (Liolib.library.readFormat LUAL_BUFFERSIZE fuel f fmt) =
      seen (fun g => (content g).rest)
        ((Lgziolib.library z).readFormat LUAL_BUFFERSIZE fuel g fmt) := by
  cases fmt with
  | count l =>
    have hl : l ≠ 0 := fun h => hfmt (congrArg Format.count h)
    rw [Library.readFormat, Library.readFormat, if_neg hl, if_neg hl]
    exact read_chars_agrees hz hunsigned fuel [] l hfg
  | line => exact read_line_agrees hz LUAL_BUFFERSIZE fuel [] hfg
  | all =>
    have hchars := read_chars_agrees hz hunsigned fuel [] MAX_SIZE_T hfg
    have hmap := congrArg (Option.map fun r => ((r.1.1, true), r.2)) hchars
    rw [seen, seen, Option.map_map, Option.map_map] at hmap
    rw [Library.readFormat_all, Library.readFormat_all, seen, seen, Option.map_map, Option.map_map]
    exact hmap

/-! ## The test for the end of the file -/

section

variable (z : Zlib G) (content : G → Stream) (LUAL_BUFFERSIZE fuel : Nat)

/-- Each test for the end that the formats come to is made at the end of the content, before a read
has come up short there. -/
def TestsMeetEnd : List Format → G → Prop
  | [], _ => True
  | fmt :: fmts, g =>
    (fmt = .count 0 → (content g).rest = [] ∧ (content g).eof = false) ∧
    ∀ v g', (Lgziolib.library z).readFormat LUAL_BUFFERSIZE fuel g fmt = some ((v, true), g') →
      TestsMeetEnd fmts g'

/-- The same of a sequence of calls. A call with too many arguments reads nothing. -/
def CallsMeetEnd : List (List Format) → G → Prop
  | [], _ => True
  | fmts :: cs, g =>
    (checkstack fmts.length = true → TestsMeetEnd z content LUAL_BUFFERSIZE fuel fmts g) ∧
    ∀ o g', Lgziolib.f_read z LUAL_BUFFERSIZE fuel fmts g = some (o, g') → CallsMeetEnd cs g'

end

theorem readFormats_ne_nil {F : Type} {lib : Library F} {fuel : Nat} {fmts : List Format} {f f' : F}
    {vs : List (List UInt8)} {success : Bool}
    (h : lib.readFormats LUAL_BUFFERSIZE fuel fmts f = some ((vs, success), f')) :
    success = false → vs ≠ [] := by
  cases fmts with
  | nil =>
    simp only [Library.readFormats, Option.some.injEq, Prod.mk.injEq] at h
    rw [← h.1.2]
    exact fun h => absurd h.symm Bool.false_ne_true
  | cons fmt fmts =>
    rw [Library.readFormats] at h
    grind

/-- What a list of formats that is not empty gives: nil, or a value and what the others give. -/
theorem readFormats_cons {F : Type} {lib : Library F} {fuel : Nat} {fmt : Format}
    {fmts : List Format} {f f' : F} {vs : List (List UInt8)} {success : Bool}
    (h : lib.readFormats LUAL_BUFFERSIZE fuel (fmt :: fmts) f = some ((vs, success), f')) :
    (∃ v, lib.readFormat LUAL_BUFFERSIZE fuel f fmt = some ((v, false), f') ∧
      results vs success = [none]) ∨
    ∃ v f₁ vs₁, lib.readFormat LUAL_BUFFERSIZE fuel f fmt = some ((v, true), f₁) ∧
      lib.readFormats LUAL_BUFFERSIZE fuel fmts f₁ = some ((vs₁, success), f') ∧
      results vs success = some v :: results vs₁ success := by
  rw [Library.readFormats] at h
  rcases hfmt : lib.readFormat LUAL_BUFFERSIZE fuel f fmt with _ | ⟨⟨v, _ | _⟩, f₁⟩
  · rw [hfmt] at h
    exact absurd h.symm (Option.some_ne_none _)
  · left
    simp only [hfmt, Option.some.injEq, Prod.mk.injEq] at h
    obtain ⟨⟨rfl, rfl⟩, rfl⟩ := h
    exact ⟨v, rfl, rfl⟩
  · right
    rcases hrest : lib.readFormats LUAL_BUFFERSIZE fuel fmts f₁ with _ | ⟨⟨vs₁, success₁⟩, f₂⟩
    · simp only [hfmt, hrest] at h
      exact absurd h.symm (Option.some_ne_none _)
    · simp only [hfmt, hrest, Option.some.injEq, Prod.mk.injEq] at h
      obtain ⟨⟨rfl, rfl⟩, rfl⟩ := h
      exact ⟨v, f₁, vs₁, rfl, hrest, results_cons v (readFormats_ne_nil hrest)⟩

theorem Library.readFormat_test {F : Type} (lib : Library F) (fuel : Nat) (f : F) :
    lib.readFormat LUAL_BUFFERSIZE fuel f (.count 0) =
      some (([], (lib.test_eof f).1), (lib.test_eof f).2) := by
  rw [Library.readFormat, if_pos rfl]

theorem readFormats_test {F : Type} {lib : Library F} {fuel : Nat} {fmts : List Format} {f f' : F}
    {vs : List (List UInt8)} {success : Bool}
    (h : lib.readFormats LUAL_BUFFERSIZE fuel (.count 0 :: fmts) f = some ((vs, success), f')) :
    ((lib.test_eof f).1 = false ∧ results vs success = [none] ∧ (lib.test_eof f).2 = f') ∨
    ((lib.test_eof f).1 = true ∧ ∃ rs, results vs success = some [] :: rs) := by
  rcases readFormats_cons h with ⟨v, hv, hres⟩ | ⟨v, f₁, vs₁, hv, -, hres⟩
  · simp only [Library.readFormat_test, Option.some.injEq, Prod.mk.injEq] at hv
    exact .inl ⟨hv.1.2, hres, hv.2⟩
  · simp only [Library.readFormat_test, Option.some.injEq, Prod.mk.injEq] at hv
    exact .inr ⟨hv.1.2, _, hv.1.1 ▸ hres⟩

/-- Where the two tests for the end differ. -/
theorem test_eof_agrees (hz : Behaves z content) {f : Stream} {g : G}
    (hfg : f.rest = (content g).rest) :
    (Liolib.test_eof f).1 = (Lgziolib.test_eof z g).1 ↔
      (content g).rest = [] ∧ (content g).eof = false := by
  have hplain := Liolib.test_eof_iff f
  rw [Lgziolib.test_eof, hz.gzeof g]
  rw [hfg] at hplain
  cases heof : (content g).eof with
  | true =>
    have hrest := (content g).atEnd heof
    rw [hrest] at hplain
    simp [hplain]
  | false =>
    rw [← Bool.not_eq_true, hplain]
    simp

theorem testsMeetEnd_test (hz : Behaves z content) {fuel : Nat} {fmts : List Format} {g : G} :
    TestsMeetEnd z content LUAL_BUFFERSIZE fuel (.count 0 :: fmts) g ↔
      (content g).rest = [] ∧ (content g).eof = false := by
  constructor
  · intro h
    exact h.1 rfl
  · intro h
    refine ⟨fun _ => h, ?_⟩
    intro v g' hv
    -- A test at a clean end fails, and the formats after it are not reached.
    have heof : (Lgziolib.test_eof z g).1 = false := (hz.gzeof g).trans h.2
    simp only [Library.readFormat_test, Option.some.injEq, Prod.mk.injEq] at hv
    exact absurd (heof.symm.trans hv.1.2) Bool.false_ne_true

theorem testsMeetEnd_cons {fuel : Nat} {fmt : Format} {fmts : List Format} {g g' : G}
    {v : List UInt8} (hfmt : fmt ≠ .count 0)
    (h : (Lgziolib.library z).readFormat LUAL_BUFFERSIZE fuel g fmt = some ((v, true), g')) :
    TestsMeetEnd z content LUAL_BUFFERSIZE fuel (fmt :: fmts) g ↔
      TestsMeetEnd z content LUAL_BUFFERSIZE fuel fmts g' := by
  constructor
  · intro hmeets
    exact hmeets.2 v g' h
  · intro hmeets
    refine ⟨fun heq => absurd heq hfmt, ?_⟩
    intro v₁ g₁ h₁
    rw [h] at h₁
    simp only [Option.some.injEq, Prod.mk.injEq] at h₁
    exact h₁.2 ▸ hmeets

theorem readFormats_agree (hz : Behaves z content) (hunsigned : LUAL_BUFFERSIZE < 2 ^ 32)
    (fuel : Nat) (fmts : List Format) {f f' : Stream} {g g' : G}
    (hfg : f.rest = (content g).rest) {vs vs' : List (List UInt8)} {success success' : Bool}
    (hf : Liolib.library.readFormats LUAL_BUFFERSIZE fuel fmts f = some ((vs, success), f'))
    (hg : (Lgziolib.library z).readFormats LUAL_BUFFERSIZE fuel fmts g =
      some ((vs', success'), g')) :
    (results vs success = results vs' success' ↔
        TestsMeetEnd z content LUAL_BUFFERSIZE fuel fmts g) ∧
      (TestsMeetEnd z content LUAL_BUFFERSIZE fuel fmts g → f'.rest = (content g').rest) := by
  induction fmts generalizing f g vs vs' success success' with
  | nil =>
    simp only [Library.readFormats, Option.some.injEq, Prod.mk.injEq] at hf hg
    obtain ⟨⟨rfl, rfl⟩, rfl⟩ := hf
    obtain ⟨⟨rfl, rfl⟩, rfl⟩ := hg
    exact ⟨⟨fun _ => trivial, fun _ => rfl⟩, fun _ => hfg⟩
  | cons fmt fmts ih =>
    by_cases hfmt : fmt = .count 0
    · subst hfmt
      rw [testsMeetEnd_test hz, ← test_eof_agrees hz hfg]
      rcases readFormats_test hf with ⟨htest, hres, hrest⟩ | ⟨htest, rs, hres⟩
      · rcases readFormats_test hg with ⟨htest', hres', hrest'⟩ | ⟨htest', rs', hres'⟩
        · have hleft : f'.rest = (content g').rest := by
            rw [← hrest, ← hrest']
            exact (Liolib.test_eof_rest f).trans hfg
          have htests := htest.trans htest'.symm
          have hresults := hres.trans hres'.symm
          exact ⟨⟨fun _ => htests, fun _ => hresults⟩, fun _ => hleft⟩
        · have hdiffer : (Liolib.test_eof f).1 ≠ (Lgziolib.test_eof z g).1 := by
            intro heq
            exact Bool.false_ne_true (htest.symm.trans (heq.trans htest'))
          have hresults : results vs success ≠ results vs' success' := by
            rw [hres, hres']
            simp
          exact ⟨iff_of_false hresults hdiffer, fun heq => absurd heq hdiffer⟩
      · rcases readFormats_test hg with ⟨htest', hres', hrest'⟩ | ⟨htest', rs', hres'⟩
        · have hdiffer : (Liolib.test_eof f).1 ≠ (Lgziolib.test_eof z g).1 := by
            intro heq
            exact Bool.false_ne_true (htest'.symm.trans (heq.symm.trans htest))
          have hresults : results vs success ≠ results vs' success' := by
            rw [hres, hres']
            simp
          exact ⟨iff_of_false hresults hdiffer, fun heq => absurd heq hdiffer⟩
        · -- Both tests cannot succeed: the indicator is set at the end only.
          have hrest := (Liolib.test_eof_iff f).mp htest
          have heof : (content g).eof = true := (hz.gzeof g).symm.trans htest'
          exact absurd (hfg.trans ((content g).atEnd heof)) hrest
    · have hagree := readFormat_agrees hz hunsigned fuel hfmt hfg
      rcases readFormats_cons hf with ⟨v, hv, hres⟩ | ⟨v, f₁, vs₁, hv, hrest, hres⟩
      · obtain ⟨g₁, hv', hleft⟩ := seen_some hagree hv
        rcases readFormats_cons hg with ⟨v', hw, hres'⟩ | ⟨v', g₂, vs₂, hw, -, -⟩
        · rw [hv'] at hw
          simp only [Option.some.injEq, Prod.mk.injEq] at hw
          have hmeets : TestsMeetEnd z content LUAL_BUFFERSIZE fuel (fmt :: fmts) g := by
            refine ⟨fun heq => absurd heq hfmt, ?_⟩
            intro w g₂ hw'
            rw [hv'] at hw'
            simp at hw'
          exact ⟨iff_of_true (hres.trans hres'.symm) hmeets, fun _ => hw.2 ▸ hleft⟩
        · rw [hv'] at hw
          simp at hw
      · obtain ⟨g₁, hv', hleft⟩ := seen_some hagree hv
        rcases readFormats_cons hg with ⟨v', hw, -⟩ | ⟨v', g₂, vs₂, hw, hrest', hres'⟩
        · rw [hv'] at hw
          simp at hw
        · rw [hv'] at hw
          simp only [Option.some.injEq, Prod.mk.injEq] at hw
          obtain ⟨⟨rfl, -⟩, rfl⟩ := hw
          have htail := ih hleft hrest hrest'
          rw [testsMeetEnd_cons hfmt hv', hres, hres', ← htail.1]
          simp only [List.cons.injEq, true_and]
          exact fun h => htail.2 (htail.1.mp h)

theorem readArguments_agree (hz : Behaves z content) (hunsigned : LUAL_BUFFERSIZE < 2 ^ 32)
    (fuel : Nat) (fmts : List Format) {f f' : Stream} {g g' : G}
    (hfg : f.rest = (content g).rest) {vs vs' : List (List UInt8)} {success success' : Bool}
    (hf : Liolib.library.readArguments LUAL_BUFFERSIZE fuel fmts f = some ((vs, success), f'))
    (hg : (Lgziolib.library z).readArguments LUAL_BUFFERSIZE fuel fmts g =
      some ((vs', success'), g')) :
    (results vs success = results vs' success' ↔
        TestsMeetEnd z content LUAL_BUFFERSIZE fuel fmts g) ∧
      (TestsMeetEnd z content LUAL_BUFFERSIZE fuel fmts g → f'.rest = (content g').rest) := by
  cases fmts with
  | nil =>
    -- A call without formats reads a line.
    have hagree := read_line_agrees hz LUAL_BUFFERSIZE fuel [] hfg
    rw [Library.readArguments] at hf hg
    rcases hline : Liolib.library.read_line LUAL_BUFFERSIZE fuel [] f with _ | ⟨⟨v, s⟩, f₁⟩
    · rw [hline] at hf
      exact absurd hf.symm (Option.some_ne_none _)
    · obtain ⟨g₁, hline', hleft⟩ := seen_some hagree hline
      simp only [hline, Option.some.injEq, Prod.mk.injEq] at hf
      simp only [hline', Option.some.injEq, Prod.mk.injEq] at hg
      obtain ⟨⟨rfl, rfl⟩, rfl⟩ := hf
      obtain ⟨⟨rfl, rfl⟩, rfl⟩ := hg
      exact ⟨iff_of_true rfl trivial, fun _ => hleft⟩
  | cons fmt fmts => exact readFormats_agree hz hunsigned fuel (fmt :: fmts) hfg hf hg

theorem Liolib.f_read_returns (hsize : 2 ≤ LUAL_BUFFERSIZE) (fuel : Nat) (fmts : List Format)
    (f : Stream) (hfuel : f.rest.length < fuel) :
    ∃ o f', Liolib.f_read LUAL_BUFFERSIZE fuel fmts f = some (o, f') ∧
      f'.rest.length ≤ f.rest.length := by
  rw [Liolib.f_read, Liolib.g_read]
  split
  · obtain ⟨a, f', hret, hleft⟩ := Library.readArguments_returns (Liolib.library_consumes hsize)
      (Nat.lt_of_lt_of_le Nat.two_pos hsize) fuel fmts f.clearerr hfuel
    rw [hret]
    exact ⟨_, f', rfl, hleft⟩
  · exact ⟨_, _, rfl, Nat.le_refl _⟩

theorem Lgziolib.f_read_returns (hz : Behaves z content) (hsize : 2 ≤ LUAL_BUFFERSIZE)
    (hunsigned : LUAL_BUFFERSIZE < 2 ^ 32) (fuel : Nat) (fmts : List Format) (g : G)
    (hfuel : (content g).rest.length < fuel) :
    ∃ o g', Lgziolib.f_read z LUAL_BUFFERSIZE fuel fmts g = some (o, g') ∧
      (content g').rest.length ≤ (content g).rest.length := by
  rw [Lgziolib.f_read, Lgziolib.g_read]
  split
  · obtain ⟨a, g', hret, hleft⟩ :=
      Library.readArguments_returns (Lgziolib.library_consumes hz hsize hunsigned)
        (Nat.lt_of_lt_of_le Nat.two_pos hsize) fuel fmts g hfuel
    rw [hret]
    by_cases herr : z.gzerror g' ≠ Z_OK ∧ z.gzerror g' ≠ Z_STREAM_END
    · exact ⟨_, g', if_pos herr, hleft⟩
    · exact ⟨_, g', if_neg herr, hleft⟩
  · exact ⟨_, g, rfl, Nat.le_refl _⟩

/-- One call on each file, from the same position. -/
theorem f_read_agrees (hz : Behaves z content) (hunsigned : LUAL_BUFFERSIZE < 2 ^ 32) (fuel : Nat)
    (fmts : List Format) {f f' : Stream} {g g' : G} (hfg : f.rest = (content g).rest)
    {o o' : Outcome} (hf : Liolib.f_read LUAL_BUFFERSIZE fuel fmts f = some (o, f'))
    (hg : Lgziolib.f_read z LUAL_BUFFERSIZE fuel fmts g = some (o', g')) :
    (o = o' ↔
        (checkstack fmts.length = true → TestsMeetEnd z content LUAL_BUFFERSIZE fuel fmts g)) ∧
      (o = o' → f'.rest = (content g').rest) := by
  rw [Liolib.f_read, Liolib.g_read] at hf
  rw [Lgziolib.f_read, Lgziolib.g_read] at hg
  by_cases hcheck : checkstack fmts.length = true
  · simp only [if_pos hcheck] at hf hg
    rcases hargs : Liolib.library.readArguments LUAL_BUFFERSIZE fuel fmts f.clearerr with
      _ | ⟨⟨vs, s⟩, f₁⟩
    · rw [hargs] at hf
      exact absurd hf.symm (Option.some_ne_none _)
    rcases hargs' : (Lgziolib.library z).readArguments LUAL_BUFFERSIZE fuel fmts g with
      _ | ⟨⟨vs', s'⟩, g₁⟩
    · rw [hargs'] at hg
      exact absurd hg.symm (Option.some_ne_none _)
    obtain ⟨hiff, hleft⟩ := readArguments_agree (f := f.clearerr) hz hunsigned fuel fmts hfg hargs
      hargs'
    have herr : ¬ (z.gzerror g₁ ≠ Z_OK ∧ z.gzerror g₁ ≠ Z_STREAM_END) := fun h =>
      (hz.gzerror g₁).elim h.1 h.2
    simp only [hargs, Option.some.injEq, Prod.mk.injEq] at hf
    simp only [hargs', if_neg herr, Option.some.injEq, Prod.mk.injEq] at hg
    obtain ⟨rfl, rfl⟩ := hf
    obtain ⟨rfl, rfl⟩ := hg
    rw [Outcome.returned.injEq, hiff]
    exact ⟨⟨fun h _ => h, fun h => h hcheck⟩, hleft⟩
  · simp only [if_neg hcheck, Option.some.injEq, Prod.mk.injEq] at hf hg
    obtain ⟨rfl, rfl⟩ := hf
    obtain ⟨rfl, rfl⟩ := hg
    exact ⟨iff_of_true rfl fun h => absurd h hcheck, fun _ => hfg⟩

theorem calls_cons {F : Type} {f_read : List Format → F → Option (Outcome × F)}
    {fmts : List Format} {cs : List (List Format)} {f f' : F} {os : List Outcome}
    (h : calls f_read (fmts :: cs) f = some (os, f')) :
    ∃ o f₁ os₁, f_read fmts f = some (o, f₁) ∧ calls f_read cs f₁ = some (os₁, f') ∧
      os = o :: os₁ := by
  rw [calls] at h
  rcases hcall : f_read fmts f with _ | ⟨o, f₁⟩
  · rw [hcall] at h
    exact absurd h.symm (Option.some_ne_none _)
  rcases hrest : calls f_read cs f₁ with _ | ⟨os₁, f₂⟩
  · simp only [hcall, hrest] at h
    exact absurd h.symm (Option.some_ne_none _)
  simp only [hcall, hrest, Option.some.injEq, Prod.mk.injEq] at h
  obtain ⟨rfl, rfl⟩ := h
  exact ⟨o, f₁, os₁, rfl, hrest, rfl⟩

theorem calls_agree (hz : Behaves z content) (hunsigned : LUAL_BUFFERSIZE < 2 ^ 32) (fuel : Nat)
    (cs : List (List Format)) {f f' : Stream} {g g' : G} (hfg : f.rest = (content g).rest)
    {os os' : List Outcome} (hf : calls (Liolib.f_read LUAL_BUFFERSIZE fuel) cs f = some (os, f'))
    (hg : calls (Lgziolib.f_read z LUAL_BUFFERSIZE fuel) cs g = some (os', g')) :
    (os = os' ↔ CallsMeetEnd z content LUAL_BUFFERSIZE fuel cs g) ∧
      (os = os' → f'.rest = (content g').rest) := by
  induction cs generalizing f g os os' with
  | nil =>
    simp only [calls, Option.some.injEq, Prod.mk.injEq] at hf hg
    obtain ⟨rfl, rfl⟩ := hf
    obtain ⟨rfl, rfl⟩ := hg
    exact ⟨iff_of_true rfl trivial, fun _ => hfg⟩
  | cons fmts cs ih =>
    obtain ⟨o, f₁, os₁, hcall, hrest, rfl⟩ := calls_cons hf
    obtain ⟨o', g₁, os₁', hcall', hrest', rfl⟩ := calls_cons hg
    obtain ⟨hiff, hleft⟩ := f_read_agrees hz hunsigned fuel fmts hfg hcall hcall'
    have hmeets : CallsMeetEnd z content LUAL_BUFFERSIZE fuel (fmts :: cs) g ↔
        o = o' ∧ CallsMeetEnd z content LUAL_BUFFERSIZE fuel cs g₁ := by
      rw [hiff]
      constructor
      · intro h
        exact ⟨h.1, h.2 o' g₁ hcall'⟩
      · intro h
        refine ⟨h.1, ?_⟩
        intro o₂ g₂ h₂
        rw [hcall'] at h₂
        simp only [Option.some.injEq, Prod.mk.injEq] at h₂
        exact h₂.2 ▸ h.2
    rw [hmeets, List.cons.injEq]
    constructor
    · constructor
      · intro h
        exact ⟨h.1, (ih (hleft h.1) hrest hrest').1.mp h.2⟩
      · intro h
        exact ⟨h.1, (ih (hleft h.1) hrest hrest').1.mpr h.2⟩
    · intro h
      exact (ih (hleft h.1) hrest hrest').2 h.2

/-- From one position, the same calls return the same values and leave the same position exactly
when no test for the end of the file finds something left, or finds the end where a read has come up
short. -/
theorem gz_reads_like_plain_iff (hz : Behaves z content) (hsize : 2 ≤ LUAL_BUFFERSIZE)
    (hunsigned : LUAL_BUFFERSIZE < 2 ^ 32) (cs : List (List Format)) {f : Stream} {g : G}
    (hfg : f.rest = (content g).rest) {fuel : Nat} (hfuel : f.rest.length < fuel) :
    ∃ os f' os' g', calls (Liolib.f_read LUAL_BUFFERSIZE fuel) cs f = some (os, f') ∧
      calls (Lgziolib.f_read z LUAL_BUFFERSIZE fuel) cs g = some (os', g') ∧
      ((os = os' ∧ f'.rest = (content g').rest) ↔
        CallsMeetEnd z content LUAL_BUFFERSIZE fuel cs g) := by
  obtain ⟨os, f', hplain⟩ := calls_returns (fun f : Stream => f.rest.length)
    (Liolib.f_read_returns hsize fuel) cs f hfuel
  obtain ⟨os', g', hgz⟩ := calls_returns (fun g => (content g).rest.length)
    (Lgziolib.f_read_returns hz hsize hunsigned fuel) cs g (hfg ▸ hfuel)
  obtain ⟨hiff, hleft⟩ := calls_agree hz hunsigned fuel cs hfg hplain hgz
  refine ⟨os, f', os', g', hplain, hgz, ?_⟩
  rw [← hiff]
  constructor
  · intro h
    exact h.1
  · intro h
    exact ⟨h, hleft h⟩

/-- Nothing is left of either file, and the test fails on both. -/
theorem gz_reads_like_plain_empty :
    ∃ os f' os' g', calls (Liolib.f_read 1024 1) [[.count 0]] (Stream.opened []) = some (os, f') ∧
      calls (Lgziolib.f_read Zlib.ofStream 1024 1) [[.count 0]] (Stream.opened []) =
        some (os', g') ∧ os = os' ∧ f'.rest = (id g').rest := by
  obtain ⟨os, f', os', g', hplain, hgz, hiff⟩ := gz_reads_like_plain_iff behaves_ofStream
    (show 2 ≤ 1024 by decide) (by decide) [[.count 0]] (f := Stream.opened [])
    (g := Stream.opened []) rfl (show 0 < 1 by decide)
  have hmeets : CallsMeetEnd Zlib.ofStream id 1024 1 [[.count 0]] (Stream.opened []) :=
    ⟨fun _ => (testsMeetEnd_test behaves_ofStream).mpr ⟨rfl, rfl⟩, fun _ _ _ => trivial⟩
  exact ⟨os, f', os', g', hplain, hgz, hiff.mpr hmeets⟩

/-- `read(0)` at the start of a file of one byte: the empty string from a plain file, and nil from a
gzip file. -/
theorem gz_read_zero_differs :
    (calls (Liolib.f_read 1024 2) [[.count 0]] (Stream.opened [97])).map Prod.fst =
        some [.returned [some []]] ∧
      (calls (Lgziolib.f_read Zlib.ofStream 1024 2) [[.count 0]] (Stream.opened [97])).map
        Prod.fst = some [.returned [none]] := by
  decide

end Luaxx.Io
