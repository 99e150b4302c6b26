import Luaxx.Lib.First
import Luaxx.Pattern.Strlib

/-!
# The plain search

`string.find` searches for the pattern itself where it contains none of `SPECIALS`. These leave out
`)`, which the matcher takes for the end of a capture: the two searches agree unless the general one
comes to a `)`.
-/

namespace Luaxx.Pattern

open Luaxx.Ctype Luaxx.Result Luaxx.Vm Luaxx.First

variable {src p : List UInt8}

/-- The bytes occur at a position of the subject. -/
def Occurs (src p : List UInt8) (i : Nat) : Prop := p <+: src.drop i

instance : Decidable (Occurs src p i) := inferInstanceAs (Decidable (_ <+: _))

/-! ## `lmemfind` -/

theorem memchr_spec (s : List UInt8) (c : UInt8) {n : Nat} (hn : n ≤ s.length) :
    match memchr s c n with
    | some k => k < n ∧ s[k]? = some c ∧ ∀ j < k, s[j]? ≠ some c
    | none => ∀ j < n, s[j]? ≠ some c := by
  rw [memchr]
  cases hfind : (s.take n).findIdx? (· == c) with
  | none =>
    intro j hj hget
    rw [List.findIdx?_eq_none_iff] at hfind
    have hmem : c ∈ s.take n := List.mem_of_getElem? (i := j) (by rw [List.getElem?_take_of_lt hj, hget])
    have := hfind c hmem
    simp at this
  | some k =>
    rw [List.findIdx?_eq_some_iff_getElem] at hfind
    obtain ⟨hk, hc, hbefore⟩ := hfind
    rw [List.length_take] at hk
    refine ⟨by omega, ?_, fun j hj hget => ?_⟩
    · rw [List.getElem_take, beq_iff_eq] at hc
      rw [List.getElem?_eq_getElem (by omega), hc]
    · have := hbefore j hj
      rw [List.getElem_take, beq_iff_eq] at this
      rw [List.getElem?_eq_getElem (by omega), Option.some.injEq] at hget
      exact this hget

theorem occurs_cons {x : UInt8} {q : List UInt8} {i : Nat} :
    Occurs src (x :: q) i ↔ src[i]? = some x ∧ Occurs src q (i + 1) := by
  rw [Occurs, Occurs]
  by_cases hi : i < src.length
  · rw [List.drop_eq_getElem_cons hi, List.cons_prefix_cons, List.getElem?_eq_getElem hi,
      Option.some.injEq, eq_comm]
  · rw [List.drop_eq_nil_of_le (by omega), List.getElem?_eq_none (by omega), List.prefix_nil]
    simp

theorem Occurs.le {i : Nat} (h : Occurs src p i) (hp : p ≠ []) : i + p.length ≤ src.length := by
  have hlen := h.length_le
  rw [List.length_drop] at hlen
  have := List.length_pos_iff.mpr hp
  omega

theorem lmemfindLoop_spec {x : UInt8} {q : List UInt8} {fuel pos l1 : Nat} (hfuel : l1 ≤ fuel)
    (hlen : pos + l1 + q.length = src.length) :
    IsFirst (Occurs src (x :: q)) pos src.length
      (lmemfindLoop (x :: q) fuel pos (src.drop pos) l1) := by
  -- where less than the pattern is left there is no occurrence
  have hend : ∀ j, pos + l1 ≤ j → ¬ Occurs src (x :: q) j := by
    intro j hj hoccurs
    have := hoccurs.le (List.cons_ne_nil x q)
    rw [List.length_cons] at this
    omega
  induction fuel generalizing pos l1 with
  | zero =>
    intro j h1 h2
    exact hend j (by omega)
  | succ fuel ih =>
    rw [lmemfindLoop]
    split_ifs with hl1
    swap
    · intro j h1 h2
      exact hend j (by omega)
    have hspec := memchr_spec (src.drop pos) x (n := l1) (by rw [List.length_drop]; omega)
    simp only [deref_cons]
    cases hmem : memchr (src.drop pos) x l1 with
    | none =>
      simp only [hmem, List.getElem?_drop] at hspec
      intro j h1 h2 hoccurs
      by_cases hj : j < pos + l1
      · refine hspec (j - pos) (by omega) ?_
        rw [Nat.add_sub_cancel' h1]
        exact (occurs_cons.mp hoccurs).1
      · exact hend j (by omega) hoccurs
    | some k =>
      simp only [hmem, List.getElem?_drop] at hspec
      obtain ⟨hk, hx, hbefore⟩ := hspec
      have hskip : ∀ j, pos ≤ j → j < pos + k → ¬ Occurs src (x :: q) j := by
        intro j h1 h2 hoccurs
        refine hbefore (j - pos) (by omega) ?_
        rw [Nat.add_sub_cancel' h1]
        exact (occurs_cons.mp hoccurs).1
      simp only [List.tail_cons, List.drop_drop]
      have hq : ((src.drop (pos + (k + 1))).take q.length = q) ↔ Occurs src q (pos + k + 1) := by
        rw [Occurs, List.prefix_iff_eq_take, eq_comm, Nat.add_assoc]
      split_ifs with hcmp
      · refine IsFirst.skip (Nat.le_add_right pos k) hskip (.here (by omega) ?_)
        exact occurs_cons.mpr ⟨hx, hq.mp hcmp⟩
      · refine IsFirst.skip (Nat.le_add_right pos k) hskip (.next ?_ ?_)
        · exact fun hoccurs => hcmp (hq.mpr (occurs_cons.mp hoccurs).2)
        · exact ih (by omega) (by omega) fun j hj => hend j (by omega)

/-- `lmemfind` finds the first occurrence. -/
theorem lmemfind_spec (s1 s2 : List UInt8) :
    IsFirst (Occurs s1 s2) 0 s1.length (lmemfind s1 s2) := by
  rw [lmemfind]
  rcases s2 with _ | ⟨x, q⟩
  · rw [if_pos List.length_nil]
    exact .here (Nat.zero_le _) List.nil_prefix
  rw [if_neg (by simp)]
  split_ifs with hlen
  · intro j h1 h2 hoccurs
    have := hoccurs.le (List.cons_ne_nil x q)
    omega
  · simp only [List.length_cons, List.tail_cons] at hlen ⊢
    exact lmemfindLoop_spec (Nat.le_refl _) (by omega)

/-! ## The matcher on characters -/

/-- A character without a meaning. -/
def Literal (x : UInt8) : Prop := x ≠ 0 ∧ x ∉ SPECIALS ∧ x ≠ ch ')'

theorem Literal.ne {x y : UInt8} (hx : Literal x) (hy : y = 0 ∨ y ∈ SPECIALS ∨ y = ch ')') : x ≠ y := by
  obtain ⟨h0, hspecial, hclose⟩ := hx
  rcases hy with rfl | hy | rfl
  · exact h0
  · exact fun h => hspecial (h ▸ hy)
  · exact hclose

theorem matchBody_literal {rec : MatchState → Nat → List UInt8 → Result} {ms : MatchState} {s : Nat}
    {x : UInt8} {q : List UInt8} (hx : Literal x) (hq : deref q ∉ chars "?*+-") :
    matchBody src rec ms s (x :: q) =
      if src[s]? = some x then rec ms (s + 1) q else pure (none, ms) := by
  have hopen : x ≠ ch '(' := hx.ne (by decide)
  have hclose : x ≠ ch ')' := hx.ne (by decide)
  have hesc : x ≠ ch L_ESC := hx.ne (by decide)
  have hend : x ≠ 0 := hx.ne (by decide)
  have hdollar : x ≠ ch '$' := hx.ne (by decide)
  have hset : x ≠ ch '[' := hx.ne (by decide)
  have hdot : x ≠ ch '.' := hx.ne (by decide)
  have hq1 : deref q ≠ ch '?' := fun h => hq (h ▸ by decide)
  have hq2 : deref q ≠ ch '*' := fun h => hq (h ▸ by decide)
  have hq3 : deref q ≠ ch '+' := fun h => hq (h ▸ by decide)
  have hq4 : deref q ≠ ch '-' := fun h => hq (h ▸ by decide)
  have hm : (decide (s < src.length) && singlematch (srcAt src s) (x :: q) q) = true ↔
      src[s]? = some x := by
    simp only [singlematch, deref_cons, hdot, hesc, hset, if_false, Bool.and_eq_true,
      decide_eq_true_eq, beq_iff_eq, srcAt, List.getD_eq_getElem?_getD]
    by_cases hs : s < src.length
    · simp [hs, eq_comm]
    · simp [hs]
  simp only [matchBody, matchItem, classend, deref_cons, hopen, hclose, hesc, hend, hdollar, hset,
    hq1, hq2, hq3, hq4, if_false, List.tail_cons, ok_bind, hm]

/-- Literal characters are matched one by one, without captures. -/
theorem matchFuel_literals {lits rest : List UInt8} (fuel : Nat) (hlits : ∀ x ∈ lits, Literal x)
    (hrest : deref rest ∉ chars "?*+-") (ms : MatchState) (s : Nat) :
    matchFuel src (lits.length + fuel) ms s (lits ++ rest) =
      if Occurs src lits s then matchFuel src fuel ms (s + lits.length) rest
      else pure (none, ms) := by
  induction lits generalizing s with
  | nil => simp [Occurs]
  | cons x lits ih =>
    have hx : Literal x := hlits x List.mem_cons_self
    have hlits' : ∀ y ∈ lits, Literal y := fun y hy => hlits y (List.mem_cons_of_mem x hy)
    have hnext : deref (lits ++ rest) ∉ chars "?*+-" := by
      rcases lits with _ | ⟨y, lits⟩
      · exact hrest
      · intro hmem
        refine (hlits' y List.mem_cons_self).2.1 ?_
        exact (by decide : ∀ z ∈ chars "?*+-", z ∈ SPECIALS) y hmem
    rw [List.length_cons, Nat.add_right_comm, List.cons_append, matchFuel,
      matchBody_literal hx hnext, ih hlits']
    simp only [occurs_cons, Nat.add_assoc, Nat.add_comm 1]
    by_cases hc : src[s]? = some x
    · simp [hc]
    · simp [hc]

/-- Literal characters, and then either the end of the pattern or a `)` that closes nothing. -/
theorem do_match_literals {lits rest : List UInt8} (hlits : ∀ x ∈ lits, Literal x)
    (hrest : rest = [] ∨ deref rest = ch ')') {ms : MatchState} (hms : ms.level = 0) (s : Nat) :
    do_match src ms s (lits ++ rest) =
      if Occurs src lits s then
        if rest = [] then .ok (some (s + lits.length), ms) else .error "invalid pattern capture"
      else .ok (none, ms) := by
  have hnext : deref rest ∉ chars "?*+-" := by
    rcases hrest with rfl | h
    · decide
    · rw [h]
      decide
  rw [do_match, List.length_append, Nat.add_assoc, matchFuel_literals _ hlits hnext]
  rcases hrest with rfl | h
  · rfl
  · have hne : rest ≠ [] := by
      rintro rfl
      revert h
      decide
    have hopen : ch ')' ≠ ch '(' := by decide
    have hclose : matchFuel src (rest.length + 1) ms (s + lits.length) rest =
        .error "invalid pattern capture" := by
      simp [matchFuel, matchBody, h, hopen, end_capture, capture_to_close, hms, unfinishedBelow]
    rw [hclose, if_neg hne]
    rfl

/-! ## The two searches -/

/-- What `find` returns for a match of `n` characters. -/
def startAndEnd (n : Nat) : Option Nat → List TValue
  | some k => [integer (k + 1 : Nat), integer (k + n : Nat)]
  | none => [.nil]

/-- The general search for literal characters. -/
theorem searchLoop_literals {lits rest : List UInt8} (hlits : ∀ x ∈ lits, Literal x)
    (hrest : rest = [] ∨ deref rest = ch ')') (ms : MatchState) {fuel s1 : Nat} {r : Option Nat}
    (hfuel : src.length < fuel + s1) (hs : s1 ≤ src.length)
    (hr : IsFirst (Occurs src lits) s1 src.length r) :
    searchLoop src true false (lits ++ rest) fuel ms s1 =
      if rest = [] ∨ r = none then .ok (startAndEnd lits.length r)
      else .error "invalid pattern capture" := by
  induction fuel generalizing s1 ms with
  | zero => omega
  | succ fuel ih =>
    rw [searchLoop, do_match_literals hlits hrest rfl]
    by_cases hoccurs : Occurs src lits s1
    · obtain rfl := hr.unique (.here hs hoccurs)
      rw [if_pos hoccurs]
      by_cases hnil : rest = []
      · simp only [if_pos hnil, if_pos (Or.inl hnil), ok_bind, if_true]
        rfl
      · simp only [hnil, if_false, error_bind, reduceCtorEq, or_self]
    · rw [if_neg hoccurs]
      simp only [ok_bind, Bool.not_false, and_true]
      by_cases hlt : s1 < src.length
      · rw [if_pos hlt]
        refine ih _ (by omega) hlt ?_
        cases r with
        | none => exact fun j h1 h2 => hr j (by omega) h2
        | some k =>
          obtain ⟨h1, h2, hk, hbefore⟩ := hr
          have hne : k ≠ s1 := fun h => hoccurs (h ▸ hk)
          exact ⟨by omega, h2, hk, fun j hj => hbefore j (by omega)⟩
      · obtain rfl := hr.unique (.next hoccurs (isFirst_none (by omega)))
        rw [if_neg hlt, if_pos (Or.inr rfl)]
        rfl

theorem searchStart_le (src : List UInt8) (init : Int) : searchStart src init ≤ src.length := by
  simp only [searchStart]
  split_ifs <;> omega

/-- The plain search, by the first occurrence. -/
theorem plainSearch_eq {start : Nat} {r : Option Nat} (hstart : start ≤ src.length)
    (hr : IsFirst (Occurs src p) start src.length r) :
    plainSearch src p start = startAndEnd p.length r := by
  have hshift : ∀ i, Occurs (src.drop start) p i ↔ Occurs src p (start + i) := by
    intro i
    rw [Occurs, List.drop_drop, Occurs]
  have hfind := lmemfind_spec (src.drop start) p
  rw [plainSearch]
  cases hmem : lmemfind (src.drop start) p with
  | none =>
    rw [hmem] at hfind
    suffices hnone : IsFirst (Occurs src p) start src.length none by
      rw [hr.unique hnone]
      rfl
    intro j h1 h2 hoccurs
    refine hfind (j - start) (Nat.zero_le _) (by rw [List.length_drop]; omega) ?_
    rwa [hshift, Nat.add_sub_cancel' h1]
  | some k =>
    rw [hmem] at hfind
    obtain ⟨-, hk, hoccurs, hbefore⟩ := hfind
    rw [List.length_drop] at hk
    suffices hsome : IsFirst (Occurs src p) start src.length (some (start + k)) by
      rw [hr.unique hsome]
      rfl
    refine ⟨by omega, by omega, (hshift k).mp hoccurs, fun j h1 h2 hj => ?_⟩
    refine hbefore (j - start) (Nat.zero_le _) (by omega) ?_
    rwa [hshift, Nat.add_sub_cancel' h1]

/-! ## The choice of `find` -/

theorem literals_of_strpbrk (h0 : 0 ∉ p) (hp : strpbrk p SPECIALS = false) :
    ∀ x ∈ p.takeWhile (· ≠ ch ')'), Literal x := by
  intro x hx
  have hmem : x ∈ p := (List.takeWhile_prefix _).subset hx
  have hclose := List.mem_takeWhile_imp hx
  have hcstr : cstr p = p := by
    rw [cstr, List.takeWhile_eq_self_iff]
    intro y hy
    rw [decide_eq_true_eq]
    rintro rfl
    exact h0 hy
  rw [strpbrk, hcstr, List.any_eq_false] at hp
  refine ⟨?_, ?_, by simpa using hclose⟩
  · rintro rfl
    exact h0 hmem
  · simpa using hp x hmem

/-- The first occurrence, which every search has. -/
theorem exists_isFirst (P : Nat → Prop) [DecidablePred P] (lo hi : Nat) :
    ∃ r, IsFirst P lo hi r := by
  by_cases h : ∃ i, lo ≤ i ∧ i ≤ hi ∧ P i
  · obtain ⟨h1, h2, h3⟩ := Nat.find_spec h
    refine ⟨some (Nat.find h), h1, h2, h3, fun j hj hlt hP => ?_⟩
    exact Nat.find_min h hlt ⟨hj, by omega, hP⟩
  · exact ⟨none, fun j h1 h2 hP => h ⟨j, h1, h2, hP⟩⟩

theorem deref_dropWhile (x : UInt8) (p : List UInt8) :
    p.dropWhile (· ≠ x) = [] ∧ x ∉ p ∨
      p.dropWhile (· ≠ x) ≠ [] ∧ deref (p.dropWhile (· ≠ x)) = x ∧ x ∈ p := by
  cases hdrop : p.dropWhile (· ≠ x) with
  | nil =>
    rw [List.dropWhile_eq_nil_iff] at hdrop
    refine .inl ⟨rfl, fun hx => ?_⟩
    have := hdrop x hx
    simp at this
  | cons y q =>
    have hy : y = x := by
      have := List.head?_dropWhile_not (fun z => decide (z ≠ x)) p
      rw [hdrop] at this
      simpa using this
    subst hy
    refine .inr ⟨List.cons_ne_nil y q, rfl, ?_⟩
    exact (List.dropWhile_suffix (fun z => decide (z ≠ y))).subset (hdrop ▸ List.mem_cons_self)

/-- There is no first occurrence where there is none at all. -/
theorem isFirst_occurs_none {start : Nat} {r : Option Nat} (hstart : start ≤ src.length)
    (hr : IsFirst (Occurs src p) start src.length r) :
    r = none ↔ ∀ i, start ≤ i → ¬ Occurs src p i := by
  constructor
  · rintro rfl i hi hoccurs
    by_cases hle : i ≤ src.length
    · exact hr i hi hle hoccurs
    · by_cases hp : p = []
      · subst hp
        exact hr start (Nat.le_refl _) hstart List.nil_prefix
      · have := hoccurs.le hp
        omega
  · intro h
    cases r with
    | none => rfl
    | some k => exact absurd hr.2.2.1 (h k hr.1)

/-- `find` may search for a pattern without `SPECIALS` as it is, unless the general search comes to
a `)`: what the pattern has before its first `)` must then occur nowhere. -/
theorem find_plainly (garbage : Nat → CaptureSlot) (src p : List UInt8) (init : Int) (h0 : 0 ∉ p)
    (hp : strpbrk p SPECIALS = false) :
    str_find_aux garbage src p true init false =
        patternSearch garbage src p true (searchStart src init) ↔
      ch ')' ∉ p ∨
        ∀ i, searchStart src init ≤ i → ¬ Occurs src (p.takeWhile (· ≠ ch ')')) i := by
  have hlits := literals_of_strpbrk h0 hp
  have hstart := searchStart_le src init
  obtain ⟨r, hr⟩ := exists_isFirst (Occurs src p) (searchStart src init) src.length
  obtain ⟨r', hr'⟩ :=
    exists_isFirst (Occurs src (p.takeWhile (· ≠ ch ')'))) (searchStart src init) src.length
  have hsplit : p.takeWhile (· ≠ ch ')') ++ p.dropWhile (· ≠ ch ')') = p :=
    List.takeWhile_append_dropWhile
  have hanchor : (deref p == ch '^') = false := by
    rw [beq_eq_false_iff_ne]
    rcases p with _ | ⟨x, q⟩
    · decide
    · intro hx
      have hmem : x ∈ (x :: q).takeWhile (· ≠ ch ')') := by
        rw [deref_cons] at hx
        rw [hx, List.takeWhile_cons_of_pos (by decide)]
        exact List.mem_cons_self
      exact (hlits x hmem).ne (by decide) hx
  rw [← isFirst_occurs_none hstart hr', str_find_aux, if_pos ⟨rfl, Or.inr hp⟩,
    plainSearch_eq hstart hr, patternSearch]
  simp only [hanchor, Bool.false_eq_true, if_false]
  rcases deref_dropWhile (ch ')') p with ⟨hnil, hmem⟩ | ⟨hne, hderef, hmem⟩
  · have hgeneral := searchLoop_literals hlits (.inl hnil) ⟨0, garbage⟩
      (Nat.lt_add_right _ (Nat.lt_succ_self src.length)) hstart hr'
    rw [hsplit, if_pos (Or.inl hnil)] at hgeneral
    rw [hnil, List.append_nil] at hsplit
    rw [hsplit] at hr' hgeneral
    rw [hgeneral, hr.unique hr']
    exact ⟨fun _ => .inl hmem, fun _ => rfl⟩
  · have hgeneral := searchLoop_literals hlits (.inr hderef) ⟨0, garbage⟩
      (Nat.lt_add_right _ (Nat.lt_succ_self src.length)) hstart hr'
    rw [hsplit] at hgeneral
    rw [hgeneral]
    simp only [hne, false_or, hmem, not_true_eq_false]
    constructor
    · intro h
      split_ifs at h with hnone
      exact hnone
    · intro hnone
      have hr0 : r = none := by
        rw [isFirst_occurs_none hstart hr]
        intro i hi hoccurs
        refine (isFirst_occurs_none hstart hr').mp hnone i hi ?_
        exact (List.takeWhile_prefix _).trans hoccurs
      rw [if_pos hnone, hr0, hnone]
      rfl

theorem find_plainly_word :
    str_find_aux (fun _ => ⟨0, 0⟩) (chars "a)b") (chars "b") true 1 false =
        patternSearch (fun _ => ⟨0, 0⟩) (chars "a)b") (chars "b") true
          (searchStart (chars "a)b") 1) ↔
      ch ')' ∉ chars "b" ∨ ∀ i, searchStart (chars "a)b") 1 ≤ i →
        ¬ Occurs (chars "a)b") ((chars "b").takeWhile (· ≠ ch ')')) i :=
  find_plainly (fun _ => ⟨0, 0⟩) (chars "a)b") (chars "b") 1 (by decide) (by decide)

/-- A `)` is found where it stands, while the matcher complains about it. -/
theorem parenthesis_found :
    0 ∉ chars ")" ∧ strpbrk (chars ")") SPECIALS = false ∧
      (∀ garbage : Nat → CaptureSlot,
        str_find_aux garbage (chars "a)") (chars ")") true 1 false = .ok [integer 2, integer 2] ∧
        patternSearch garbage (chars "a)") (chars ")") true (searchStart (chars "a)") 1) =
          .error "invalid pattern capture") := by
  refine ⟨by decide, by decide, fun garbage => ⟨rfl, rfl⟩⟩

end Luaxx.Pattern
