import Luaxx.Http.Encoding
import Luaxx.Http.Pointers

/-!
# The result of `concat_url` fits

Every step with pointers does to the copy of the base what the step on its strings does, and the two
loops over the reference agree. Nothing is read or written outside of a block, and the block of the
result starts with the resolved URL and its NUL.
-/

namespace Luaxx.Http.Pointers

open Luaxx.Ctype Luaxx.Cstring Luaxx.Memory Luaxx.Spans

variable {x s u v front back : List UInt8} {c : UInt8} {left : Bool} {url : Clone}

/-! ## The reference -/

theorem passDot_eq (s : List UInt8) : passDot (s ++ [0]) = some (undotted s ++ [0]) := by
  rw [undotted]
  by_cases h : chars "./" <+: s
  · rw [if_pos (hasPrefix_iff.2 h)]
    obtain ⟨t, rfl⟩ := h
    rfl
  · rw [if_neg (fun hp => h (hasPrefix_iff.1 hp))]
    rcases s with _ | ⟨a, _ | ⟨b, s⟩⟩
    · rfl
    · exact if_neg (fun hdot => absurd hdot.2 (by decide))
    · refine if_neg fun hdot => h ?_
      rw [hdot.1, hdot.2]
      exact ⟨s, rfl⟩

theorem passLevels_eq (s : List UInt8) :
    passLevels (s ++ [0]) = some ((levels s).1, (levels s).2 ++ [0]) := by
  induction hlen : s.length using Nat.strongRecOn generalizing s with
  | ind n ih =>
    rcases s with _ | ⟨a, _ | ⟨b, _ | ⟨c, s⟩⟩⟩
    · rfl
    · exact if_neg (fun hdot => absurd hdot.2 (by decide))
    · exact if_neg (fun hdot => absurd hdot.2.2 (by decide))
    · by_cases hdots : a = ch '.' ∧ b = ch '.' ∧ c = ch '/'
      · rw [List.cons_append, List.cons_append, List.cons_append, passLevels, levels, if_pos hdots,
          if_pos hdots, ih s.length (by
            rw [← hlen, List.length_cons, List.length_cons, List.length_cons]
            omega) s rfl]
        rfl
      · rw [List.cons_append, List.cons_append, List.cons_append, passLevels, levels, if_neg hdots,
          if_neg hdots]
        rfl

theorem countNew_eq (h0 : 0 ∉ s) (sep : Nat) (left : Bool) :
    countNew sep left (s ++ [0]) = some ((s.take sep).length + newlen left (s.drop sep)) := by
  induction s generalizing sep left with
  | nil =>
    rw [List.take_nil, List.drop_nil]
    rfl
  | cons c s ih =>
    have hc : c ≠ 0 := fun h => h0 (h ▸ List.mem_cons_self)
    have ih := ih (fun hmem => h0 (List.mem_cons_of_mem c hmem))
    rw [List.cons_append]
    cases sep with
    | succ sep =>
      rw [countNew, if_neg hc, ih, List.take_succ_cons, List.drop_succ_cons, List.length_cons, Option.map_some]
      congr 1
      omega
    | zero =>
      rw [countNew, if_neg hc, List.take_zero, List.drop_zero, newlen, ih, ih, List.take_zero, List.drop_zero,
        List.length_nil, Nat.zero_add, Nat.zero_add, Nat.zero_add]
      split <;> rfl

/-! ## The copy of the base -/

theorem cutAt_first (h : Holds x (front ++ back)) (c : UInt8) :
    ∃ p y, Cstring.strchr x front.length c = some p ∧ cutAt x p = some y ∧
      Holds y (front ++ back.takeWhile (· ≠ c)) := by
  by_cases hc : c ∈ back
  · obtain ⟨s, t, rfl, hs⟩ := List.eq_append_cons_of_mem hc
    have hcut := h
    rw [← List.append_assoc] at hcut
    obtain ⟨y, hy, hholds⟩ := hcut.cut
    rw [List.length_append] at hy
    refine ⟨_, y, h.strchr_some hs, hy, ?_⟩
    rw [(span_ne hs t).1]
    exact hholds
  · refine ⟨none, x, h.strchr_none hc, rfl, ?_⟩
    rw [(span_ne_end hc).1]
    exact h

theorem cutAt_last (h : Holds x (front ++ back)) (c : UInt8) :
    ∃ p y, Cstring.strrchr x front.length c = some p ∧ cutAt x p = some y ∧
      Holds y (front ++ (cutLast back c).getD back) := by
  by_cases hc : c ∈ back
  · obtain ⟨s, t, rfl, ht⟩ := exists_last hc
    have hcut := h
    rw [← List.append_assoc] at hcut
    obtain ⟨y, hy, hholds⟩ := hcut.cut
    rw [List.length_append] at hy
    refine ⟨_, y, h.strrchr_some ht, hy, ?_⟩
    rw [cutLast_some ht]
    exact hholds
  · refine ⟨none, x, h.strrchr_none hc, rfl, ?_⟩
    rw [cutLast_none hc]
    exact h

theorem dropLevels_eq (h : Holds x (front ++ back)) (level : Nat) :
    ∃ y, dropLevels level x front.length = some y ∧ Holds y (front ++ cutLevels level back) := by
  induction level generalizing x back with
  | zero => exact ⟨x, rfl, h⟩
  | succ level ih =>
    by_cases hslash : ch '/' ∈ back
    · obtain ⟨s, t, rfl, ht⟩ := exists_last hslash
      have hcut := h
      rw [← List.append_assoc] at hcut
      obtain ⟨y, hy, hholds⟩ := hcut.cut
      rw [List.length_append] at hy
      obtain ⟨z, hz, hzholds⟩ := ih hholds
      refine ⟨z, ?_, ?_⟩
      · rw [dropLevels, h.strrchr_some ht]
        show (put x (front.length + s.length) 0 >>= fun x => dropLevels level x front.length) = _
        rw [hy]
        exact hz
      · rw [cutLevels, cutLast_some ht]
        exact hzholds
    · obtain ⟨y, hy, hholds⟩ := h.cut
      refine ⟨y, ?_, ?_⟩
      · rw [dropLevels, h.strrchr_none hslash]
        exact hy
      · rw [cutLevels, cutLast_none hslash, List.append_nil]
        exact hholds

/-- `protsep`, as an index. -/
def protsepOf (url : Clone) : Option Nat := if url.isNull then none else some url.front.length

theorem atPath_eq (h : Holds x url.text) :
    ∃ p, Cstring.strchr x url.front.length (ch '/') = some p ∧
      p.map (· + 1) = protsepOf (atPath url) := by
  by_cases hslash : ch '/' ∈ url.back
  · obtain ⟨s, t, hback, hs⟩ := List.eq_append_cons_of_mem hslash
    rw [Clone.text, hback] at h
    refine ⟨_, h.strchr_some hs, ?_⟩
    rw [atPath, hback, (span_ne hs t).2, (span_ne hs t).1, protsepOf]
    show some (url.front.length + s.length + 1) = some (url.front ++ s ++ [ch '/']).length
    rw [List.length_append, List.length_append, List.length_singleton]
  · refine ⟨none, h.strchr_none hslash, ?_⟩
    rw [atPath, (span_ne_end hslash).2]
    rfl

theorem directory_eq (h : Holds x url.text) (relurl : List UInt8) :
    ∃ p y z, Cstring.strchr x url.front.length (ch '?') = some p ∧ cutAt x p = some y ∧
      cutSegment y url.front.length (relurl ++ [0]) = some z ∧
      Holds z (directory url relurl).text := by
  obtain ⟨p, y, hp, hy, hholds⟩ := cutAt_first h (ch '?')
  have hhead : (relurl ++ [0]).head? ≠ some (ch '?') ↔ relurl.head? ≠ some (ch '?') := by
    cases relurl with
    | nil => exact ⟨fun _ => by decide, fun _ => by decide⟩
    | cons c relurl => rfl
  rw [directory]
  by_cases hquery : relurl.head? ≠ some (ch '?')
  · obtain ⟨q, z, hq, hz, hzholds⟩ := cutAt_last hholds (ch '/')
    refine ⟨p, y, z, hp, hy, ?_, ?_⟩
    · rw [cutSegment, if_pos (hhead.2 hquery), hq]
      exact hz
    · rw [if_pos hquery]
      exact hzholds
  · refine ⟨p, y, y, hp, hy, if_neg (fun h => hquery (hhead.1 h)), ?_⟩
    rw [if_neg hquery]
    exact hholds

theorem dropFrom_eq (h : Holds x url.text) (level : Nat) :
    ∃ y, dropFrom level x (protsepOf url) = some y ∧ Holds y (climb level url).text ∧
      protsepOf (climb level url) = protsepOf url := by
  rw [climb]
  cases hnull : url.isNull with
  | true =>
    rw [if_pos rfl, protsepOf, hnull]
    exact ⟨x, rfl, h, rfl⟩
  | false =>
    obtain ⟨y, hy, hholds⟩ := dropLevels_eq h level
    rw [if_neg Bool.false_ne_true, protsepOf, protsepOf, hnull]
    exact ⟨y, hy, hholds, rfl⟩

theorem relativePath_eq (h : Holds x url.text) (relurl : List UInt8) :
    ∃ y, relativePath x url.front.length (relurl ++ [0]) =
        some (y, protsepOf (relative url relurl).1, (relative url relurl).2 ++ [0]) ∧
      Holds y (relative url relurl).1.text := by
  obtain ⟨p, y, z, hp, hy, hz, hholds⟩ := directory_eq h relurl
  have hfront : (directory url relurl).front = url.front := by
    rw [directory]
    split <;> rfl
  obtain ⟨q, hq, hprotsep⟩ := atPath_eq hholds
  rw [hfront] at hq
  rw [← atPath_text] at hholds
  obtain ⟨w, hw, hwholds, hsame⟩ := dropFrom_eq hholds (levels (undotted relurl)).1
  rw [relative_steps, hsame]
  refine ⟨w, ?_, hwholds⟩
  rw [relativePath, hp]
  show (cutAt x p >>= fun x => cutSegment x url.front.length (relurl ++ [0]) >>= fun x => _) = _
  rw [hy]
  show (cutSegment y url.front.length (relurl ++ [0]) >>= fun x =>
    Cstring.strchr x url.front.length (ch '/') >>= fun pathsep => _) = _
  rw [hz]
  show (Cstring.strchr z url.front.length (ch '/') >>= fun pathsep =>
    passDot (relurl ++ [0]) >>= fun useurl => _) = _
  rw [hq, passDot_eq]
  show (passLevels (undotted relurl ++ [0]) >>= fun r => _) = _
  rw [passLevels_eq]
  show (dropFrom (levels (undotted relurl)).1 z (q.map (· + 1)) >>= fun x =>
    some (x, q.map (· + 1), _)) = _
  rw [hprotsep, hw]
  rfl

/-- A string that ends at the first `c`. -/
theorem cut_at (h : Holds x (front ++ (s ++ c :: v))) (hc : c ∉ s) {url : Clone}
    (hfront : url.front = front) (hback : url.back = s ++ c :: v) :
    ∃ y, put x (front.length + s.length) 0 = some y ∧ Holds y (url.cut c).text := by
  rw [← List.append_assoc] at h
  obtain ⟨y, hy, hholds⟩ := h.cut
  rw [List.length_append] at hy
  refine ⟨y, hy, ?_⟩
  rw [Clone.cut, Clone.text, hfront, hback, (span_ne hc v).1]
  exact hholds

theorem rootedPath_eq (h : Holds x url.text) :
    ∃ y, rootedPath x url.front.length = some y ∧ Holds y (absolutePath url).text := by
  rw [rootedPath, absolutePath]
  by_cases hslash : ch '/' ∈ url.back
  · obtain ⟨s, t, hback, hs⟩ := List.eq_append_cons_of_mem hslash
    have hholds := h
    rw [Clone.text, hback] at hholds
    obtain ⟨y, hy, hyholds⟩ := cut_at hholds hs rfl hback
    have hsome : strchr url.back (ch '/') = some (ch '/' :: t) := by rw [hback, strchr_eq hs]
    rw [hholds.strchr_some hs, hsome]
    by_cases hquery : ch '?' ∈ url.back
    · obtain ⟨s', t', hback', hs'⟩ := List.eq_append_cons_of_mem hquery
      have hholds' := h
      rw [Clone.text, hback'] at hholds'
      obtain ⟨z, hz, hzholds⟩ := cut_at hholds' hs' rfl hback'
      have hsome' : strchr url.back (ch '?') = some (ch '?' :: t') := by rw [hback', strchr_eq hs']
      have hlen : s.length + (t.length + 1) = s'.length + (t'.length + 1) := by
        have hlengths := congrArg List.length (hback.symm.trans hback')
        rw [List.length_append, List.length_append, List.length_cons, List.length_cons] at hlengths
        exact hlengths
      rw [hsome']
      dsimp only
      rw [List.length_cons, List.length_cons]
      by_cases hfirst : s'.length < s.length
      · rw [if_pos (by omega : t.length + 1 < t'.length + 1)]
        refine ⟨z, ?_, hzholds⟩
        show (Cstring.strchr x url.front.length (ch '?') >>= _) = _
        rw [hholds'.strchr_some hs']
        show put x (if url.front.length + s'.length < url.front.length + s.length then
          url.front.length + s'.length else url.front.length + s.length) 0 = _
        rw [if_pos (by omega)]
        exact hz
      · rw [if_neg (by omega : ¬ t.length + 1 < t'.length + 1)]
        refine ⟨y, ?_, hyholds⟩
        show (Cstring.strchr x url.front.length (ch '?') >>= _) = _
        rw [hholds'.strchr_some hs']
        show put x (if url.front.length + s'.length < url.front.length + s.length then
          url.front.length + s'.length else url.front.length + s.length) 0 = _
        rw [if_neg (by omega)]
        exact hy
    · have hnone : strchr url.back (ch '?') = none := by
        rw [strchr, (span_ne_end hquery).2]
      rw [hnone]
      refine ⟨y, ?_, hyholds⟩
      show (Cstring.strchr x url.front.length (ch '?') >>= _) = _
      rw [h.strchr_none hquery]
      exact hy
  · have hnone : strchr url.back (ch '/') = none := by rw [strchr, (span_ne_end hslash).2]
    obtain ⟨p, y, hp, hy, hholds⟩ := cutAt_first h (ch '?')
    rw [h.strchr_none hslash, hnone]
    refine ⟨y, ?_, hholds⟩
    show (Cstring.strchr x url.front.length (ch '?') >>= _) = _
    rw [hp]
    exact hy

/-- The copy of the base and the reference, as they are appended. -/
def resolved (url : Clone) (relurl : List UInt8) : Clone × List UInt8 × Bool :=
  if relurl.head? ≠ some (ch '/') then ((relative url relurl).1, (relative url relurl).2, false)
  else if relurl[1]? = some (ch '/') then ({ url with back := [] }, relurl.drop 2, true)
  else (absolutePath url, relurl, false)

theorem concat_url_resolved {base relurl : List UInt8} (h : ¬ HasMark relurl) :
    Http.concat_url base relurl =
      append (resolved (cloneOf base) relurl).1 (resolved (cloneOf base) relurl).2.2
        (resolved (cloneOf base) relurl).2.1 := by
  rw [hasMark_iff] at h
  rw [Http.concat_url, if_neg h, resolved]
  dsimp only
  split
  · rfl
  split
  · rfl
  · rfl

theorem absolutePath_front (url : Clone) :
    (absolutePath url).front = url.front ∧ (absolutePath url).isNull = url.isNull := by
  rw [absolutePath]
  split
  · split
    · split <;> exact ⟨rfl, rfl⟩
    · exact ⟨rfl, rfl⟩
  · exact ⟨rfl, rfl⟩

theorem resolve_eq (h : Holds x url.text) (hnull : url.isNull = false) {relurl : List UInt8}
    (h0 : 0 ∉ relurl) :
    ∃ y, resolve x url.front.length (relurl ++ [0]) =
        some (y, protsepOf (resolved url relurl).1, (resolved url relurl).2.1 ++ [0],
          (resolved url relurl).2.2) ∧
      Holds y (resolved url relurl).1.text ∧ 0 ∉ (resolved url relurl).2.1 := by
  have hfirst : ∃ first, (relurl ++ [0])[0]? = some first ∧
      (first = ch '/' ↔ relurl.head? = some (ch '/')) := by
    cases relurl with
    | nil => exact ⟨0, rfl, by decide⟩
    | cons c relurl => exact ⟨c, rfl, by rw [List.head?_cons, Option.some_inj]⟩
  obtain ⟨first, hget, hslash⟩ := hfirst
  rw [resolve, resolved, hget]
  show ∃ y, (if first ≠ ch '/' then _ else _ : Option _) = _ ∧ _
  by_cases hhead : relurl.head? = some (ch '/')
  · rw [if_neg (not_not.2 (hslash.2 hhead)), if_neg (not_not.2 hhead)]
    obtain ⟨t, rfl⟩ := List.head?_eq_some_iff.1 hhead
    have hsecond : ∃ second, (ch '/' :: t ++ [0])[1]? = some second ∧
        (second = ch '/' ↔ (ch '/' :: t)[1]? = some (ch '/')) := by
      cases t with
      | nil => exact ⟨0, rfl, by decide⟩
      | cons c t => exact ⟨c, rfl, by
          show c = ch '/' ↔ some c = some (ch '/')
          rw [Option.some_inj]⟩
    obtain ⟨second, hget, hslashes⟩ := hsecond
    rw [hget]
    show ∃ y, (if second = ch '/' then _ else _ : Option _) = _ ∧ _
    by_cases htwo : (ch '/' :: t)[1]? = some (ch '/')
    · obtain ⟨y, hy, hholds⟩ := h.cut
      rw [if_pos (hslashes.2 htwo), if_pos htwo, hy]
      have hprotsep : protsepOf { url with back := [] } = some url.front.length := by
        rw [protsepOf, hnull]
        rfl
      obtain ⟨s, rfl⟩ : ∃ s, t = ch '/' :: s := by
        cases t with
        | nil => cases htwo
        | cons c t => exact ⟨t, by rw [Option.some.inj htwo]⟩
      refine ⟨y, ?_, ?_, fun hmem => h0 (List.mem_of_mem_drop hmem)⟩
      · rw [hprotsep]
        rfl
      · rw [Clone.text, List.append_nil]
        exact hholds
    · obtain ⟨y, hy, hholds⟩ := rootedPath_eq h
      rw [if_neg (fun h => htwo (hslashes.1 h)), if_neg htwo, hy]
      have hprotsep : protsepOf (absolutePath url) = some url.front.length := by
        rw [protsepOf, (absolutePath_front url).1, (absolutePath_front url).2, hnull]
        rfl
      refine ⟨y, ?_, hholds, h0⟩
      rw [hprotsep]
      rfl
  · obtain ⟨y, hy, hholds⟩ := relativePath_eq h relurl
    obtain ⟨lead, hlead, -⟩ := leads_relative hhead
    rw [if_pos (fun h => hhead (hslash.1 h)), if_pos hhead, hy]
    refine ⟨y, rfl, hholds, fun hmem => h0 ?_⟩
    rw [hlead]
    exact List.mem_append_right lead hmem

/-! ## The two loops -/

theorem strstr_le {t : List UInt8} {i : Nat} (h : strstr s t = some i) : i + t.length ≤ s.length := by
  rw [strstr, List.find?_range_eq_some] at h
  have hle := (hasPrefix_iff.1 h.1).length_le
  have hi := List.mem_range.1 h.2.1
  rw [List.length_drop] at hle
  omega

/-- The first `c`, or the end of the string. -/
theorem strchr_getD (h : Holds x (u ++ v)) (c : UInt8) :
    ∃ p, Cstring.strchr x u.length c = some p ∧
      p.getD (u ++ v).length = u.length + (v.takeWhile (· ≠ c)).length := by
  by_cases hc : c ∈ v
  · obtain ⟨s, t, rfl, hs⟩ := List.eq_append_cons_of_mem hc
    refine ⟨_, h.strchr_some hs, ?_⟩
    rw [(span_ne hs t).1]
    rfl
  · refine ⟨none, h.strchr_none hc, ?_⟩
    rw [(span_ne_end hc).1, List.length_append]
    rfl

theorem hostEnd_eq (h0 : 0 ∉ s) {sep : Nat} (hle : sep ≤ s.length) :
    hostEnd (s ++ [0]) s.length sep = some (sep +
      min ((s.drop sep).takeWhile (· ≠ ch '/')).length
        ((s.drop sep).takeWhile (· ≠ ch '?')).length) := by
  have hsplit := holds_withNul h0
  rw [← List.take_append_drop sep s] at hsplit
  have hlen : (s.take sep).length = sep := List.length_take_of_le hle
  obtain ⟨query, hquery, hqueryD⟩ := strchr_getD hsplit (ch '?')
  obtain ⟨slash, hslash, hslashD⟩ := strchr_getD hsplit (ch '/')
  rw [List.take_append_drop, hlen] at hquery hqueryD hslash hslashD
  rw [hostEnd, hquery]
  show (Cstring.strchr (s ++ [0]) sep (ch '/') >>= fun slash => _) = _
  rw [hslash]
  show some (if slash.getD s.length < query.getD s.length then slash.getD s.length
    else query.getD s.length) = _
  rw [hslashD, hqueryD]
  congr 1
  split <;> omega

theorem hostSep_eq (h0 : 0 ∉ s) (host_changed : Bool) :
    hostSep host_changed (s ++ [0]) = some (Http.hostSep host_changed s) := by
  cases host_changed with
  | false => rfl
  | true =>
    rw [hostSep, if_pos rfl, (holds_withNul h0).stringAt_zero, Http.hostSep, if_pos rfl,
      Option.bind_eq_bind, Option.bind_some]
    cases hstr : strstr s (chars "//") with
    | none => exact hostEnd_eq h0 (Nat.zero_le _)
    | some i => exact hostEnd_eq h0 (strstr_le hstr)

theorem store_eq {y : Block} (h : Starts y u) (hlen : u.length + v.length ≤ y.length) :
    ∃ z, store y u.length v = some z ∧ z.length = y.length ∧ Starts z (u ++ v) := by
  induction v generalizing y u with
  | nil => exact ⟨y, rfl, rfl, by rw [List.append_nil]; exact h⟩
  | cons c v ih =>
    rw [List.length_cons] at hlen
    obtain ⟨z, hz, hzlen, hstarts⟩ := h.write (Nat.le_refl u.length) (by omega) c
    rw [List.take_length] at hstarts
    have hsucc : (u ++ [c]).length = u.length + 1 := List.length_append
    obtain ⟨w, hw, hwlen, hwstarts⟩ := ih hstarts (by omega)
    rw [hsucc] at hw
    refine ⟨w, ?_, hwlen.trans hzlen, ?_⟩
    · rw [store, hz]
      exact hw
    · rw [List.append_assoc, List.singleton_append] at hwstarts
      exact hwstarts

theorem write_eq {y : Block} (h : Starts y u) (hlt : u.length < y.length) (c : UInt8) :
    ∃ z, write y u.length c = some z ∧ z.length = y.length ∧ Starts z (u ++ [c]) := by
  obtain ⟨z, hz, hzlen, hstarts⟩ := h.write (Nat.le_refl u.length) hlt c
  rw [List.take_length] at hstarts
  exact ⟨z, hz, hzlen, hstarts⟩

/-- What the loop that copies appends. -/
def copied (sep : Nat) (left : Bool) (s : List UInt8) : List UInt8 :=
  s.take sep ++ encode left (s.drop sep)

theorem copyNew_eq {y : Block} (h0 : 0 ∉ s) (sep : Nat) (left : Bool) (h : Starts y u)
    (hlen : u.length + (copied sep left s).length < y.length) :
    ∃ z, copyNew sep left (s ++ [0]) y u.length =
        some (z, (u ++ copied sep left s).length) ∧
      z.length = y.length ∧ Starts z (u ++ copied sep left s) := by
  induction s generalizing y u sep left with
  | nil =>
    have hnil : copied sep left [] = [] := by
      rw [copied, List.take_nil, List.drop_nil]
      rfl
    rw [hnil, List.append_nil]
    exact ⟨y, rfl, rfl, h⟩
  | cons c s ih =>
    have hc : c ≠ 0 := fun h => h0 (h ▸ List.mem_cons_self)
    have hs : 0 ∉ s := fun hmem => h0 (List.mem_cons_of_mem c hmem)
    -- the bytes that are written for one, and those for the others
    have hnext {piece : List UInt8} {sep' : Nat} {left' : Bool} {z : Block}
        (hpiece : copied sep left (c :: s) = piece ++ copied sep' left' s)
        (hz : Starts z (u ++ piece)) (hzlen : z.length = y.length)
        (hcopy : copyNew sep left (c :: s ++ [0]) y u.length =
          copyNew sep' left' (s ++ [0]) z (u ++ piece).length) :
        ∃ z, copyNew sep left (c :: s ++ [0]) y u.length =
            some (z, (u ++ copied sep left (c :: s)).length) ∧
          z.length = y.length ∧ Starts z (u ++ copied sep left (c :: s)) := by
      rw [hpiece, List.length_append] at hlen
      obtain ⟨w, hw, hwlen, hwstarts⟩ := ih hs sep' left' hz (by
        rw [List.length_append]
        omega)
      rw [hcopy, hw, hpiece, ← List.append_assoc]
      exact ⟨w, rfl, hwlen.trans hzlen, hwstarts⟩
    have hroom {piece : List UInt8} {sep' : Nat} {left' : Bool}
        (hpiece : copied sep left (c :: s) = piece ++ copied sep' left' s) :
        u.length + piece.length < y.length := by
      rw [hpiece, List.length_append] at hlen
      omega
    cases sep with
    | succ sep =>
      have hpiece : copied (sep + 1) left (c :: s) = [c] ++ copied sep left s := rfl
      obtain ⟨z, hz, hzlen, hstarts⟩ := write_eq h (Nat.lt_of_succ_lt (hroom hpiece)) c
      refine hnext hpiece hstarts hzlen ?_
      rw [List.cons_append, copyNew, if_neg hc, hz, List.length_append]
      rfl
    | zero =>
      have hencode : copied 0 left (c :: s) = encode left (c :: s) := rfl
      rw [encode] at hencode
      rw [List.cons_append] at hnext
      by_cases hspace : c = ch ' '
      · rw [if_pos hspace] at hencode
        cases left with
        | true =>
          have hpiece : copied 0 true (c :: s) = chars "%20" ++ copied 0 true s := hencode
          obtain ⟨z, hz, hzlen, hstarts⟩ := store_eq h (Nat.le_of_lt (hroom hpiece))
          refine hnext hpiece hstarts hzlen ?_
          rw [copyNew, if_neg hc, if_pos hspace, if_pos rfl, hz, List.length_append]
          rfl
        | false =>
          have hpiece : copied 0 false (c :: s) = [ch '+'] ++ copied 0 false s := hencode
          obtain ⟨z, hz, hzlen, hstarts⟩ :=
            write_eq h (Nat.lt_of_succ_lt (hroom hpiece)) (ch '+')
          refine hnext hpiece hstarts hzlen ?_
          rw [copyNew, if_neg hc, if_pos hspace, if_neg Bool.false_ne_true, hz, List.length_append]
          rfl
      · rw [if_neg hspace] at hencode
        by_cases hunescaped : unescaped c = true
        · rw [if_pos hunescaped] at hencode
          have hpiece : copied 0 left (c :: s) = [c] ++ copied 0 (left && c ≠ ch '?') s := hencode
          obtain ⟨z, hz, hzlen, hstarts⟩ := write_eq h (Nat.lt_of_succ_lt (hroom hpiece)) c
          refine hnext hpiece hstarts hzlen ?_
          rw [copyNew, if_neg hc, if_neg hspace, if_pos hunescaped, hz, List.length_append]
          rfl
        · rw [if_neg hunescaped] at hencode
          have hpiece : copied 0 left (c :: s) = escape c ++ copied 0 (left && c ≠ ch '?') s :=
            hencode
          have hfour : (escape c ++ [0]).length = 4 := by
            rw [List.length_append, escape_length]
            rfl
          have hthree := hroom hpiece
          rw [escape_length] at hthree
          obtain ⟨z, hz, hzlen, hstarts⟩ := store_eq h (v := escape c ++ [0]) (by omega)
          rw [← List.append_assoc] at hstarts
          refine hnext hpiece hstarts.of_append hzlen ?_
          rw [copyNew, if_neg hc, if_neg hspace, if_neg hunescaped, hz, List.length_append,
            escape_length]
          rfl

/-! ## The result -/

/-- The slash between the two parts. -/
def slashOf (url : Clone) (useurl : List UInt8) : List UInt8 :=
  if useurl.head? = some (ch '/') ∨ (!url.isNull ∧ url.back = []) ∨
    useurl.head? = some (ch '?') then [] else [ch '/']

theorem append_eq (url : Clone) (host_changed : Bool) (useurl : List UInt8) :
    append url host_changed useurl =
      url.text ++ slashOf url useurl ++ copied (Http.hostSep host_changed useurl) true useurl := rfl

theorem atEnd_eq (h : Holds x url.text) :
    ∃ atEnd, isAtEnd x (protsepOf url) = some atEnd ∧
      (atEnd = true ↔ (!url.isNull) = true ∧ url.back = []) := by
  rw [protsepOf]
  cases hnull : url.isNull with
  | true => exact ⟨false, rfl, by rintro ⟨⟩, fun hend => nomatch hend.1⟩
  | false =>
    have hget := Holds.getElem? h
    refine ⟨url.back.headD 0 == 0, ?_, ?_⟩
    · rw [if_neg Bool.false_ne_true, isAtEnd, hget]
      rfl
    · obtain ⟨rest, -, h0⟩ := h
      cases hback : url.back with
      | nil => exact ⟨fun _ => ⟨rfl, rfl⟩, fun _ => rfl⟩
      | cons c back =>
        have hc : c ≠ 0 := by
          rintro rfl
          refine h0 (List.mem_append_right _ ?_)
          rw [hback]
          exact List.mem_cons_self
        exact ⟨fun hzero => absurd (beq_iff_eq.1 hzero) hc, fun hend => nomatch hend.2⟩

/-- Every write is within what the loop that counts has made room for. -/
theorem assemble_eq (h : Holds x url.text) {useurl : List UInt8} (h0 : 0 ∉ useurl)
    (host_changed : Bool) :
    ∃ y, assemble x (protsepOf url) (useurl ++ [0]) host_changed = some y ∧
      Starts y (append url host_changed useurl ++ [0]) := by
  have hroom := @append_length_le useurl host_changed url
  have hnew := countNew_eq h0 (Http.hostSep host_changed useurl) true
  have hfirst : (useurl ++ [0])[0]? = some (useurl.headD 0) := by cases useurl <;> rfl
  have htext : Starts (x.map some) url.text := by
    obtain ⟨rest, rfl, -⟩ := h
    exact (starts_map _).of_append
  obtain ⟨atEnd, hatEnd, hend⟩ := atEnd_eq h
  have hcond : (useurl.headD 0 = ch '/' ∨ atEnd = true ∨ useurl.headD 0 = ch '?') ↔
      (useurl.head? = some (ch '/') ∨ ((!url.isNull) = true ∧ url.back = []) ∨
        useurl.head? = some (ch '?')) := by
    rw [hend]
    cases useurl with
    | nil => exact or_congr (by decide) (or_congr Iff.rfl (by decide))
    | cons c useurl => rw [List.headD_cons, List.head?_cons, Option.some_inj, Option.some_inj]
  have hslash : (if useurl.headD 0 = ch '/' ∨ atEnd = true ∨ useurl.headD 0 = ch '?' then []
      else [ch '/']) = slashOf url useurl := if_congr hcond rfl rfl
  have hsep := hostSep_eq h0 host_changed
  rw [append_eq] at hroom ⊢
  generalize Http.hostSep host_changed useurl = sep at hsep hnew hroom ⊢
  generalize (useurl.take sep).length + newlen true (useurl.drop sep) = newlen at hnew hroom
  have hclone : url.front ++ url.back = url.text := rfl
  rw [hclone, List.length_append, List.length_append] at hroom
  generalize hsize : url.text.length + 1 + newlen + 1 = size
  have hmalloc : (malloc size).length = size := length_malloc _
  obtain ⟨a, ha, halen, hastarts⟩ := (starts_nil (malloc size)).move htext (Nat.le_refl 0) (by omega)
  rw [List.take_nil, List.nil_append] at hastarts
  obtain ⟨b, hb, hblen, hbstarts⟩ := store_eq (v := slashOf url useurl) hastarts (by omega)
  have hlen : (url.text ++ slashOf url useurl).length =
      url.text.length + (slashOf url useurl).length := List.length_append
  obtain ⟨d, hd, hdlen, hdstarts⟩ := copyNew_eq h0 sep true hbstarts (by omega)
  have hdone : (url.text ++ slashOf url useurl ++ copied sep true useurl).length =
      url.text.length + (slashOf url useurl).length + (copied sep true useurl).length := by
    rw [List.length_append, List.length_append]
  obtain ⟨e, he, -, hestarts⟩ := write_eq hdstarts (by omega) 0
  refine ⟨e, ?_, hestarts⟩
  rw [assemble, hsep]
  show (countNew sep true (useurl ++ [0]) >>= fun newlen => stringAt x 0 >>= fun url => _) = _
  rw [hnew, h.stringAt_zero]
  show (move (malloc (url.text.length + 1 + newlen + 1)) 0 (x.map some) url.text.length >>=
    fun newest => (useurl ++ [0])[0]? >>= fun first => _) = _
  rw [hsize, ha, hfirst]
  show (isAtEnd x (protsepOf url) >>= fun atEnd => _) = _
  rw [hatEnd]
  show (store a url.text.length (if useurl.headD 0 = ch '/' ∨ atEnd = true ∨
      useurl.headD 0 = ch '?' then [] else [ch '/']) >>= fun newest =>
    copyNew sep true (useurl ++ [0]) newest (url.text.length + (if useurl.headD 0 = ch '/' ∨
      atEnd = true ∨ useurl.headD 0 = ch '?' then [] else [ch '/']).length) >>= fun r =>
    write r.1 r.2 0) = _
  rw [hslash, hb, ← hlen]
  show (copyNew sep true (useurl ++ [0]) b (url.text ++ slashOf url useurl).length >>= fun r =>
    write r.1 r.2 0) = _
  rw [hd]
  exact he

theorem cloneOf_front (base : List UInt8) :
    (cloneOf base).front.length = hostStart base ∧ (cloneOf base).isNull = false := by
  rw [cloneOf, hostStart]
  cases hstr : strstr base (chars "//") with
  | none => exact ⟨rfl, rfl⟩
  | some i => exact ⟨List.length_take_of_le (strstr_le hstr), rfl⟩

/-- No byte is read or written outside of the copy of the base, the reference and the result, whose
block starts with the URL and its NUL. -/
theorem concat_url_fits {base relurl : List UInt8} (hbase : 0 ∉ base) (hrelurl : 0 ∉ relurl) :
    ∃ newest, concat_url base relurl = some newest ∧
      Starts newest (Http.concat_url base relurl ++ [0]) := by
  by_cases hmark : HasMark relurl
  · have hmark' := hasMark_iff.1 hmark
    refine ⟨(relurl ++ [0]).map some, ?_, ?_⟩
    · rw [concat_url, if_pos hmark']
    · rw [Http.concat_url, if_pos hmark']
      exact starts_map _
  · obtain ⟨hfront, hnull⟩ := cloneOf_front base
    have hholds := holds_withNul hbase
    have hclone : Holds (base ++ [0]) (cloneOf base).text := by
      rw [cloneOf_eq]
      exact hholds
    obtain ⟨y, hy, hyholds, h0⟩ := resolve_eq hclone hnull hrelurl
    obtain ⟨newest, hnewest, hstarts⟩ :=
      assemble_eq hyholds h0 (resolved (cloneOf base) relurl).2.2
    refine ⟨newest, ?_, ?_⟩
    · rw [concat_url, if_neg (fun h => hmark (hasMark_iff.2 h))]
      dsimp only
      rw [hholds.stringAt_zero]
      show (resolve (base ++ [0]) (hostStart base) (relurl ++ [0]) >>= fun r =>
        assemble r.1 r.2.1 r.2.2.1 r.2.2.2) = _
      rw [← hfront, hy]
      exact hnewest
    · rw [concat_url_resolved hmark]
      exact hstarts

/-- Three bytes of which one is written with four. -/
theorem concat_url_fits_escape :
    ∃ newest, concat_url (chars "http://h/a") [ch 'b', 200, ch 'c'] = some newest ∧
      Starts newest (Http.concat_url (chars "http://h/a") [ch 'b', 200, ch 'c'] ++ [0]) :=
  concat_url_fits (by decide) (by decide)

end Luaxx.Http.Pointers
