import Luaxx.Http.Http
import Luaxx.Lib.Spans

/-!
# Where a resolved reference leads

`concat_url` takes the base URL apart at its separators, and the host stays in front of all of
them. What it returns leads to another host only where it takes the reference for a URL of its own,
by one of five marks that may stand anywhere in it.
-/

namespace Luaxx.Http

open Luaxx.Ctype Luaxx.Spans

variable {s t back relurl useurl : List UInt8} {c : UInt8} {left host_changed : Bool}

/-! ## Absolute URLs -/

/-- The characters at which an authority ends. -/
def EndsAuthority (c : UInt8) : Prop := c = ch '/' ∨ c = ch '?' ∨ c = ch '#'

instance (c : UInt8) : Decidable (EndsAuthority c) := by
  unfold EndsAuthority
  infer_instance

def schemeChar (c : UInt8) : Bool :=
  isalnum c || c == ch '+' || c == ch '-' || c == ch '.'

def IsScheme (s : List UInt8) : Prop :=
  (∃ c, s.head? = some c ∧ isalpha c = true) ∧ ∀ c ∈ s, schemeChar c = true

/-- `scheme://authority[/path][?query]`. -/
structure Absolute where
  scheme : List UInt8
  authority : List UInt8
  /-- The path and the query. -/
  path : List UInt8
  isScheme : IsScheme scheme
  isAuthority : ∀ c ∈ authority, ¬ EndsAuthority c
  isPath : ∀ c, path.head? = some c → c = ch '/' ∨ c = ch '?'

namespace Absolute

def protocol (base : Absolute) : List UInt8 := base.scheme ++ chars "://"

def origin (base : Absolute) : List UInt8 := base.protocol ++ base.authority

def text (base : Absolute) : List UInt8 := base.origin ++ base.path

end Absolute

/-- A reference that begins with a scheme, or with `www.`. -/
def IsAbsolute (relurl : List UInt8) : Prop :=
  (∃ scheme rest, relurl = scheme ++ ch ':' :: rest ∧ IsScheme scheme) ∨ chars "www." <+: relurl

/-- The authority of a reference that begins with two slashes. -/
def authorityOf (relurl : List UInt8) : List UInt8 :=
  (relurl.drop 2).takeWhile fun c => !decide (EndsAuthority c)

/-- `s` leads to `origin`: the authority ends where `origin` ends. -/
def LeadsTo (origin s : List UInt8) : Prop :=
  ∃ rest, s = origin ++ rest ∧ ∀ c, rest.head? = some c → EndsAuthority c

/-- What a resolved reference has to be. -/
structure KeepsOrigin (base : Absolute) (relurl result : List UInt8) : Prop where
  itself : result = relurl → IsAbsolute relurl
  host : chars "//" <+: relurl → LeadsTo (base.protocol ++ authorityOf relurl) result
  origin : result ≠ relurl → ¬ chars "//" <+: relurl → LeadsTo base.origin result

/-! ## Searching -/

theorem hasPrefix_iff : hasPrefix s t = true ↔ t <+: s := by
  rw [hasPrefix, List.isPrefixOf_iff_prefix]

theorem strstr_isSome_iff : (strstr s t).isSome = true ↔ t <:+: s := by
  rw [strstr, List.find?_isSome]
  constructor
  · rintro ⟨i, -, hi⟩
    exact (hasPrefix_iff.mp hi).isInfix.trans (List.drop_suffix i s).isInfix
  · rintro ⟨u, v, rfl⟩
    refine ⟨u.length, ?_, hasPrefix_iff.mpr ⟨v, ?_⟩⟩
    · rw [List.mem_range, List.length_append, List.length_append]
      omega
    · rw [List.append_assoc, List.drop_left]

/-- The first character of the wanted string occurs for the first time where the string does. -/
theorem strstr_eq {rest : List UInt8} (hs : c ∉ s) :
    strstr (s ++ c :: (t ++ rest)) (c :: t) = some s.length := by
  rw [strstr, List.find?_range_eq_some]
  refine ⟨?_, ?_, fun j hj => ?_⟩
  · rw [List.drop_left, hasPrefix_iff]
    exact ⟨rest, rfl⟩
  · rw [List.mem_range, List.length_append]
    omega
  · rw [Bool.not_eq_true', Bool.eq_false_iff, ne_eq, hasPrefix_iff]
    rintro ⟨r, hr⟩
    rw [List.drop_append_of_le_length (Nat.le_of_lt hj), List.drop_eq_getElem_cons hj] at hr
    have hc : c = s[j] := (List.cons.inj hr).1
    exact hs (hc ▸ List.getElem_mem hj)

theorem cutLast_none (h : c ∉ s) : cutLast s c = none := by
  have hspan := (span_ne_end (v := s.reverse) (c := c) (by rwa [List.mem_reverse])).2
  rw [cutLast, hspan]

theorem cutLast_some (h : c ∉ t) : cutLast (s ++ c :: t) c = some s := by
  have hspan := (span_ne (v := t.reverse) (c := c) (by rwa [List.mem_reverse]) s.reverse).2
  rw [cutLast, List.reverse_append, List.reverse_cons, List.append_assoc, List.singleton_append,
    hspan]
  show some s.reverse.reverse = some s
  rw [List.reverse_reverse]

theorem exists_last (h : c ∈ s) : ∃ u v, s = u ++ c :: v ∧ c ∉ v := by
  obtain ⟨v, u, hs, hv⟩ := List.eq_append_cons_of_mem (List.mem_reverse.mpr h)
  refine ⟨u.reverse, v.reverse, ?_, by rwa [List.mem_reverse]⟩
  rw [← List.reverse_reverse s, hs, List.reverse_append, List.reverse_cons, List.append_assoc]
  rfl

/-! ## The copy of the base URL -/

namespace Absolute

variable (base : Absolute)

theorem slash_notMem : ch '/' ∉ base.scheme ++ [ch ':'] := by
  intro h
  rcases List.mem_append.mp h with h | h
  · have hslash := base.isScheme.2 _ h
    revert hslash
    decide
  · revert h
    decide

theorem cloneOf_text : cloneOf base.text = ⟨base.protocol, base.authority ++ base.path, false⟩ := by
  have htext : base.text = base.scheme ++ [ch ':'] ++
      ch '/' :: ([ch '/'] ++ (base.authority ++ base.path)) := by
    rw [text, origin, protocol, List.append_assoc, List.append_assoc, List.append_assoc]
    rfl
  have hprotocol : base.protocol = base.scheme ++ [ch ':'] ++ [ch '/', ch '/'] := by
    rw [protocol, List.append_assoc]
    rfl
  have hlen : base.protocol.length = (base.scheme ++ [ch ':']).length + 2 := by
    rw [hprotocol, List.length_append]
    rfl
  have hsplit : base.text = base.protocol ++ (base.authority ++ base.path) := by
    rw [text, origin, List.append_assoc]
  have hstr : strstr base.text (chars "//") = some (base.scheme ++ [ch ':']).length := by
    rw [htext]
    exact strstr_eq base.slash_notMem
  rw [cloneOf, hstr]
  simp only
  rw [← hlen, hsplit, List.take_left, List.drop_left]

end Absolute

/-- The copy is still the authority and a path. -/
def Under (authority back : List UInt8) : Prop :=
  ∃ path, back = authority ++ path ∧ ∀ c, path.head? = some c → c = ch '/'

variable {authority path : List UInt8}

theorem under_of_not_query (hauthority : ∀ c ∈ authority, ¬ EndsAuthority c)
    (hpath : ∀ c, path.head? = some c → c = ch '/' ∨ c = ch '?') :
    Under authority ((authority ++ path).takeWhile (· ≠ ch '?')) := by
  refine ⟨path.takeWhile (· ≠ ch '?'), ?_, fun c hc => ?_⟩
  · apply List.takeWhile_append_of_pos
    intro c hc
    rw [decide_eq_true_eq]
    rintro rfl
    exact hauthority _ hc (Or.inr (Or.inl rfl))
  · cases path with
    | nil => exact nomatch hc
    | cons d path =>
      rw [List.takeWhile_cons] at hc
      split at hc
      · next hd =>
        cases hc
        rcases hpath c rfl with h | rfl
        · exact h
        · exact absurd rfl (of_decide_eq_true hd)
      · exact nomatch hc

theorem under_cutLast (hauthority : ∀ c ∈ authority, ¬ EndsAuthority c) (h : Under authority back) :
    Under authority ((cutLast back (ch '/')).getD back) := by
  obtain ⟨path, rfl, hpath⟩ := h
  have hnotMem : ch '/' ∉ authority := fun h => hauthority _ h (Or.inl rfl)
  by_cases hmem : ch '/' ∈ path
  · obtain ⟨u, v, rfl, hv⟩ := exists_last hmem
    rw [← List.append_assoc, cutLast_some hv]
    refine ⟨u, rfl, fun c hc => hpath c ?_⟩
    rw [List.head?_append, hc]
    rfl
  · have hcut : cutLast (authority ++ path) (ch '/') = none := by
      apply cutLast_none
      rw [List.mem_append, not_or]
      exact ⟨hnotMem, hmem⟩
    rw [hcut]
    exact ⟨path, rfl, hpath⟩

/-! ## The new piece -/

theorem encode_head (hc : c ≠ ch ' ') (hunescaped : unescaped c = true) :
    encode left (c :: s) = c :: encode (left && c ≠ ch '?') s := by
  rw [encode, if_neg hc, if_pos hunescaped]
  rfl

theorem encode_endsAuthority (hc : EndsAuthority c) :
    encode left (c :: s) = c :: encode (left && c ≠ ch '?') s := by
  apply encode_head <;> rcases hc with rfl | rfl | rfl <;> decide

theorem append_front (url : Clone) (host_changed : Bool) (useurl : List UInt8) :
    ∃ rest, append url host_changed useurl = url.front ++ rest :=
  ⟨_, by rw [append, List.append_assoc, List.append_assoc]⟩

theorem append_leads {url : Clone}
    (h : url.isNull = true ∨ useurl.head? = some (ch '/')) :
    LeadsTo (url.front ++ url.back) (append url false useurl) := by
  have happend : append url false useurl = url.front ++ url.back ++
      ((if useurl.head? = some (ch '/') ∨ (!url.isNull ∧ url.back = []) ∨
        useurl.head? = some (ch '?') then [] else [ch '/']) ++ encode true useurl) := by
    rw [← List.append_assoc]
    rfl
  rw [happend]
  refine ⟨_, rfl, fun c hc => ?_⟩
  split at hc
  · next hslash =>
    have hhead : useurl.head? = some (ch '/') ∨ useurl.head? = some (ch '?') := by
      rcases h with h | h
      · rw [h] at hslash
        rcases hslash with hslash | ⟨hnull, -⟩ | hslash
        · exact Or.inl hslash
        · exact nomatch hnull
        · exact Or.inr hslash
      · exact Or.inl h
    rcases useurl with _ | ⟨d, useurl⟩
    · exact hhead.elim (fun h => nomatch h) fun h => nomatch h
    · have hd : EndsAuthority d := hhead.elim (fun h => Or.inl (Option.some.inj h)) fun h =>
        Or.inr (Or.inl (Option.some.inj h))
      rw [List.nil_append, encode_endsAuthority hd] at hc
      cases hc
      exact hd
  · cases hc
    exact Or.inl rfl

/-! ## References on the server -/

/-- A relative path is put after the authority alone, or somewhere after its slash. -/
theorem relative_eq (url : Clone) (relurl : List UInt8) (hback : url.back = authority ++ path)
    (hauthority : ∀ c ∈ authority, ¬ EndsAuthority c)
    (hpath : ∀ c, path.head? = some c → c = ch '/' ∨ c = ch '?') :
    (relative url relurl).1 = ⟨url.front, authority, true⟩ ∨
      ∃ back, (relative url relurl).1 = ⟨url.front ++ authority ++ [ch '/'], back, false⟩ := by
  have hcut := under_of_not_query hauthority hpath
  rw [← hback] at hcut
  have hunder : ∃ back, Under authority back ∧
      (if relurl.head? ≠ some (ch '?') then
        { url.cut (ch '?') with
          back := (cutLast (url.cut (ch '?')).back (ch '/')).getD (url.cut (ch '?')).back }
      else url.cut (ch '?')) = { url with back := back } := by
    split
    · exact ⟨_, under_cutLast hauthority hcut, rfl⟩
    · exact ⟨_, hcut, rfl⟩
  obtain ⟨back, ⟨path, rfl, hslash⟩, hurl⟩ := hunder
  have hnotMem : ∀ c ∈ authority, decide (c ≠ ch '/') = true := by
    intro c hc
    rw [decide_eq_true_eq]
    rintro rfl
    exact hauthority _ hc (Or.inl rfl)
  have hspan := span_eq _ path hnotMem fun c hc => by
    rw [hslash c hc]
    rfl
  rw [relative]
  simp only [hurl, hspan.1, hspan.2]
  cases path with
  | nil =>
    left
    rw [List.append_nil]
    rfl
  | cons d path =>
    right
    rw [hslash d rfl]
    exact ⟨_, rfl⟩

theorem cut_eq {url : Clone} (hback : url.back = authority ++ c :: path) (hc : c ∉ authority) :
    url.cut c = { url with back := authority } := by
  rw [Clone.cut, hback, (span_ne hc path).1]

theorem strchr_eq (hc : c ∉ authority) :
    strchr (authority ++ c :: path) c = some (c :: path) := by
  rw [strchr, (span_ne hc path).2]

theorem strchr_skip {d : UInt8} (hc : c ∉ authority) (hd : d ≠ c) :
    strchr (authority ++ d :: path) c = strchr path c := by
  have hmem : ∀ e ∈ authority ++ [d], decide (e ≠ c) = true := by
    intro e he
    rw [decide_eq_true_eq]
    rintro rfl
    rcases List.mem_append.mp he with he | he
    · exact hc he
    · exact hd (List.mem_singleton.mp he).symm
  rw [strchr, strchr, ← List.singleton_append, ← List.append_assoc,
    List.dropWhile_append_of_pos hmem]

theorem strchr_length {p : List UInt8} (h : strchr s c = some p) : p.length ≤ s.length := by
  rw [strchr] at h
  split at h
  · exact nomatch h
  · cases h
    exact List.length_dropWhile_le _ s

/-- An absolute path is put after the authority, whether the path or the query comes first. -/
theorem absolutePath_eq {url : Clone} (hback : url.back = authority ++ path)
    (hauthority : ∀ c ∈ authority, ¬ EndsAuthority c)
    (hpath : ∀ c, path.head? = some c → c = ch '/' ∨ c = ch '?') :
    absolutePath url = { url with back := authority } := by
  have hslash : ch '/' ∉ authority := fun h => hauthority _ h (Or.inl rfl)
  have hquery : ch '?' ∉ authority := fun h => hauthority _ h (Or.inr (Or.inl rfl))
  cases path with
  | nil =>
    rw [List.append_nil] at hback
    have hnone : strchr url.back (ch '/') = none := by
      rw [strchr, hback, (span_ne_end hslash).2]
    rw [absolutePath, hnone]
    simp only
    rw [Clone.cut, hback, (span_ne_end hquery).1]
  | cons c path =>
    rcases hpath c rfl with rfl | rfl
    · -- a `?` can only come later
      have hsome : strchr url.back (ch '/') = some (ch '/' :: path) := by
        rw [hback, strchr_eq hslash]
      have hskip : strchr url.back (ch '?') = strchr path (ch '?') := by
        rw [hback, strchr_skip hquery (by decide)]
      rw [absolutePath, hsome, hskip]
      simp only
      split
      · next sep hsep =>
        have hlen := strchr_length hsep
        rw [if_neg (by rw [List.length_cons]; omega), cut_eq hback hslash]
      · rw [cut_eq hback hslash]
    · -- the first slash belongs to the query
      have hsome : strchr url.back (ch '?') = some (ch '?' :: path) := by
        rw [hback, strchr_eq hquery]
      have hskip : strchr url.back (ch '/') = strchr path (ch '/') := by
        rw [hback, strchr_skip hslash (by decide)]
      rw [absolutePath, hsome, hskip]
      simp only
      split
      · next pathsep hpathsep =>
        have hlen := strchr_length hpathsep
        rw [if_pos (by rw [List.length_cons]; omega), cut_eq hback hquery]
      · rw [cut_eq hback hquery]

/-! ## References to another host -/

/-- The piece is copied as it is up to the end of its authority at least. -/
theorem le_hostSep (rest : List UInt8) (hs : ∀ c ∈ s, ¬ EndsAuthority c) :
    s.length ≤ hostSep true (s ++ rest) := by
  have htake : ∀ c : UInt8, EndsAuthority c →
      s.length ≤ ((s ++ rest).takeWhile fun d => decide (d ≠ c)).length := by
    intro c hc
    rw [List.takeWhile_append_of_pos, List.length_append]
    · exact Nat.le_add_right _ _
    · intro d hd
      rw [decide_eq_true_eq]
      rintro rfl
      exact hs _ hd hc
  rw [hostSep, if_pos rfl]
  rcases hstr : strstr (s ++ rest) (chars "//") with _ | i
  · show s.length ≤ 0 + min _ _
    rw [Nat.zero_add, Nat.le_min]
    exact ⟨htake _ (Or.inl rfl), htake _ (Or.inr (Or.inl rfl))⟩
  · have hi : s.length ≤ i := by
      rw [strstr, List.find?_range_eq_some] at hstr
      obtain ⟨t, ht⟩ := hasPrefix_iff.mp hstr.1
      by_contra hlt
      rw [List.drop_append_of_le_length (by omega), List.drop_eq_getElem_cons (by omega)] at ht
      have hslash : ch '/' = s[i] := (List.cons.inj ht).1
      exact hs _ (List.getElem_mem (by omega)) (Or.inl hslash.symm)
    exact le_trans hi (le_trans (Nat.le_add_right i 2) (Nat.le_add_right _ _))

theorem append_host_leads (url : Clone) (hback : url.back = []) (hnull : url.isNull = false) :
    LeadsTo (url.front ++ useurl.takeWhile fun c => !decide (EndsAuthority c))
      (append url true useurl) := by
  obtain ⟨s, rest, rfl, hs, hrest⟩ := exists_span (fun c => !decide (EndsAuthority c)) useurl
  rw [(span_eq _ rest hs hrest).1]
  have hs : ∀ c ∈ s, ¬ EndsAuthority c := fun c hc =>
    of_decide_eq_false ((Bool.not_eq_true' _).mp (hs c hc))
  obtain ⟨k, hk⟩ := Nat.exists_eq_add_of_le (le_hostSep rest hs)
  have happend : append url true (s ++ rest) =
      url.front ++ s ++ (rest.take k ++ encode true (rest.drop k)) := by
    rw [append, hback, hnull, hk, List.take_length_add_append, List.drop_length_add_append]
    simp
  rw [happend]
  refine ⟨_, rfl, fun c hc => ?_⟩
  cases rest with
  | nil =>
    rw [List.take_nil, List.drop_nil] at hc
    exact nomatch hc
  | cons d rest =>
    have hd : EndsAuthority d := by
      have := hrest d rfl
      rw [Bool.not_eq_false'] at this
      exact of_decide_eq_true this
    cases k with
    | zero =>
      rw [List.take_zero, List.drop_zero, List.nil_append, encode_endsAuthority hd] at hc
      cases hc
      exact hd
    | succ k =>
      cases hc
      exact hd

/-! ## Every reference -/

def HasMark (relurl : List UInt8) : Prop := ∃ mark ∈ marks, mark <:+: relurl

theorem hasMark_iff :
    HasMark relurl ↔ (marks.any fun mark => (strstr relurl mark).isSome) = true := by
  rw [List.any_eq_true]
  constructor
  · rintro ⟨mark, hmem, hmark⟩
    exact ⟨mark, hmem, strstr_isSome_iff.mpr hmark⟩
  · rintro ⟨mark, hmem, hmark⟩
    exact ⟨mark, hmem, strstr_isSome_iff.mp hmark⟩

theorem slashes_iff :
    chars "//" <+: relurl ↔ relurl.head? = some (ch '/') ∧ relurl[1]? = some (ch '/') := by
  constructor
  · rintro ⟨t, rfl⟩
    exact ⟨rfl, rfl⟩
  · rintro ⟨hhead, hsecond⟩
    rcases relurl with _ | ⟨c, _ | ⟨d, relurl⟩⟩
    · exact nomatch hhead
    · exact nomatch hsecond
    · obtain rfl : c = ch '/' := Option.some.inj hhead
      obtain rfl : d = ch '/' := Option.some.inj hsecond
      exact ⟨relurl, rfl⟩

theorem not_isAbsolute_of_slashes (h : chars "//" <+: relurl) : ¬ IsAbsolute relurl := by
  obtain ⟨t, rfl⟩ := h
  rintro (⟨scheme, rest, hrelurl, ⟨c, hhead, halpha⟩, -⟩ | ⟨r, hr⟩)
  · cases scheme with
    | nil => exact nomatch hhead
    | cons d scheme =>
      cases hhead
      have hslash : ch '/' = c := (List.cons.inj hrelurl).1
      subst hslash
      revert halpha
      decide
  · have hw : ch 'w' = ch '/' := (List.cons.inj hr).1
    revert hw
    decide

theorem isAbsolute_of_leadsTo (base : Absolute) {host : List UInt8}
    (h : LeadsTo (base.protocol ++ host) relurl) : IsAbsolute relurl := by
  obtain ⟨rest, rfl, -⟩ := h
  refine Or.inl ⟨base.scheme, chars "//" ++ (host ++ rest), ?_, base.isScheme⟩
  rw [Absolute.protocol, List.append_assoc, List.append_assoc]
  rfl

theorem concat_url_of_not_hasMark (base : Absolute) (h : ¬ HasMark relurl) :
    (chars "//" <+: relurl →
      LeadsTo (base.protocol ++ authorityOf relurl) (concat_url base.text relurl)) ∧
    (¬ chars "//" <+: relurl → LeadsTo base.origin (concat_url base.text relurl)) := by
  rw [hasMark_iff] at h
  rw [concat_url, if_neg h, base.cloneOf_text, slashes_iff]
  constructor
  · rintro ⟨hhead, hsecond⟩
    simp only
    rw [if_neg (not_not.mpr hhead), if_pos hsecond]
    exact append_host_leads ⟨base.protocol, [], false⟩ rfl rfl
  · intro hslashes
    simp only
    split
    · -- a relative path
      rcases relative_eq ⟨base.protocol, base.authority ++ base.path, false⟩ relurl rfl
        base.isAuthority base.isPath
        with hurl | ⟨back, hurl⟩
      · rw [hurl]
        exact append_leads (Or.inl rfl)
      · rw [hurl]
        obtain ⟨rest, happend⟩ := append_front
          ⟨base.protocol ++ base.authority ++ [ch '/'], back, false⟩ false
          (relative ⟨base.protocol, base.authority ++ base.path, false⟩ relurl).2
        refine ⟨ch '/' :: rest, ?_, fun c hc => ?_⟩
        · rw [happend, List.append_assoc _ _ rest]
          rfl
        · cases hc
          exact Or.inl rfl
    · -- an absolute path
      next hhead =>
      rw [not_not] at hhead
      rw [if_neg fun hsecond => hslashes ⟨hhead, hsecond⟩,
        absolutePath_eq rfl base.isAuthority base.isPath]
      exact append_leads (Or.inr hhead)

/-- `concat_url` keeps the origin exactly where a mark stands in an absolute URL only. -/
theorem concat_url_keepsOrigin_iff (base : Absolute) (relurl : List UInt8) :
    KeepsOrigin base relurl (concat_url base.text relurl) ↔
      (HasMark relurl → IsAbsolute relurl) := by
  by_cases hmark : HasMark relurl
  · have hresult : concat_url base.text relurl = relurl := by
      rw [concat_url, if_pos (hasMark_iff.mp hmark)]
    rw [hresult]
    constructor
    · exact fun h _ => h.itself rfl
    · intro h
      exact ⟨fun _ => h hmark, fun hslashes => absurd (h hmark) (not_isAbsolute_of_slashes hslashes),
        fun hne => absurd rfl hne⟩
  · obtain ⟨hhost, horigin⟩ := concat_url_of_not_hasMark base hmark
    refine ⟨fun _ h => absurd h hmark, fun _ => ⟨fun hresult => ?_, hhost, fun _ => horigin⟩⟩
    by_cases hslashes : chars "//" <+: relurl
    · exact isAbsolute_of_leadsTo base (hresult ▸ hhost hslashes)
    · exact isAbsolute_of_leadsTo base (hresult ▸ horigin hslashes)

theorem isScheme_http : IsScheme (chars "http") := ⟨⟨ch 'h', rfl, rfl⟩, by decide +kernel⟩

/-- A base URL without a path. -/
def bareHost : Absolute where
  scheme := chars "http"
  authority := chars "a"
  path := []
  isScheme := isScheme_http
  isAuthority := by decide +kernel
  isPath := fun _ h => nomatch h

/-- The URL in the query of a path is taken for the URL itself. -/
theorem concat_url_leavesHost :
    concat_url bareHost.text (chars "/r?u=http://b") = chars "/r?u=http://b" ∧
      ¬ KeepsOrigin bareHost (chars "/r?u=http://b")
        (concat_url bareHost.text (chars "/r?u=http://b")) := by
  have hmark : HasMark (chars "/r?u=http://b") :=
    ⟨chars "http://", List.mem_cons_self, chars "/r?u=", chars "b", rfl⟩
  have hresult : concat_url bareHost.text (chars "/r?u=http://b") = chars "/r?u=http://b" := by
    rw [concat_url, if_pos (hasMark_iff.mp hmark)]
  refine ⟨hresult, fun h => ?_⟩
  rcases h.itself hresult with ⟨scheme, rest, hrelurl, ⟨c, hhead, halpha⟩, -⟩ | hwww
  · cases scheme with
    | nil => exact nomatch hhead
    | cons d scheme =>
      cases hhead
      have hslash : ch '/' = c := (List.cons.inj hrelurl).1
      subst hslash
      revert halpha
      decide
  · revert hwww
    decide

/-! ## The buffer -/

theorem escape_length (c : UInt8) : (escape c).length = 3 := by
  rw [escape, List.length_take, List.length_cons, hexDigits_length]
  rfl

/-- The two loops over the new piece count the same. -/
theorem encode_length (left : Bool) (s : List UInt8) : (encode left s).length = newlen left s := by
  induction s generalizing left with
  | nil => rfl
  | cons c s ih =>
    rw [encode, newlen]
    split
    · rw [List.length_append, ih]
      cases left <;> rfl
    · rw [List.length_append, ih]
      split
      · rfl
      · rw [escape_length]

/-- The string and its zero byte fit into what is allocated. -/
theorem append_length_le (url : Clone) :
    (append url host_changed useurl).length + 1 ≤ (url.front ++ url.back).length + 1 +
      (((useurl.take (hostSep host_changed useurl)).length +
        newlen true (useurl.drop (hostSep host_changed useurl))) + 1) := by
  rw [append, List.length_append, List.length_append, List.length_append, List.length_append,
    encode_length]
  split
  · rw [List.length_nil]
    omega
  · rw [List.length_singleton]
    omega

end Luaxx.Http
