import Luaxx.Http.Resolve

/-!
# How a reference is written

A resolved URL is what is kept of the base, and the reference without its leading dots, encoded. The
part of a reference with two slashes that names its host is copied.
-/

namespace Luaxx.Http

open Luaxx.Ctype Luaxx.Spans

variable {s t base relurl useurl : List UInt8} {c : UInt8} {left : Bool}

/-! ## What is kept of the base -/

/-- The string in the copy of the base. -/
def Clone.text (url : Clone) : List UInt8 := url.front ++ url.back

theorem cloneOf_eq (base : List UInt8) : (cloneOf base).text = base := by
  rw [cloneOf]
  split
  · rfl
  · exact List.take_append_drop _ base

/-- A part of the string is cut off at its end. -/
theorem Clone.text_isPrefix (url : Clone) (h : t <+: url.back) :
    ({ url with back := t } : Clone).text <+: url.text := by
  obtain ⟨r, hr⟩ := h
  refine ⟨r, ?_⟩
  rw [Clone.text, Clone.text, ← hr, List.append_assoc]

theorem Clone.cut_isPrefix (url : Clone) (c : UInt8) : (url.cut c).text <+: url.text :=
  url.text_isPrefix (List.takeWhile_prefix _)

theorem cutLast_isPrefix (h : cutLast s c = some t) : t <+: s := by
  rw [cutLast] at h
  split at h
  · cases h
  · next r hr =>
    cases h
    have hsuffix := (List.suffix_cons _ r).trans (hr ▸ List.dropWhile_suffix (l := s.reverse) _)
    have hprefix := List.reverse_prefix.2 hsuffix
    rwa [List.reverse_reverse] at hprefix

theorem cutLevels_isPrefix (level : Nat) (path : List UInt8) : cutLevels level path <+: path := by
  induction level generalizing path with
  | zero => exact List.prefix_rfl
  | succ level ih =>
    rw [cutLevels]
    split
    · next t ht => exact (ih t).trans (cutLast_isPrefix ht)
    · exact List.nil_prefix

/-- The URL without its query, and without its last segment unless that is kept for a query. -/
def directory (url : Clone) (relurl : List UInt8) : Clone :=
  let url := url.cut (ch '?')
  if relurl.head? ≠ some (ch '?') then
    { url with back := (cutLast url.back (ch '/')).getD url.back }
  else url

/-- `protsep` after any slash behind the host name. -/
def atPath (url : Clone) : Clone :=
  match url.back.dropWhile (· ≠ ch '/') with
  | [] => { url with isNull := true }
  | slash :: path => ⟨url.front ++ url.back.takeWhile (· ≠ ch '/') ++ [slash], path, false⟩

/-- The `useurl` of a relative path, before the levels are counted. -/
def undotted (relurl : List UInt8) : List UInt8 :=
  if hasPrefix relurl (chars "./") then relurl.drop 2 else relurl

/-- So many levels are cut off, if there is a path. -/
def climb (level : Nat) (url : Clone) : Clone :=
  if url.isNull then url else { url with back := cutLevels level url.back }

theorem relative_steps (url : Clone) (relurl : List UInt8) :
    relative url relurl = (climb (levels (undotted relurl)).1 (atPath (directory url relurl)),
      (levels (undotted relurl)).2) := rfl

theorem directory_isPrefix (url : Clone) (relurl : List UInt8) :
    (directory url relurl).text <+: url.text := by
  refine List.IsPrefix.trans ?_ (url.cut_isPrefix (ch '?'))
  rw [directory]
  split
  · apply Clone.text_isPrefix
    cases hcut : cutLast (url.cut (ch '?')).back (ch '/') with
    | none => exact List.prefix_rfl
    | some t => exact cutLast_isPrefix hcut
  · exact List.prefix_rfl

theorem atPath_text (url : Clone) : (atPath url).text = url.text := by
  rw [atPath]
  split
  · rfl
  · next slash path hpath =>
    have hback : url.back = url.back.takeWhile (· ≠ ch '/') ++ slash :: path := by
      rw [← hpath]
      exact List.takeWhile_append_dropWhile.symm
    rw [Clone.text, Clone.text, List.append_assoc, List.append_assoc, List.singleton_append,
      ← hback]

theorem climb_isPrefix (level : Nat) (url : Clone) : (climb level url).text <+: url.text := by
  rw [climb]
  split
  · exact List.prefix_rfl
  · exact url.text_isPrefix (cutLevels_isPrefix level _)

theorem relative_isPrefix (url : Clone) (relurl : List UInt8) :
    (relative url relurl).1.text <+: url.text := by
  rw [relative_steps]
  refine (climb_isPrefix _ _).trans ?_
  rw [atPath_text]
  exact directory_isPrefix url relurl

theorem absolutePath_isPrefix (url : Clone) : (absolutePath url).text <+: url.text := by
  rw [absolutePath]
  split
  · split
    · split
      · exact url.cut_isPrefix _
      · exact url.cut_isPrefix _
    · exact url.cut_isPrefix _
  · exact url.cut_isPrefix _

/-! ## What is left of the reference -/

theorem levels_dots {s : List UInt8} :
    levels (chars "../" ++ s) = ((levels s).1 + 1, (levels s).2) := by
  show levels (ch '.' :: ch '.' :: ch '/' :: s) = _
  rw [levels, if_pos ⟨rfl, rfl, rfl⟩]

theorem levels_other (h : ¬ chars "../" <+: s) : levels s = (0, s) := by
  rcases s with _ | ⟨a, _ | ⟨b, _ | ⟨c, s⟩⟩⟩
  · rfl
  · rfl
  · rfl
  · rw [levels, if_neg]
    rintro ⟨rfl, rfl, rfl⟩
    exact h ⟨s, rfl⟩

/-- `"../"` so many times. -/
def up (n : Nat) : List UInt8 := (List.replicate n (chars "../")).flatten

theorem up_succ (n : Nat) (s : List UInt8) : up (n + 1) ++ s = chars "../" ++ (up n ++ s) := by
  rw [up, List.replicate_succ, List.flatten_cons, List.append_assoc]
  rfl

theorem levels_up (h : ¬ chars "../" <+: s) (n : Nat) : levels (up n ++ s) = (n, s) := by
  induction n with
  | zero => exact levels_other h
  | succ n ih => rw [up_succ, levels_dots, ih]

theorem exists_up (s : List UInt8) : ∃ n rest, s = up n ++ rest ∧ ¬ chars "../" <+: rest := by
  induction hlen : s.length using Nat.strongRecOn generalizing s with
  | ind m ih =>
    by_cases h : chars "../" <+: s
    · obtain ⟨t, rfl⟩ := h
      obtain ⟨n, rest, rfl, hrest⟩ := ih t.length (by
        rw [← hlen, List.length_append]
        exact Nat.lt_add_of_pos_left (by decide)) t rfl
      exact ⟨n + 1, rest, (up_succ n rest).symm, hrest⟩
    · exact ⟨0, s, rfl, h⟩

/-! ## The host of a reference with two slashes -/

/-- What is copied of a reference behind its two slashes: up to the first `/` or `?`, after a `//` in
it. -/
def hostPart (u : List UInt8) : List UInt8 :=
  match strstr u (chars "//") with
  | none => u.takeWhile fun c => c ≠ ch '/' ∧ c ≠ ch '?'
  | some i => u.take (i + 2) ++ (u.drop (i + 2)).takeWhile fun c => c ≠ ch '/' ∧ c ≠ ch '?'

theorem min_takeWhile (s : List UInt8) (c d : UInt8) :
    min (s.takeWhile (· ≠ c)).length (s.takeWhile (· ≠ d)).length =
      (s.takeWhile fun e => e ≠ c ∧ e ≠ d).length := by
  induction s with
  | nil => rfl
  | cons e s ih =>
    by_cases hc : e = c
    · simp [hc]
    by_cases hd : e = d
    · simp [hd]
    · rw [List.takeWhile_cons_of_pos (by simpa using hc), List.takeWhile_cons_of_pos (by simpa using hd),
        List.takeWhile_cons_of_pos (by simp [hc, hd]), List.length_cons, List.length_cons,
        List.length_cons, ← ih, Nat.succ_min_succ]

theorem take_hostSep (u : List UInt8) : u.take (hostSep true u) = hostPart u := by
  rw [hostSep, if_pos rfl, hostPart]
  cases strstr u (chars "//") with
  | none =>
    dsimp only
    rw [List.drop_zero, Nat.zero_add, min_takeWhile]
    exact List.prefix_iff_eq_take.1 (List.takeWhile_prefix _) |>.symm
  | some i =>
    dsimp only
    rw [min_takeWhile, List.take_add]
    congr 1
    exact (List.prefix_iff_eq_take.1 (List.takeWhile_prefix _)).symm

/-! ## Bytes that are escaped -/

/-- How a piece is written. The two digits of a byte above 127 are not fixed. -/
inductive Encoded : Bool → List UInt8 → List UInt8 → Prop
  | nil (left : Bool) : Encoded left [] []
  | space_left {s t : List UInt8} (h : Encoded true s t) :
    Encoded true (ch ' ' :: s) (chars "%20" ++ t)
  | space_right {s t : List UInt8} (h : Encoded false s t) :
    Encoded false (ch ' ' :: s) (ch '+' :: t)
  | ascii {left : Bool} {c : UInt8} {s t : List UInt8} (hc : c < 128) (hspace : c ≠ ch ' ')
    (h : Encoded (left && c ≠ ch '?') s t) : Encoded left (c :: s) (c :: t)
  | escape {left : Bool} {c a b : UInt8} {s t : List UInt8} (hc : 128 ≤ c) (ha : isxdigit a = true)
    (hb : isxdigit b = true) (h : Encoded left s t) : Encoded left (c :: s) (ch '%' :: a :: b :: t)

theorem unescaped_iff : ∀ c : UInt8, unescaped c = true ↔ c < 128 :=
  forall_byte (by decide +kernel)

theorem escape_eq : ∀ c : UInt8, 128 ≤ c → escape c = chars "%ff" :=
  forall_byte (by decide +kernel)

theorem encode_encoded (left : Bool) (s : List UInt8) : Encoded left s (encode left s) := by
  induction s generalizing left with
  | nil => exact .nil left
  | cons c s ih =>
    rw [encode]
    by_cases hspace : c = ch ' '
    · rw [if_pos hspace, hspace]
      cases left with
      | true => exact .space_left (ih true)
      | false => exact .space_right (ih false)
    rw [if_neg hspace]
    by_cases hc : c < 128
    · rw [if_pos ((unescaped_iff c).2 hc)]
      exact .ascii hc hspace (ih _)
    · have hhigh : 128 ≤ c := UInt8.not_lt.1 hc
      have hquery : (left && decide (c ≠ ch '?')) = left := by
        have hne : c ≠ ch '?' := by
          rintro rfl
          exact absurd hhigh (by decide)
        rw [decide_eq_true hne, Bool.and_true]
      rw [if_neg (fun h => hc ((unescaped_iff c).1 h)), escape_eq c hhigh, hquery]
      exact .escape hhigh (by decide) (by decide) (ih left)

/-! ## Decoding -/

/-- The value of a hexadecimal digit. -/
def xdigit (c : UInt8) : UInt8 :=
  if isdigit c then c - ch '0' else if islower c then c - ch 'a' + 10 else c - ch 'A' + 10

/-- Percent-decoding, where `+` is a space behind the first `?`. -/
def decode : Bool → List UInt8 → List UInt8
  | _, [] => []
  | left, c :: s =>
    if c = ch '%' then
      match s with
      | a :: b :: s =>
        if isxdigit a && isxdigit b then (16 * xdigit a + xdigit b) :: decode left s
        else c :: decode left (a :: b :: s)
      | s => c :: decode left s
    else if c = ch '+' ∧ left = false then ch ' ' :: decode left s
    else c :: decode (left && c ≠ ch '?') s

/-- The piece has only bytes for which decoding is the inverse of encoding. -/
structure Decodable (s : List UInt8) : Prop where
  ascii : ∀ c ∈ s, c < 128
  percent : ch '%' ∉ s
  plus : ch '+' ∉ s.dropWhile (· ≠ ch '?')

/-- What is left of `Decodable` within a piece. -/
def Decodes (left : Bool) (s : List UInt8) : Prop :=
  (∀ c ∈ s, c < 128 ∧ c ≠ ch '%') ∧
    ch '+' ∉ (if left then s.dropWhile (· ≠ ch '?') else s)

theorem Decodes.tail (h : Decodes left (c :: s)) : Decodes (left && c ≠ ch '?') s := by
  obtain ⟨hbytes, hplus⟩ := h
  refine ⟨fun d hd => hbytes d (List.mem_cons_of_mem c hd), ?_⟩
  cases left with
  | false => exact fun hmem => hplus (List.mem_cons_of_mem c hmem)
  | true =>
    by_cases hquery : c = ch '?'
    · rw [if_pos rfl, List.dropWhile_cons_of_neg (by simpa using hquery)] at hplus
      rw [hquery]
      exact fun hmem => hplus (List.mem_cons_of_mem c hmem)
    · rw [if_pos rfl, List.dropWhile_cons_of_pos (by simpa using hquery)] at hplus
      rw [decide_eq_true hquery]
      exact hplus

theorem decode_other (hpercent : c ≠ ch '%') (hplus : ¬ (c = ch '+' ∧ left = false)) :
    decode left (c :: s) = c :: decode (left && c ≠ ch '?') s := by
  conv_lhs => unfold decode
  rw [if_neg hpercent, if_neg hplus]

theorem decode_space_left : decode true (chars "%20" ++ s) = ch ' ' :: decode true s := by
  show decode true (ch '%' :: ch '2' :: ch '0' :: s) = _
  rw [decode, if_pos rfl]
  rfl

theorem decode_space_right : decode false (ch '+' :: s) = ch ' ' :: decode false s := by
  conv_lhs => unfold decode
  rw [if_neg (by decide), if_pos ⟨rfl, rfl⟩]

theorem Encoded.decode_eq (h : Encoded left s t) (hs : Decodes left s) : decode left t = s := by
  induction h with
  | nil left => rfl
  | space_left h ih =>
    rw [decode_space_left, ih hs.tail]
  | space_right h ih =>
    rw [decode_space_right, ih hs.tail]
  | @ascii left c s t hc hspace h ih =>
    obtain ⟨-, hpercent⟩ := hs.1 c List.mem_cons_self
    have hplus : ¬ (c = ch '+' ∧ left = false) := by
      rintro ⟨rfl, rfl⟩
      exact hs.2 List.mem_cons_self
    rw [decode_other hpercent hplus, ih hs.tail]
  | @escape left c a b s t hc ha hb h ih =>
    exact absurd (hs.1 c List.mem_cons_self).1 (UInt8.not_lt.2 hc)

theorem Encoded.decode (h : Encoded true s t) (hs : Decodable s) : decode true t = s :=
  h.decode_eq ⟨fun c hc => ⟨hs.ascii c hc, fun hp => hs.percent (hp ▸ hc)⟩, hs.plus⟩

/-! ## Every reference -/

/-- What `concat_url` leaves out of the reference, and what follows. -/
def Leads (relurl lead rest : List UInt8) : Prop :=
  relurl = lead ++ rest ∧
    (if chars "//" <+: relurl then lead = chars "//"
    else if relurl.head? = some (ch '/') then lead = []
    else ∃ n, lead = (if chars "./" <+: relurl then chars "./" else []) ++ up n ∧
      ¬ chars "../" <+: rest)

/-- The kept base, a slash or none, the part that is copied and the piece that is encoded. -/
def Writes (base relurl result : List UInt8) : Prop :=
  ∃ kept slash lead host piece body, result = kept ++ slash ++ (host ++ body) ∧ kept <+: base ∧
    (slash = [] ∨ slash = [ch '/']) ∧ Leads relurl lead (host ++ piece) ∧
    host = (if chars "//" <+: relurl then hostPart (host ++ piece) else []) ∧
    Encoded true piece body ∧ (Decodable piece → decode true body = piece)

theorem append_writes {url : Clone} {host_changed : Bool} (lead : List UInt8)
    (hkept : url.text <+: base) (hlead : Leads relurl lead useurl)
    (hhost : host_changed = true ↔ chars "//" <+: relurl) :
    Writes base relurl (append url host_changed useurl) := by
  refine ⟨url.text, _, lead, useurl.take (hostSep host_changed useurl),
    useurl.drop (hostSep host_changed useurl), _, rfl, hkept, ?_, ?_, ?_, encode_encoded true _,
    (encode_encoded true _).decode⟩
  · split
    · exact .inl rfl
    · exact .inr rfl
  · rw [List.take_append_drop]
    exact hlead
  · rw [List.take_append_drop]
    split
    · next h => rw [hhost.2 h, take_hostSep]
    · next h =>
      rw [Bool.eq_false_iff.2 fun hc => h (hhost.1 hc)]
      rfl

theorem Clone.front_isPrefix (url : Clone) : ({ url with back := [] } : Clone).text <+: url.text :=
  url.text_isPrefix List.nil_prefix

theorem leads_relative (hslash : relurl.head? ≠ some (ch '/')) :
    ∃ lead, Leads relurl lead (levels (undotted relurl)).2 := by
  obtain ⟨n, rest, hrest, hup⟩ := exists_up (undotted relurl)
  have hlevels : levels (undotted relurl) = (n, rest) := by rw [hrest, levels_up hup]
  have hslashes : ¬ chars "//" <+: relurl := fun h => hslash (slashes_iff.1 h).1
  refine ⟨(if chars "./" <+: relurl then chars "./" else []) ++ up n, ?_, ?_⟩
  · rw [hlevels, List.append_assoc, ← hrest, undotted]
    by_cases hdot : chars "./" <+: relurl
    · rw [if_pos hdot, if_pos (hasPrefix_iff.2 hdot)]
      obtain ⟨t, rfl⟩ := hdot
      rfl
    · rw [if_neg hdot, if_neg (fun h => hdot (hasPrefix_iff.1 h))]
      rfl
  · rw [if_neg hslashes, if_neg hslash, hlevels]
    exact ⟨n, rfl, hup⟩

/-- A reference that is resolved is written behind a part of the base. -/
theorem concat_url_writes (base : List UInt8) (h : ¬ HasMark relurl) :
    Writes base relurl (concat_url base relurl) := by
  rw [hasMark_iff] at h
  have hbase : (cloneOf base).text <+: base := ⟨[], by rw [List.append_nil, cloneOf_eq]⟩
  rw [concat_url, if_neg h]
  dsimp only
  by_cases hslash : relurl.head? = some (ch '/')
  · rw [if_neg (not_not.2 hslash)]
    by_cases hsecond : relurl[1]? = some (ch '/')
    · have hslashes : chars "//" <+: relurl := slashes_iff.2 ⟨hslash, hsecond⟩
      rw [if_pos hsecond]
      refine append_writes (chars "//") ((cloneOf base).front_isPrefix.trans hbase) ⟨?_, ?_⟩
        ⟨fun _ => hslashes, fun _ => rfl⟩
      · obtain ⟨t, rfl⟩ := hslashes
        rfl
      · rw [if_pos hslashes]
    · have hslashes : ¬ chars "//" <+: relurl := fun h => hsecond (slashes_iff.1 h).2
      rw [if_neg hsecond]
      refine append_writes [] ((absolutePath_isPrefix _).trans hbase) ⟨rfl, ?_⟩
        ⟨by rintro ⟨⟩, fun h => absurd h hslashes⟩
      rw [if_neg hslashes, if_pos hslash]
  · have hslashes : ¬ chars "//" <+: relurl := fun h => hslash (slashes_iff.1 h).1
    obtain ⟨lead, hlead⟩ := leads_relative hslash
    rw [if_pos hslash]
    exact append_writes lead ((relative_isPrefix _ relurl).trans hbase) hlead
      ⟨by rintro ⟨⟩, fun h => absurd h hslashes⟩

theorem concat_url_writes_spaces :
    Writes bareHost.text (chars "./../a b?c d") (concat_url bareHost.text (chars "./../a b?c d")) ∧
      concat_url bareHost.text (chars "./../a b?c d") = chars "http://a/a%20b?c+d" := by
  refine ⟨concat_url_writes _ ?_, by decide +kernel⟩
  rw [hasMark_iff]
  decide +kernel

/-- Escapes of the reference stay as they are, as does its host; the digits are not those of the
byte. -/
theorem concat_url_notDecoded :
    (concat_url bareHost.text (chars "%41") = chars "http://a/%41" ∧
      decode true (chars "%41") ≠ chars "%41") ∧
    (concat_url bareHost.text (chars "?a+b") = chars "http://a?a+b" ∧
      decode true (chars "?a+b") ≠ chars "?a+b") ∧
    concat_url bareHost.text (chars "//b c/d e") = chars "http://b c/d%20e" ∧
    concat_url bareHost.text [0xc3] = chars "http://a/%ff" := by
  decide +kernel

end Luaxx.Http
