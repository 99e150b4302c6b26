import Luaxx.Http.Encoding

/-!
# Levels of a path

A base with directories, and a reference that goes some levels up and then to a remainder.
-/

namespace Luaxx.Http

open Luaxx.Ctype Luaxx.Spans

variable {s : List UInt8} {level n : Nat} {segments : List (List UInt8)}

/-- The characters at which a segment ends. -/
def EndsSegment (c : UInt8) : Prop := c = ch '/' ∨ c = ch '?'

/-- `scheme://authority/s1/.../sk/last[?query]`. -/
structure Base where
  scheme : List UInt8
  authority : List UInt8
  segments : List (List UInt8)
  last : List UInt8
  /-- Empty, or with its `?`. -/
  query : List UInt8
  isScheme : IsScheme scheme
  isAuthority : ∀ c ∈ authority, ¬ EndsAuthority c
  areSegments : ∀ s ∈ segments, s ≠ [] ∧ ∀ c ∈ s, ¬ EndsSegment c
  isLast : ∀ c ∈ last, ¬ EndsSegment c
  isQuery : ∀ c, query.head? = some c → c = ch '?'

/-- Each segment after its slash. -/
def directories (segments : List (List UInt8)) : List UInt8 :=
  segments.flatMap fun s => ch '/' :: s

namespace Base

def absolute (base : Base) : Absolute where
  scheme := base.scheme
  authority := base.authority
  path := directories base.segments ++ ch '/' :: base.last ++ base.query
  isScheme := base.isScheme
  isAuthority := base.isAuthority
  isPath := by
    intro c hc
    cases hsegments : base.segments with
    | nil =>
      rw [hsegments] at hc
      cases hc
      exact .inl rfl
    | cons s segments =>
      rw [hsegments] at hc
      cases hc
      exact .inl rfl

def text (base : Base) : List UInt8 := base.absolute.text

end Base

/-- The reference without its dots: it stands for a path of its own, in printable characters. -/
structure Remainder (s : List UInt8) : Prop where
  nonempty : s ≠ []
  slash : s.head? ≠ some (ch '/')
  query : s.head? ≠ some (ch '?')
  dot : ¬ chars "./" <+: s
  dots : ¬ chars "../" <+: s
  graph : ∀ c ∈ s, isgraph c = true

/-! ## Cutting -/

/-- The path behind the slash after the host. -/
def inner : List (List UInt8) → List UInt8
  | [] => []
  | s :: segments => s ++ directories segments

theorem directories_append (segments segments' : List (List UInt8)) :
    directories (segments ++ segments') = directories segments ++ directories segments' :=
  List.flatMap_append

theorem directories_singleton (s : List UInt8) : directories [s] = ch '/' :: s := List.append_nil _

/-- One level is one segment, down to none. -/
theorem cutLevels_inner (h : ∀ s ∈ segments, s ≠ [] ∧ ∀ c ∈ s, ¬ EndsSegment c) (level : Nat) :
    cutLevels level (inner segments) = inner (segments.take (segments.length - level)) := by
  induction level generalizing segments with
  | zero =>
    rw [Nat.sub_zero, List.take_length]
    rfl
  | succ level ih =>
    have hslash {s : List UInt8} (hs : s ∈ segments) : ch '/' ∉ s :=
      fun hmem => (h s hs).2 _ hmem (.inl rfl)
    rw [cutLevels]
    rcases List.eq_nil_or_concat segments with rfl | ⟨init, s, rfl⟩
    · rw [List.take_nil, inner, cutLast_none List.not_mem_nil]
    rw [List.concat_eq_append] at h hslash ⊢
    have hlen : (init ++ [s]).length - (level + 1) = init.length - level := by
      rw [List.length_append, List.length_singleton, Nat.add_sub_add_right]
    rw [hlen, List.take_append_of_le_length (Nat.sub_le _ _)]
    have hs : ch '/' ∉ s := hslash (List.mem_append_right _ List.mem_cons_self)
    cases init with
    | nil =>
      have hinner : inner ([] ++ [s]) = s := List.append_nil s
      rw [hinner, cutLast_none hs, List.take_nil]
      rfl
    | cons s₀ rest =>
      have hinner : inner (s₀ :: rest ++ [s]) = inner (s₀ :: rest) ++ ch '/' :: s := by
        show s₀ ++ directories (rest ++ [s]) = s₀ ++ directories rest ++ ch '/' :: s
        rw [directories_append, directories_singleton, List.append_assoc]
      rw [hinner, cutLast_some hs]
      exact ih fun t ht => h t (List.mem_append_left _ ht)

/-! ## The copy of the base -/

variable (base : Base)

theorem Base.notMem_directories {c : UInt8} (hc : c = ch '?') : c ∉ directories base.segments := by
  rw [directories, List.mem_flatMap]
  rintro ⟨s, hs, hmem⟩
  rcases List.mem_cons.1 hmem with hslash | hmem
  · rw [hc] at hslash
    exact absurd hslash (by decide)
  · exact (base.areSegments s hs).2 c hmem (.inr hc)

/-- The query and the last segment are cut off. -/
theorem directory_base {relurl : List UInt8} (hquery : relurl.head? ≠ some (ch '?')) :
    directory (cloneOf base.text) relurl =
      ⟨base.absolute.protocol, base.authority ++ directories base.segments, false⟩ := by
  have hnoquery : ∀ c ∈ base.authority ++ (directories base.segments ++ ch '/' :: base.last),
      decide (c ≠ ch '?') = true := by
    intro c hc
    rw [decide_eq_true_eq]
    rintro rfl
    rcases List.mem_append.1 hc with hc | hc
    · exact base.isAuthority _ hc (.inr (.inl rfl))
    rcases List.mem_append.1 hc with hc | hc
    · exact base.notMem_directories rfl hc
    rcases List.mem_cons.1 hc with hc | hc
    · exact absurd hc (by decide)
    · exact base.isLast _ hc (.inr rfl)
  have hcut := (span_eq _ base.query hnoquery fun c hc => by rw [base.isQuery c hc]; rfl).1
  have hlast : ch '/' ∉ base.last := fun hmem => base.isLast _ hmem (.inl rfl)
  have hback : base.authority ++ base.absolute.path =
      base.authority ++ (directories base.segments ++ ch '/' :: base.last) ++ base.query :=
    (List.append_assoc _ _ _).symm
  rw [Base.text, Absolute.cloneOf_text, directory, if_pos hquery]
  show (⟨_, (cutLast ((base.authority ++ base.absolute.path).takeWhile _) _).getD _, _⟩ : Clone) = _
  rw [hback, hcut, ← List.append_assoc, cutLast_some hlast]
  rfl

theorem atPath_base :
    atPath ⟨base.absolute.protocol, base.authority ++ directories base.segments, false⟩ =
      if base.segments = [] then ⟨base.absolute.protocol, base.authority, true⟩
      else ⟨base.absolute.origin ++ [ch '/'], inner base.segments, false⟩ := by
  have hslash : ch '/' ∉ base.authority := fun hmem => base.isAuthority _ hmem (.inl rfl)
  rw [atPath]
  cases hsegments : base.segments with
  | nil =>
    have hnil : base.authority ++ directories [] = base.authority := List.append_nil _
    rw [hnil, (span_ne_end hslash).2, if_pos rfl]
  | cons s segments =>
    have hcons : base.authority ++ directories (s :: segments) =
        base.authority ++ ch '/' :: inner (s :: segments) := rfl
    rw [hcons, (span_ne hslash _).2, (span_ne hslash _).1, if_neg (List.cons_ne_nil s segments)]
    rfl

/-! ## The reference -/

variable {dot remainder : List UInt8}

theorem undotted_eq (hdot : dot = [] ∨ dot = chars "./") (hr : Remainder remainder) (n : Nat) :
    undotted (dot ++ (up n ++ remainder)) = up n ++ remainder := by
  rw [undotted]
  rcases hdot with rfl | rfl
  · rw [List.nil_append, if_neg]
    rw [hasPrefix_iff]
    cases n with
    | zero => exact hr.dot
    | succ n =>
      rw [up_succ]
      rintro ⟨t, ht⟩
      have hsecond := congrArg (fun s => s[1]?) ht
      exact absurd (Option.some.inj hsecond) (by decide)
  · rw [if_pos (hasPrefix_iff.2 ⟨_, rfl⟩)]
    rfl

/-- It begins with a dot, or with its remainder. -/
theorem head_reference (hdot : dot = [] ∨ dot = chars "./") (n : Nat) (remainder : List UInt8) :
    (dot ++ (up n ++ remainder)).head? = some (ch '.') ∨
      dot ++ (up n ++ remainder) = remainder := by
  rcases hdot with rfl | rfl
  · cases n with
    | zero => exact .inr rfl
    | succ n =>
      rw [up_succ]
      exact .inl rfl
  · exact .inl rfl

theorem encode_graph {s : List UInt8} (h : ∀ c ∈ s, isgraph c = true) (left : Bool) :
    encode left s = s := by
  induction s generalizing left with
  | nil => rfl
  | cons c s ih =>
    obtain ⟨hc, hs⟩ := List.forall_mem_cons.1 h
    have hspace : c ≠ ch ' ' := by
      rintro rfl
      exact absurd hc (by decide)
    have hunescaped : unescaped c = true := by rw [unescaped, hc, Bool.or_true]
    rw [encode_head hspace hunescaped, ih hs]

theorem append_remainder (hr : Remainder remainder) (url : Clone) :
    append url false remainder =
      url.text ++ (if url.isNull = false ∧ url.back = [] then remainder else ch '/' :: remainder) := by
  have hslash : (remainder.head? = some (ch '/') ∨ ((!url.isNull) = true ∧ url.back = []) ∨
      remainder.head? = some (ch '?')) ↔ (url.isNull = false ∧ url.back = []) := by
    rw [Bool.not_eq_true']
    constructor
    · rintro (h | h | h)
      · exact absurd h hr.slash
      · exact h
      · exact absurd h hr.query
    · exact fun h => .inr (.inl h)
  rw [append, hostSep, if_neg Bool.false_ne_true, List.take_zero, List.drop_zero, List.nil_append,
    encode_graph hr.graph]
  simp only [hslash]
  split
  · rw [List.append_nil]
    rfl
  · rw [List.append_assoc]
    rfl

/-- As many directories are left as there are more than levels. -/
theorem concat_url_levels (hdot : dot = [] ∨ dot = chars "./") (n : Nat)
    (hr : Remainder remainder) (hmark : ¬ HasMark (dot ++ (up n ++ remainder))) :
    concat_url base.text (dot ++ (up n ++ remainder)) =
      base.absolute.origin ++
        directories (base.segments.take (base.segments.length - min n base.segments.length)) ++
        ch '/' :: remainder := by
  have hhead : (dot ++ (up n ++ remainder)).head? ≠ some (ch '/') ∧
      (dot ++ (up n ++ remainder)).head? ≠ some (ch '?') := by
    rcases head_reference hdot n remainder with h | h
    · rw [h]
      decide
    · rw [h]
      exact ⟨hr.slash, hr.query⟩
  have htake : base.segments.length - min n base.segments.length = base.segments.length - n := by
    omega
  rw [hasMark_iff] at hmark
  rw [concat_url, if_neg hmark, htake]
  dsimp only
  rw [if_pos hhead.1, relative_steps, directory_base base hhead.2, atPath_base,
    undotted_eq hdot hr, levels_up hr.dots]
  by_cases hsegments : base.segments = []
  · -- there is no slash after the host
    rw [if_pos hsegments, hsegments]
    dsimp only
    rw [climb, if_pos rfl, append_remainder hr, if_neg (by rintro ⟨⟨⟩, -⟩), List.take_nil]
    show base.absolute.origin ++ _ = base.absolute.origin ++ [] ++ _
    rw [List.append_nil]
  · rw [if_neg hsegments]
    dsimp only
    rw [climb, if_neg Bool.false_ne_true, cutLevels_inner base.areSegments, append_remainder hr]
    cases hleft : base.segments.take (base.segments.length - n) with
    | nil =>
      -- all levels are gone, and the slash after the host is there
      rw [if_pos ⟨rfl, rfl⟩]
      show base.absolute.origin ++ [ch '/'] ++ [] ++ _ = base.absolute.origin ++ [] ++ _
      rw [List.append_nil, List.append_nil, List.append_assoc]
      rfl
    | cons s segments =>
      have hs : s ≠ [] := by
        have hmem : s ∈ base.segments.take (base.segments.length - n) := by
          rw [hleft]
          exact List.mem_cons_self
        exact (base.areSegments s (List.mem_of_mem_take hmem)).1
      have hinner : inner (s :: segments) ≠ [] := fun h => hs (List.append_eq_nil_iff.1 h).1
      rw [if_neg (fun h => hinner h.2)]
      show base.absolute.origin ++ [ch '/'] ++ inner (s :: segments) ++ _ =
        base.absolute.origin ++ (ch '/' :: inner (s :: segments)) ++ _
      rw [List.append_assoc _ [ch '/']]
      rfl

/-- `http://h/a/b/c?q`. -/
def twoLevels : Base where
  scheme := chars "http"
  authority := chars "h"
  segments := [chars "a", chars "b"]
  last := chars "c"
  query := chars "?q"
  isScheme := isScheme_http
  isAuthority := by decide +kernel
  areSegments := by
    unfold EndsSegment
    decide +kernel
  isLast := by
    unfold EndsSegment
    decide +kernel
  isQuery := fun _ h => (Option.some.inj h).symm

theorem concat_url_levels_two :
    concat_url twoLevels.text (chars "./../d") = chars "http://h/a/d" ∧
      concat_url twoLevels.text (chars "../../../d") = chars "http://h/d" := by
  have hr : Remainder (chars "d") :=
    ⟨by decide, by decide, by decide, by decide, by decide, by decide +kernel⟩
  have hmark (n : Nat) (dot : List UInt8) (h : (marks.any fun mark =>
      (strstr (dot ++ (up n ++ chars "d")) mark).isSome) = false) :
      ¬ HasMark (dot ++ (up n ++ chars "d")) := by
    rw [hasMark_iff, h]
    exact Bool.false_ne_true
  exact ⟨(concat_url_levels twoLevels (.inr rfl) 1 hr (hmark 1 _ (by decide +kernel))).trans
      (by decide +kernel),
    (concat_url_levels twoLevels (.inl rfl) 3 hr (hmark 3 [] (by decide +kernel))).trans
      (by decide +kernel)⟩

end Luaxx.Http
