import Luaxx.Json.Accepted

/-!
# What the decoder accepts

With the option for invalid numbers off, the decoder against the grammar: which strings it decodes,
and where it and the grammar part.
-/

namespace Luaxx.Json

open Luaxx.Ctype Luaxx.Result Strbuf

/-! ## The size of a tree -/

mutual

/-- What nested containers add up to. The first number of a pair is for a container alone, the second
is added to what its values need. -/
def Tree.nesting (array object : Nat × Nat) : Tree → Nat
  | .array js => max array.1 (array.2 + nestingAll array object js)
  | .object ms => max object.1 (object.2 + nestingMembers array object ms)
  | _ => 0

def nestingAll (array object : Nat × Nat) : List Tree → Nat
  | [] => 0
  | j :: js => max (j.nesting array object) (nestingAll array object js)

def nestingMembers (array object : Nat × Nat) : List (List UInt8 × Tree) → Nat
  | [] => 0
  | (_, j) :: ms => max (j.nesting array object) (nestingMembers array object ms)

end

/-- How many containers are in each other. -/
def Tree.depth (j : Tree) : Nat := j.nesting (1, 1) (1, 1)

/-- The values that are on the stack of Lua at a time. -/
def Tree.slots (j : Tree) : Nat := j.nesting (2, 1) (3, 2)

mutual

/-- The strings of a tree, and the names of members. -/
def Tree.strings : Tree → List (List UInt8)
  | .string s => [s]
  | .array js => stringsAll js
  | .object ms => stringsMembers ms
  | _ => []

def stringsAll : List Tree → List (List UInt8)
  | [] => []
  | j :: js => j.strings ++ stringsAll js

def stringsMembers : List (List UInt8 × Tree) → List (List UInt8)
  | [] => []
  | (key, j) :: ms => key :: (j.strings ++ stringsMembers ms)

end

variable {libc : Libc} {cfg : Config} {size : Int}

mutual

theorem fits_iff : ∀ (j : Tree) {depth top : Nat}, (depth : Int) ≤ cfg.decode_max_depth →
    top ≤ LUAI_MAXCSTACK → (j.Fits cfg size depth top ↔
      ((depth + j.depth : Nat) : Int) ≤ cfg.decode_max_depth ∧ top + j.slots ≤ LUAI_MAXCSTACK ∧
        ∀ s ∈ j.strings, (s.length : Int) < size)
  | .null, depth, top, hdepth, htop => by
    simp [Tree.Fits, Tree.depth, Tree.slots, Tree.strings, Tree.nesting, hdepth, htop]
  | .boolean _, depth, top, hdepth, htop => by
    simp [Tree.Fits, Tree.depth, Tree.slots, Tree.strings, Tree.nesting, hdepth, htop]
  | .number _, depth, top, hdepth, htop => by
    simp [Tree.Fits, Tree.depth, Tree.slots, Tree.strings, Tree.nesting, hdepth, htop]
  | .string s, depth, top, hdepth, htop => by
    simp [Tree.Fits, Tree.depth, Tree.slots, Tree.strings, Tree.nesting, hdepth, htop]
  | .array js, depth, top, hdepth, htop => by
    have hall := @fitAll_iff js (depth + 1) (top + 1)
    rw [Tree.Fits, Tree.depth, Tree.slots, Tree.nesting, Tree.nesting, Tree.strings]
    constructor
    · rintro ⟨h1, h2, h3⟩
      obtain ⟨h4, h5, h6⟩ := (hall h1 (by omega)).mp h3
      refine ⟨?_, ?_, h6⟩ <;> omega
    · rintro ⟨h1, h2, h3⟩
      have h4 : ((depth + 1 : Nat) : Int) ≤ cfg.decode_max_depth := by omega
      refine ⟨h4, by omega, (hall h4 (by omega)).mpr ⟨?_, ?_, h3⟩⟩ <;> omega
  | .object ms, depth, top, hdepth, htop => by
    have hall := @fitMembers_iff ms (depth + 1) (top + 2)
    rw [Tree.Fits, Tree.depth, Tree.slots, Tree.nesting, Tree.nesting, Tree.strings]
    constructor
    · rintro ⟨h1, h2, h3⟩
      obtain ⟨h4, h5, h6⟩ := (hall h1 (by omega)).mp h3
      refine ⟨?_, ?_, h6⟩ <;> omega
    · rintro ⟨h1, h2, h3⟩
      have h4 : ((depth + 1 : Nat) : Int) ≤ cfg.decode_max_depth := by omega
      refine ⟨h4, by omega, (hall h4 (by omega)).mpr ⟨?_, ?_, h3⟩⟩ <;> omega

theorem fitAll_iff : ∀ (js : List Tree) {depth top : Nat}, (depth : Int) ≤ cfg.decode_max_depth →
    top ≤ LUAI_MAXCSTACK → (FitAll cfg size js depth top ↔
      ((depth + nestingAll (1, 1) (1, 1) js : Nat) : Int) ≤ cfg.decode_max_depth ∧
        top + nestingAll (2, 1) (3, 2) js ≤ LUAI_MAXCSTACK ∧
        ∀ s ∈ stringsAll js, (s.length : Int) < size)
  | [], depth, top, hdepth, htop => by
    simp [FitAll, nestingAll, stringsAll, hdepth, htop]
  | j :: js, depth, top, hdepth, htop => by
    rw [FitAll, fits_iff j hdepth htop, fitAll_iff js hdepth htop, nestingAll, nestingAll, stringsAll,
      Tree.depth, Tree.slots, List.forall_mem_append]
    constructor
    · rintro ⟨⟨h1, h2, h3⟩, h4, h5, h6⟩
      refine ⟨?_, ?_, h3, h6⟩ <;> omega
    · rintro ⟨h1, h2, h3, h6⟩
      refine ⟨⟨?_, ?_, h3⟩, ?_, ?_, h6⟩ <;> omega

theorem fitMembers_iff : ∀ (ms : List (List UInt8 × Tree)) {depth top : Nat},
    (depth : Int) ≤ cfg.decode_max_depth → top ≤ LUAI_MAXCSTACK →
    (FitMembers cfg size ms depth top ↔
      ((depth + nestingMembers (1, 1) (1, 1) ms : Nat) : Int) ≤ cfg.decode_max_depth ∧
        top + nestingMembers (2, 1) (3, 2) ms ≤ LUAI_MAXCSTACK ∧
        ∀ s ∈ stringsMembers ms, (s.length : Int) < size)
  | [], depth, top, hdepth, htop => by
    simp [FitMembers, nestingMembers, stringsMembers, hdepth, htop]
  | (key, j) :: ms, depth, top, hdepth, htop => by
    rw [FitMembers, fits_iff j hdepth htop, fitMembers_iff ms hdepth htop, nestingMembers,
      nestingMembers, stringsMembers, Tree.depth, Tree.slots, List.forall_mem_cons,
      List.forall_mem_append]
    constructor
    · rintro ⟨⟨h0, h1, h2, h3⟩, h4, h5, h6⟩
      refine ⟨?_, ?_, h0, h3, h6⟩ <;> omega
    · rintro ⟨h1, h2, h0, h3, h6⟩
      refine ⟨⟨h0, ?_, ?_, h3⟩, ?_, ?_, h6⟩ <;> omega

end

/-! ## Texts -/

section

variable {num num' : List UInt8 → Prop}

mutual

theorem Text.imp (hnum : ∀ t, num t → num' t) : ∀ {t : List UInt8} {j : Tree}, Text num t j →
    Text num' t j
  | _, _, .null => .null
  | _, _, .true => .true
  | _, _, .false => .false
  | _, _, .number h => .number (hnum _ h)
  | _, _, .string h => .string h
  | _, _, .emptyArray hw => .emptyArray hw
  | _, _, .array h => .array (h.imp hnum)
  | _, _, .emptyObject hw => .emptyObject hw
  | _, _, .object h => .object (h.imp hnum)

theorem Elements.imp (hnum : ∀ t, num t → num' t) : ∀ {ts : List UInt8} {js : List Tree},
    Elements num ts js → Elements num' ts js
  | _, _, .one hw h hw' => .one hw (h.imp hnum) hw'
  | _, _, .more hw h hw' hs => .more hw (h.imp hnum) hw' (hs.imp hnum)

theorem Members.imp (hnum : ∀ t, num t → num' t) : ∀ {ts : List UInt8}
    {ms : List (List UInt8 × Tree)}, Members num ts ms → Members num' ts ms
  | _, _, .one h => .one (h.imp hnum)
  | _, _, .more h hs => .more (h.imp hnum) (hs.imp hnum)

theorem Member.imp (hnum : ∀ t, num t → num' t) : ∀ {m : List UInt8} {e : List UInt8 × Tree},
    Member num m e → Member num' m e
  | _, _, .mk hw hk hw' hv h hw'' => .mk hw hk hw' hv (h.imp hnum) hw''

end

end

theorem Text.lenient {t : List UInt8} {j : Tree} (h : Text IsNumber t j) : Text LenientNumber t j :=
  h.imp fun _ => IsNumber.lenient

/-- White space after the text, up to a NUL. -/
def Ends (u : List UInt8) : Prop := ∃ w v, u = w ++ v ∧ Whitespace w ∧ peek v = 0

theorem Ends.numberEnd {u : List UInt8} (h : Ends u) : NumberEnd u := by
  obtain ⟨w, v, rfl, hw, hv⟩ := h
  rcases v with _ | ⟨c, v⟩
  · have hend := @numberEnd_append w [] 0 hw (by decide)
    rcases w with _ | ⟨d, w⟩
    · exact hend
    · exact hend
  · obtain rfl : c = 0 := hv
    exact numberEnd_append hw (by decide)

/-- A string is one text and what follows it in one way only. -/
theorem text_unique {w t u w' t' u' : List UInt8} {j j' : Tree}
    (heq : w ++ (t ++ u) = w' ++ (t' ++ u')) (hw : Whitespace w) (ht : Text LenientNumber t j)
    (hu : Ends u) (hw' : Whitespace w') (ht' : Text LenientNumber t' j') (hu' : Ends u')
    (hsize : 0 ≤ size) (hnul : 0 ∉ t) (hfits : j.Fits cfg size 0 1) :
    t = t' ∧ u = u' := by
  have hskip : t ++ u = t' ++ u' := by
    rw [← skipWhitespace_eq hw (text_head ht u).1, ← skipWhitespace_eq hw' (text_head ht' u').1, heq]
  have hrest : u = u' := by
    let libc : Libc := ⟨fun _ _ => [], fun _ _ => by decide, fun _ => 0⟩
    let json : Source := ⟨[], ⟨[], size, 0⟩⟩
    let fuel := (w ++ (t ++ u)).length + (w' ++ (t' ++ u')).length + 1
    have hread := (reads_text hsize ht : ReadsValue libc cfg json t j) w u fuel 0 1 hw
      hu.numberEnd (by simp only [fuel, List.length_append]; omega)
    have hread' := (reads_text hsize ht' : ReadsValue libc cfg json t' j') w' u' fuel 0 1 hw'
      hu'.numberEnd (by simp only [fuel, List.length_append]; omega)
    rw [← heq] at hread'
    rcases hread with ⟨-, hok⟩ | ⟨hbad, -⟩
    · rcases hread' with ⟨-, hok'⟩ | ⟨-, e, herror⟩
      · rw [hok] at hok'
        exact (Prod.mk.inj (Except.ok.inj hok')).2
      · rw [hok] at herror
        cases herror
    · exact absurd ⟨hnul, hfits⟩ hbad
  subst hrest
  exact ⟨List.append_cancel_right hskip, rfl⟩

/-! ## The decoder -/

/-- The size of the buffer for strings, for a string of `n` bytes. -/
def bufferSize (n : Nat) : Int :=
  if int n ≤ 0 then STRBUF_DEFAULT_SIZE else int (int n + 1)

theorem strbuf_new_eq (n : Nat) : strbuf_new (int n) =
    if bufferSize n < 0 then .error (.exit "Out of memory")
    else .ok ⟨[], bufferSize n, STRBUF_DEFAULT_INCREMENT⟩ := rfl

/-- The buffer is at least one byte larger than the string. -/
theorem lt_bufferSize {n : Nat} (h : (n : Int) < INT_MAX) : (n : Int) < bufferSize n := by
  have hmax : INT_MAX = 2 ^ 31 - 1 := rfl
  have hint : int n = n := int_eq (by omega) (by omega)
  have hnext : int ((n : Int) + 1) = n + 1 := int_eq (by omega) (by omega)
  have hdefault : STRBUF_DEFAULT_SIZE = 1023 := rfl
  rw [bufferSize, hint, hnext]
  split <;> omega

/-- The decoder takes the string for UTF-16 or UTF-32. -/
def Utf16 (s : List UInt8) : Prop := 2 ≤ s.length ∧ (s[0]? = some 0 ∨ s[1]? = some 0)

theorem not_utf16 {s : List UInt8} (h : 0 ∉ s) : ¬ Utf16 s := by
  rintro ⟨-, h0 | h1⟩
  · exact h (List.mem_of_getElem? h0)
  · exact h (List.mem_of_getElem? h1)

/-- The buffer is large enough for every string of the tree, and so is the stack of Lua. -/
structure Room (s : List UInt8) (j : Tree) : Prop where
  stack : 1 + j.slots ≤ LUAI_MAXCSTACK
  allocated : 0 ≤ bufferSize s.length
  strings : ∀ x ∈ j.strings, (x.length : Int) < bufferSize s.length

theorem room_iff {s : List UInt8} {j : Tree} : Room s j ∧ (j.depth : Int) ≤ cfg.decode_max_depth ↔
    0 ≤ bufferSize s.length ∧ j.Fits cfg (bufferSize s.length) 0 1 := by
  have hdepth := cfg.decode_depth_range.1
  rw [fits_iff j (show ((0 : Nat) : Int) ≤ cfg.decode_max_depth by omega) (by decide), Nat.zero_add]
  constructor
  · rintro ⟨⟨h1, h2, h3⟩, h4⟩
    exact ⟨h2, h4, h1, h3⟩
  · rintro ⟨h2, h4, h1, h3⟩
    exact ⟨⟨h1, h2, h3⟩, h4⟩

section

variable {s w t u : List UInt8} {j : Tree}

/-- What the decoder does with a string with a text at its beginning. -/
theorem decode_decides (hs : s = w ++ (t ++ u)) (hw : Whitespace w) (ht : Text LenientNumber t j)
    (hu : Ends u) :
    Decides (¬ Utf16 s ∧ 0 ∉ t ∧ Room s j ∧ (j.depth : Int) ≤ cfg.decode_max_depth)
      (json_decode libc cfg s) (j.value libc) := by
  rw [room_iff]
  by_cases hutf : Utf16 s
  · have herror : json_decode libc cfg s =
        .error (.error "JSON parser does not support UTF-16 or UTF-32") := if_pos hutf
    exact .inr ⟨fun h => h.1 hutf, _, herror⟩
  by_cases hsize : bufferSize s.length < 0
  · have herror : json_decode libc cfg s = .error (.exit "Out of memory") := by
      rw [json_decode, strbuf_new_eq, if_pos hsize]
      exact if_neg hutf
    exact .inr ⟨fun h => absurd h.2.2.1 (not_le.mpr hsize), _, herror⟩
  obtain ⟨json, hjson⟩ : ∃ json : Source,
      json = ⟨s, ⟨[], bufferSize s.length, STRBUF_DEFAULT_INCREMENT⟩⟩ := ⟨_, rfl⟩
  have hdecode : json_decode libc cfg s =
      readValue libc cfg json (s.length + 1) 0 1 s >>= fun r =>
        json_next_token libc cfg json r.2 >>= fun next =>
          if next.1 ≠ .plain .end then json_throw_parse_error "the end" next.1 next.2.1
          else .ok r.1 := by
    rw [json_decode, strbuf_new_eq, if_neg hsize, hjson]
    refine (if_neg hutf).trans ?_
    rw [readValue, ok_bind]
    simp only
    cases json_next_token libc cfg ⟨s, ⟨[], bufferSize s.length, STRBUF_DEFAULT_INCREMENT⟩⟩ s with
    | error e => rfl
    | ok next => rfl
  rw [hdecode]
  have htmp : json.tmp.size = bufferSize s.length := by rw [hjson]
  have hread := (reads_text (by rw [htmp]; omega) ht : ReadsValue libc cfg json t j) w u
    (s.length + 1) 0 1 hw hu.numberEnd (by rw [hs]; simp only [List.length_append]; omega)
  rw [← hs, htmp] at hread
  have hend : Decides True (json_next_token libc cfg json (j.value libc, u).2 >>= fun next =>
      if next.1 ≠ .plain .end then json_throw_parse_error "the end" next.1 next.2.1
      else .ok (j.value libc, u).1) (j.value libc) := by
    obtain ⟨w', v, rfl, hw', hv⟩ := hu
    obtain ⟨index, hnext⟩ := next_ok (@readToken_end libc cfg json w' v hw' hv)
    rw [hnext]
    exact .inl ⟨trivial, rfl⟩
  refine (hread.bind fun _ => hend).congr ?_
  rw [and_true]
  exact ⟨fun h => ⟨hutf, h.1, not_lt.mp hsize, h.2⟩, fun h => ⟨h.2.1, h.2.2.2⟩⟩

/-- Whether the decoder accepts a string with a text at its beginning. -/
theorem decode_text (hs : s = w ++ (t ++ u)) (hw : Whitespace w) (ht : Text LenientNumber t j)
    (hu : Ends u) : (∃ v, json_decode libc cfg s = .ok v) ↔
      ¬ Utf16 s ∧ 0 ∉ t ∧ Room s j ∧ (j.depth : Int) ≤ cfg.decode_max_depth :=
  (decode_decides hs hw ht hu).ok_iff

/-- What the decoder accepts begins with a text. -/
theorem exists_text (hcfg : cfg.decode_invalid_numbers = false) {v : Value}
    (h : json_decode libc cfg s = .ok v) :
    ∃ w t u j, s = w ++ (t ++ u) ∧ Whitespace w ∧ Text LenientNumber t j ∧ Ends u := by
  rw [json_decode] at h
  split at h
  · cases h
  · obtain ⟨tmp, -, hdecode⟩ := bind_ok.mp h
    obtain ⟨next, hnext, hprocessed⟩ := bind_ok.mp hdecode
    obtain ⟨⟨value, ptr⟩, hvalue, hrest⟩ := bind_ok.mp hprocessed
    obtain ⟨⟨token, index, q⟩, htoken, hend⟩ := bind_ok.mp hrest
    obtain ⟨w, t, j, hs, hw, ht⟩ := process_sound hcfg _ hnext hvalue
    clear h hdecode hprocessed hrest
    refine ⟨w, t, ptr, j, hs, hw, ht, ?_⟩
    simp only at hend htoken
    split at hend
    · exact absurd hend throw_ne
    · next hnot =>
      rw [ne_eq, not_not] at hnot
      subst hnot
      rcases exists_next htoken with ⟨msg, herror⟩ | ⟨w', p, rfl, hw', hp⟩
      · cases herror
      · refine ⟨w', p, rfl, hw', ?_⟩
        cases hp with
        | «end» hpeek => exact hpeek
        | plain hc => exact absurd hc (by simp [punctuation])

end

/-! ## The grammar of JSON -/

/-- The whole string is one text, and is not nested too deeply. -/
def JsonText (cfg : Config) (s : List UInt8) : Prop :=
  ∃ w t w' j, s = w ++ (t ++ w') ∧ Whitespace w ∧ Text IsNumber t j ∧ Whitespace w' ∧
    (j.depth : Int) ≤ cfg.decode_max_depth

/-- The strings that the decoder takes for a text, or does not, against the grammar. -/
inductive Misread (cfg : Config) : List UInt8 → Prop
  /-- A number has a bare point. -/
  | point {w t w' : List UInt8} {j : Tree} (hw : Whitespace w) (ht : Text LenientNumber t j)
      (hw' : Whitespace w') (hnot : ¬ ∃ j, Text IsNumber t j) (hnul : 0 ∉ t)
      (hdepth : (j.depth : Int) ≤ cfg.decode_max_depth) (hroom : Room (w ++ (t ++ w')) j) :
      Misread cfg (w ++ (t ++ w'))
  /-- After the text there is a NUL, at which the rest is cut off. -/
  | cut {w t w' v : List UInt8} {j : Tree} (hw : Whitespace w) (ht : Text LenientNumber t j)
      (hw' : Whitespace w') (hnul : 0 ∉ t) (hutf : ¬ Utf16 (w ++ (t ++ (w' ++ 0 :: v))))
      (hdepth : (j.depth : Int) ≤ cfg.decode_max_depth)
      (hroom : Room (w ++ (t ++ (w' ++ 0 :: v))) j) : Misread cfg (w ++ (t ++ (w' ++ 0 :: v)))
  /-- A string of the text has a NUL. -/
  | nul {s : List UInt8} (h : JsonText cfg s) (hnul : 0 ∈ s) : Misread cfg s
  /-- The buffer for strings or the stack of Lua is too small. -/
  | room {w t w' : List UInt8} {j : Tree} (hw : Whitespace w) (ht : Text IsNumber t j)
      (hw' : Whitespace w') (hdepth : (j.depth : Int) ≤ cfg.decode_max_depth)
      (hroom : ¬ Room (w ++ (t ++ w')) j) : Misread cfg (w ++ (t ++ w'))

theorem Whitespace.ends {w : List UInt8} (hw : Whitespace w) : Ends w :=
  ⟨w, [], (List.append_nil w).symm, hw, rfl⟩

variable {s : List UInt8}

theorem text_notMem {w t w' : List UInt8} (hw : Whitespace w) (hnul : 0 ∉ t) (hw' : Whitespace w') :
    0 ∉ w ++ (t ++ w') := by
  rw [List.mem_append, List.mem_append, not_or, not_or]
  exact ⟨whitespace_notMem hw, hnul, whitespace_notMem hw'⟩

theorem misread_wrong (h : Misread cfg s) :
    ¬ ((∃ v, json_decode libc cfg s = .ok v) ↔ JsonText cfg s) := by
  intro hiff
  -- the buffer is that of the decoder
  have hunique : ∀ {w t u w' t' u' : List UInt8} {j j' : Tree}, w ++ (t ++ u) = w' ++ (t' ++ u') →
      Whitespace w → Text LenientNumber t j → Ends u → Whitespace w' → Text LenientNumber t' j' →
      Ends u' → 0 ∉ t → (j.depth : Int) ≤ cfg.decode_max_depth → Room (w ++ (t ++ u)) j →
      t = t' ∧ u = u' := by
    intro w t u w' t' u' j j' heq hw ht hu hw' ht' hu' hnul hdepth hroom
    obtain ⟨hsize, hfits⟩ := room_iff.mp ⟨hroom, hdepth⟩
    generalize bufferSize (w ++ (t ++ u)).length = size at hsize hfits
    exact text_unique heq hw ht hu hw' ht' hu' hsize hnul hfits
  cases h with
  | point hw ht hw' hnot hnul hdepth hroom =>
    have hutf := not_utf16 (text_notMem hw hnul hw')
    obtain ⟨w₂, t₂, w₂', j₂, heq, hw₂, ht₂, hw₂', -⟩ :=
      hiff.mp ((decode_text rfl hw ht hw'.ends).mpr ⟨hutf, hnul, hroom, hdepth⟩)
    obtain ⟨rfl, -⟩ := hunique heq hw ht hw'.ends hw₂ ht₂.lenient hw₂'.ends hnul hdepth hroom
    exact hnot ⟨j₂, ht₂⟩
  | @cut w t w' v j hw ht hw' hnul hutf hdepth hroom =>
    have hends : Ends (w' ++ 0 :: v) := ⟨w', 0 :: v, rfl, hw', rfl⟩
    obtain ⟨w₂, t₂, w₂', j₂, heq, hw₂, ht₂, hw₂', -⟩ :=
      hiff.mp ((decode_text rfl hw ht hends).mpr ⟨hutf, hnul, hroom, hdepth⟩)
    obtain ⟨-, rfl⟩ := hunique heq hw ht hends hw₂ ht₂.lenient hw₂'.ends hnul hdepth hroom
    exact whitespace_notMem hw₂' (List.mem_append_right _ List.mem_cons_self)
  | nul h hnul =>
    obtain ⟨w, t, w', j, rfl, hw, ht, hw', -⟩ := id h
    have hok := (decode_text rfl hw ht.lenient hw'.ends).mp (hiff.mpr h)
    exact text_notMem hw hok.2.1 hw' hnul
  | room hw ht hw' hdepth hroom =>
    have hok := (decode_text rfl hw ht.lenient hw'.ends).mp
      (hiff.mpr ⟨_, _, _, _, rfl, hw, ht, hw', hdepth⟩)
    exact hroom hok.2.2.1

theorem misread_of_wrong (hcfg : cfg.decode_invalid_numbers = false)
    (h : ¬ ((∃ v, json_decode libc cfg s = .ok v) ↔ JsonText cfg s)) : Misread cfg s := by
  by_cases hjson : JsonText cfg s
  · obtain ⟨w, t, w', j, rfl, hw, ht, hw', hdepth⟩ := id hjson
    by_cases hnul : 0 ∈ w ++ (t ++ w')
    · exact .nul hjson hnul
    · by_cases hroom : Room (w ++ (t ++ w')) j
      · refine absurd ?_ h
        have hnot : 0 ∉ t := fun hmem => hnul (List.mem_append_right _ (List.mem_append_left _ hmem))
        have hok : ∃ v, json_decode libc cfg (w ++ (t ++ w')) = .ok v :=
          (decode_text rfl hw ht.lenient hw'.ends).mpr ⟨not_utf16 hnul, hnot, hroom, hdepth⟩
        exact ⟨fun _ => hjson, fun _ => hok⟩
      · exact .room hw ht hw' hdepth hroom
  · have hok : ∃ v, json_decode libc cfg s = .ok v := by
      by_contra hnot
      exact h ⟨fun hok => absurd hok hnot, fun htext => absurd htext hjson⟩
    obtain ⟨v, hv⟩ := id hok
    obtain ⟨w, t, u, j, rfl, hw, ht, hu⟩ := exists_text hcfg hv
    obtain ⟨hutf, hnul, hroom, hdepth⟩ := (decode_text rfl hw ht hu).mp hok
    obtain ⟨w', v, rfl, hw', hv⟩ := id hu
    rcases v with _ | ⟨c, v⟩
    · rw [List.append_nil] at *
      refine .point hw ht hw' ?_ hnul hdepth hroom
      rintro ⟨j', ht'⟩
      have hok' := (decode_text rfl hw ht'.lenient hw'.ends).mp hok
      exact hjson ⟨_, _, _, _, rfl, hw, ht', hw', hok'.2.2.2⟩
    · obtain rfl : c = 0 := hv
      exact .cut hw ht hw' hnul hutf hdepth hroom

end Luaxx.Json
