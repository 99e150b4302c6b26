import Luaxx.Bstring.Limits

/-!
# Strings that are appended, or left alone

A call that appends gives the bytes or fails and leaves its string alone, up to the limits of `int`.
`bcatcstr` fills the block before it knows that there is room for the rest, and a failure comes too
late.
-/

namespace Luaxx.Bstr.Failing

open Luaxx.Int32 Luaxx.Memory

variable {b b0 b1 : Bstring} {l l0 l1 : List UInt8} {results : List Bool}

/-! ## What is right -/

/-- A call that appends is right: it has failed and written nothing, or the bytes `s` are behind
those of the string, with room for the zero byte. -/
def Appends (l s : List UInt8) (b : Bstring) (r : Option ((Int × Bstring) × List Bool)) : Prop :=
  ∃ code b' results', r = some ((code, b'), results') ∧
    (code = BSTR_ERR ∧ b' = b ∨ code = BSTR_OK ∧ Represents b' (l ++ s))

/-- A call that makes a string is right: it gives none, or the bytes `s`. -/
def Creates (s : List UInt8) (r : Option (Option Bstring × List Bool)) : Prop :=
  ∃ p results', r = some (p, results') ∧ ∀ b, p = some b → Represents b s

variable {s : List UInt8} {b' : Bstring} {results' : List Bool}

theorem appends_ok (h : Represents b' (l ++ s)) :
    Appends l s b (some ((BSTR_OK, b'), results')) := ⟨_, _, _, rfl, .inr ⟨rfl, h⟩⟩

theorem appends_error : Appends l s b (some ((BSTR_ERR, b), results')) :=
  ⟨_, _, _, rfl, .inl ⟨rfl, rfl⟩⟩

theorem not_appends_none : ¬ Appends l s b none := by
  rintro ⟨_, _, _, ⟨⟩, -⟩

/-- A string that has been changed is not one that has been left alone. -/
theorem not_appends_error (hne : b'.slen ≠ b.slen) :
    ¬ Appends l s b (some ((BSTR_ERR, b'), results')) := by
  rintro ⟨code, b'', results'', hrun, hcases⟩
  cases hrun
  rcases hcases with ⟨-, rfl⟩ | ⟨hcode, -⟩
  · exact hne rfl
  · exact absurd hcode (by decide)

/-- What has been appended is found from the string. -/
theorem not_appends_length (h : Represents b' l0) (hne : l0.length ≠ (l ++ s).length) :
    ¬ Appends l s b (some ((BSTR_OK, b'), results')) := by
  rintro ⟨code, b'', results'', hrun, hcases⟩
  cases hrun
  rcases hcases with ⟨hcode, -⟩ | ⟨-, hrep⟩
  · exact absurd hcode (by decide)
  · have hslen := hrep.slen
    rw [h.slen] at hslen
    exact hne (Int.ofNat_inj.1 hslen)

theorem bconcat_appends_iff (h0 : Represents b0 l0) (h1 : Represents b1 l1) (aliased : Bool) :
    Appends l0 l1 b0 ((bconcat b0 b1 aliased).run results) ↔
      l0.length + l1.length + 1 < 2 ^ 31 := by
  have hslen := h0.slen
  have hslen1 := h1.slen
  have hlength := h0.length_lt
  have hlength1 := h1.length_lt
  have hsmall1 := h1.small
  have hmlen := h0.mlen
  refine ⟨fun happends => ?_, fun hlt => ?_⟩
  · by_contra hlimit
    rw [bconcat_overflow (by omega) (by omega) hmlen h0.small (by omega) (by omega) (by omega)]
      at happends
    exact not_appends_none happends
  · rcases @bconcat_run b0 b1 l0 l1 results h0.holds hslen1 h1.holds.starts hlt aliased with
      ⟨b, results', hrun, hrep, -⟩ | ⟨results', hrun, -⟩
    · rw [hrun]
      exact appends_ok hrep
    · rw [hrun]
      exact appends_error

theorem bconchar_appends (h : Represents b l) (c : UInt8) :
    Appends l [c] b ((bconchar b c).run results) := by
  rcases @bconchar_run b l results h c with ⟨b', results', hrun, hrep⟩ | ⟨results', hrun⟩
  · rw [hrun]
    exact appends_ok hrep
  · rw [hrun]
    exact appends_error

theorem bcatcstr_appends_iff (h : Represents b l) (s : CString) :
    Appends l s.val b ((bcatcstr b s).run results) ↔
      l.length + s.val.length < b.mlen ∨
        (l.length + s.val.length + 1 < 2 ^ 31 ∧ grantedFull b results = true) := by
  have hslen := h.slen
  have hmlen := h.mlen
  have hsmall := h.small
  have hlength := h.length_lt
  by_cases hfits : l.length + s.val.length < b.mlen
  · obtain ⟨b', hrun, hrep⟩ := @bcatcstr_fits b l results h s hfits
    rw [hrun]
    exact ⟨fun _ => .inl hfits, fun _ => appends_ok hrep⟩
  have hfull : b.mlen ≤ l.length + s.val.length := Int.not_lt.1 hfits
  -- the length that is found is right below the limit
  have hcount : l.length + s.val.length + 1 < 2 ^ 31 →
      tailLength b s = l.length + s.val.length - b.mlen := by
    intro hlt
    rw [tailLength, hslen]
    exact wrap_eq (by omega) (by omega)
  rcases @bcatcstr_full b l results h s hfull with ⟨hbad, b', results', hrun, hb'⟩ |
    ⟨hpos, hlimit, hrun⟩ | ⟨hpos, hlimit, hgranted, b', results', hrun, hrep⟩
  · rw [hrun]
    refine ⟨fun happends => absurd happends (not_appends_error (by omega)), ?_⟩
    rintro (hlt | ⟨hlt, hgranted⟩)
    · omega
    · have hcount := hcount hlt
      rcases hbad with hnegative | ⟨-, hdenied⟩
      · omega
      · rw [hgranted] at hdenied
        cases hdenied
  · rw [hrun]
    refine ⟨fun happends => absurd happends not_appends_none, ?_⟩
    rintro (hlt | ⟨hlt, -⟩)
    · omega
    · have hcount := hcount hlt
      omega
  · rw [hrun]
    by_cases hlt : l.length + s.val.length + 1 < 2 ^ 31
    · have hcount := hcount hlt
      rw [List.take_of_length_le (by omega)] at hrep
      exact ⟨fun _ => .inr ⟨hlt, hgranted⟩, fun _ => appends_ok hrep⟩
    · -- only a part of the string has been counted
      have hpart : (b.mlen - l.length + tailLength b s).toNat < s.val.length := by omega
      have hlen := h.length_lt
      refine ⟨fun happends => absurd happends (not_appends_length hrep ?_), ?_⟩
      · rw [List.length_append, List.length_append, List.length_take_of_le (Nat.le_of_lt hpart)]
        omega
      · rintro (hlt' | ⟨hlt', -⟩)
        · omega
        · omega

theorem bcatblk_appends_iff (h : Represents b l) (s : List UInt8) {len : Int}
    (hlen : len ≤ s.length) (hlt : len < 2 ^ 31) :
    Appends l (s.take len.toNat) b ((bcatblk b s len).run results) ↔
      l.length + len ≠ 2 ^ 31 - 1 := by
  have hsmall := h.small
  have hlength := h.length_lt
  by_cases hfails : len < 0 ∨ 2 ^ 31 ≤ l.length + len
  · rw [bcatblk_fails h s hlt hfails]
    exact ⟨fun _ => by omega, fun _ => appends_error⟩
  by_cases hlimit : l.length + len = 2 ^ 31 - 1
  · rw [bcatblk_overflow h s (by omega) hlt hlimit]
    exact ⟨fun happends => absurd happends not_appends_none, fun hne => absurd hlimit hne⟩
  · rcases @bcatblk_run b l results h s len (by omega) hlen (by omega) with
      ⟨b', results', hrun, hrep⟩ | ⟨results', hrun⟩
    · rw [hrun]
      exact ⟨fun _ => hlimit, fun _ => appends_ok hrep⟩
    · rw [hrun]
      exact ⟨fun _ => hlimit, fun _ => appends_error⟩

/-- The lengths for which a new string is right, or is refused. -/
def Creatable (j : Nat) (results : List Bool) : Prop :=
  j < 2 ^ 31 ∨ j % 2 ^ 32 = 2 ^ 31 - 1 ∨ grantedNew results = false

theorem created_creates_iff (s : CString) {i : Int} (hlt : i < 2 ^ 31) :
    Creates s.val ((created i s).run results) ↔ s.val.length < i ∨ grantedNew results = false := by
  rcases @created_run results s i hlt with ⟨hdenied, results', hrun⟩ | ⟨hgranted, hle, hrun⟩ |
    ⟨hgranted, hroom, b, results', hrun, hrep⟩
  · rw [hrun]
    exact ⟨fun _ => .inr hdenied, fun _ => ⟨none, results', rfl, by rintro _ ⟨⟩⟩⟩
  · rw [hrun, hgranted]
    refine ⟨by rintro ⟨_, _, ⟨⟩, -⟩, ?_⟩
    rintro (hroom | hdenied)
    · omega
    · cases hdenied
  · rw [hrun]
    exact ⟨fun _ => .inl hroom, fun _ => ⟨some b, results', rfl, by rintro _ ⟨⟩; exact hrep⟩⟩

theorem bfromcstr_creates_iff (s : CString) :
    Creates s.val ((bfromcstr s).run results) ↔ Creatable s.val.length results := by
  rw [bfromcstr]
  rcases roomFor_cases s.val.length with ⟨hlimit, hrefused⟩ | ⟨hne, hroom, hlt, hsmall⟩
  · rw [if_pos hrefused]
    exact ⟨fun _ => .inr (.inl hlimit), fun _ => ⟨none, results, rfl, by rintro _ ⟨⟩⟩⟩
  · rw [if_neg (Int.not_le.2 hroom), created_creates_iff s hlt]
    constructor
    · rintro (hfits | hdenied)
      · exact .inl (by omega)
      · exact .inr (.inr hdenied)
    · rintro (hj | hj | hdenied)
      · exact .inl (hsmall hj)
      · exact absurd hj hne
      · exact .inr hdenied

theorem bfromcstralloc_creates_iff (s : CString) {mlen : Int} (hmlen : mlen < 2 ^ 31) :
    Creates s.val ((bfromcstralloc mlen s).run results) ↔ Creatable s.val.length results := by
  rw [bfromcstralloc]
  rcases roomFor_cases s.val.length with ⟨hlimit, hrefused⟩ | ⟨hne, hroom, hlt, hsmall⟩
  · rw [if_pos hrefused]
    exact ⟨fun _ => .inr (.inl hlimit), fun _ => ⟨none, results, rfl, by rintro _ ⟨⟩⟩⟩
  · generalize hi : (if roomFor s.val.length < mlen then mlen else roomFor s.val.length) = i
    have hbounds : roomFor s.val.length ≤ i ∧ i < 2 ^ 31 := by
      rw [← hi]
      split <;> omega
    rw [if_neg (Int.not_le.2 hroom), created_creates_iff s hbounds.2]
    constructor
    · rintro (hfits | hdenied)
      · exact .inl (by omega)
      · exact .inr (.inr hdenied)
    · rintro (hj | hj | hdenied)
      · have hfits := hsmall hj
        exact .inl (by omega)
      · exact absurd hj hne
      · exact .inr hdenied

/-- Up to a length, with its zero byte, that is an `int`. -/
theorem appending_right_iff (results : List Bool) (h0 : Represents b0 l0) (h1 : Represents b1 l1)
    (aliased : Bool) (c : UInt8) (str : CString) (block : List UInt8) (len : Int)
    (hlen : len ≤ block.length) (hlt : len < 2 ^ 31) (mlen : Int) (hmlen : mlen < 2 ^ 31) :
    (Appends l0 l1 b0 ((bconcat b0 b1 aliased).run results) ↔
      l0.length + l1.length + 1 < 2 ^ 31) ∧
    Appends l0 [c] b0 ((bconchar b0 c).run results) ∧
    (Appends l0 str.val b0 ((bcatcstr b0 str).run results) ↔
      l0.length + str.val.length < b0.mlen ∨
        (l0.length + str.val.length + 1 < 2 ^ 31 ∧ grantedFull b0 results = true)) ∧
    (Appends l0 (block.take len.toNat) b0 ((bcatblk b0 block len).run results) ↔
      l0.length + len ≠ 2 ^ 31 - 1) ∧
    (Creates str.val ((bfromcstr str).run results) ↔ Creatable str.val.length results) ∧
    (Creates str.val ((bfromcstralloc mlen str).run results) ↔
      Creatable str.val.length results) ∧
    ∀ i, i ≤ snapUpSize i :=
  ⟨bconcat_appends_iff h0 h1 aliased, bconchar_appends h0 c, bcatcstr_appends_iff h0 str,
    bcatblk_appends_iff h0 block hlen hlt, bfromcstr_creates_iff str,
    bfromcstralloc_creates_iff str hmlen, fun i => (le_snapUpSize i).1⟩

/-- A string in a block of its length. -/
def tight (l : List UInt8) : Bstring := ⟨l.length + 1, l.length, withNul l⟩

theorem tight_represents (hlt : l.length + 1 < 2 ^ 31) : Represents (tight l) l := by
  have hlen : (withNul l).length = l.length + 1 := by
    rw [withNul, List.length_map, List.length_append, List.length_singleton]
  refine ⟨rfl, ?_, ?_, starts_map _⟩
  · show (l.length : Int) + 1 = (withNul l).length
    omega
  · show (withNul l).length < 2 ^ 31
    omega

theorem appending_right_iff_ab :
    Represents (tight [97]) [97] ∧ Represents (tight [98]) [98] ∧
      Appends [97] [98] (tight [97]) ((bconcat (tight [97]) (tight [98]) false).run [true]) := by
  have ha : Represents (tight [97]) [97] := tight_represents (by decide)
  have hb : Represents (tight [98]) [98] := tight_represents (by decide)
  exact ⟨ha, hb, (appending_right_iff [true] ha hb false 99 ⟨[100], by decide⟩ [101] 1
    (by decide) (by decide) 16 (by decide)).1.2 (by decide)⟩

/-- A C string of `n` characters. -/
def many (n : Nat) : CString :=
  ⟨List.replicate n 97, fun h => absurd (List.eq_of_mem_replicate h) (by decide)⟩

theorem gigabytes_overflow :
    Represents (tight (many (2 ^ 30)).val) (many (2 ^ 30)).val ∧
      ¬ Appends (many (2 ^ 30)).val (many (2 ^ 30)).val (tight (many (2 ^ 30)).val)
        ((bconcat (tight (many (2 ^ 30)).val) (tight (many (2 ^ 30)).val) true).run []) ∧
      ¬ Creates (many (2 ^ 31)).val ((bfromcstr (many (2 ^ 31))).run []) := by
  have hlen (n : Nat) : (many n).val.length = n := List.length_replicate
  have h : Represents (tight (many (2 ^ 30)).val) (many (2 ^ 30)).val :=
    tight_represents (by rw [hlen]; decide)
  refine ⟨h, fun happends => ?_, fun hcreates => ?_⟩
  · have hlt := (bconcat_appends_iff h h true).1 happends
    rw [hlen] at hlt
    exact absurd hlt (by decide)
  · have hcreatable := (bfromcstr_creates_iff (many (2 ^ 31))).1 hcreates
    rw [hlen, Creatable] at hcreatable
    exact absurd hcreatable (by decide)

/-! ## Failures -/

section

variable {α β : Type} {x : A α} {f : α → A β}

end

end Luaxx.Bstr.Failing
