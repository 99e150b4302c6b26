import Luaxx.Bstring.Bstring
import Mathlib.Data.Option.Basic

/-!
# A bstring is a list of bytes

Between two calls a bstring is its bytes with a zero byte after them (`Represents`). Within a call
the zero byte may be missing, and the bytes may fill the block (`Holds`).
-/

namespace Luaxx.Bstr

open Luaxx.Int32 Luaxx.Memory

/-! ## What a bstring stands for -/

/-- The block begins with the bytes, which may fill it. -/
structure Holds (b : Bstring) (l : List UInt8) : Prop where
  slen : b.slen = l.length
  mlen : b.mlen = b.data.length
  pos : 0 < b.data.length
  small : b.data.length < 2 ^ 31
  starts : Starts b.data l

/-- The bytes of the string, and the zero byte after them. -/
structure Represents (b : Bstring) (l : List UInt8) : Prop where
  slen : b.slen = l.length
  mlen : b.mlen = b.data.length
  small : b.data.length < 2 ^ 31
  starts : Starts b.data (l ++ [0])

variable {b b0 b1 : Bstring} {l l0 l1 : List UInt8}

theorem Represents.length_lt (h : Represents b l) : l.length < b.data.length := by
  have hle := h.starts.length_le
  rw [List.length_append, List.length_singleton] at hle
  omega

theorem Represents.holds (h : Represents b l) : Holds b l :=
  ⟨h.slen, h.mlen, Nat.zero_lt_of_lt h.length_lt, h.small, h.starts.of_append⟩

/-- The length is within the capacity, and a zero byte stands there. -/
theorem Represents.bounds (h : Represents b l) :
    0 ≤ b.slen ∧ b.slen < b.mlen ∧ b.data[b.slen.toNat]? = some (some 0) := by
  have hlt := h.length_lt
  have hslen := h.slen
  have hmlen := h.mlen
  refine ⟨by omega, by omega, ?_⟩
  obtain ⟨rest, hrest⟩ := h.starts
  have htoNat : b.slen.toNat = (l.map some).length := by
    rw [hslen, Int.toNat_natCast, List.length_map]
  rw [← hrest, List.map_append, List.append_assoc, htoNat,
    List.getElem?_append_right (Nat.le_refl _), Nat.sub_self]
  rfl

/-! ## Allocation -/

theorem le_snapUpSize (i : Int) : i ≤ snapUpSize i ∧ 0 < snapUpSize i := by
  rw [snapUpSize]
  split
  · omega
  · dsimp only
    split <;> omega

theorem snapUpSize_lt {i : Int} (hi : i < 2 ^ 31) : snapUpSize i < 2 ^ 31 := by
  rw [snapUpSize]
  split
  · decide
  · dsimp only
    split
    · exact wrap_lt _
    · exact hi

theorem copied_spec (hslen : b.slen = l.length) (h : Starts b.data l) {len : Int}
    (hlen : l.length ≤ len) :
    ∃ x, copied b len = some x ∧ x.length = len.toNat ∧ Starts x l := by
  have htoNat : b.slen.toNat = l.length := by omega
  rw [copied, htoNat]
  by_cases hne : b.slen ≠ 0
  · rw [if_pos hne]
    obtain ⟨x, hx, hxlen, hstarts⟩ := (starts_nil (malloc len.toNat)).move h (Nat.le_refl 0)
      (by rw [length_malloc]; omega)
    exact ⟨x, hx, hxlen.trans (length_malloc _), hstarts⟩
  · have hnil : l = [] := List.eq_nil_of_length_eq_zero (by omega)
    rw [if_neg hne, hnil]
    exact ⟨malloc len.toNat, rfl, length_malloc _, starts_nil _⟩

/-- Both ways to get a larger block keep the bytes. -/
theorem moved_spec (h : Holds b l) {len : Int} (hlen : b.mlen ≤ len) :
    ∃ x, moved b len = some x ∧ x.length = len.toNat ∧ Starts x l := by
  have hmlen := h.mlen
  have hle := h.starts.length_le
  rw [moved]
  split
  · have hgrow : b.data.length ≤ len.toNat := by omega
    exact ⟨_, rfl, length_realloc hgrow, h.starts.realloc hgrow⟩
  · exact copied_spec h.slen h.starts (by omega)

/-- The block is made as large as is asked for, and keeps its bytes. -/
theorem balloc_spec (h : Holds b l) {len : Int} (hpos : 0 < len) (hlt : len < 2 ^ 31) :
    ∃ b', balloc b len = some (BSTR_OK, b') ∧ Holds b' l ∧ len ≤ b'.mlen := by
  have hslen := h.slen
  have hmlen := h.mlen
  have hdata := h.pos
  have hle := h.starts.length_le
  have hguard : ¬ (b.slen < 0 ∨ b.mlen ≤ 0 ∨ b.mlen < b.slen ∨ len ≤ 0) := by omega
  obtain ⟨hsnap, -⟩ := le_snapUpSize len
  have hsmall := snapUpSize_lt hlt
  rw [balloc, if_neg hguard]
  by_cases hroom : len < b.mlen
  · rw [if_pos hroom]
    exact ⟨b, rfl, h, Int.le_of_lt hroom⟩
  rw [if_neg hroom]
  dsimp only
  by_cases hfit : snapUpSize len ≤ b.mlen
  · rw [if_pos hfit]
    exact ⟨b, rfl, h, by omega⟩
  rw [if_neg hfit]
  have htoNat : b.slen.toNat = l.length := by omega
  obtain ⟨x, hx, hxlen, hxstarts⟩ := @moved_spec b l h (snapUpSize len) (by omega)
  obtain ⟨y, hy, hylen, hystarts⟩ := hxstarts.write (Nat.le_refl l.length) (by omega) 0
  refine ⟨{ b with data := y, mlen := snapUpSize len }, ?_, ⟨hslen, ?_, ?_, ?_, ?_⟩, hsnap⟩
  · rw [hx, htoNat]
    show (write x l.length 0 >>= fun x => some (BSTR_OK, _)) = _
    rw [hy]
    rfl
  · show snapUpSize len = y.length
    omega
  · show 0 < y.length
    omega
  · show y.length < 2 ^ 31
    omega
  · rw [List.take_length] at hystarts
    exact hystarts.of_append

theorem bstrcpy_spec (hslen : b.slen = l.length) (hlt : l.length + 1 < 2 ^ 31)
    (h : Starts b.data l) :
    ∃ b', bstrcpy b = some b' ∧ b'.slen = l.length ∧ Starts b'.data l := by
  have hwrap : wrap (b.slen + 1) = l.length + 1 := by
    rw [hslen]
    exact wrap_eq (by omega) (by omega)
  obtain ⟨hsnap, -⟩ := le_snapUpSize (l.length + 1)
  have htoNat : b.slen.toNat = l.length := by omega
  obtain ⟨x, hx, hxlen, hxstarts⟩ :=
    @copied_spec b l hslen h (snapUpSize (l.length + 1)) (by omega)
  obtain ⟨y, hy, -, hystarts⟩ := hxstarts.write (Nat.le_refl l.length) (by omega) 0
  refine ⟨⟨snapUpSize (l.length + 1), b.slen, y⟩, ?_, hslen, ?_⟩
  · rw [bstrcpy, hwrap, htoNat, hx]
    show (write x l.length 0 >>= fun x => some _) = _
    rw [hy]
    rfl
  · rw [List.take_length] at hystarts
    exact hystarts.of_append

/-! ## New strings -/

/-- The block has room for the characters and the NUL. -/
theorem created {s : List UInt8} {i : Int} (hi : s.length < i) (hlt : i < 2 ^ 31) :
    ∃ x, move (malloc i.toNat) 0 (withNul s) (s.length + 1) = some x ∧
      Represents ⟨i, s.length, x⟩ s := by
  have hsrc : Starts (withNul s) (s ++ [0]) := starts_map _
  have hlen : (s ++ [0]).length = s.length + 1 := List.length_append
  obtain ⟨x, hx, hxlen, hstarts⟩ := (starts_nil (malloc i.toNat)).move hsrc (Nat.le_refl 0) (by
    rw [length_malloc]
    omega)
  rw [hlen] at hx
  rw [length_malloc] at hxlen
  refine ⟨x, hx, rfl, ?_, ?_, hstarts⟩
  · show i = x.length
    omega
  · show x.length < 2 ^ 31
    omega

theorem roomFor_bounds {j : Nat} (hj : j + 2 < 2 ^ 31) : j < roomFor j ∧ roomFor j < 2 ^ 31 := by
  obtain ⟨n, hn, hlt, hle⟩ : ∃ n : Nat,
      (j + (2 - if j ≠ 0 then 1 else 0)) = n ∧ j < n ∧ n ≤ j + 2 := by
    refine ⟨_, rfl, ?_, ?_⟩
    · split <;> omega
    · split <;> omega
  have hwrap : wrap (n : Int) = n := wrap_eq (by omega) (by omega)
  obtain ⟨hsnap, -⟩ := le_snapUpSize n
  rw [roomFor, hn, hwrap]
  exact ⟨by omega, snapUpSize_lt (by omega)⟩

theorem bfromcstr_spec (s : CString) (hlt : s.val.length + 2 < 2 ^ 31) :
    ∃ b, bfromcstr s = some (some b) ∧ Represents b s.val := by
  have hj : wrap s.val.length = s.val.length := wrap_eq (by omega) (by omega)
  obtain ⟨hroom, hsmall⟩ := roomFor_bounds hlt
  obtain ⟨x, hx, hrep⟩ := created hroom hsmall
  refine ⟨_, ?_, hrep⟩
  rw [bfromcstr, hj, if_neg (by omega), hx]
  rfl

/-- At least the capacity that is asked for. -/
theorem bfromcstralloc_spec (s : CString) (hlt : s.val.length + 2 < 2 ^ 31) {mlen : Int}
    (hmlen : mlen < 2 ^ 31) :
    ∃ b, bfromcstralloc mlen s = some (some b) ∧ Represents b s.val := by
  have hj : wrap s.val.length = s.val.length := wrap_eq (by omega) (by omega)
  obtain ⟨hroom, hsmall⟩ := roomFor_bounds hlt
  obtain ⟨i, hi, hlo, hhi⟩ : ∃ i, (if roomFor s.val.length < mlen then mlen
      else roomFor s.val.length) = i ∧ s.val.length < i ∧ i < 2 ^ 31 := by
    refine ⟨_, rfl, ?_, ?_⟩
    · split <;> omega
    · split <;> omega
  obtain ⟨x, hx, hrep⟩ := created hlo hhi
  refine ⟨_, ?_, hrep⟩
  rw [bfromcstralloc, hj, if_neg (by omega), hi]
  dsimp only
  rw [hx]
  rfl

/-! ## Appending -/

/-- There is room, and the bytes of `b1` are still to be had. -/
theorem makeRoom_spec (h0 : Holds b0 l0) (hslen1 : b1.slen = l1.length) (h1 : Starts b1.data l1)
    (hlt : l0.length + l1.length + 1 < 2 ^ 31) (aliased : Bool) :
    ∃ aux b, makeRoom b0 b1 aliased = some (aux, BSTR_OK, b) ∧ Holds b l0 ∧ Starts aux.data l1 ∧
      l0.length + l1.length < b.data.length := by
  have hmlen := h0.mlen
  have hsum : wrap (b0.slen + b1.slen) = l0.length + l1.length := by
    rw [h0.slen, hslen1]
    exact wrap_eq (by omega) (by omega)
  have hsucc : wrap (l0.length + l1.length + 1 : Int) = l0.length + l1.length + 1 :=
    wrap_eq (by omega) (by omega)
  rw [makeRoom, hsum, hsucc]
  dsimp only
  split
  · obtain ⟨b, hballoc, hb, hcap⟩ := @balloc_spec b0 l0 h0 (l0.length + l1.length + 1) (by omega)
      (by omega)
    obtain ⟨aux, haux, hstarts⟩ : ∃ aux,
        (if aliased then bstrcpy b1 else some b1) = some aux ∧ Starts aux.data l1 := by
      cases aliased with
      | false => exact ⟨b1, rfl, h1⟩
      | true =>
        obtain ⟨aux, haux, -, hstarts⟩ := bstrcpy_spec hslen1 (by omega) h1
        exact ⟨aux, haux, hstarts⟩
    refine ⟨aux, b, ?_, hb, hstarts, ?_⟩
    · rw [haux, hballoc]
      rfl
    · rw [hb.mlen] at hcap
      omega
  · exact ⟨b1, b0, rfl, h0, h1, by omega⟩

theorem bBlockCopy_spec {x src : Block} (hx : Starts x l0) (hsrc : Starts src l1)
    (hle : l0.length + l1.length ≤ x.length) :
    ∃ y, bBlockCopy x l0.length src l1.length = some y ∧ y.length = x.length ∧
      Starts y (l0 ++ l1) := by
  rw [bBlockCopy, Int.toNat_natCast, Int.toNat_natCast]
  split
  · obtain ⟨y, hy, hylen, hystarts⟩ := hx.move hsrc (Nat.le_refl l0.length) hle
    rw [List.take_length] at hystarts
    exact ⟨y, hy, hylen, hystarts⟩
  · have hnil : l1 = [] := List.eq_nil_of_length_eq_zero (by omega)
    rw [hnil, List.append_nil]
    exact ⟨x, rfl, rfl, hx⟩

/-- The zero byte after the bytes. -/
theorem terminated {x : Block} (h : Starts x l) (hlt : l.length < x.length) :
    ∃ y, write x l.length 0 = some y ∧ y.length = x.length ∧ Starts y (l ++ [0]) := by
  obtain ⟨y, hy, hylen, hystarts⟩ := h.write (Nat.le_refl l.length) hlt 0
  rw [List.take_length] at hystarts
  exact ⟨y, hy, hylen, hystarts⟩

/-- The bytes of `b1` after those of `b0`. -/
theorem bconcat_spec (h0 : Holds b0 l0) (hslen1 : b1.slen = l1.length) (h1 : Starts b1.data l1)
    (hlt : l0.length + l1.length + 1 < 2 ^ 31) (aliased : Bool) :
    ∃ b, bconcat b0 b1 aliased = some (BSTR_OK, b) ∧ Represents b (l0 ++ l1) := by
  have hslen := h0.slen
  have hmlen := h0.mlen
  have hsmall := h0.small
  have hle := h0.starts.length_le
  have hlength : (l0 ++ l1).length = l0.length + l1.length := List.length_append
  have hsub : wrap (b0.mlen - b0.slen) = b0.mlen - b0.slen := wrap_eq (by omega) (by omega)
  have hsum : wrap (b0.slen + b1.slen) = (l0 ++ l1).length := by
    rw [hslen, hslen1, hlength, Int.natCast_add]
    exact wrap_eq (by omega) (by omega)
  have hguard : ¬ (b0.slen < 0 ∨ wrap (b0.mlen - b0.slen) < 0 ∨ b1.slen < 0) := by omega
  obtain ⟨aux, b, hroom, hb, haux, hcap⟩ := makeRoom_spec h0 hslen1 h1 hlt aliased
  obtain ⟨x, hx, hxlen, hxstarts⟩ := bBlockCopy_spec hb.starts haux (Nat.le_of_lt hcap)
  obtain ⟨y, hy, hylen, hystarts⟩ := terminated hxstarts (by omega)
  rw [← hslen, ← hslen1] at hx
  refine ⟨{ b with data := y, slen := (l0 ++ l1).length }, ?_, ⟨rfl, ?_, ?_, hystarts⟩⟩
  · have hnew : wrap (b.slen + b1.slen) = (l0 ++ l1).length := by rw [hb.slen, ← hslen, hsum]
    rw [bconcat, if_neg hguard, hroom]
    show (bBlockCopy b.data b0.slen aux.data b1.slen >>= fun x =>
      write x (wrap (b0.slen + b1.slen)).toNat 0 >>= fun x => some _) = _
    rw [hx, hsum, hnew]
    show (write x (l0 ++ l1).length 0 >>= fun x => some _) = _
    rw [hy]
    rfl
  · show b.mlen = y.length
    rw [hb.mlen, hylen, hxlen]
  · show y.length < 2 ^ 31
    rw [hylen, hxlen]
    exact hb.small

theorem bconchar_spec (h : Represents b l) (hlt : l.length + 2 < 2 ^ 31) (c : UInt8) :
    ∃ b', bconchar b c = some (BSTR_OK, b') ∧ Represents b' (l ++ [c]) := by
  have hslen := h.slen
  have hmlen := h.mlen
  have hsmall := h.small
  have hlength := h.length_lt
  have hsub : wrap (b.mlen - b.slen) = b.mlen - b.slen := wrap_eq (by omega) (by omega)
  have htwo : wrap (b.slen + 2) = l.length + 2 := by
    rw [hslen]
    exact wrap_eq (by omega) (by omega)
  have hone : wrap (b.slen + 1) = (l ++ [c]).length := by
    rw [hslen, List.length_append, List.length_singleton]
    exact wrap_eq (by omega) (by omega)
  have hguard : ¬ (b.slen < 0 ∨ wrap (b.mlen - b.slen) < 0) := by omega
  obtain ⟨b', hballoc, hb, hcap⟩ := @balloc_spec b l h.holds (l.length + 2) (by omega) (by omega)
  have hmlen' := hb.mlen
  obtain ⟨x, hx, hxlen, hxstarts⟩ := hb.starts.write (Nat.le_refl l.length) (by omega) c
  rw [List.take_length] at hxstarts
  have hsucc : (l ++ [c]).length = l.length + 1 := List.length_append
  obtain ⟨y, hy, hylen, hystarts⟩ := terminated hxstarts (by omega)
  have htoNat : b.slen.toNat = l.length := by omega
  refine ⟨{ b' with data := y, slen := (l ++ [c]).length }, ?_, ⟨rfl, ?_, ?_, hystarts⟩⟩
  · have hnew : wrap (b'.slen + 1) = (l ++ [c]).length := by rw [hb.slen, ← hslen, hone]
    rw [bconchar, if_neg hguard, htwo, hballoc]
    show (write b'.data b.slen.toNat c >>= fun x =>
      write x (wrap (b.slen + 1)).toNat 0 >>= fun x => some _) = _
    rw [htoNat, hx, hone, hnew]
    show (write x (l ++ [c]).length 0 >>= fun x => some _) = _
    rw [hy]
    rfl
  · show b'.mlen = y.length
    omega
  · show y.length < 2 ^ 31
    rw [hylen, hxlen]
    exact hb.small

/-- The loop either copies the NUL or fills the block. -/
theorem catLoop_spec {x : Block} (s : List UInt8) (h : Starts x l) {n : Nat}
    (hn : l.length + n = x.length) :
    ∃ y, y.length = x.length ∧
      ((s.length < n ∧ catLoop n l.length x s = some (y, s.length, none) ∧
          Starts y (l ++ s ++ [0])) ∨
        (n ≤ s.length ∧ catLoop n l.length x s = some (y, n, some (s.drop n)) ∧
          Starts y (l ++ s.take n))) := by
  induction n generalizing l x s with
  | zero =>
    refine ⟨x, rfl, .inr ⟨Nat.zero_le _, rfl, ?_⟩⟩
    rw [List.take_zero, List.append_nil]
    exact h
  | succ n ih =>
    cases s with
    | nil =>
      obtain ⟨y, hy, hylen, hystarts⟩ := terminated h (by omega)
      refine ⟨y, hylen, .inl ⟨Nat.succ_pos n, ?_, ?_⟩⟩
      · rw [catLoop, hy]
        rfl
      · rw [List.append_nil]
        exact hystarts
    | cons c s =>
      obtain ⟨x₁, hx, hxlen, hxstarts⟩ := h.write (Nat.le_refl l.length) (by omega) c
      rw [List.take_length] at hxstarts
      have hsucc : (l ++ [c]).length = l.length + 1 := List.length_append
      obtain ⟨y, hylen, hcases⟩ := ih s hxstarts (by omega)
      rw [hsucc] at hcases
      refine ⟨y, hylen.trans hxlen, ?_⟩
      have hstep : ∀ i rest, catLoop n (l.length + 1) x₁ s = some (y, i, rest) →
          catLoop (n + 1) l.length x (c :: s) = some (y, i + 1, rest) := by
        intro i rest hrun
        rw [catLoop, hx]
        show (catLoop n (l.length + 1) x₁ s >>= _) = _
        rw [hrun]
        rfl
      rcases hcases with ⟨hlt, hrun, hstarts⟩ | ⟨hle, hrun, hstarts⟩
      · rw [List.append_assoc l [c] s] at hstarts
        exact .inl ⟨Nat.succ_lt_succ hlt, hstep _ _ hrun, hstarts⟩
      · rw [List.append_assoc l [c]] at hstarts
        exact .inr ⟨Nat.succ_le_succ hle, hstep _ _ hrun, hstarts⟩

/-- The copy to the end of the block, and the concatenation of what is left. -/
theorem bcatcstr_spec (h : Represents b l) (s : CString)
    (hlt : l.length + s.val.length + 1 < 2 ^ 31) :
    ∃ b', bcatcstr b s = some (BSTR_OK, b') ∧ Represents b' (l ++ s.val) := by
  have hslen := h.slen
  have hmlen := h.mlen
  have hsmall := h.small
  have hlength := h.length_lt
  have hsub : wrap (b.mlen - b.slen) = (b.data.length - l.length : Nat) := by
    rw [wrap_eq (by omega) (by omega)]
    omega
  have hguard : ¬ (b.slen < 0 ∨ b.mlen < b.slen ∨ b.mlen ≤ 0) := by omega
  have htoNat : b.slen.toNat = l.length := by omega
  obtain ⟨x, hxlen, hcases⟩ :=
    catLoop_spec s.val h.holds.starts (Nat.add_sub_of_le (Nat.le_of_lt hlength))
  rw [bcatcstr, if_neg hguard, hsub, htoNat]
  dsimp only
  rw [Int.toNat_natCast]
  rcases hcases with ⟨hroom, hrun, hstarts⟩ | ⟨hfull, hrun, hstarts⟩
  · have hnew : wrap (b.slen + s.val.length) = (l ++ s.val).length := by
      rw [hslen, List.length_append, Int.natCast_add]
      exact wrap_eq (by omega) (by omega)
    refine ⟨{ b with data := x, slen := (l ++ s.val).length }, ?_, ⟨rfl, ?_, ?_, hstarts⟩⟩
    · rw [hrun, ← hnew]
      rfl
    · show b.mlen = x.length
      omega
    · show x.length < 2 ^ 31
      omega
  · -- the string fills the block, without a zero byte
    generalize hn : b.data.length - l.length = n at hfull hrun hstarts
    have htake : (s.val.take n).length = n := List.length_take_of_le hfull
    have hdrop : (s.val.drop n).length = s.val.length - n := List.length_drop
    have hnew : wrap (b.slen + n) = (l ++ s.val.take n).length := by
      rw [hslen, List.length_append, htake, Int.natCast_add]
      exact wrap_eq (by omega) (by omega)
    have hlen : (l ++ s.val.take n).length = l.length + n := by rw [List.length_append, htake]
    have hfilled : Holds { b with data := x, slen := (l ++ s.val.take n).length }
        (l ++ s.val.take n) := by
      refine ⟨rfl, ?_, ?_, ?_, hstarts⟩
      · show b.mlen = x.length
        omega
      · show 0 < x.length
        omega
      · show x.length < 2 ^ 31
        omega
    have htail : wrap (s.val.drop n).length = (s.val.drop n).length := by
      rw [hdrop]
      exact wrap_eq (by omega) (by omega)
    have hbound : (l ++ s.val.take n).length + (s.val.drop n).length + 1 =
        l.length + s.val.length + 1 := by
      rw [hlen, hdrop, Nat.add_assoc l.length, Nat.add_sub_of_le hfull]
    have hnul : Starts (withNul (s.val.drop n)) (s.val.drop n) := (starts_map _).of_append
    obtain ⟨b', hconcat, hrep⟩ := @bconcat_spec _ ⟨-1, (s.val.drop n).length, withNul (s.val.drop n)⟩
      _ _ hfilled rfl hnul (hbound ▸ hlt) false
    refine ⟨b', ?_, ?_⟩
    · rw [hrun]
      show bconcat { b with data := x, slen := wrap (b.slen + n) }
        ⟨-1, wrap (s.val.drop n).length, withNul (s.val.drop n)⟩ false = _
      rw [hnew, htail]
      exact hconcat
    · rw [List.append_assoc, List.take_append_drop] at hrep
      exact hrep

theorem bcatblk_spec (h : Represents b l) (s : List UInt8) {len : Int} (h0 : 0 ≤ len)
    (hlen : len ≤ s.length) (hlt : l.length + len + 1 < 2 ^ 31) :
    ∃ b', bcatblk b s len = some (BSTR_OK, b') ∧ Represents b' (l ++ s.take len.toNat) := by
  obtain ⟨n, rfl⟩ := Int.eq_ofNat_of_zero_le h0
  have hslen := h.slen
  have hmlen := h.mlen
  have hsmall := h.small
  have hlength := h.length_lt
  have hguard : ¬ (b.slen < 0 ∨ b.mlen < b.slen ∨ b.mlen ≤ 0 ∨ (n : Int) < 0) := by omega
  have htake : (s.take n).length = n := List.length_take_of_le (by omega)
  have hsum : (l ++ s.take n).length = l.length + n := by rw [List.length_append, htake]
  have hnl : wrap (b.slen + n) = (l ++ s.take n).length := by
    rw [hslen, hsum, Int.natCast_add]
    exact wrap_eq (by omega) (by omega)
  have hsrc : Starts (s.map some) (s.take n) := by
    have hall := starts_map s
    rw [← List.take_append_drop n s] at hall
    rw [← List.take_append_drop n s, List.take_append_of_le_length (by omega), List.take_take,
      Nat.min_self]
    exact hall.of_append
  rw [bcatblk, if_neg hguard, hnl, Int.toNat_natCast]
  dsimp only
  rw [if_neg (by omega)]
  split
  · next hroom =>
    obtain ⟨x, hx, hxlen, hxstarts⟩ := bBlockCopy_spec h.holds.starts hsrc (by omega)
    obtain ⟨y, hy, hylen, hystarts⟩ := terminated hxstarts (by omega)
    rw [htake, ← hslen] at hx
    refine ⟨{ b with data := y, slen := (l ++ s.take n).length }, ?_, ⟨rfl, ?_, ?_, hystarts⟩⟩
    · rw [hx, Int.toNat_natCast]
      show (write x (l ++ s.take n).length 0 >>= fun x => some _) = _
      rw [hy]
      rfl
    · show b.mlen = y.length
      omega
    · show y.length < 2 ^ 31
      omega
  · have hcount : (n : Int) = (s.take n).length := by rw [htake]
    exact bconcat_spec h.holds hcount hsrc (by omega) false

/-! ## Cutting -/

theorem btrunc_spec (h : Represents b l) {n : Int} (hn : 0 ≤ n) :
    ∃ b', btrunc b n = some (BSTR_OK, b') ∧ Represents b' (l.take n.toNat) := by
  have hslen := h.slen
  have hmlen := h.mlen
  have hlength := h.length_lt
  have hguard : ¬ (n < 0 ∨ b.mlen < b.slen ∨ b.slen < 0 ∨ b.mlen ≤ 0) := by omega
  rw [btrunc, if_neg hguard]
  split
  · next hcut =>
    have htake : (l.take n.toNat).length = n.toNat := List.length_take_of_le (by omega)
    obtain ⟨y, hy, hylen, hystarts⟩ := h.holds.starts.write (i := n.toNat) (by omega) (by omega) 0
    refine ⟨{ b with data := y, slen := n }, ?_, ⟨?_, ?_, ?_, hystarts⟩⟩
    · rw [hy]
      rfl
    · show n = (l.take n.toNat).length
      omega
    · show b.mlen = y.length
      omega
    · show y.length < 2 ^ 31
      rw [hylen]
      exact h.small
  · rw [List.take_of_length_le (by omega)]
    exact ⟨b, rfl, h⟩

/-- The bytes without `len` of them from `pos` on. -/
def without (l : List UInt8) (pos len : Nat) : List UInt8 := l.take pos ++ l.drop (pos + len)

theorem removed_spec (h : Represents b l) {pos len : Nat} (hlen : 0 < len) (hpos : pos < l.length)
    (hlt : pos + len < 2 ^ 31) :
    ∃ b', removed b pos len = some b' ∧ b'.mlen = b.mlen ∧ b'.slen = (without l pos len).length ∧
      b'.data.length = b.data.length ∧ Starts b'.data (without l pos len) := by
  have hslen := h.slen
  have hsmall := h.small
  have hlength := h.length_lt
  have htail : wrap ((pos : Int) + len) = (pos + len : Nat) := by
    rw [Int.natCast_add]
    exact wrap_eq (by omega) (by omega)
  have htake : (l.take pos).length = pos := List.length_take_of_le (Nat.le_of_lt hpos)
  have hdrop : (l.drop (pos + len)).length = l.length - (pos + len) := List.length_drop
  have hwithout : (without l pos len).length = pos + (l.length - (pos + len)) := by
    rw [without, List.length_append, htake, hdrop]
  have hprefix : Starts b.data (l.take pos) := by
    have hstarts := h.holds.starts
    rw [← List.take_append_drop pos l] at hstarts
    exact hstarts.of_append
  have hsum : ((pos : Int) + len).toNat = pos + len := Int.toNat_natCast (pos + len)
  rw [removed, htail, hsum]
  split
  · have hnil : l.drop (pos + len) = [] := List.drop_eq_nil_of_le (by omega)
    refine ⟨{ b with slen := pos }, rfl, rfl, ?_, rfl, ?_⟩
    · show (pos : Int) = _
      omega
    · rw [without, hnil, List.append_nil]
      exact hprefix
  · have hcount : wrap (b.slen - (pos + len : Nat)) = (l.drop (pos + len)).length := by
      rw [wrap_eq (by omega) (by omega)]
      omega
    have hnew : wrap (b.slen - len) = (without l pos len).length := by
      rw [wrap_eq (by omega) (by omega)]
      omega
    obtain ⟨y, hy, hylen, hystarts⟩ := bBlockCopy_spec hprefix (h.holds.starts.drop (pos + len))
      (by omega)
    rw [htake] at hy
    refine ⟨{ b with data := y, slen := (without l pos len).length }, ?_, rfl, rfl, hylen, hystarts⟩
    rw [hcount, hy, hnew]
    rfl

theorem bdelete_spec (h : Represents b l) {pos len : Int} (hpos : 0 ≤ pos) (hlen : 0 ≤ len)
    (hlt : pos + len < 2 ^ 31) :
    ∃ b', bdelete b pos len = some (BSTR_OK, b') ∧
      Represents b' (without l pos.toNat len.toNat) := by
  obtain ⟨pos, rfl⟩ := Int.eq_ofNat_of_zero_le hpos
  obtain ⟨len, rfl⟩ := Int.eq_ofNat_of_zero_le hlen
  have hslen := h.slen
  have hmlen := h.mlen
  have hsmall := h.small
  have hlength := h.length_lt
  have hguard : ¬ ((len : Int) < 0 ∨ b.slen < 0 ∨ b.mlen < b.slen ∨ b.mlen ≤ 0) := by omega
  have hleft : ¬ (pos : Int) < 0 := by omega
  rw [bdelete, if_neg hleft, if_neg hleft, if_neg hguard, Int.toNat_natCast, Int.toNat_natCast]
  split
  · next hcut =>
    obtain ⟨b', hremoved, hmlen', hslen', hdata, hstarts⟩ :=
      @removed_spec b l h pos len (by omega) (by omega) (by omega)
    have hwithout : (without l pos len).length < b'.data.length := by
      have hdrop : (l.drop (pos + len)).length = l.length - (pos + len) := List.length_drop
      rw [without, List.length_append, List.length_take]
      omega
    obtain ⟨y, hy, hylen, hystarts⟩ := terminated hstarts hwithout
    have htoNat : b'.slen.toNat = (without l pos len).length := by omega
    refine ⟨{ b' with data := y }, ?_, ⟨hslen', ?_, ?_, hystarts⟩⟩
    · rw [hremoved]
      show (terminate b' >>= fun b => some _) = _
      rw [terminate, if_pos (by omega), htoNat, hy]
      rfl
    · show b'.mlen = y.length
      omega
    · show y.length < 2 ^ 31
      omega
  · next hkeep =>
    have hall : without l pos len = l := by
      rw [without]
      by_cases hzero : len = 0
      · rw [hzero, Nat.add_zero, List.take_append_drop]
      · rw [List.take_of_length_le (by omega), List.drop_eq_nil_of_le (by omega), List.append_nil]
    rw [hall]
    exact ⟨b, rfl, h⟩

end Luaxx.Bstr
