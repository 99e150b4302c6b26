import Mathlib.Tactic.Common
import Mathlib.Tactic.Ring
import Mathlib.Data.List.Basic

/-!
# Buffered input (`lzio.c`)

A reader delivers pieces, and then it reports the end for ever. The count of the bytes that are
unread is a `size_t`: it wraps around where the end has been met. A result is `none` where a byte is
read behind its piece.
-/

namespace Luaxx.Lexer

structure ZIO where
  /-- Bytes still unread. -/
  n : Nat
  /-- What is at the current position of the buffer. -/
  p : List UInt8
  /-- The pieces that the reader has not delivered. -/
  reader : List (List UInt8)
  deriving DecidableEq, Repr

/-- `luaZ_fill`; `none` is `EOZ`. -/
def luaZ_fill (z : ZIO) : Option UInt8 × ZIO :=
  match z.reader with
  | [] => (none, z)
  | [] :: reader => (none, { z with reader := reader })
  | (c :: piece) :: reader => (some c, ⟨piece.length, piece, reader⟩)

/-- The greatest `size_t`. -/
def SIZE_MAX : Nat := 2 ^ 64 - 1

def zgetc (z : ZIO) : Option (Option UInt8 × ZIO) :=
  if z.n > 0 then
    match z.p with
    | c :: p => some (some c, { z with n := z.n - 1, p := p })
    | [] => none
  else some (luaZ_fill { z with n := SIZE_MAX })

def luaZ_lookahead (z : ZIO) : Option (Option UInt8 × ZIO) :=
  if z.n = 0 then
    match luaZ_fill z with
    | (none, z) => some (none, z)
    -- `luaZ_fill` removed first byte; put back it
    | (some c, z) => some (some c, { z with n := z.n + 1, p := c :: z.p })
  else
    match z.p with
    | c :: _ => some (some c, z)
    | [] => none

/-- The loop of `luaZ_read`: what is copied, and the number of missing bytes. -/
def readLoop : Nat → ZIO → Nat → Option (List UInt8 × Nat × ZIO)
  | 0, _, _ => none
  | fuel + 1, z, n =>
    if n = 0 then some ([], 0, z)
    else do
      let (c, z) ← luaZ_lookahead z
      if c = none then some ([], n, z)
      else do
        let m := if n ≤ z.n then n else z.n
        if m ≤ z.p.length then do
          let (s, missing, z') ← readLoop fuel { z with n := z.n - m, p := z.p.drop m } (n - m)
          some (z.p.take m ++ s, missing, z')
        else none

def luaZ_read (z : ZIO) (n : Nat) : Option (List UInt8 × Nat × ZIO) := readLoop (n + 1) z n

/-! ## What is delivered -/

/-- These bytes are still to be read, from pieces that are not empty. -/
structure ZIO.Delivers (z : ZIO) (s : List UInt8) : Prop where
  n_eq : z.n = z.p.length
  pieces : ∀ piece ∈ z.reader, piece ≠ []
  text : s = z.p ++ z.reader.flatten

variable {z : ZIO} {c : UInt8} {s : List UInt8}

theorem ZIO.Delivers.fill_nil (h : z.Delivers []) (m : Nat) :
    luaZ_fill { z with n := m } = (none, { z with n := m }) := by
  have hflat : z.reader.flatten = [] := (List.append_eq_nil_iff.mp h.text.symm).2
  have hreader : z.reader = [] := by
    rw [List.eq_nil_iff_forall_not_mem]
    exact fun piece hmem => h.pieces piece hmem (List.flatten_eq_nil_iff.mp hflat piece hmem)
  rw [hreader]
  rfl

/-- With nothing in the buffer, the next piece is asked for. -/
theorem ZIO.Delivers.fill_cons (h : z.Delivers (c :: s)) (hn : z.n = 0) (m : Nat) :
    ∃ z', luaZ_fill { z with n := m } = (some c, z') ∧ z'.Delivers s := by
  have hp : z.p = [] := List.length_eq_zero_iff.mp (h.n_eq ▸ hn)
  have htext := h.text
  have hpieces := h.pieces
  rw [hp, List.nil_append] at htext
  generalize z.reader = reader at htext hpieces
  rcases reader with _ | ⟨_ | ⟨d, piece⟩, reader⟩
  · cases htext
  · exact absurd rfl (hpieces [] List.mem_cons_self)
  · rw [List.flatten_cons, List.cons_append, List.cons.injEq] at htext
    refine ⟨⟨piece.length, piece, reader⟩, by rw [htext.1]; rfl, rfl, fun q hq => ?_, htext.2⟩
    exact hpieces q (List.mem_cons_of_mem _ hq)

theorem zgetc_cons (h : z.Delivers (c :: s)) :
    ∃ z', zgetc z = some (some c, z') ∧ z'.Delivers s := by
  rw [zgetc]
  by_cases hn : z.n > 0
  · rw [if_pos hn]
    have htext := h.text
    have hlen := h.n_eq
    rcases hp : z.p with _ | ⟨d, p⟩
    · rw [hp] at hlen
      exact absurd hn (by rw [hlen]; decide)
    · rw [hp, List.cons_append, List.cons.injEq] at htext
      rw [hp, List.length_cons] at hlen
      refine ⟨{ z with n := z.n - 1, p := p }, ?_, ?_, h.pieces, htext.2⟩
      · rw [htext.1]
      · show z.n - 1 = p.length
        omega
  · rw [if_neg hn]
    obtain ⟨z', hfill, hz'⟩ := h.fill_cons (by omega) SIZE_MAX
    exact ⟨z', congrArg some hfill, hz'⟩

theorem zgetc_nil (h : z.Delivers []) : ∃ z', zgetc z = some (none, z') := by
  have htext := h.text
  have hp : z.p = [] := (List.append_eq_nil_iff.mp htext.symm).1
  have hn : z.n = 0 := by
    rw [h.n_eq, hp]
    rfl
  refine ⟨{ z with n := SIZE_MAX }, ?_⟩
  rw [zgetc, if_neg (by omega)]
  exact congrArg some (h.fill_nil SIZE_MAX)

/-- After `EOZ` the count has wrapped around, and a byte is read where there is none. -/
theorem zgetc_spent (h : z.Delivers s) {z' : ZIO} (hget : zgetc z = some (none, z')) :
    zgetc z' = none := by
  cases s with
  | nil =>
    have hp : z.p = [] := (List.append_eq_nil_iff.mp h.text.symm).1
    have hn : z.n = 0 := by
      rw [h.n_eq, hp]
      rfl
    rw [zgetc, if_neg (by omega), h.fill_nil SIZE_MAX] at hget
    cases hget
    rw [zgetc, if_pos (show SIZE_MAX > 0 by decide)]
    dsimp only
    rw [hp]
  | cons c s =>
    obtain ⟨z₁, hsome, -⟩ := zgetc_cons h
    rw [hsome] at hget
    cases hget

theorem luaZ_lookahead_spec (h : z.Delivers s) :
    ∃ z', luaZ_lookahead z = some (s.head?, z') ∧ z'.Delivers s ∧ (s ≠ [] → 0 < z'.n) := by
  rw [luaZ_lookahead]
  by_cases hn : z.n = 0
  · rw [if_pos hn]
    cases s with
    | nil =>
      have hfill : luaZ_fill z = (none, z) := h.fill_nil z.n
      exact ⟨z, by rw [hfill]; rfl, h, fun hne => absurd rfl hne⟩
    | cons c s =>
      obtain ⟨z', hfill, hz'⟩ := h.fill_cons hn z.n
      have hfill' : luaZ_fill z = (some c, z') := hfill
      refine ⟨{ z' with n := z'.n + 1, p := c :: z'.p }, by rw [hfill']; rfl, ⟨?_, hz'.pieces, ?_⟩,
        fun _ => Nat.succ_pos _⟩
      · show z'.n + 1 = (c :: z'.p).length
        rw [List.length_cons, hz'.n_eq]
      · rw [hz'.text]
        rfl
  · rw [if_neg hn]
    have htext := h.text
    have hlen := h.n_eq
    rcases hp : z.p with _ | ⟨d, p⟩
    · rw [hp] at hlen
      exact absurd hlen hn
    · rw [hp] at htext
      subst htext
      exact ⟨z, rfl, ⟨hlen, h.pieces, by rw [hp]⟩, fun _ => Nat.pos_of_ne_zero hn⟩

theorem readLoop_spec {fuel n : Nat} (h : z.Delivers s) (hfuel : n < fuel) :
    ∃ z', readLoop fuel z n = some (s.take n, n - s.length, z') ∧ z'.Delivers (s.drop n) := by
  induction fuel generalizing z s n with
  | zero => omega
  | succ fuel ih =>
    rw [readLoop]
    by_cases hn : n = 0
    · subst hn
      rw [if_pos rfl]
      exact ⟨z, by rw [List.take_zero, Nat.zero_sub], h⟩
    rw [if_neg hn]
    obtain ⟨z₁, hlook, hz₁, hpos⟩ := luaZ_lookahead_spec h
    rw [hlook]
    cases s with
    | nil =>
      refine ⟨z₁, ?_, ?_⟩
      · rw [List.take_nil, List.length_nil, Nat.sub_zero]
        rfl
      · rwa [List.drop_nil]
    | cons c s =>
      have hpos' := hpos (List.cons_ne_nil c s)
      generalize hm : (if n ≤ z₁.n then n else z₁.n) = m
      have hmn : m ≤ n ∧ m ≤ z₁.n ∧ 0 < m := by
        rw [← hm]
        split_ifs <;> omega
      have hle : m ≤ z₁.p.length := hz₁.n_eq ▸ hmn.2.1
      have hrest : ZIO.Delivers { z₁ with n := z₁.n - m, p := z₁.p.drop m } ((c :: s).drop m) := by
        refine ⟨?_, hz₁.pieces, ?_⟩
        · show z₁.n - m = (z₁.p.drop m).length
          rw [List.length_drop, hz₁.n_eq]
        · rw [hz₁.text, List.drop_append_of_le_length hle]
      obtain ⟨z₂, hread, hz₂⟩ := ih hrest (n := n - m) (by omega)
      have htake : z₁.p.take m = (c :: s).take m := by
        rw [hz₁.text, List.take_append_of_le_length hle]
      refine ⟨z₂, ?_, ?_⟩
      · show (let m := if n ≤ z₁.n then n else z₁.n
          if m ≤ z₁.p.length then do
            let (s, missing, z') ← readLoop fuel { z₁ with n := z₁.n - m, p := z₁.p.drop m } (n - m)
            some (z₁.p.take m ++ s, missing, z')
          else none) = _
        rw [hm]
        dsimp only
        rw [if_pos hle, hread]
        show some (z₁.p.take m ++ ((c :: s).drop m).take (n - m), _, z₂) = _
        have hall : (c :: s).take m ++ ((c :: s).drop m).take (n - m) = (c :: s).take n := by
          rw [← List.take_add, Nat.add_sub_cancel' hmn.1]
        have hlen : m ≤ (c :: s).length := by
          have := congrArg List.length hz₁.text
          rw [List.length_append] at this
          omega
        have hmissing : n - m - ((c :: s).drop m).length = n - (c :: s).length := by
          rw [List.length_drop]
          omega
        rw [htake, hall, hmissing]
      · rw [List.drop_drop, Nat.add_sub_cancel' hmn.1] at hz₂
        exact hz₂

end Luaxx.Lexer
