import Luaxx.Lexer.Chunks

/-!
# Loading does not depend on the pieces of a chunk

What reads a chunk is any program that uses the operations of `lzio.c` (`luaU_undump`), or those of
`llex.c` (`luaY_parser`), and goes on as it likes with what it is given.
-/

namespace Luaxx.Lexer

open Luaxx.Ctype

/-! ## Programs over buffered input -/

inductive Reading (α : Type) where
  | done (a : α)
  | zgetc (k : Option UInt8 → Reading α)
  | luaZ_lookahead (k : Option UInt8 → Reading α)
  | luaZ_read (n : Nat) (k : List UInt8 → Nat → Reading α)

variable {α : Type}

def Reading.run : Reading α → ZIO → Option α
  | .done a, _ => some a
  | .zgetc k, z => do
    let (c, z) ← Lexer.zgetc z
    (k c).run z
  | .luaZ_lookahead k, z => do
    let (c, z) ← Lexer.luaZ_lookahead z
    (k c).run z
  | .luaZ_read n k, z => do
    let (s, missing, z) ← Lexer.luaZ_read z n
    (k s missing).run z

/-- The run on all bytes, which are followed by `EOZ`; nothing may be read after `zgetc` has returned
`EOZ`. -/
def Reading.runBytes : Reading α → Option (List UInt8) → Option α
  | .done a, _ => some a
  | .zgetc k, some (c :: s) => (k (some c)).runBytes (some s)
  | .zgetc k, some [] => (k none).runBytes none
  | .luaZ_lookahead k, some s => (k s.head?).runBytes (some s)
  | .luaZ_read n k, some s => (k (s.take n) (n - s.length)).runBytes (some (s.drop n))
  | _, none => none

theorem Reading.run_eq (p : Reading α) {z : ZIO} {s : List UInt8} (hz : z.Delivers s) {a : α}
    (h : p.runBytes (some s) = some a) : p.run z = some a := by
  induction p generalizing z s with
  | done b => exact h
  | zgetc k ih =>
    rw [Reading.run]
    cases s with
    | nil =>
      obtain ⟨z', hget⟩ := zgetc_nil hz
      rw [hget]
      rw [Reading.runBytes] at h
      show (k none).run z' = some a
      generalize k none = p at h
      cases p with
      | done b => exact h
      | _ => cases h
    | cons c s =>
      obtain ⟨z', hget, hz'⟩ := zgetc_cons hz
      rw [hget]
      exact ih (some c) hz' h
  | luaZ_lookahead k ih =>
    obtain ⟨z', hlook, hz', -⟩ := luaZ_lookahead_spec hz
    rw [Reading.run, hlook]
    exact ih s.head? hz' h
  | luaZ_read n k ih =>
    obtain ⟨z', hread, hz'⟩ := readLoop_spec hz (Nat.lt_succ_self n)
    rw [Reading.run, Lexer.luaZ_read, hread]
    exact ih (s.take n) (n - s.length) hz' h

/-- `zgetc` is not used. -/
def Reading.Blocks : Reading α → Prop
  | .done _ => True
  | .zgetc _ => False
  | .luaZ_lookahead k => ∀ c, (k c).Blocks
  | .luaZ_read _ k => ∀ s missing, (k s missing).Blocks

theorem Reading.Blocks.runBytes {p : Reading α} (h : p.Blocks) (s : List UInt8) :
    ∃ a, p.runBytes (some s) = some a := by
  induction p generalizing s with
  | done a => exact ⟨a, rfl⟩
  | zgetc k ih => exact h.elim
  | luaZ_lookahead k ih => exact ih s.head? (h s.head?) s
  | luaZ_read n k ih => exact ih (s.take n) (n - s.length) (h _ _) (s.drop n)

/-! ## Programs over the lexer -/

inductive Parsing (α : Type) where
  | done (a : α)
  /-- The variables of the `LexState` are read. -/
  | look (k : LexVars → Parsing α)
  | luaX_next (k : Parsing α)
  | luaX_lookahead (k : Parsing α)
  | luaX_lexerror (msg : String) (token : Nat)

def Parsing.run {Z : Type} (zgetc : Z → Option (Option UInt8 × Z)) (locale : Locale) (fuel : Nat) :
    Parsing α → LexM Z α
  | .done a => pure a
  | .look k => do
    let ls ← Lexer.look
    (k ls).run zgetc locale fuel
  | .luaX_next k => do
    Lexer.luaX_next zgetc locale fuel
    k.run zgetc locale fuel
  | .luaX_lookahead k => do
    Lexer.luaX_lookahead zgetc locale fuel
    k.run zgetc locale fuel
  | .luaX_lexerror msg token => Lexer.luaX_lexerror msg token

theorem Parsing.run_alike (p : Parsing α) (locale : Locale) {fuel : Nat}
    {ls' : LexState (List UInt8)} (hfuel : ls'.size < fuel) :
    Alike (fun _ _ => True) (p.run zgetc locale fuel) (p.run getByte locale fuel) ls' := by
  induction p generalizing ls' with
  | done a => exact alike_pure trivial
  | look k ih => exact alike_look (ih ls'.toLexVars hfuel)
  | luaX_next k ih =>
    exact (luaX_next_alike locale hfuel).bind fun _ s₁ h₁ => ih (h₁.trans_lt hfuel)
  | luaX_lookahead k ih =>
    exact (luaX_lookahead_alike locale hfuel).bind fun _ s₁ h₁ => ih (h₁.trans_lt hfuel)
  | luaX_lexerror msg token => exact luaX_lexerror_alike msg token

/-- `luaX_setinput`, and then the program. -/
def Parsing.load (p : Parsing α) (locale : Locale) (fuel : Nat) (t : Token) (z : ZIO) :
    Except Stop α := do
  let ls ← luaX_setinput Lexer.zgetc z t
  let (a, _) ← (p.run Lexer.zgetc locale fuel).run ls
  pure a

/-- The value, or the error, of the program on all bytes. -/
def Parsing.loadBytes (p : Parsing α) (locale : Locale) (fuel : Nat) (t : Token) (s : List UInt8) :
    Except Stop α := do
  let (a, _) ← (p.run getByte locale fuel).run (showing (LexVars.initial t) s)
  pure a

theorem Parsing.load_eq (p : Parsing α) (locale : Locale) (t : Token) {z : ZIO} {s : List UInt8}
    (hz : z.Delivers s) {fuel : Nat} (hfuel : s.length < fuel) :
    p.load locale fuel t z = p.loadBytes locale fuel t s ∧
      ∀ e, p.loadBytes locale fuel t s = .error e → e.IsError := by
  obtain ⟨ls, hset, hreads⟩ := luaX_setinput_spec hz t
  have hsize := size_showing (LexVars.initial t) s
  have halike := p.run_alike locale (hsize.trans_lt hfuel)
  rw [Parsing.load, Parsing.loadBytes, hset]
  show (((p.run zgetc locale fuel).run ls).bind fun r => pure r.1) =
      (((p.run getByte locale fuel).run (showing (LexVars.initial t) s)).bind fun r => pure r.1) ∧ _
  rcases hr : (p.run getByte locale fuel).run (showing (LexVars.initial t) s) with e | ⟨a, s'⟩
  · obtain ⟨herror, he⟩ := halike.error hreads hr
    rw [herror]
    refine ⟨rfl, fun e' h => ?_⟩
    cases h
    exact he
  · obtain ⟨ls₁, hrun, -⟩ := halike.ok hreads hr
    rw [hrun]
    exact ⟨rfl, fun e' h => nomatch h⟩

/-! ## Loading -/

/-- `LUA_SIGNATURE[0]`. -/
def signature : UInt8 := 27

/-- `f_parser`, with the function or the error that the undumper or the parser comes to. -/
def fParser (luaU_undump : Reading α) (luaYParser : Parsing α) (locale : Locale) (fuel : Nat)
    (t : Token) (z : ZIO) : Except Stop α :=
  match luaZ_lookahead z with
  | none => .error .overread
  | some (c, z) =>
    if c = some signature then
      match luaU_undump.run z with
      | some a => .ok a
      | none => .error .overread
    else luaYParser.load locale fuel t z

/-- `f_parser` on all bytes. -/
def loadBytes (luaU_undump : Reading α) (luaYParser : Parsing α) (locale : Locale) (fuel : Nat)
    (t : Token) (s : List UInt8) : Except Stop α :=
  if s.head? = some signature then
    match luaU_undump.runBytes (some s) with
    | some a => .ok a
    | none => .error .overread
  else luaYParser.loadBytes locale fuel t s

theorem fParser_eq {luaU_undump : Reading α} (hblocks : luaU_undump.Blocks)
    (luaYParser : Parsing α) (locale : Locale) (t : Token) {z : ZIO} {s : List UInt8}
    (hz : z.Delivers s) {fuel : Nat} (hfuel : s.length < fuel) :
    fParser luaU_undump luaYParser locale fuel t z =
        loadBytes luaU_undump luaYParser locale fuel t s ∧
      ∀ e, loadBytes luaU_undump luaYParser locale fuel t s = .error e → e.IsError := by
  obtain ⟨z', hlook, hz', -⟩ := luaZ_lookahead_spec hz
  rw [fParser, hlook, loadBytes]
  dsimp only
  by_cases hc : s.head? = some signature
  · obtain ⟨a, ha⟩ := hblocks.runBytes s
    rw [if_pos hc, if_pos hc, luaU_undump.run_eq hz' ha, ha]
    exact ⟨rfl, fun e h => nomatch h⟩
  · rw [if_neg hc, if_neg hc]
    exact luaYParser.load_eq locale t hz' hfuel

/-- What is got from pieces are their bytes and then `EOZ`, what comes after `EOZ` reads behind the
buffer, and what is loaded does not depend on the pieces and never reads behind the buffer. -/
theorem pieces_do_not_matter {z : ZIO} {s : List UInt8} (hz : z.Delivers s) :
    (∀ (p : Reading α) (a : α), p.runBytes (some s) = some a → p.run z = some a) ∧
    (∀ z', zgetc z = some (none, z') → zgetc z' = none) ∧
    ∀ (luaU_undump : Reading α) (luaYParser : Parsing α) (locale : Locale) (t : Token) (fuel : Nat),
      luaU_undump.Blocks → s.length < fuel →
      fParser luaU_undump luaYParser locale fuel t z =
          loadBytes luaU_undump luaYParser locale fuel t s ∧
        ∀ e, fParser luaU_undump luaYParser locale fuel t z = .error e → e.IsError := by
  refine ⟨fun p a h => p.run_eq hz h, fun z' hget => zgetc_spent hz hget, ?_⟩
  intro luaU_undump luaYParser locale t fuel hblocks hfuel
  obtain ⟨heq, herror⟩ := fParser_eq hblocks luaYParser locale t hz hfuel
  exact ⟨heq, fun e h => herror e (heq ▸ h)⟩

/-- The first two tokens. -/
def twoTokens : Parsing (List Token) :=
  .luaX_next (.look fun ls => .luaX_next (.look fun ls' => .done [ls.t, ls'.t]))

/-- `x == y`, in three pieces. -/
def equalPieces : ZIO := ⟨0, [], [chars "x =", chars "=", chars " y"]⟩

theorem pieces_do_not_matter_equal :
    fParser (.luaZ_read 4 fun _ _ => .done []) twoTokens plainLocale 10 ⟨TK_EOS, .none⟩ equalPieces =
      .ok [⟨TK_NAME, .ts (chars "x")⟩, ⟨TK_EQ, .none⟩] := by
  have hz : equalPieces.Delivers (chars "x == y") := ⟨rfl, by decide, by decide⟩
  obtain ⟨-, -, hload⟩ := pieces_do_not_matter (α := List Token) hz
  have hbytes : loadBytes (.luaZ_read 4 fun _ _ => .done []) twoTokens plainLocale 10
      ⟨TK_EOS, .none⟩ (chars "x == y") = .ok [⟨TK_NAME, .ts (chars "x")⟩, ⟨TK_EQ, .none⟩] := by
    decide +kernel
  rw [← hbytes]
  exact (hload (.luaZ_read 4 fun _ _ => .done []) twoTokens plainLocale ⟨TK_EOS, .none⟩ 10
    (fun _ _ => trivial) (by decide)).1

end Luaxx.Lexer
