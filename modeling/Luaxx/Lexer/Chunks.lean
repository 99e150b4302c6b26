import Luaxx.Lexer.Zio
import Luaxx.Lexer.Llex

/-!
# The lexer does not depend on the pieces of its input

What the lexer does with pieces is what it does with all bytes in one list. No character is got
after the end of the input, and the fuel of the loops is bounded by the length of the input.
-/

namespace Luaxx.Lexer

open Luaxx.Ctype

/-- All bytes in one list. -/
def getByte : List UInt8 → Option (Option UInt8 × List UInt8)
  | [] => some (none, [])
  | c :: s => some (some c, s)

/-- The same state, with the same bytes to be read. -/
structure Reads (ls : LexState ZIO) (ls' : LexState (List UInt8)) : Prop where
  vars : ls.toLexVars = ls'.toLexVars
  delivers : ls'.current ≠ none → ls.z.Delivers ls'.z
  ended : ls'.current = none → ls'.z = []

def Stop.IsError : Stop → Prop
  | .lexerror _ _ _ => True
  | _ => False

/-- The characters that are left, with the current one. -/
def LexState.size (ls : LexState (List UInt8)) : Nat :=
  ls.z.length + if ls.current = none then 0 else 1

/-- Two results of one function: the same error of the lexer, or the same value. -/
def Same {α : Type} (Q : α → LexState (List UInt8) → Prop) :
    Except Stop (α × LexState ZIO) → Except Stop (α × LexState (List UInt8)) → Prop
  | .ok (a, ls), .ok (a', ls') => a = a' ∧ Reads ls ls' ∧ Q a' ls'
  | .error e, .error e' => e = e' ∧ e.IsError
  | _, _ => False

/-- A computation does the same from any pieces, and its outcome satisfies `Q`. -/
def Alike {α : Type} (Q : α → LexState (List UInt8) → Prop) (x : LexM ZIO α)
    (x' : LexM (List UInt8) α) (ls' : LexState (List UInt8)) : Prop :=
  ∀ ls, Reads ls ls' → Same Q (x.run ls) (x'.run ls')

section

variable {α β : Type} {Q R : α → LexState (List UInt8) → Prop} {S : β → LexState (List UInt8) → Prop}
  {x : LexM ZIO α} {x' : LexM (List UInt8) α} {f : α → LexM ZIO β} {f' : α → LexM (List UInt8) β}
  {ls' : LexState (List UInt8)}

theorem alike_pure {a : α} (h : Q a ls') : Alike Q (pure a) (pure a) ls' :=
  fun _ hls => ⟨rfl, hls, h⟩

theorem alike_throw {e : Stop} (h : e.IsError) : Alike Q (throw e) (throw e) ls' :=
  fun _ _ => ⟨rfl, h⟩

theorem Alike.bind (hx : Alike Q x x' ls') (hf : ∀ a s', Q a s' → Alike S (f a) (f' a) s') :
    Alike S (x >>= f) (x' >>= f') ls' := by
  intro ls hls
  rw [StateT.run_bind, StateT.run_bind]
  have hsame := hx ls hls
  rcases hr : x.run ls with e | ⟨a, s⟩
  · rw [hr] at hsame
    rcases hr' : x'.run ls' with e' | ⟨a', s'⟩
    · rw [hr'] at hsame
      exact hsame
    · rw [hr'] at hsame
      exact hsame.elim
  · rw [hr] at hsame
    rcases hr' : x'.run ls' with e' | ⟨a', s'⟩
    · rw [hr'] at hsame
      exact hsame.elim
    · rw [hr'] at hsame
      obtain ⟨rfl, hreads, hq⟩ := hsame
      exact hf a s' hq s hreads

theorem Alike.imp (hx : Alike Q x x' ls') (h : ∀ a s', Q a s' → R a s') : Alike R x x' ls' := by
  intro ls hls
  have hsame := hx ls hls
  rcases hr : x.run ls with e | ⟨a, s⟩
  · rw [hr] at hsame
    rcases hr' : x'.run ls' with e' | ⟨a', s'⟩
    · rw [hr'] at hsame
      exact hsame
    · rw [hr'] at hsame
      exact hsame.elim
  · rw [hr] at hsame
    rcases hr' : x'.run ls' with e' | ⟨a', s'⟩
    · rw [hr'] at hsame
      exact hsame.elim
    · rw [hr'] at hsame
      exact ⟨hsame.1, hsame.2.1, h a' s' hsame.2.2⟩

/-- The variables of the state are the same. -/
theorem alike_look {f : LexVars → LexM ZIO β} {f' : LexVars → LexM (List UInt8) β}
    (hf : Alike S (f ls'.toLexVars) (f' ls'.toLexVars) ls') :
    Alike S (look >>= f) (look >>= f') ls' := by
  intro ls hls
  have h := hf ls hls
  rw [← hls.vars] at h
  show Same S ((f ls.toLexVars).run ls) ((f' ls'.toLexVars).run ls')
  rwa [hls.vars] at h ⊢

end

section

variable {ls' : LexState (List UInt8)}

theorem alike_change {g : LexVars → LexVars} {Q : LexState (List UInt8) → Prop}
    (hg : (g ls'.toLexVars).current = ls'.current) (h : Q { ls' with toLexVars := g ls'.toLexVars }) :
    Alike (fun _ => Q) (change g) (change g) ls' := by
  intro ls hls
  refine ⟨rfl, ⟨congrArg g hls.vars, ?_, ?_⟩, h⟩
  · intro hc
    exact hls.delivers (hg ▸ hc)
  · intro hc
    exact hls.ended (hg.symm.trans hc)

/-- A character is got where the input has not ended. -/
theorem next_alike (hc : ls'.current ≠ none) :
    Alike (fun _ s' => s'.size < ls'.size) (next zgetc) (next getByte) ls' := by
  intro ls hls
  have hdelivers := hls.delivers hc
  have hsize : ls'.size = ls'.z.length + 1 := by rw [LexState.size, if_neg hc]
  cases hz : ls'.z with
  | nil =>
    rw [hz] at hdelivers hsize
    obtain ⟨z', hget⟩ := zgetc_nil hdelivers
    have hget' : getByte ls'.z = some (none, []) := by rw [hz, getByte]
    rw [next_eq hget, next_eq hget']
    refine ⟨rfl, ⟨?_, fun h => absurd rfl h, fun _ => rfl⟩, ?_⟩
    · show { ls.toLexVars with current := none } = { ls'.toLexVars with current := none }
      rw [hls.vars]
    · rw [hsize]
      exact Nat.zero_lt_one
  | cons c s =>
    rw [hz] at hdelivers hsize
    obtain ⟨z', hget, hz'⟩ := zgetc_cons hdelivers
    have hget' : getByte ls'.z = some (some c, s) := by rw [hz, getByte]
    rw [next_eq hget, next_eq hget']
    refine ⟨rfl, ⟨?_, fun _ => hz', fun h => absurd h (Option.some_ne_none c)⟩, ?_⟩
    · show { ls.toLexVars with current := some c } = { ls'.toLexVars with current := some c }
      rw [hls.vars]
    · rw [hsize]
      exact Nat.lt_succ_self _

theorem plainerror_alike {α : Type} {Q : α → LexState (List UInt8) → Prop} (msg : String) :
    Alike Q (plainerror msg) (plainerror msg) ls' := alike_look (alike_throw trivial)

/-- Only the buffer is changed. -/
theorem save_alike (c : UInt8) :
    Alike (fun _ s' => s'.current = ls'.current ∧ s'.size = ls'.size) (save c) (save c) ls' := by
  refine alike_look ?_
  split_ifs
  · exact plainerror_alike _
  · exact alike_change rfl ⟨rfl, rfl⟩
  · exact alike_change rfl ⟨rfl, rfl⟩

theorem save_and_next_alike (hc : ls'.current ≠ none) :
    Alike (fun _ s' => s'.size < ls'.size) (save_and_next zgetc) (save_and_next getByte) ls' := by
  refine alike_look ((save_alike _).bind fun _ s' hs' => ?_)
  exact (next_alike (hs'.1 ▸ hc)).imp fun _ t ht => hs'.2 ▸ ht

theorem luaX_lexerror_alike {α : Type} {Q : α → LexState (List UInt8) → Prop} (msg : String)
    (token : Nat) : Alike Q (luaX_lexerror msg token) (luaX_lexerror msg token) ls' := by
  rw [luaX_lexerror, luaX_lexerror]
  split_ifs
  · exact plainerror_alike msg
  · refine alike_look (Alike.bind (Q := fun _ _ => True) ?_ fun near _ _ => alike_throw trivial)
    rw [txtToken, txtToken]
    split_ifs
    · exact (save_alike 0).bind fun _ _ _ => alike_look (alike_pure trivial)
    · exact alike_pure trivial

theorem inclinenumber_alike (hc : ls'.current ≠ none) :
    Alike (fun _ s' => s'.size < ls'.size) (inclinenumber zgetc) (inclinenumber getByte) ls' := by
  have hcount : ∀ s' : LexState (List UInt8), s'.size < ls'.size →
      Alike (fun _ s' => s'.size < ls'.size)
        (do
          change fun ls => { ls with linenumber := ls.linenumber + 1 }
          let ls ← look
          if ls.linenumber ≥ MAX_INT then luaX_syntaxerror "chunk has too many lines")
        (do
          change fun ls => { ls with linenumber := ls.linenumber + 1 }
          let ls ← look
          if ls.linenumber ≥ MAX_INT then luaX_syntaxerror "chunk has too many lines") s' := by
    intro s' hs'
    refine (alike_change (Q := fun t => t.size < ls'.size) rfl hs').bind fun _ t ht => alike_look ?_
    split_ifs
    · exact alike_look (luaX_lexerror_alike _ _)
    · exact alike_pure ht
  refine alike_look ((next_alike hc).bind fun _ s' hs' => alike_look ?_)
  split_ifs with hnewline
  · have hc' : s'.current ≠ none := by
      intro hnone
      have := hnewline.1
      rw [currIsNewline, hnone] at this
      cases this
    exact (next_alike hc').bind fun _ t ht => hcount t (ht.trans hs')
  · exact hcount s' hs'

theorem curIs_ne {p : UInt8 → Bool} (h : curIs p ls'.toLexVars = true) : ls'.current ≠ none := by
  intro hnone
  rw [curIs, hnone] at h
  cases h

theorem check_next_alike (set : List UInt8) :
    Alike (fun _ s' => s'.size ≤ ls'.size) (check_next zgetc set) (check_next getByte set) ls' := by
  refine alike_look ?_
  split_ifs with hc
  · exact (save_and_next_alike (curIs_ne hc)).bind fun _ s' hs' => alike_pure hs'.le
  · exact alike_pure (Nat.le_refl _)

theorem buffreplace_alike (c c' : UInt8) :
    Alike (fun _ s' => s'.size = ls'.size) (buffreplace c c') (buffreplace c c') ls' :=
  alike_change rfl rfl

theorem trydecpoint_alike (locale : Locale) :
    Alike (fun _ s' => s'.size = ls'.size) (trydecpoint locale) (trydecpoint locale) ls' := by
  refine alike_look ((alike_change (Q := fun s' => s'.size = ls'.size) rfl rfl).bind fun _ s₁ h₁ => ?_)
  refine (buffreplace_alike _ _).bind fun _ s₂ h₂ => alike_look ?_
  cases locale.str2d _ with
  | some r => exact alike_pure (h₂.trans h₁)
  | none => exact (buffreplace_alike _ _).bind fun _ _ _ => luaX_lexerror_alike _ _

theorem saveWhile_alike (p : UInt8 → Bool) {fuel : Nat} (hfuel : ls'.size < fuel) :
    Alike (fun _ s' => s'.size ≤ ls'.size) (saveWhile zgetc p fuel) (saveWhile getByte p fuel)
      ls' := by
  induction fuel generalizing ls' with
  | zero => omega
  | succ fuel ih =>
    refine alike_look ?_
    split_ifs with hc
    · refine (save_and_next_alike (curIs_ne hc)).bind fun _ s' hs' => ?_
      exact (ih (by omega)).imp fun _ t ht => ht.trans hs'.le
    · exact alike_pure (Nat.le_refl _)

theorem numeralEnd_alike (locale : Locale) {fuel : Nat} (hfuel : ls'.size < fuel) :
    Alike (fun _ s' => s'.size ≤ ls'.size) (numeralEnd zgetc locale fuel)
      (numeralEnd getByte locale fuel) ls' := by
  refine (saveWhile_alike _ hfuel).bind fun _ s₁ h₁ => ?_
  refine (save_alike 0).bind fun _ s₂ h₂ => alike_look ?_
  refine (buffreplace_alike _ _).bind fun _ s₃ h₃ => alike_look ?_
  have hle : s₃.size ≤ ls'.size := h₃.le.trans (h₂.2.le.trans h₁)
  cases locale.str2d _ with
  | some r => exact alike_pure hle
  | none => exact (trydecpoint_alike locale).imp fun _ t ht => ht.le.trans hle

theorem read_numeral_alike (locale : Locale) {fuel : Nat} (hc : ls'.current ≠ none)
    (hfuel : ls'.size ≤ fuel) :
    Alike (fun _ s' => s'.size < ls'.size) (read_numeral zgetc locale fuel)
      (read_numeral getByte locale fuel) ls' := by
  refine (save_and_next_alike hc).bind fun _ s₁ h₁ => ?_
  refine (saveWhile_alike _ (by omega)).bind fun _ s₂ h₂ => ?_
  refine (check_next_alike _).bind fun exponent s₃ h₃ => ?_
  split_ifs
  · refine (check_next_alike _).bind fun _ s₄ h₄ => ?_
    exact (numeralEnd_alike locale (by omega)).imp fun _ t ht => by omega
  · exact (numeralEnd_alike locale (by omega)).imp fun _ t ht => by omega

/-! ### Strings -/

theorem countSep_alike {k : Nat} {count : Int} (hk : ls'.size < k) (hcount : 0 ≤ count) :
    Alike (fun n s' => 0 ≤ n ∧ s'.size ≤ ls'.size) (countSep zgetc k count)
      (countSep getByte k count) ls' := by
  induction k generalizing ls' count with
  | zero => omega
  | succ k ih =>
    refine alike_look ?_
    split_ifs with hc
    · refine (save_and_next_alike (curIs_ne hc)).bind fun _ s' hs' => ?_
      exact (ih (by omega) (by omega)).imp fun n t ht => ⟨ht.1, ht.2.trans hs'.le⟩
    · exact alike_pure ⟨hcount, Nat.le_refl _⟩

/-- Where the count is not negative, the bracket is there again. -/
theorem skip_sep_alike {fuel : Nat} (hc : ls'.current ≠ none) (hfuel : ls'.size ≤ fuel) :
    Alike (fun n s' => s'.size < ls'.size ∧ (0 ≤ n → s'.current ≠ none)) (skip_sep zgetc fuel)
      (skip_sep getByte fuel) ls' := by
  refine alike_look ((save_and_next_alike hc).bind fun _ s₁ h₁ => ?_)
  refine (countSep_alike (by omega) (Int.le_refl 0)).bind fun n s₂ h₂ => alike_look ?_
  refine alike_pure ⟨by omega, fun hn => ?_⟩
  split_ifs at hn with hcur
  · rw [hcur]
    exact hc
  · omega

theorem longStringLoop_alike (seminfo : Bool) {sep : Int} {fuel k : Nat} (hsep : 0 ≤ sep)
    (hk : ls'.size < k) (hfuel : ls'.size ≤ fuel) :
    Alike (fun _ s' => s'.size ≤ ls'.size) (longStringLoop zgetc fuel seminfo sep k)
      (longStringLoop getByte fuel seminfo sep k) ls' := by
  induction k generalizing ls' with
  | zero => omega
  | succ k ih =>
    have hrest : ∀ s' : LexState (List UInt8), s'.size < ls'.size →
        Alike (fun _ s' => s'.size ≤ ls'.size) (longStringLoop zgetc fuel seminfo sep k)
          (longStringLoop getByte fuel seminfo sep k) s' := fun s' hs' =>
      (ih (by omega) (by omega)).imp fun _ t ht => by omega
    refine alike_look ?_
    cases hcur : ls'.current with
    | none => exact luaX_lexerror_alike _ _
    | some c =>
      have hc : ls'.current ≠ none := by
        rw [hcur]
        exact Option.some_ne_none c
      dsimp only
      by_cases h1 : c = ch '['
      · rw [if_pos h1, if_pos h1]
        refine (skip_sep_alike hc hfuel).bind fun n s₁ h₁ => ?_
        split_ifs with hn hzero
        · refine (save_and_next_alike (h₁.2 (hn ▸ hsep))).bind fun _ s₂ h₂ => ?_
          exact luaX_lexerror_alike _ _
        · refine (save_and_next_alike (h₁.2 (hn ▸ hsep))).bind fun _ s₂ h₂ => ?_
          exact hrest s₂ (by omega)
        · exact hrest s₁ h₁.1
      rw [if_neg h1, if_neg h1]
      by_cases h2 : c = ch ']'
      · rw [if_pos h2, if_pos h2]
        refine (skip_sep_alike hc hfuel).bind fun n s₁ h₁ => ?_
        split_ifs with hn
        · exact (save_and_next_alike (h₁.2 (hn ▸ hsep))).imp fun _ s₂ h₂ => by omega
        · exact hrest s₁ h₁.1
      rw [if_neg h2, if_neg h2]
      by_cases h3 : c = ch '\n' ∨ c = ch '\r'
      · rw [if_pos h3, if_pos h3]
        refine (save_alike _).bind fun _ s₁ h₁ => ?_
        refine (inclinenumber_alike (h₁.1 ▸ hc)).bind fun _ s₂ h₂ => ?_
        cases seminfo with
        | true => exact hrest s₂ (by omega)
        | false =>
          refine (alike_change (Q := fun t => t.size = s₂.size) rfl rfl).bind fun _ s₃ h₃ => ?_
          exact hrest s₃ (by omega)
      rw [if_neg h3, if_neg h3]
      cases seminfo with
      | true => exact (save_and_next_alike hc).bind fun _ s₁ h₁ => hrest s₁ h₁
      | false => exact (next_alike hc).bind fun _ s₁ h₁ => hrest s₁ h₁

theorem longStringEnd_alike (seminfo : Bool) {sep : Int} {fuel : Nat} (hsep : 0 ≤ sep)
    (hfuel : ls'.size < fuel) :
    Alike (fun _ s' => s'.size ≤ ls'.size) (longStringEnd zgetc fuel seminfo sep)
      (longStringEnd getByte fuel seminfo sep) ls' :=
  (longStringLoop_alike seminfo hsep hfuel hfuel.le).bind fun _ _ hs' => alike_look (alike_pure hs')

theorem currIsNewline_ne (h : currIsNewline ls'.toLexVars = true) : ls'.current ≠ none := by
  intro hnone
  rw [currIsNewline, hnone] at h
  cases h

theorem read_long_string_alike (seminfo : Bool) {sep : Int} {fuel : Nat} (hsep : 0 ≤ sep)
    (hc : ls'.current ≠ none) (hfuel : ls'.size ≤ fuel) :
    Alike (fun _ s' => s'.size < ls'.size) (read_long_string zgetc fuel seminfo sep)
      (read_long_string getByte fuel seminfo sep) ls' := by
  refine (save_and_next_alike hc).bind fun _ s₁ h₁ => alike_look ?_
  split_ifs with hnewline
  · refine (inclinenumber_alike (currIsNewline_ne hnewline)).bind fun _ s₂ h₂ => ?_
    exact (longStringEnd_alike seminfo hsep (by omega)).imp fun _ t ht => by omega
  · exact (longStringEnd_alike seminfo hsep (by omega)).imp fun _ t ht => by omega

theorem decimalEscape_alike (k c : Nat) :
    Alike (fun _ s' => s'.size ≤ ls'.size) (decimalEscape zgetc k c) (decimalEscape getByte k c)
      ls' := by
  induction k generalizing ls' c with
  | zero => exact alike_pure (Nat.le_refl _)
  | succ k ih =>
    refine alike_look ?_
    cases hcur : ls'.current with
    | none => exact alike_pure (Nat.le_refl _)
    | some d =>
      dsimp only
      split_ifs
      · refine (next_alike (by rw [hcur]; exact Option.some_ne_none d)).bind fun _ s₁ h₁ => ?_
        exact (ih _).imp fun _ t ht => ht.trans h₁.le
      · exact alike_pure (Nat.le_refl _)

theorem read_escape_alike (hc : ls'.current ≠ none) :
    Alike (fun _ s' => s'.size < ls'.size) (read_escape zgetc) (read_escape getByte) ls' := by
  refine (next_alike hc).bind fun _ s₁ h₁ => alike_look ?_
  cases hcur : s₁.current with
  | none => exact alike_pure h₁
  | some e =>
    have hc₁ : s₁.current ≠ none := by
      rw [hcur]
      exact Option.some_ne_none e
    dsimp only
    cases escapes.lookup e with
    | some c =>
      refine (save_alike c).bind fun _ s₂ h₂ => ?_
      exact (next_alike (h₂.1 ▸ hc₁)).imp fun _ t ht => by omega
    | none =>
      dsimp only
      by_cases h1 : e = ch '\n' ∨ e = ch '\r'
      · rw [if_pos h1, if_pos h1]
        refine (save_alike _).bind fun _ s₂ h₂ => ?_
        exact (inclinenumber_alike (h₂.1 ▸ hc₁)).imp fun _ t ht => by omega
      rw [if_neg h1, if_neg h1]
      by_cases h2 : isdigit e = true
      · rw [if_pos h2, if_pos h2]
        refine (decimalEscape_alike 3 0).bind fun c s₂ h₂ => ?_
        split_ifs
        · exact luaX_lexerror_alike _ _
        · exact (save_alike _).imp fun _ t ht => by omega
      · rw [if_neg h2, if_neg h2]
        exact (save_and_next_alike hc₁).imp fun _ t ht => by omega

theorem stringLoop_alike (del : UInt8) {k : Nat} (hk : ls'.size < k) :
    Alike (fun _ s' => s'.size ≤ ls'.size ∧ s'.current ≠ none) (stringLoop zgetc del k)
      (stringLoop getByte del k) ls' := by
  induction k generalizing ls' with
  | zero => omega
  | succ k ih =>
    refine alike_look ?_
    cases hcur : ls'.current with
    | none => exact luaX_lexerror_alike _ _
    | some c =>
      have hc : ls'.current ≠ none := by
        rw [hcur]
        exact Option.some_ne_none c
      dsimp only
      split_ifs
      · exact alike_pure ⟨Nat.le_refl _, hc⟩
      · exact luaX_lexerror_alike _ _
      · refine (read_escape_alike hc).bind fun _ s₁ h₁ => ?_
        exact (ih (by omega)).imp fun _ t ht => ⟨by omega, ht.2⟩
      · refine (save_and_next_alike hc).bind fun _ s₁ h₁ => ?_
        exact (ih (by omega)).imp fun _ t ht => ⟨by omega, ht.2⟩

theorem read_string_alike (del : UInt8) {fuel : Nat} (hc : ls'.current ≠ none)
    (hfuel : ls'.size ≤ fuel) :
    Alike (fun _ s' => s'.size < ls'.size) (read_string zgetc fuel del) (read_string getByte fuel del)
      ls' := by
  refine (save_and_next_alike hc).bind fun _ s₁ h₁ => ?_
  refine (stringLoop_alike del (by omega)).bind fun _ s₂ h₂ => ?_
  exact (save_and_next_alike h₂.2).bind fun _ s₃ h₃ => alike_look (alike_pure (by omega))

/-! ### Tokens -/

theorem skipLine_alike {k : Nat} (hk : ls'.size < k) :
    Alike (fun _ s' => s'.size ≤ ls'.size) (skipLine zgetc k) (skipLine getByte k) ls' := by
  induction k generalizing ls' with
  | zero => omega
  | succ k ih =>
    refine alike_look ?_
    split_ifs with hc
    · refine (next_alike hc.2).bind fun _ s₁ h₁ => ?_
      exact (ih (by omega)).imp fun _ t ht => by omega
    · exact alike_pure (Nat.le_refl _)

theorem luaZ_resetbuffer_alike :
    Alike (fun _ s' => s'.current = ls'.current ∧ s'.size = ls'.size) luaZ_resetbuffer
      luaZ_resetbuffer ls' := alike_change rfl ⟨rfl, rfl⟩

theorem skipComment_alike {fuel : Nat} (hfuel : ls'.size < fuel) :
    Alike (fun _ s' => s'.size ≤ ls'.size) (skipComment zgetc fuel) (skipComment getByte fuel)
      ls' := by
  refine alike_look ?_
  split_ifs with hc
  · refine (skip_sep_alike (curIs_ne hc) hfuel.le).bind fun sep s₁ h₁ => ?_
    refine luaZ_resetbuffer_alike.bind fun _ s₂ h₂ => ?_
    split_ifs with hsep
    · refine (read_long_string_alike false hsep (h₂.1 ▸ h₁.2 hsep) (by omega)).bind fun _ s₃ h₃ => ?_
      exact luaZ_resetbuffer_alike.imp fun _ t ht => by omega
    · exact (skipLine_alike (by omega)).imp fun _ t ht => by omega
  · exact skipLine_alike hfuel

theorem withEqual_alike (c : UInt8) (token : Nat) (hc : ls'.current ≠ none) :
    Alike (fun _ s' => s'.size < ls'.size) (withEqual zgetc c token) (withEqual getByte c token)
      ls' := by
  refine (next_alike hc).bind fun _ s₁ h₁ => alike_look ?_
  split_ifs with heq
  · exact (next_alike (curIs_ne heq)).bind fun _ s₂ h₂ => alike_pure (by omega)
  · exact alike_pure h₁

theorem read_name_alike {fuel : Nat} (hc : ls'.current ≠ none) (hfuel : ls'.size ≤ fuel) :
    Alike (fun _ s' => s'.size < ls'.size) (read_name zgetc fuel) (read_name getByte fuel) ls' := by
  refine (save_and_next_alike hc).bind fun _ s₁ h₁ => ?_
  refine (saveWhile_alike _ (by omega)).bind fun _ s₂ h₂ => alike_look ?_
  cases ((luaX_tokens.take NUM_RESERVED).map chars).idxOf? s₂.buff with
  | none => exact alike_pure (by omega)
  | some i => exact alike_pure (by omega)

theorem read_dots_alike (locale : Locale) {fuel : Nat} (hc : ls'.current ≠ none)
    (hfuel : ls'.size ≤ fuel) :
    Alike (fun _ s' => s'.size < ls'.size) (read_dots zgetc locale fuel)
      (read_dots getByte locale fuel) ls' := by
  refine (save_and_next_alike hc).bind fun _ s₁ h₁ => ?_
  refine (check_next_alike _).bind fun two s₂ h₂ => ?_
  cases two with
  | true => exact (check_next_alike _).bind fun three s₃ h₃ => alike_pure (by omega)
  | false =>
    refine alike_look ?_
    split_ifs with hdigit
    · refine (read_numeral_alike locale (curIs_ne hdigit) (by omega)).bind fun r s₃ h₃ => ?_
      exact alike_pure (by omega)
    · exact alike_pure (by omega)

theorem llexLoop_alike (locale : Locale) {fuel k : Nat} (hk : ls'.size < k) (hfuel : ls'.size ≤ fuel) :
    Alike (fun _ s' => s'.size ≤ ls'.size) (llexLoop zgetc locale fuel k)
      (llexLoop getByte locale fuel k) ls' := by
  induction k generalizing ls' with
  | zero => omega
  | succ k ih =>
    have hrest : ∀ s' : LexState (List UInt8), s'.size < ls'.size →
        Alike (fun _ s' => s'.size ≤ ls'.size) (llexLoop zgetc locale fuel k)
          (llexLoop getByte locale fuel k) s' := fun s' hs' =>
      (ih (by omega) (by omega)).imp fun _ t ht => by omega
    refine alike_look ?_
    cases hcur : ls'.current with
    | none => exact alike_pure (Nat.le_refl _)
    | some c =>
      have hc : ls'.current ≠ none := by
        rw [hcur]
        exact Option.some_ne_none c
      dsimp only
      by_cases h1 : c = ch '\n' ∨ c = ch '\r'
      · rw [if_pos h1, if_pos h1]
        exact (inclinenumber_alike hc).bind fun _ s₁ h₁ => hrest s₁ h₁
      rw [if_neg h1, if_neg h1]
      by_cases h2 : c = ch '-'
      · rw [if_pos h2, if_pos h2]
        refine (next_alike hc).bind fun _ s₁ h₁ => alike_look ?_
        split_ifs with hminus
        · exact alike_pure h₁.le
        · have hc₁ : s₁.current ≠ none := by
            rw [not_not.mp hminus]
            exact Option.some_ne_none _
          refine (next_alike hc₁).bind fun _ s₂ h₂ => ?_
          refine (skipComment_alike (by omega)).bind fun _ s₃ h₃ => ?_
          exact hrest s₃ (by omega)
      rw [if_neg h2, if_neg h2]
      by_cases h3 : c = ch '['
      · rw [if_pos h3, if_pos h3]
        refine (skip_sep_alike hc hfuel).bind fun sep s₁ h₁ => ?_
        split_ifs with hsep
        · refine (read_long_string_alike true hsep (h₁.2 hsep) (by omega)).bind fun _ s₂ h₂ => ?_
          exact alike_pure (by omega)
        · exact alike_pure h₁.1.le
        · exact luaX_lexerror_alike _ _
      rw [if_neg h3, if_neg h3]
      have hequal : ∀ token, Alike (fun _ s' => s'.size ≤ ls'.size) (withEqual zgetc c token)
          (withEqual getByte c token) ls' := fun token =>
        (withEqual_alike c token hc).imp fun _ t ht => ht.le
      by_cases h4 : c = ch '='
      · rw [if_pos h4, if_pos h4]
        exact hequal TK_EQ
      rw [if_neg h4, if_neg h4]
      by_cases h5 : c = ch '<'
      · rw [if_pos h5, if_pos h5]
        exact hequal TK_LE
      rw [if_neg h5, if_neg h5]
      by_cases h6 : c = ch '>'
      · rw [if_pos h6, if_pos h6]
        exact hequal TK_GE
      rw [if_neg h6, if_neg h6]
      by_cases h7 : c = ch '~'
      · rw [if_pos h7, if_pos h7]
        exact hequal TK_NE
      rw [if_neg h7, if_neg h7]
      by_cases h8 : c = ch '"' ∨ c = ch '\''
      · rw [if_pos h8, if_pos h8]
        exact (read_string_alike c hc hfuel).bind fun _ s₁ h₁ => alike_pure h₁.le
      rw [if_neg h8, if_neg h8]
      by_cases h9 : c = ch '.'
      · rw [if_pos h9, if_pos h9]
        exact (read_dots_alike locale hc hfuel).imp fun _ t ht => ht.le
      rw [if_neg h9, if_neg h9]
      by_cases h10 : isspace c = true
      · rw [if_pos h10, if_pos h10]
        exact (next_alike hc).bind fun _ s₁ h₁ => hrest s₁ h₁
      rw [if_neg h10, if_neg h10]
      by_cases h11 : isdigit c = true
      · rw [if_pos h11, if_pos h11]
        exact (read_numeral_alike locale hc hfuel).bind fun _ s₁ h₁ => alike_pure h₁.le
      rw [if_neg h11, if_neg h11]
      by_cases h12 : isalpha c = true ∨ c = ch '_'
      · rw [if_pos h12, if_pos h12]
        exact (read_name_alike hc hfuel).imp fun _ t ht => ht.le
      · rw [if_neg h12, if_neg h12]
        exact (next_alike hc).bind fun _ s₁ h₁ => alike_pure h₁.le

theorem llex_alike (locale : Locale) {fuel : Nat} (hfuel : ls'.size < fuel) :
    Alike (fun _ s' => s'.size ≤ ls'.size) (llex zgetc locale fuel) (llex getByte locale fuel)
      ls' := by
  refine luaZ_resetbuffer_alike.bind fun _ s₁ h₁ => ?_
  exact (llexLoop_alike locale (by omega) (by omega)).imp fun _ t ht => by omega

/-- Variables other than the current character do not count. -/
theorem set_alike {g : LexVars → LexVars} (hg : (g ls'.toLexVars).current = ls'.current) :
    Alike (fun _ s' => s'.size = ls'.size) (change g) (change g) ls' := by
  refine alike_change hg ?_
  rw [LexState.size, LexState.size, hg]

theorem luaX_next_alike (locale : Locale) {fuel : Nat} (hfuel : ls'.size < fuel) :
    Alike (fun _ s' => s'.size ≤ ls'.size) (luaX_next zgetc locale fuel)
      (luaX_next getByte locale fuel) ls' := by
  refine (set_alike rfl).bind fun _ s₁ h₁ => alike_look ?_
  split_ifs
  · exact (set_alike rfl).imp fun _ t ht => by omega
  · refine (llex_alike locale (by omega)).bind fun t s₂ h₂ => ?_
    exact (set_alike rfl).imp fun _ t ht => by omega

theorem luaX_lookahead_alike (locale : Locale) {fuel : Nat} (hfuel : ls'.size < fuel) :
    Alike (fun _ s' => s'.size ≤ ls'.size) (luaX_lookahead zgetc locale fuel)
      (luaX_lookahead getByte locale fuel) ls' := by
  refine (llex_alike locale hfuel).bind fun t s₁ h₁ => ?_
  exact (set_alike rfl).imp fun _ t ht => by omega

/-! ### Results -/

theorem Alike.ok {α : Type} {Q : α → LexState (List UInt8) → Prop} {x : LexM ZIO α}
    {x' : LexM (List UInt8) α} (hx : Alike Q x x' ls') {ls : LexState ZIO} (hls : Reads ls ls')
    {a : α} {s' : LexState (List UInt8)} (h : x'.run ls' = .ok (a, s')) :
    ∃ s, x.run ls = .ok (a, s) ∧ Reads s s' ∧ Q a s' := by
  have hsame := hx ls hls
  rw [h] at hsame
  rcases hr : x.run ls with e | ⟨b, s⟩
  · rw [hr] at hsame
    exact hsame.elim
  · rw [hr] at hsame
    obtain ⟨rfl, hreads, hq⟩ := hsame
    exact ⟨s, rfl, hreads, hq⟩

theorem Alike.error {α : Type} {Q : α → LexState (List UInt8) → Prop} {x : LexM ZIO α}
    {x' : LexM (List UInt8) α} (hx : Alike Q x x' ls') {ls : LexState ZIO} (hls : Reads ls ls')
    {e : Stop} (h : x'.run ls' = .error e) : x.run ls = .error e ∧ e.IsError := by
  have hsame := hx ls hls
  rw [h] at hsame
  rcases hr : x.run ls with e' | ⟨b, s⟩
  · rw [hr] at hsame
    exact ⟨congrArg Except.error hsame.1, hsame.1 ▸ hsame.2⟩
  · rw [hr] at hsame
    exact hsame.elim

end

/-- The variables of a state with these characters before it. -/
def showing (v : LexVars) (s : List UInt8) : LexState (List UInt8) :=
  { toLexVars := { v with current := s.head? }, z := s.tail }

theorem getByte_eq (s : List UInt8) : getByte s = some (s.head?, s.tail) := by
  cases s <;> rfl

theorem size_showing (v : LexVars) (s : List UInt8) : (showing v s).size = s.length := by
  cases s <;> rfl

/-- What `luaX_setinput` sets, but for the current character. -/
def LexVars.initial (t : Token) : LexVars :=
  { current := none, linenumber := 1, lastline := 1, t := t, lookahead := ⟨TK_EOS, .none⟩, buff := [],
    buffsize := LUA_MINBUFFER, decpoint := ch '.' }

/-- The first character is got from the input. -/
theorem luaX_setinput_spec {z : ZIO} {s : List UInt8} (h : z.Delivers s) (t : Token) :
    ∃ ls, luaX_setinput zgetc z t = .ok ls ∧ Reads ls (showing (LexVars.initial t) s) := by
  cases s with
  | nil =>
    obtain ⟨z', hget⟩ := zgetc_nil h
    refine ⟨{ LexVars.initial t with z := z' }, ?_, rfl, fun hc => absurd rfl hc, fun _ => rfl⟩
    rw [luaX_setinput, next_eq hget]
    rfl
  | cons c s =>
    obtain ⟨z', hget, hz'⟩ := zgetc_cons h
    refine ⟨{ LexVars.initial t with current := some c, z := z' }, ?_, rfl, fun _ => hz',
      fun hc => nomatch hc⟩
    rw [luaX_setinput, next_eq hget]
    rfl

/-! ## Steps on all bytes in one list -/

section

variable {α β : Type} {x : LexM (List UInt8) α} {f : α → LexM (List UInt8) β}

theorem look_run (f : LexVars → LexM (List UInt8) α) (ls : LexState (List UInt8)) :
    (look >>= f).run ls = (f ls.toLexVars).run ls := rfl

theorem change_run (g : LexVars → LexVars) (ls : LexState (List UInt8)) :
    (change g).run ls = .ok ((), { ls with toLexVars := g ls.toLexVars }) := rfl

theorem bind_run {a : α} {ls ls' : LexState (List UInt8)} (h : x.run ls = .ok (a, ls')) :
    (x >>= f).run ls = (f a).run ls' := by
  rw [StateT.run_bind, h]
  rfl

theorem bind_run_error {e : Stop} {ls : LexState (List UInt8)} (h : x.run ls = .error e) :
    (x >>= f).run ls = .error e := by
  rw [StateT.run_bind, h]
  rfl

end

end Luaxx.Lexer
