import Luaxx.Auxlib.Buffer
import Luaxx.Core.Number

/-!
# Additions to a generic buffer (`lauxlib.c`)

Everything that may be added to a `luaL_Buffer`, in any order. The strings of the buffer are the
topmost values, and together with the array they are what was added: `adjuststack` only changes how
the text is cut. It leaves less than `LIMIT` strings, whatever the lengths are.
-/

namespace Luaxx.Auxlib

section

variable (room : Nat)

/-- `lua_insert(L, -2)`. -/
def lua_insert : List (List UInt8) → List (List UInt8)
  | top :: next :: L => next :: top :: L
  | L => L

variable (BUFSIZ : Nat)

def luaL_addstring (B : luaL_Buffer) (s : List UInt8) : Option luaL_Buffer :=
  luaL_addlstring room BUFSIZ B (s.takeWhile (· ≠ 0))

/-- `luaL_addsize`, for what was written from `p` on: it has to be in the array. -/
def luaL_addsize (B : luaL_Buffer) (written : List UInt8) : Option luaL_Buffer :=
  if B.chars.length + written.length ≤ BUFSIZ then some { B with chars := B.chars ++ written }
  else none

/-- The value is the topmost one, a string or a number that `lua_tolstring` has converted. -/
def luaL_addvalue (B : luaL_Buffer) : Option luaL_Buffer :=
  match B.stack with
  | [] => none
  | s :: L =>
    if s.length ≤ BUFSIZ - B.chars.length then
      some { B with stack := L, chars := B.chars ++ s }
    else do
      let (B, pushed) ← emptybuffer room B
      -- put buffer before new value
      let L := if pushed then lua_insert B.stack else B.stack
      -- add new value into B stack
      adjuststack room { B with stack := L, lvl := B.lvl + 1 }

end

/-- What `luaL_addvalue` takes. -/
inductive Addend where
  | string (s : List UInt8)
  | number (n : Number)
  deriving DecidableEq, Repr

/-- `lua_tolstring`. -/
def lua_tolstring (lua_number2str : Number → List UInt8) : Addend → List UInt8
  | .string s => s
  | .number n => lua_number2str n

inductive Addition where
  | addchar (c : UInt8)
  | addlstring (s : List UInt8)
  | addstring (s : List UInt8)
  /-- `luaL_prepbuffer`, then something is written there, then `luaL_addsize`. -/
  | addsize (written : List UInt8)
  /-- A value is pushed, and then `luaL_addvalue`. -/
  | addvalue (v : Addend)
  deriving DecidableEq, Repr

namespace Addition

/-- No more is written than there is room for. -/
def Fits (BUFSIZ : Nat) : Addition → Prop
  | addsize written => written.length ≤ BUFSIZ
  | _ => True

instance (BUFSIZ : Nat) : DecidablePred (Fits BUFSIZ)
  | addsize written => inferInstanceAs (Decidable (written.length ≤ BUFSIZ))
  | addchar _ => .isTrue trivial
  | addlstring _ => .isTrue trivial
  | addstring _ => .isTrue trivial
  | addvalue _ => .isTrue trivial

variable (lua_number2str : Number → List UInt8)

/-- The piece of text that is added. -/
def text : Addition → List UInt8
  | addchar c => [c]
  | addlstring s => s
  | addstring s => s.takeWhile (· ≠ 0)
  | addsize written => written
  | addvalue v => lua_tolstring lua_number2str v

def perform (room BUFSIZ : Nat) (B : luaL_Buffer) : Addition → Option luaL_Buffer
  | addchar c => luaL_addchar room BUFSIZ B c
  | addlstring s => luaL_addlstring room BUFSIZ B s
  | addstring s => luaL_addstring room BUFSIZ B s
  | addsize written => do
    let B ← luaL_prepbuffer room B
    luaL_addsize BUFSIZ B written
  | addvalue v => do
    let L ← push room B.stack (lua_tolstring lua_number2str v)
    luaL_addvalue room BUFSIZ { B with stack := L }

end Addition

/-! ## The invariant -/

/-- The strings of the buffer and the characters in its array are the text that was added, above the
values `S`. -/
structure Collects (BUFSIZ : Nat) (S : List (List UInt8)) (text : List UInt8)
    (ps : List (List UInt8)) (B : luaL_Buffer) : Prop where
  stack : B.stack = ps ++ S
  lvl : B.lvl = ps.length
  lvl_lt : ps.length < LIMIT
  chars_le : B.chars.length ≤ BUFSIZ
  text_eq : ps.reverse.flatten ++ B.chars = text

section Lemmas

variable {room BUFSIZ : Nat} {S ps : List (List UInt8)} {text : List UInt8} {B : luaL_Buffer}

theorem Collects.length_stack (h : Collects BUFSIZ S text ps B) :
    B.stack.length = ps.length + S.length := by
  rw [h.stack, List.length_append]

/-- How many strings are concatenated. -/
theorem togetLoop_spec (L : List (List UInt8)) {lvl fuel toget : Nat} (toplen : Nat)
    (hfuel : lvl ≤ toget + fuel) (hle : toget ≤ lvl) :
    toget ≤ togetLoop L lvl fuel toget toplen ∧ togetLoop L lvl fuel toget toplen ≤ lvl ∧
      lvl - togetLoop L lvl fuel toget toplen + 1 < LIMIT := by
  induction fuel generalizing toget toplen with
  | zero =>
    rw [togetLoop]
    have hlast : lvl - toget + 1 = 1 := by omega
    rw [hlast]
    exact ⟨Nat.le_refl toget, hle, by decide⟩
  | succ fuel ih =>
    rw [togetLoop]
    by_cases hlt : toget < lvl
    · rw [if_pos hlt]
      dsimp only
      by_cases hmore : lvl - toget + 1 ≥ LIMIT ∨ toplen > (L.getD toget []).length
      · rw [if_pos hmore]
        have hfuel' : lvl ≤ (toget + 1) + fuel := by omega
        obtain ⟨h1, h2, h3⟩ := ih (toplen + (L.getD toget []).length) hfuel' hlt
        exact ⟨by omega, h2, h3⟩
      · rw [if_neg hmore]
        exact ⟨Nat.le_refl toget, hle, by omega⟩
    · rw [if_neg hlt]
      have hlast : lvl - toget + 1 = 1 := by omega
      rw [hlast]
      exact ⟨Nat.le_refl toget, hle, by decide⟩

variable (room) in
theorem lua_concat_pos {n : Nat} (h1 : 1 ≤ n) (hn : n ≤ ps.length) :
    lua_concat room (ps ++ S) n = some ((ps.take n).reverse.flatten :: ps.drop n ++ S) := by
  have htake : (ps.take n).length = n := by
    rw [List.length_take]
    omega
  have hne : ps.take n ≠ [] := by
    intro hnil
    rw [hnil] at htake
    rw [← htake] at h1
    exact absurd h1 (by decide)
  have hconcat := lua_concat_pieces room (S := ps.drop n ++ S) hne
  rwa [← List.append_assoc, List.take_append_drop, htake] at hconcat

variable (room) in
/-- The text stays, in less than `LIMIT` strings. -/
theorem adjuststack_spec {stack : List (List UInt8)} {lvl : Nat} (chars : List UInt8)
    (hstack : stack = ps ++ S) (hlvl : lvl = ps.length) :
    ∃ ps', adjuststack room ⟨stack, lvl, chars⟩ = some ⟨ps' ++ S, ps'.length, chars⟩ ∧
      ps'.reverse.flatten = ps.reverse.flatten ∧ ps'.length < LIMIT := by
  rw [adjuststack]
  by_cases h1 : lvl > 1
  · obtain ⟨hge, hle, hlimit⟩ := togetLoop_spec stack (stack.getD 0 []).length
      (Nat.le_add_left lvl 1) (Nat.le_of_lt h1)
    generalize hget : togetLoop stack lvl lvl 1 (stack.getD 0 []).length = n at hge hle hlimit
    rw [if_pos h1]
    dsimp only
    rw [hstack, lua_concat_pos room hge (hlvl ▸ hle)]
    refine ⟨(ps.take n).reverse.flatten :: ps.drop n, ?_, ?_, ?_⟩
    · rw [List.length_cons, List.length_drop, ← hlvl]
      rfl
    · rw [List.reverse_cons, List.flatten_append, List.flatten_singleton, ← List.flatten_append,
        ← List.reverse_append, List.take_append_drop]
    · rw [List.length_cons, List.length_drop, ← hlvl]
      exact hlimit
  · rw [if_neg h1]
    refine ⟨ps, ?_, rfl, ?_⟩
    · rw [← hstack, ← hlvl]
    · rw [hlvl] at h1
      have hlimit : LIMIT = 10 := rfl
      omega

/-! ## What the operations keep -/

theorem Collects.prepbuffer (h : Collects BUFSIZ S text ps B) (hroom : S.length + LIMIT ≤ room) :
    ∃ ps' B', luaL_prepbuffer room B = some B' ∧ Collects BUFSIZ S text ps' B' ∧ B'.chars = [] := by
  have hlen := h.length_stack
  have hlt := h.lvl_lt
  by_cases hc : B.chars = []
  · refine ⟨ps, B, ?_, h, hc⟩
    rw [luaL_prepbuffer, emptybuffer, if_pos hc]
    rfl
  · have hpush : push room B.stack B.chars = some (B.chars :: B.stack) := if_pos (by omega)
    have hprep : luaL_prepbuffer room B = adjuststack room ⟨B.chars :: B.stack, B.lvl + 1, []⟩ := by
      rw [luaL_prepbuffer, emptybuffer, if_neg hc, hpush]
      rfl
    have hstack : B.chars :: B.stack = (B.chars :: ps) ++ S := by rw [h.stack]; rfl
    have hlvl : B.lvl + 1 = (B.chars :: ps).length := by rw [h.lvl]; rfl
    obtain ⟨ps', hadjust, htext, hlimit⟩ := adjuststack_spec room [] hstack hlvl
    refine ⟨ps', _, hprep.trans hadjust, ⟨rfl, rfl, hlimit, Nat.zero_le _, ?_⟩, rfl⟩
    rw [htext, List.reverse_cons, List.flatten_append, List.flatten_singleton, List.append_nil]
    exact h.text_eq

theorem Collects.append (h : Collects BUFSIZ S text ps B) {s : List UInt8}
    (hs : B.chars.length + s.length ≤ BUFSIZ) :
    Collects BUFSIZ S (text ++ s) ps { B with chars := B.chars ++ s } := by
  refine ⟨h.stack, h.lvl, h.lvl_lt, ?_, ?_⟩
  · rw [List.length_append]
    exact hs
  · rw [← h.text_eq, List.append_assoc]

theorem Collects.addchar (h : Collects BUFSIZ S text ps B) (hB : 0 < BUFSIZ)
    (hroom : S.length + LIMIT ≤ room) (c : UInt8) :
    ∃ ps' B', luaL_addchar room BUFSIZ B c = some B' ∧ Collects BUFSIZ S (text ++ [c]) ps' B' := by
  by_cases hlt : B.chars.length < BUFSIZ
  · exact ⟨ps, _, luaL_addchar_fits hlt c, h.append hlt⟩
  · obtain ⟨ps', B', hprep, h', hc⟩ := h.prepbuffer hroom
    refine ⟨ps', { B' with chars := B'.chars ++ [c] }, ?_, h'.append ?_⟩
    · rw [luaL_addchar, if_neg hlt, hprep]
      rfl
    · rw [hc]
      exact hB

theorem Collects.addlstring (h : Collects BUFSIZ S text ps B) (hB : 0 < BUFSIZ)
    (hroom : S.length + LIMIT ≤ room) (s : List UInt8) :
    ∃ ps' B', luaL_addlstring room BUFSIZ B s = some B' ∧ Collects BUFSIZ S (text ++ s) ps' B' := by
  induction s generalizing text ps B with
  | nil => exact ⟨ps, B, luaL_addlstring_nil, by rwa [List.append_nil]⟩
  | cons c s ih =>
    obtain ⟨ps', B', hadd, h'⟩ := h.addchar hB hroom c
    obtain ⟨ps'', B'', hrest, h''⟩ := ih h'
    refine ⟨ps'', B'', ?_, ?_⟩
    · rw [luaL_addlstring_cons, hadd, Option.bind_some, hrest]
    · rwa [List.append_assoc] at h''

/-- The value is in its own slot, above the strings of the buffer. -/
theorem Collects.addvalue (h : Collects BUFSIZ S text ps B) (hroom : S.length + LIMIT + 1 ≤ room)
    (s : List UInt8) :
    ∃ ps' B', luaL_addvalue room BUFSIZ { B with stack := s :: B.stack } = some B' ∧
      Collects BUFSIZ S (text ++ s) ps' B' := by
  have hlen := h.length_stack
  have hlt := h.lvl_lt
  have hle := h.chars_le
  rw [luaL_addvalue]
  dsimp only
  by_cases hfit : s.length ≤ BUFSIZ - B.chars.length
  · rw [if_pos hfit]
    exact ⟨ps, _, rfl, h.append (by omega)⟩
  rw [if_neg hfit]
  by_cases hc : B.chars = []
  · have hstack : s :: B.stack = (s :: ps) ++ S := by rw [h.stack]; rfl
    have hlvl : B.lvl + 1 = (s :: ps).length := by rw [h.lvl]; rfl
    obtain ⟨ps', hadjust, htext, hlimit⟩ := adjuststack_spec room B.chars hstack hlvl
    refine ⟨ps', ⟨ps' ++ S, ps'.length, B.chars⟩, ?_, ⟨rfl, rfl, hlimit, hle, ?_⟩⟩
    · rw [emptybuffer, if_pos hc]
      exact hadjust
    · rw [htext, List.reverse_cons, List.flatten_append, List.flatten_singleton, hc,
        List.append_nil, ← h.text_eq, hc, List.append_nil]
  · have hpush : push room (s :: B.stack) B.chars = some (B.chars :: s :: B.stack) := by
      refine if_pos ?_
      rw [List.length_cons]
      omega
    have hstack : s :: B.chars :: B.stack = (s :: B.chars :: ps) ++ S := by rw [h.stack]; rfl
    have hlvl : B.lvl + 1 + 1 = (s :: B.chars :: ps).length := by rw [h.lvl]; rfl
    obtain ⟨ps', hadjust, htext, hlimit⟩ := adjuststack_spec room [] hstack hlvl
    refine ⟨ps', ⟨ps' ++ S, ps'.length, []⟩, ?_, ⟨rfl, rfl, hlimit, Nat.zero_le _, ?_⟩⟩
    · rw [emptybuffer, if_neg hc, hpush]
      exact hadjust
    · rw [htext, List.reverse_cons, List.reverse_cons, List.flatten_append, List.flatten_append,
        List.flatten_singleton, List.flatten_singleton, List.append_nil, ← h.text_eq]

theorem Collects.pushresult (h : Collects BUFSIZ S text ps B) (hroom : S.length + LIMIT ≤ room) :
    luaL_pushresult room B = some ⟨text :: S, 1, []⟩ := by
  have hlen := h.length_stack
  have hlt := h.lvl_lt
  have htext := h.text_eq
  rw [luaL_pushresult]
  by_cases hc : B.chars = []
  · rw [hc, List.append_nil] at htext
    rw [emptybuffer, if_pos hc]
    by_cases hps : ps = []
    · have hS : B.stack = S := by rw [h.stack, hps, List.nil_append]
      have hlvl : B.lvl = 0 := by rw [h.lvl, hps, List.length_nil]
      have hpush : push room S [] = some ([] :: S) := if_pos (by rw [hS] at hlen; omega)
      rw [hps] at htext
      have hconcat : lua_concat room S 0 = some ([] :: S) := hpush
      simp only [Option.bind_eq_bind, Option.bind_some, hlvl, hS, hconcat, hc]
      rw [← htext]
      rfl
    · simp only [Option.bind_eq_bind, Option.bind_some, h.lvl, h.stack, hc]
      rw [lua_concat_pieces room hps, htext]
      rfl
  · have hpush : push room B.stack B.chars = some (B.chars :: B.stack) := if_pos (by omega)
    have hconcat := lua_concat_pieces room (S := S) (List.cons_ne_nil B.chars ps)
    rw [List.reverse_cons, List.flatten_append, List.flatten_singleton, htext, List.cons_append,
      ← h.stack, List.length_cons, ← h.lvl] at hconcat
    rw [emptybuffer, if_neg hc, hpush]
    show (lua_concat room (B.chars :: B.stack) (B.lvl + 1)).bind _ = _
    rw [hconcat]
    rfl

/-! ## Any additions -/

theorem Collects.perform (lua_number2str : Number → List UInt8) (h : Collects BUFSIZ S text ps B)
    (hB : 0 < BUFSIZ) (hroom : S.length + LIMIT + 1 ≤ room) {a : Addition} (ha : a.Fits BUFSIZ) :
    ∃ ps' B', a.perform lua_number2str room BUFSIZ B = some B' ∧
      Collects BUFSIZ S (text ++ a.text lua_number2str) ps' B' := by
  have hlen := h.length_stack
  have hlt := h.lvl_lt
  cases a with
  | addchar c => exact h.addchar hB (by omega) c
  | addlstring s => exact h.addlstring hB (by omega) s
  | addstring s => exact h.addlstring hB (by omega) _
  | addsize written =>
    obtain ⟨ps', B', hprep, h', hc⟩ := h.prepbuffer (Nat.le_of_succ_le hroom)
    have hfits : B'.chars.length + written.length ≤ BUFSIZ := by
      rw [hc, List.length_nil, Nat.zero_add]
      exact ha
    refine ⟨ps', _, ?_, h'.append hfits⟩
    rw [Addition.perform, hprep]
    exact if_pos hfits
  | addvalue v =>
    have hpush : push room B.stack (lua_tolstring lua_number2str v) =
        some (lua_tolstring lua_number2str v :: B.stack) := if_pos (by omega)
    obtain ⟨ps', B', hadd, h'⟩ := h.addvalue hroom (lua_tolstring lua_number2str v)
    refine ⟨ps', B', ?_, h'⟩
    rw [Addition.perform, hpush]
    exact hadd

theorem collects_run (lua_number2str : Number → List UInt8) (h : Collects BUFSIZ S text ps B)
    (hB : 0 < BUFSIZ) (hroom : S.length + LIMIT + 1 ≤ room) {as : List Addition}
    (has : ∀ a ∈ as, a.Fits BUFSIZ) :
    ∃ ps' B', as.foldlM (Addition.perform lua_number2str room BUFSIZ) B = some B' ∧
      Collects BUFSIZ S (text ++ as.flatMap (Addition.text lua_number2str)) ps' B' := by
  induction as generalizing text ps B with
  | nil => exact ⟨ps, B, rfl, by rwa [List.flatMap_nil, List.append_nil]⟩
  | cons a as ih =>
    obtain ⟨ha, has⟩ := List.forall_mem_cons.mp has
    obtain ⟨ps', B', hstep, h'⟩ := h.perform lua_number2str hB hroom ha
    obtain ⟨ps'', B'', hrest, h''⟩ := ih h' has
    refine ⟨ps'', B'', ?_, ?_⟩
    · rw [List.foldlM_cons, hstep]
      exact hrest
    · rwa [List.append_assoc, ← List.flatMap_cons] at h''

/-- Whatever is added to a buffer, the strings it has on the stack are less than `LIMIT` after each
addition and no push needs more than `LIMIT + 1` slots, `p` stays in the array, and
`luaL_pushresult` leaves the concatenation of all pieces. -/
theorem pushresult_concatenates (lua_number2str : Number → List UInt8) (S : List (List UInt8))
    (as : List Addition) (hB : 0 < BUFSIZ) (hroom : S.length + (LIMIT + 1) ≤ room)
    (has : ∀ a ∈ as, a.Fits BUFSIZ) :
    ∃ B, as.foldlM (Addition.perform lua_number2str room BUFSIZ) (luaL_buffinit S) = some B ∧
      B.stack.length = S.length + B.lvl ∧ B.lvl < LIMIT ∧ B.chars.length ≤ BUFSIZ ∧
      luaL_pushresult room B = some ⟨as.flatMap (Addition.text lua_number2str) :: S, 1, []⟩ := by
  have hinit : Collects BUFSIZ S [] [] (luaL_buffinit S) :=
    ⟨rfl, rfl, by decide, Nat.zero_le _, rfl⟩
  obtain ⟨ps, B, hrun, h⟩ := collects_run lua_number2str hinit hB (by omega) has
  refine ⟨B, hrun, ?_, ?_, h.chars_le, h.pushresult (by omega)⟩
  · rw [h.length_stack, h.lvl, Nat.add_comm]
  · rw [h.lvl]
    exact h.lvl_lt

theorem pushresult_concatenates_pieces :
    ∃ B, [Addition.addchar 97, .addvalue (.string [98, 99, 100]), .addsize [101, 102]].foldlM
        (Addition.perform (fun _ => [48]) 11 2) (luaL_buffinit []) = some B ∧
      B.stack.length = ([] : List (List UInt8)).length + B.lvl ∧ B.lvl < LIMIT ∧
      B.chars.length ≤ 2 ∧
      luaL_pushresult 11 B = some ⟨[Addition.addchar 97, .addvalue (.string [98, 99, 100]),
        .addsize [101, 102]].flatMap (Addition.text fun _ => [48]) :: [], 1, []⟩ :=
  pushresult_concatenates (fun _ => [48]) [] _ (by decide) (by decide) (by decide)

end Lemmas

end Luaxx.Auxlib
