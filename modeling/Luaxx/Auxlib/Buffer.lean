import Mathlib.Data.List.Basic
import Mathlib.Tactic.Common
import Mathlib.Tactic.Ring

/-!
# Generic buffers (`lauxlib.c`)

A `luaL_Buffer` collects characters in an array of `LUAL_BUFFERSIZE` bytes, which is the `BUFSIZ` of
the C library. A full array becomes a string on the Lua stack; the buffer counts the strings it
has there (`lvl`) and takes them to be the topmost values of the stack.

Only the values pushed since the C function was entered are modelled, as strings. The stack has
`room` slots for them: a push beyond these is outside the allocated stack, and has no result.
-/

namespace Luaxx.Auxlib

def LUA_MINSTACK : Nat := 20

/-- `LIMIT`. -/
def LIMIT : Nat := LUA_MINSTACK / 2

structure luaL_Buffer where
  /-- The values above the entry, the topmost first. -/
  stack : List (List UInt8)
  lvl : Nat
  /-- What is in `buffer`, below `p`. -/
  chars : List UInt8
  deriving DecidableEq, Repr

section

variable (room : Nat)

/-- A value is pushed. -/
def push (L : List (List UInt8)) (s : List UInt8) : Option (List (List UInt8)) :=
  if L.length < room then some (s :: L) else none

/-- `lua_concat` of strings. -/
def lua_concat (L : List (List UInt8)) (n : Nat) : Option (List (List UInt8)) :=
  if n ≥ 2 then some ((L.take n).reverse.flatten :: L.drop n)
  else if n = 0 then push room L []
  else some L

/-- The new buffer, and whether a string was put on the stack. -/
def emptybuffer (B : luaL_Buffer) : Option (luaL_Buffer × Bool) :=
  if B.chars = [] then some (B, false)
  else do
    let L ← push room B.stack B.chars
    return (⟨L, B.lvl + 1, []⟩, true)

/-- The loop of `adjuststack`, which counts the levels to concat. -/
def togetLoop (L : List (List UInt8)) (lvl : Nat) : Nat → Nat → Nat → Nat
  | 0, toget, _ => toget
  | fuel + 1, toget, toplen =>
    if toget < lvl then
      let l := (L.getD toget []).length
      if lvl - toget + 1 ≥ LIMIT ∨ toplen > l then togetLoop L lvl fuel (toget + 1) (toplen + l)
      else toget
    else toget

def adjuststack (B : luaL_Buffer) : Option luaL_Buffer :=
  if B.lvl > 1 then do
    let toget := togetLoop B.stack B.lvl B.lvl 1 (B.stack.getD 0 []).length
    let L ← lua_concat room B.stack toget
    return { B with stack := L, lvl := B.lvl - toget + 1 }
  else some B

def luaL_prepbuffer (B : luaL_Buffer) : Option luaL_Buffer := do
  let (B, pushed) ← emptybuffer room B
  if pushed then adjuststack room B else return B

variable (BUFSIZ : Nat)

def luaL_addchar (B : luaL_Buffer) (c : UInt8) : Option luaL_Buffer := do
  let B ← if B.chars.length < BUFSIZ then some B else luaL_prepbuffer room B
  return { B with chars := B.chars ++ [c] }

def luaL_addlstring (B : luaL_Buffer) (s : List UInt8) : Option luaL_Buffer :=
  s.foldlM (luaL_addchar room BUFSIZ) B

/-- The result is the topmost value. -/
def luaL_pushresult (B : luaL_Buffer) : Option luaL_Buffer := do
  let (B, _) ← emptybuffer room B
  let L ← lua_concat room B.stack B.lvl
  return { B with stack := L, lvl := 1 }

end

/-- `luaL_buffinit`. -/
def luaL_buffinit (L : List (List UInt8)) : luaL_Buffer := ⟨L, 0, []⟩

section Lemmas

variable {room BUFSIZ : Nat} {B : luaL_Buffer}

theorem luaL_addlstring_nil : luaL_addlstring room BUFSIZ B [] = some B := rfl

theorem luaL_addlstring_cons (c : UInt8) (s : List UInt8) :
    luaL_addlstring room BUFSIZ B (c :: s) =
      (luaL_addchar room BUFSIZ B c).bind fun B => luaL_addlstring room BUFSIZ B s := rfl

theorem luaL_addlstring_append (s s' : List UInt8) : luaL_addlstring room BUFSIZ B (s ++ s') =
    (luaL_addlstring room BUFSIZ B s).bind fun B => luaL_addlstring room BUFSIZ B s' :=
  List.foldlM_append

theorem luaL_addlstring_singleton (c : UInt8) :
    luaL_addlstring room BUFSIZ B [c] = luaL_addchar room BUFSIZ B c := by
  rw [luaL_addlstring_cons]
  exact Option.bind_fun_some _

/-! ## Characters that fit the array -/

theorem luaL_addchar_fits (h : B.chars.length < BUFSIZ) (c : UInt8) :
    luaL_addchar room BUFSIZ B c = some { B with chars := B.chars ++ [c] } := by
  rw [luaL_addchar, if_pos h]
  rfl

theorem luaL_addlstring_fits {s : List UInt8} (h : B.chars.length + s.length ≤ BUFSIZ) :
    luaL_addlstring room BUFSIZ B s = some { B with chars := B.chars ++ s } := by
  induction s generalizing B with
  | nil => rw [luaL_addlstring_nil, List.append_nil]
  | cons c s ih =>
    rw [List.length_cons] at h
    rw [luaL_addlstring_cons, luaL_addchar_fits (by omega), Option.bind_some, ih]
    · rw [List.append_assoc, List.singleton_append]
    · rw [List.length_append, List.length_singleton]
      omega

/-! ## Strings on top of the stack -/

/-- The strings of the buffer are the topmost values, and each filled the array. -/
structure Holds (BUFSIZ : Nat) (S ps : List (List UInt8)) (B : luaL_Buffer) : Prop where
  stack : B.stack = ps ++ S
  lvl : B.lvl = ps.length
  full : ∀ p ∈ ps, p.length = BUFSIZ
  chars_le : B.chars.length ≤ BUFSIZ
  chars_ne : ps ≠ [] → B.chars ≠ []

/-- What has been added to the buffer. -/
def contents (ps : List (List UInt8)) (B : luaL_Buffer) : List UInt8 :=
  ps.reverse.flatten ++ B.chars

/-- The number of strings that `n` characters make. -/
def pieces (BUFSIZ n : Nat) : Nat := (n + BUFSIZ - 1) / BUFSIZ

theorem length_flatten_full {ps : List (List UInt8)} (h : ∀ p ∈ ps, p.length = BUFSIZ) :
    ps.flatten.length = ps.length * BUFSIZ := by
  induction ps with
  | nil => rw [List.length_nil, Nat.zero_mul]; rfl
  | cons p ps ih =>
    obtain ⟨hp, hps⟩ := List.forall_mem_cons.mp h
    rw [List.flatten_cons, List.length_append, hp, ih hps, List.length_cons, Nat.succ_mul,
      Nat.add_comm]

variable {S ps : List (List UInt8)}

theorem Holds.length_contents (h : Holds BUFSIZ S ps B) :
    (contents ps B).length = ps.length * BUFSIZ + B.chars.length := by
  have hfull : ∀ p ∈ ps.reverse, p.length = BUFSIZ := fun p hp => h.full p (List.mem_reverse.mp hp)
  rw [contents, List.length_append, length_flatten_full hfull, List.length_reverse]

theorem Holds.pieces_eq (h : Holds BUFSIZ S ps B) (hB : 0 < BUFSIZ) :
    pieces BUFSIZ (contents ps B).length = ps.length + if B.chars = [] then 0 else 1 := by
  have hle := h.chars_le
  rw [pieces, h.length_contents]
  split_ifs with hc
  · have hps : ps = [] := by
      by_contra hne
      exact h.chars_ne hne hc
    rw [hps, hc]
    simp only [List.length_nil, Nat.zero_mul, Nat.zero_add]
    exact Nat.div_eq_of_lt (by omega)
  · have hpos := List.length_pos_iff.mpr hc
    have hsum : ps.length * BUFSIZ + B.chars.length + BUFSIZ - 1 =
        B.chars.length - 1 + (ps.length + 1) * BUFSIZ := by
      rw [Nat.succ_mul]
      omega
    rw [hsum, Nat.add_mul_div_right _ _ hB, Nat.div_eq_of_lt (by omega), Nat.zero_add]

/-- Strings of equal length are not concatenated, unless there are many. -/
theorem adjuststack_full (hstack : B.stack = ps ++ S) (hlvl : B.lvl = ps.length)
    (hfull : ∀ p ∈ ps, p.length = BUFSIZ) (hlimit : ps.length < LIMIT) :
    adjuststack room B = some B := by
  rw [adjuststack]
  split_ifs with h1
  swap
  · rfl
  obtain ⟨p, p', ps, rfl⟩ : ∃ p p' ps', ps = p :: p' :: ps' := by
    rcases ps with _ | ⟨p, _ | ⟨p', ps'⟩⟩
    · rw [hlvl] at h1; cases h1
    · rw [hlvl] at h1; exact absurd h1 (Nat.lt_irrefl 1)
    · exact ⟨p, p', ps', rfl⟩
  have hp : p.length = BUFSIZ := hfull p List.mem_cons_self
  have hp' : p'.length = BUFSIZ := hfull p' (List.mem_cons_of_mem _ List.mem_cons_self)
  have htoget : togetLoop B.stack B.lvl B.lvl 1 (B.stack.getD 0 []).length = 1 := by
    have hget : B.stack.getD 0 [] = p ∧ B.stack.getD 1 [] = p' := by rw [hstack]; exact ⟨rfl, rfl⟩
    obtain ⟨n, hn⟩ : ∃ n, B.lvl = n + 1 := ⟨B.lvl - 1, by omega⟩
    have hcond : ¬ (n + 1 - 1 + 1 ≥ LIMIT ∨ BUFSIZ > BUFSIZ) := by
      rw [← hlvl, hn] at hlimit
      omega
    rw [hn] at h1 ⊢
    rw [togetLoop, if_pos h1, hget.1, hget.2, hp, hp']
    exact if_neg hcond
  rw [htoget]
  show some { B with lvl := B.lvl - 1 + 1 } = some B
  rw [Nat.sub_add_cancel (by omega)]

variable (room) in
/-- A character, while the array is not full. -/
theorem Holds.addchar_fits (h : Holds BUFSIZ S ps B) (hlt : B.chars.length < BUFSIZ) (c : UInt8) :
    ∃ B', luaL_addchar room BUFSIZ B c = some B' ∧ Holds BUFSIZ S ps B' ∧
      contents ps B' = contents ps B ++ [c] := by
  refine ⟨_, luaL_addchar_fits hlt c, ⟨h.stack, h.lvl, h.full, ?_, ?_⟩, ?_⟩
  · rw [List.length_append, List.length_singleton]
    exact hlt
  · exact fun _ => List.concat_ne_nil _ _
  · rw [contents, contents, List.append_assoc]

variable (room) in
/-- A character after the array is full. -/
theorem Holds.addchar_full (h : Holds BUFSIZ S ps B) (hB : 0 < BUFSIZ)
    (hfull : B.chars.length = BUFSIZ) (hlimit : ps.length + 1 < LIMIT) (c : UInt8) :
    if S.length + ps.length < room then
      ∃ B', luaL_addchar room BUFSIZ B c = some B' ∧ Holds BUFSIZ S (B.chars :: ps) B' ∧
        contents (B.chars :: ps) B' = contents ps B ++ [c]
    else luaL_addchar room BUFSIZ B c = none := by
  have hne : B.chars ≠ [] := by
    rintro hnil
    rw [hnil] at hfull
    exact absurd hfull (Nat.ne_of_lt hB)
  have hlen : B.stack.length = S.length + ps.length := by
    rw [h.stack, List.length_append, Nat.add_comm]
  have hadd : luaL_addchar room BUFSIZ B c = ((push room B.stack B.chars).bind fun L =>
      adjuststack room ⟨L, B.lvl + 1, []⟩).bind fun B => some { B with chars := B.chars ++ [c] } := by
    rw [luaL_addchar, if_neg (by omega), luaL_prepbuffer, emptybuffer, if_neg hne]
    cases push room B.stack B.chars <;> rfl
  rw [hadd, push, hlen]
  by_cases hroom : S.length + ps.length < room
  swap
  · rw [if_neg hroom, if_neg hroom]
    rfl
  have hps : ∀ p ∈ B.chars :: ps, p.length = BUFSIZ := List.forall_mem_cons.mpr ⟨hfull, h.full⟩
  have hstack : B.chars :: B.stack = (B.chars :: ps) ++ S := by rw [h.stack]; rfl
  have hlvl : B.lvl + 1 = (B.chars :: ps).length := by rw [h.lvl]; rfl
  rw [if_pos hroom, if_pos hroom, Option.bind_some, adjuststack_full hstack hlvl hps hlimit,
    Option.bind_some]
  refine ⟨_, rfl, ⟨hstack, hlvl, hps, hB, fun _ => List.cons_ne_nil _ _⟩, ?_⟩
  rw [contents, contents, List.reverse_cons, List.flatten_append, List.flatten_singleton]
  rfl

variable (room) in
/-- The topmost strings are concatenated, if there is one. -/
theorem lua_concat_pieces (hps : ps ≠ []) :
    lua_concat room (ps ++ S) ps.length = some (ps.reverse.flatten :: S) := by
  rw [lua_concat]
  by_cases h2 : ps.length ≥ 2
  · rw [if_pos h2, List.take_left, List.drop_left]
  · obtain ⟨p, rfl⟩ : ∃ p, ps = [p] := by
      rcases ps with _ | ⟨p, _ | ⟨p', ps'⟩⟩
      · exact absurd rfl hps
      · exact ⟨p, rfl⟩
      · exact absurd (Nat.le_add_left 2 _) h2
    simp

theorem Holds.pushresult (h : Holds BUFSIZ S ps B) : luaL_pushresult room B =
    if S.length + max 1 (ps.length + if B.chars = [] then 0 else 1) ≤ room then
      some ⟨contents ps B :: S, 1, []⟩
    else none := by
  have hstack := h.stack
  have hlvl := h.lvl
  by_cases hc : B.chars = []
  · obtain rfl : ps = [] := by
      by_contra hne
      exact h.chars_ne hne hc
    have hres : luaL_pushresult room B =
        (lua_concat room B.stack B.lvl).bind fun L => some ⟨L, 1, B.chars⟩ := by
      rw [luaL_pushresult, emptybuffer, if_pos hc]
      rfl
    have hmax : max 1 (([] : List (List UInt8)).length + 0) = 1 := rfl
    rw [hres, hlvl, hstack, contents, hc, if_pos rfl, hmax]
    show (push room S []).bind _ = _
    rw [push]
    by_cases hroom : S.length < room
    · rw [if_pos hroom, if_pos (Nat.succ_le_of_lt hroom)]
      rfl
    · rw [if_neg hroom, if_neg (mt Nat.lt_of_succ_le hroom)]
      rfl
  · have hres : luaL_pushresult room B = (push room B.stack B.chars).bind fun L =>
        (lua_concat room L (B.lvl + 1)).bind fun L => some ⟨L, 1, []⟩ := by
      rw [luaL_pushresult, emptybuffer, if_neg hc]
      cases push room B.stack B.chars <;> rfl
    have hmax : max 1 (ps.length + 1) = ps.length + 1 := Nat.max_eq_right (Nat.le_add_left 1 _)
    have hconcat := lua_concat_pieces room (S := S) (List.cons_ne_nil B.chars ps)
    rw [hres, hlvl, hstack, if_neg hc, hmax, push, List.length_append, Nat.add_comm ps.length]
    by_cases hroom : S.length + ps.length < room
    · rw [if_pos hroom, if_pos (by omega), Option.bind_some]
      rw [List.cons_append] at hconcat
      rw [show ps.length + 1 = (B.chars :: ps).length from rfl, hconcat, contents,
        List.reverse_cons, List.flatten_append, List.flatten_singleton]
      rfl
    · rw [if_neg hroom, if_neg (by omega)]
      rfl

variable (room) in
/-- What is added from here on, and the result. -/
theorem Holds.result (h : Holds BUFSIZ S ps B) (hB : 0 < BUFSIZ) (s : List UInt8)
    (hlimit : pieces BUFSIZ ((contents ps B).length + s.length) ≤ LIMIT) :
    ((luaL_addlstring room BUFSIZ B s).bind (luaL_pushresult room)) =
      if S.length + max 1 (pieces BUFSIZ ((contents ps B).length + s.length)) ≤ room then
        some ⟨(contents ps B ++ s) :: S, 1, []⟩
      else none := by
  induction s generalizing B ps with
  | nil =>
    rw [luaL_addlstring_nil, Option.bind_some, List.length_nil, Nat.add_zero, List.append_nil,
      h.pieces_eq hB]
    exact h.pushresult
  | cons c s ih =>
    have hlen : (contents ps B).length + (c :: s).length =
        (contents ps B ++ [c]).length + s.length := by
      simp only [List.length_cons, List.length_append, List.length_nil]
      omega
    rw [luaL_addlstring_cons, Option.bind_assoc]
    by_cases hlt : B.chars.length < BUFSIZ
    · obtain ⟨B', hadd, hB', hcontents⟩ := h.addchar_fits room hlt c
      rw [hlen, ← hcontents] at hlimit ⊢
      rw [hadd, Option.bind_some, ih hB' hlimit, hcontents, List.append_assoc]
      rfl
    · have hfull : B.chars.length = BUFSIZ := Nat.le_antisymm h.chars_le (Nat.le_of_not_lt hlt)
      have hcontents : (contents ps B).length = (ps.length + 1) * BUFSIZ := by
        rw [h.length_contents, hfull, Nat.succ_mul]
      -- the full array, and at least one more piece
      have hpieces : ps.length + 2 ≤
          pieces BUFSIZ ((contents ps B).length + (c :: s).length) := by
        rw [pieces, hcontents, List.length_cons, Nat.le_div_iff_mul_le hB, Nat.add_mul, Nat.add_mul]
        omega
      have hstep := h.addchar_full room hB hfull (by omega) c
      by_cases hroom : S.length + ps.length < room
      · rw [if_pos hroom] at hstep
        obtain ⟨B', hadd, hB', hc'⟩ := hstep
        rw [hlen, ← hc'] at hlimit ⊢
        rw [hadd, Option.bind_some, ih hB' hlimit, hc', List.append_assoc]
        rfl
      · rw [if_neg hroom] at hstep
        rw [hstep, if_neg (by omega)]
        rfl

end Lemmas

end Luaxx.Auxlib
