import Luaxx.Pattern.Traces

/-!
# The pattern matcher with pointers into the pattern

The functions of `lstrlib.c` once more, with a pointer into the pattern as an offset. A character is
there to be read up to the terminating NUL; to read beyond it is a fault. No call faults, and what
the functions return is what they return for what is left of the pattern.
-/

namespace Luaxx.Pattern

open Luaxx.Ctype Luaxx.Result

namespace Offsets

inductive Fault where
  | error (msg : String)
  | overread (p : Nat)
  deriving DecidableEq, Repr

abbrev M := Except Fault

abbrev Result := M (Option Nat × MatchState)

def luaL_error {α : Type} (msg : String) : M α := .error (.error msg)

/-- What does not read the pattern. -/
def lift {α : Type} : Except String α → M α
  | .ok a => .ok a
  | .error msg => luaL_error msg

section

variable (pat : List UInt8)

/-- `*p`. -/
def read (p : Nat) : M UInt8 :=
  if p ≤ pat.length then .ok (pat.getD p 0) else .error (.overread p)

/-! ## Single characters -/

/-- Skip escapes (e.g. `%]`), from behind `x`. -/
def skipEscape (x : UInt8) (p : Nat) : M Nat :=
  if x = ch L_ESC then do
    let y ← read pat p
    pure (if y ≠ 0 then p + 1 else p)
  else pure p

/-- The loop in `classend`. -/
def setEnd : Nat → Nat → M Nat
  | 0, _ => luaL_error OUT_OF_FUEL
  | fuel + 1, p => do
    let x ← read pat p
    if x = 0 then luaL_error "malformed pattern (missing ']')"
    else do
      let p ← skipEscape pat x (p + 1)
      let y ← read pat p
      if y = ch ']' then pure (p + 1) else setEnd fuel p

def classend (p : Nat) : M Nat := do
  let x ← read pat p
  let p := p + 1
  if x = ch L_ESC then do
    let y ← read pat p
    if y = 0 then luaL_error "malformed pattern (ends with '%')" else pure (p + 1)
  else if x = ch '[' then do
    let y ← read pat p
    setEnd pat (pat.length + 1) (if y = ch '^' then p + 1 else p)
  else pure p

/-- The loop of `matchbracketclass`, from before `++p` on. -/
def bracketLoop (c : UInt8) (sig : Bool) (ec : Nat) : Nat → Nat → M Bool
  | 0, _ => luaL_error OUT_OF_FUEL
  | fuel + 1, p => do
    let p := p + 1
    if p < ec then do
      let x ← read pat p
      if x = ch L_ESC then do
        let p := p + 1
        let y ← read pat p
        if match_class c y then pure sig else bracketLoop c sig ec fuel p
      else do
        let y ← read pat (p + 1)
        if y = ch '-' ∧ p + 2 < ec then do
          let p := p + 2
          let lo ← read pat (p - 2)
          let hi ← read pat p
          if lo ≤ c ∧ c ≤ hi then pure sig else bracketLoop c sig ec fuel p
        else if x = c then pure sig else bracketLoop c sig ec fuel p
    else pure !sig

def matchbracketclass (c : UInt8) (p ec : Nat) : M Bool := do
  let y ← read pat (p + 1)
  if y = ch '^' then bracketLoop pat c false ec (ec + 1) (p + 1)
  else bracketLoop pat c true ec (ec + 1) p

def singlematch (c : UInt8) (p ep : Nat) : M Bool := do
  let x ← read pat p
  if x = ch '.' then pure true
  else if x = ch L_ESC then do
    let y ← read pat (p + 1)
    pure (match_class c y)
  else if x = ch '[' then matchbracketclass pat c p (ep - 1)
  else pure (x == c)

/-! ## Matching -/

section Match

variable (src : List UInt8)

def matchbalance (s p : Nat) : M (Option Nat) := do
  let b ← read pat p
  if b = 0 then luaL_error "unbalanced pattern"
  else do
    let e ← read pat (p + 1)
    if e = 0 then luaL_error "unbalanced pattern"
    else if srcAt src s ≠ b then pure none
    else pure (balanceLoop b e (src.drop (s + 1)) (s + 1) 1)

section Callbacks

variable (rec : MatchState → Nat → Nat → Result)

def expandCount (p ep : Nat) : List UInt8 → M Nat
  | [] => pure 0
  | c :: rest => do
    if ← singlematch pat c p ep then do
      let n ← expandCount p ep rest
      pure (n + 1)
    else pure 0

def maxTry (ms : MatchState) (s p : Nat) : Nat → Result
  | 0 => rec ms s p
  | i + 1 => do
    let (res, ms) ← rec ms (s + (i + 1)) p
    if res.isSome then pure (res, ms) else maxTry ms s p i

def max_expand (ms : MatchState) (s p ep : Nat) : Result := do
  let i ← expandCount pat p ep (src.drop s)
  maxTry rec ms s (ep + 1) i

def minTry (p ep : Nat) : MatchState → List UInt8 → Nat → Result
  | ms, [], s => rec ms s (ep + 1)
  | ms, c :: rest, s => do
    let (res, ms) ← rec ms s (ep + 1)
    if res.isSome then pure (res, ms)
    else do
      if ← singlematch pat c p ep then minTry p ep ms rest (s + 1) else pure (none, ms)

def min_expand (ms : MatchState) (s p ep : Nat) : Result :=
  minTry pat rec p ep ms (src.drop s) s

def start_capture (ms : MatchState) (s p : Nat) (what : Int) : Result :=
  if ms.level ≥ LUA_MAXCAPTURES then luaL_error "too many captures"
  else do
    let ms := ms.setCapture ms.level ⟨s, what⟩
    let (res, ms) ← rec { ms with level := ms.level + 1 } s p
    -- match failed? undo capture
    pure (res, if res.isNone then { ms with level := ms.level - 1 } else ms)

def end_capture (ms : MatchState) (s p : Nat) : Result := do
  let l ← lift (capture_to_close ms)
  let ms := ms.setCapture l ⟨(ms.capture l).init, (s : Int) - (ms.capture l).init⟩
  let (res, ms) ← rec ms s p
  -- match failed? undo capture
  pure (res, if res.isNone then ms.setCapture l ⟨(ms.capture l).init, CAP_UNFINISHED⟩ else ms)

/-- `s<ms->src_end && singlematch(uchar(*s), p, ep)`. -/
def matchesAt (s p ep : Nat) : M Bool :=
  if s < src.length then singlematch pat (srcAt src s) p ep else pure false

/-- The label `dflt` of `match`. -/
def matchItem (ms : MatchState) (s p : Nat) : Result := do
  let ep ← classend pat p
  let m ← matchesAt pat src s p ep
  let x ← read pat ep
  if x = ch '?' then
    if m then do
      let (res, ms) ← rec ms (s + 1) (ep + 1)
      if res.isSome then pure (res, ms) else rec ms s (ep + 1)
    else rec ms s (ep + 1)
  else if x = ch '*' then max_expand pat src rec ms s p ep
  else if x = ch '+' then
    if m then max_expand pat src rec ms (s + 1) p ep else pure (none, ms)
  else if x = ch '-' then min_expand pat src rec ms s p ep
  else if m then rec ms (s + 1) ep else pure (none, ms)

def matchFrontier (ms : MatchState) (s p : Nat) : Result := do
  let x ← read pat p
  if x ≠ ch '[' then luaL_error "missing '[' after '%f' in pattern"
  else do
    let ep ← classend pat p
    let previous := if s = 0 then 0 else srcAt src (s - 1)
    if ← matchbracketclass pat previous p (ep - 1) then pure (none, ms)
    else if ← matchbracketclass pat (srcAt src s) p (ep - 1) then rec ms s ep
    else pure (none, ms)

/-- The body of `match`. -/
def matchBody (ms : MatchState) (s p : Nat) : Result := do
  let x ← read pat p
  if x = ch '(' then do
    let y ← read pat (p + 1)
    if y = ch ')' then start_capture rec ms s (p + 2) CAP_POSITION
    else start_capture rec ms s (p + 1) CAP_UNFINISHED
  else if x = ch ')' then end_capture rec ms s (p + 1)
  else if x = ch L_ESC then do
    let y ← read pat (p + 1)
    if y = ch 'b' then do
      match ← matchbalance pat src s (p + 2) with
      | none => pure (none, ms)
      | some s => rec ms s (p + 4)
    else if y = ch 'f' then matchFrontier pat src rec ms s (p + 2)
    else if isdigit y then do
      match ← lift (match_capture src ms s y) with
      | none => pure (none, ms)
      | some s => rec ms s (p + 2)
    else matchItem pat src rec ms s p
  else if x = 0 then pure (some s, ms)
  else if x = ch '$' then do
    let y ← read pat (p + 1)
    if y = 0 then pure (if s = src.length then some s else none, ms)
    else matchItem pat src rec ms s p
  else matchItem pat src rec ms s p

end Callbacks

/-- `match` with at most `fuel` nested calls. -/
def matchFuel : Nat → MatchState → Nat → Nat → Result
  | 0 => fun _ _ _ => luaL_error OUT_OF_FUEL
  | fuel + 1 => matchBody pat src (matchFuel fuel)

def do_match (ms : MatchState) (s p : Nat) : Result := matchFuel pat src (pat.length + 1) ms s p

/-- `match` where every call that is not inside the subject and the pattern is refused. -/
def insideFuel : Nat → MatchState → Nat → Nat → Result
  | 0, _, _, _ => luaL_error OUT_OF_FUEL
  | fuel + 1, ms, s, p =>
    if Inside ms s ∧ s ≤ src.length ∧ p ≤ pat.length then matchBody pat src (insideFuel fuel) ms s p
    else luaL_error OUT_OF_FUEL

end Match

end

/-! ## What is left of the pattern -/

/-- Both have results, which `R` relates, or both raise one error. -/
def Same {α β : Type} (R : α → β → Prop) : M α → Except String β → Prop
  | .ok a, .ok b => R a b
  | .error fault, .error msg => fault = .error msg
  | _, _ => False

theorem Same.bind {α β α' β' : Type} {R : α → β → Prop} {S : α' → β' → Prop} {x : M α}
    {y : Except String β} {f : α → M α'} {g : β → Except String β'} (h : Same R x y)
    (hf : ∀ a b, R a b → Same S (f a) (g b)) : Same S (x >>= f) (y >>= g) := by
  match x, y with
  | .ok a, .ok b => exact hf a b h
  | .error _, .error _ => exact h
  | .ok _, .error _ => exact h.elim
  | .error _, .ok _ => exact h.elim

theorem same_lift {α : Type} (x : Except String α) : Same Eq (lift x) x := by
  cases x with
  | error msg => rfl
  | ok a => rfl

section

variable {pat : List UInt8} {p : Nat}

/-- The offset of what is left after some more of the pattern. -/
def At (pat : List UInt8) (p ep : Nat) (q : List UInt8) : Prop :=
  q = pat.drop ep ∧ p < ep ∧ ep ≤ pat.length

theorem read_eq (hp : p ≤ pat.length) : read pat p = .ok (deref (pat.drop p)) := by
  have hderef : deref (pat.drop p) = pat.getD p 0 := by
    rw [deref, List.headD_eq_head?_getD, List.head?_drop, List.getD_eq_getElem?_getD]
  rw [read, if_pos hp, hderef]

theorem deref_eq_zero_iff (h0 : 0 ∉ pat) (hp : p ≤ pat.length) :
    deref (pat.drop p) = 0 ↔ p = pat.length := by
  constructor
  · intro h
    by_contra hne
    have hlt : p < pat.length := by omega
    rw [List.drop_eq_getElem_cons hlt, deref_cons] at h
    exact h0 (h ▸ List.getElem_mem hlt)
  · rintro rfl
    rw [List.drop_length]
    rfl

theorem lt_of_deref (h0 : 0 ∉ pat) (hp : p ≤ pat.length) (h : deref (pat.drop p) ≠ 0) :
    p < pat.length := by
  have := (deref_eq_zero_iff h0 hp).not.mp h
  omega

theorem tail_drop (pat : List UInt8) (p : Nat) : (pat.drop p).tail = pat.drop (p + 1) := by
  rw [List.tail_drop]

theorem At.mono {q : Nat} {ep : Nat} {rest : List UInt8} (h : At pat q ep rest) (hp : p ≤ q) :
    At pat p ep rest := ⟨h.1, hp.trans_lt h.2.1, h.2.2⟩

theorem Same.imp {α β : Type} {R S : α → β → Prop} {x : M α} {y : Except String β}
    (h : Same R x y) (hRS : ∀ a b, R a b → S a b) : Same S x y := by
  match x, y with
  | .ok a, .ok b => exact hRS a b h
  | .error _, .error _ => exact h
  | .ok _, .error _ => exact h.elim
  | .error _, .ok _ => exact h.elim

theorem skipEscape_eq {x : UInt8} (hp : p ≤ pat.length) : skipEscape pat x p =
    .ok (if x = ch L_ESC then (if deref (pat.drop p) ≠ 0 then p + 1 else p) else p) := by
  rw [skipEscape, read_eq hp]
  by_cases hx : x = ch L_ESC
  · rw [if_pos hx, if_pos hx]
    rfl
  · rw [if_neg hx, if_neg hx]
    rfl

theorem setEnd_same (h0 : 0 ∉ pat) {fuel : Nat} (hp : p ≤ pat.length)
    (hfuel : pat.length < p + fuel) :
    Same (At pat p) (setEnd pat fuel p) (Pattern.setEnd (pat.drop p)) := by
  induction fuel generalizing p with
  | zero => omega
  | succ fuel ih =>
    rw [setEnd, read_eq hp, ok_bind]
    rcases Nat.lt_or_ge p pat.length with hlt | hge
    · have hx : pat[p] ≠ 0 := fun h => h0 (h ▸ List.getElem_mem hlt)
      have hdrop := List.drop_eq_getElem_cons hlt
      rw [hdrop, deref_cons, if_neg hx]
      rcases Nat.lt_or_ge (p + 1) pat.length with hlt1 | hge1
      · have hy : pat[p + 1] ≠ 0 := fun h => h0 (h ▸ List.getElem_mem hlt1)
        have hdrop1 := List.drop_eq_getElem_cons hlt1
        have hread : deref (pat.drop (p + 1)) ≠ 0 := by rwa [hdrop1]
        rw [skipEscape_eq hlt1.le, if_pos hread, ok_bind, hdrop1, Pattern.setEnd, if_neg hx]
        by_cases hesc : pat[p] = ch L_ESC
        · -- an escape
          rw [if_pos hesc, if_pos ⟨hesc, hy⟩, read_eq hlt1, ok_bind]
          split_ifs with hend
          · have := lt_of_deref h0 hlt1 (by rw [hend]; decide)
            exact ⟨tail_drop pat (p + 2), by omega, this⟩
          · exact (ih hlt1 (by omega)).imp fun a b h => h.mono (by omega)
        · rw [if_neg hesc, if_neg fun h => hesc h.1, read_eq hlt1.le, hdrop1, deref_cons, ok_bind]
          split_ifs with hend
          · exact ⟨rfl, by omega, hlt1⟩
          · rw [← hdrop1]
            exact (ih hlt1.le (by omega)).imp fun a b h => h.mono (by omega)
      · -- the last character
        have hnil : pat.drop (p + 1) = [] := List.drop_eq_nil_of_le hge1
        have hle : p + 1 ≤ pat.length := hlt
        have hnext := ih hle (by omega)
        rw [hnil, Pattern.setEnd] at hnext
        have hend : (if pat[p] = ch L_ESC then
            (if deref (pat.drop (p + 1)) ≠ 0 then p + 1 + 1 else p + 1) else p + 1) = p + 1 := by
          rw [hnil, deref_nil]
          simp
        rw [skipEscape_eq hle, hend, ok_bind, read_eq hle, hnil, deref_nil, ok_bind,
          if_neg (by decide), Pattern.setEnd, if_neg hx]
        exact hnext.imp fun a b h => h.mono (by omega)
    · rw [List.drop_eq_nil_of_le hge, deref_nil, if_pos rfl]
      rfl

theorem classend_same (h0 : 0 ∉ pat) (hp : p < pat.length) :
    Same (At pat p) (classend pat p) (Pattern.classend (pat.drop p)) := by
  rw [classend, read_eq hp.le, ok_bind, Pattern.classend, tail_drop]
  dsimp only
  have hx := (deref_eq_zero_iff h0 hp.le).not.mpr hp.ne
  by_cases hesc : deref (pat.drop p) = ch L_ESC
  · rw [if_pos hesc, if_pos hesc, read_eq hp, ok_bind]
    split_ifs with hend
    · rfl
    · exact ⟨tail_drop pat (p + 1), by omega, lt_of_deref h0 hp hend⟩
  rw [if_neg hesc, if_neg hesc]
  by_cases hset : deref (pat.drop p) = ch '['
  · rw [if_pos hset, if_pos hset, read_eq hp, ok_bind, tail_drop]
    by_cases hnot : deref (pat.drop (p + 1)) = ch '^'
    · rw [if_pos hnot, if_pos hnot]
      have hlt := lt_of_deref h0 hp (by rw [hnot]; decide)
      exact (setEnd_same h0 hlt (by omega)).imp fun a b h => h.mono (by omega)
    · rw [if_neg hnot, if_neg hnot]
      exact (setEnd_same h0 hp (by omega)).imp fun a b h => h.mono (by omega)
  · rw [if_neg hset, if_neg hset]
    exact ⟨rfl, Nat.lt_succ_self p, hp⟩

theorem bracketLoop_eq {c : UInt8} {sig : Bool} {ec fuel : Nat} (hec : ec < pat.length)
    (hp : p < pat.length) (hpos : 0 < fuel) (hfuel : ec ≤ p + fuel) :
    bracketLoop pat c sig ec fuel p =
      .ok (Pattern.bracketLoop c sig (pat.drop ec) (pat.drop (p + 1))) := by
  induction fuel generalizing p with
  | zero => exact absurd hpos (Nat.lt_irrefl 0)
  | succ fuel ih =>
    rw [bracketLoop]
    dsimp only
    by_cases hlt : p + 1 < ec
    · have hp1 : p + 1 < pat.length := by omega
      have hp2 : p + 2 < pat.length := by omega
      have hdrop1 := List.drop_eq_getElem_cons hp1
      have hdrop2 := List.drop_eq_getElem_cons hp2
      have hcond : (pat.drop ec).length < (pat.drop (p + 2)).length + 1 := by
        rw [List.length_drop, List.length_drop]
        omega
      rw [if_pos hlt, read_eq hp1.le, hdrop1, deref_cons, ok_bind,
        Pattern.bracketLoop.eq_def]
      dsimp only
      rw [if_pos hcond]
      by_cases hesc : pat[p + 1] = ch L_ESC
      · rw [if_pos hesc, if_pos hesc]
        show (read pat (p + 2) >>= _) = _
        rw [read_eq hp2.le, hdrop2, deref_cons, ok_bind]
        dsimp only
        split_ifs
        · rfl
        · exact ih hp2 (by omega) (by omega)
      · rw [if_neg hesc, if_neg hesc]
        show (read pat (p + 2) >>= _) = _
        rw [read_eq hp2.le, ok_bind]
        have hnext : bracketLoop pat c sig ec fuel (p + 1) =
            .ok (Pattern.bracketLoop c sig (pat.drop ec) (pat.drop (p + 2))) := ih hp1 (by omega) (by omega)
        rcases Nat.lt_or_ge (p + 3) pat.length with hp3 | hge
        · have hdrop3 := List.drop_eq_getElem_cons hp3
          have hrange : (pat.drop ec).length < (pat.drop (p + 4)).length + 1 ↔ p + 1 + 2 < ec := by
            rw [List.length_drop, List.length_drop]
            omega
          rw [hdrop2, hdrop3] at hnext
          rw [hdrop2, hdrop3, deref_cons]
          dsimp only
          by_cases hdash : pat[p + 2] = ch '-' ∧ p + 1 + 2 < ec
          · rw [if_pos hdash, if_pos ⟨hdash.1, hrange.mpr hdash.2⟩]
            show (read pat (p + 1) >>= fun lo => read pat (p + 3) >>= _) = _
            rw [read_eq hp1.le, hdrop1, deref_cons, ok_bind, read_eq hp3.le, hdrop3, deref_cons,
              ok_bind]
            split_ifs
            · rfl
            · exact ih hp3 (by omega) (by omega)
          · have hdash' : ¬ (pat[p + 2] = ch '-' ∧
                (pat.drop ec).length < (pat.drop (p + 4)).length + 1) :=
              fun h => hdash ⟨h.1, hrange.mp h.2⟩
            rw [if_neg hdash, if_neg hdash']
            split_ifs
            · rfl
            · exact hnext
        · have hnil : pat.drop (p + 3) = [] := List.drop_eq_nil_of_le hge
          rw [hdrop2, hnil] at hnext
          rw [hdrop2, hnil, deref_cons, if_neg (by omega)]
          dsimp only
          split_ifs
          · rfl
          · exact hnext
    · rw [if_neg hlt]
      cases hrest : pat.drop (p + 1) with
      | nil => rfl
      | cons x rest =>
        have hlen := congrArg List.length hrest
        rw [List.length_drop, List.length_cons] at hlen
        rw [Pattern.bracketLoop.eq_def]
        dsimp only
        rw [if_neg]
        · rfl
        · rw [List.length_drop]
          omega

theorem matchbracketclass_eq {c : UInt8} {ec : Nat} (h0 : 0 ∉ pat) (hp : p < pat.length)
    (hec : ec < pat.length) : matchbracketclass pat c p ec =
      .ok (Pattern.matchbracketclass c (pat.drop p) (pat.drop ec)) := by
  rw [matchbracketclass, read_eq hp, ok_bind, Pattern.matchbracketclass, tail_drop]
  by_cases hnot : deref (pat.drop (p + 1)) = ch '^'
  · rw [if_pos hnot, if_pos hnot, tail_drop]
    exact bracketLoop_eq hec (lt_of_deref h0 hp (by rw [hnot]; decide)) (by omega) (by omega)
  · rw [if_neg hnot, if_neg hnot]
    exact bracketLoop_eq hec hp (by omega) (by omega)

theorem before_drop {ep : Nat} (hlt : p < ep) (hep : ep ≤ pat.length) :
    before (pat.drop p) (pat.drop ep) = pat.drop (ep - 1) := by
  rw [before, List.drop_drop, List.length_drop, List.length_drop]
  congr 1
  omega

theorem singlematch_eq {c : UInt8} {ep : Nat} (h0 : 0 ∉ pat) (hlt : p < ep) (hep : ep ≤ pat.length) :
    singlematch pat c p ep = .ok (Pattern.singlematch c (pat.drop p) (pat.drop ep)) := by
  have hp : p < pat.length := hlt.trans_le hep
  rw [singlematch, read_eq hp.le, ok_bind, Pattern.singlematch, tail_drop]
  split_ifs
  · rfl
  · rw [read_eq hp]
    rfl
  · rw [before_drop hlt hep]
    exact matchbracketclass_eq h0 hp (by omega)
  · rfl

/-! ## Calls that call back -/

section Callbacks

variable {src : List UInt8} {ms : MatchState} {s ep : Nat} {rec : MatchState → Nat → Nat → Result}
  {rec' : MatchState → Nat → List UInt8 → Pattern.Result}

/-- The calls from `p` on are those for what is left of the pattern. -/
def SameOn (pat : List UInt8) (rec : MatchState → Nat → Nat → Result)
    (rec' : MatchState → Nat → List UInt8 → Pattern.Result) : Prop :=
  ∀ ms s p, p ≤ pat.length → Same Eq (rec ms s p) (rec' ms s (pat.drop p))

theorem expandCount_eq (h0 : 0 ∉ pat) (hlt : p < ep) (hep : ep ≤ pat.length) (rest : List UInt8) :
    expandCount pat p ep rest = .ok (Pattern.expandCount (pat.drop p) (pat.drop ep) rest) := by
  induction rest with
  | nil => rfl
  | cons c rest ih =>
    rw [expandCount, singlematch_eq h0 hlt hep, ok_bind, Pattern.expandCount]
    split_ifs
    · rw [ih]
      rfl
    · rfl

theorem maxTry_same (hrec : SameOn pat rec rec') (hp : p ≤ pat.length) (n : Nat) :
    Same Eq (maxTry rec ms s p n) (Pattern.maxTry rec' ms s (pat.drop p) n) := by
  induction n generalizing ms with
  | zero => exact hrec ms s p hp
  | succ n ih =>
    refine (hrec ms (s + (n + 1)) p hp).bind ?_
    rintro ⟨res, ms⟩ _ rfl
    dsimp only
    split_ifs
    · rfl
    · exact ih

theorem max_expand_same (h0 : 0 ∉ pat) (hrec : SameOn pat rec rec') (hlt : p < ep)
    (hep : ep < pat.length) : Same Eq (max_expand pat src rec ms s p ep)
      (Pattern.max_expand src rec' ms s (pat.drop p) (pat.drop ep)) := by
  rw [max_expand, expandCount_eq h0 hlt hep.le, ok_bind, Pattern.max_expand, tail_drop]
  exact maxTry_same hrec hep _

theorem minTry_same (h0 : 0 ∉ pat) (hrec : SameOn pat rec rec') (hlt : p < ep)
    (hep : ep < pat.length) (rest : List UInt8) :
    Same Eq (minTry pat rec p ep ms rest s)
      (Pattern.minTry rec' (pat.drop p) (pat.drop ep) ms rest s) := by
  induction rest generalizing ms s with
  | nil =>
    rw [minTry, Pattern.minTry, tail_drop]
    exact hrec ms s (ep + 1) hep
  | cons c rest ih =>
    rw [minTry, Pattern.minTry, tail_drop]
    refine (hrec ms s (ep + 1) hep).bind ?_
    rintro ⟨res, ms⟩ _ rfl
    dsimp only
    split_ifs
    · rfl
    · rw [singlematch_eq h0 hlt hep.le, ok_bind]
      split_ifs
      exact ih
    · rw [singlematch_eq h0 hlt hep.le, ok_bind]
      split_ifs
      rfl

theorem start_capture_same (hrec : SameOn pat rec rec') (hp : p ≤ pat.length) {what : Int} :
    Same Eq (start_capture rec ms s p what) (Pattern.start_capture rec' ms s (pat.drop p) what) := by
  rw [start_capture, Pattern.start_capture]
  split_ifs
  · rfl
  · refine (hrec _ s p hp).bind ?_
    rintro ⟨res, ms⟩ _ rfl
    rfl

theorem end_capture_same (hrec : SameOn pat rec rec') (hp : p ≤ pat.length) :
    Same Eq (end_capture rec ms s p) (Pattern.end_capture rec' ms s (pat.drop p)) := by
  refine (same_lift (capture_to_close ms)).bind ?_
  rintro l _ rfl
  refine (hrec _ s p hp).bind ?_
  rintro ⟨res, ms⟩ _ rfl
  rfl

theorem matchesAt_eq (h0 : 0 ∉ pat) (hlt : p < ep) (hep : ep ≤ pat.length) :
    matchesAt pat src s p ep =
      .ok (decide (s < src.length) &&
        Pattern.singlematch (srcAt src s) (pat.drop p) (pat.drop ep)) := by
  rw [matchesAt]
  split_ifs with hs
  · rw [singlematch_eq h0 hlt hep, decide_eq_true hs, Bool.true_and]
  · rw [decide_eq_false hs, Bool.false_and]
    rfl

theorem matchItem_same (h0 : 0 ∉ pat) (hrec : SameOn pat rec rec') (hp : p < pat.length) :
    Same Eq (matchItem pat src rec ms s p) (Pattern.matchItem src rec' ms s (pat.drop p)) := by
  refine (classend_same h0 hp).bind ?_
  rintro ep _ ⟨rfl, hlt, hep⟩
  rw [matchesAt_eq h0 hlt hep, ok_bind, read_eq hep, ok_bind, tail_drop]
  dsimp only
  have hnext : ∀ {c : Char}, ch c ≠ 0 → deref (pat.drop ep) = ch c → ep < pat.length :=
    fun hc h => lt_of_deref h0 hep (by rw [h]; exact hc)
  split_ifs with hopt hm hstar hplus hm hminus hm
  · have hlt1 := hnext (by decide) hopt
    refine (hrec ms (s + 1) (ep + 1) hlt1).bind ?_
    rintro ⟨res, ms⟩ _ rfl
    dsimp only
    split_ifs
    · rfl
    · exact hrec ms s (ep + 1) hlt1
  · exact hrec ms s (ep + 1) (hnext (by decide) hopt)
  · exact max_expand_same h0 hrec hlt (hnext (by decide) hstar)
  · exact max_expand_same h0 hrec hlt (hnext (by decide) hplus)
  · rfl
  · exact minTry_same h0 hrec hlt (hnext (by decide) hminus) _
  · exact hrec ms (s + 1) ep hep
  · rfl

theorem matchbalance_same (h0 : 0 ∉ pat) (hp : p ≤ pat.length) :
    Same (fun r r' => r = r' ∧ p + 2 ≤ pat.length) (matchbalance pat src s p)
      (Pattern.matchbalance src s (pat.drop p)) := by
  rw [matchbalance, read_eq hp, ok_bind, Pattern.matchbalance, tail_drop]
  by_cases hb : deref (pat.drop p) = 0
  · rw [if_pos hb, if_pos (.inl hb)]
    rfl
  have hp1 := lt_of_deref h0 hp hb
  rw [if_neg hb, read_eq hp1, ok_bind]
  by_cases he : deref (pat.drop (p + 1)) = 0
  · rw [if_pos he, if_pos (.inr he)]
    rfl
  have hp2 := lt_of_deref h0 hp1 he
  rw [if_neg he, if_neg (not_or.mpr ⟨hb, he⟩)]
  split_ifs
  · exact ⟨rfl, hp2⟩
  · exact ⟨rfl, hp2⟩

theorem matchFrontier_same (h0 : 0 ∉ pat) (hrec : SameOn pat rec rec') (hp : p ≤ pat.length) :
    Same Eq (matchFrontier pat src rec ms s p)
      (Pattern.matchFrontier src rec' ms s (pat.drop p)) := by
  rw [matchFrontier, read_eq hp, ok_bind, Pattern.matchFrontier]
  by_cases hset : deref (pat.drop p) ≠ ch '['
  · rw [if_pos hset, if_pos hset]
    rfl
  rw [if_neg hset, if_neg hset]
  have hlt := lt_of_deref h0 hp (by rw [not_not.mp hset]; decide)
  refine (classend_same h0 hlt).bind ?_
  rintro ep _ ⟨rfl, hep, hle⟩
  dsimp only
  rw [before_drop hep hle, matchbracketclass_eq h0 hlt (by omega), ok_bind,
    matchbracketclass_eq h0 hlt (by omega), ok_bind]
  have hnext := hrec ms s ep hle
  generalize Pattern.matchbracketclass (if s = 0 then 0 else srcAt src (s - 1)) (pat.drop p)
    (pat.drop (ep - 1)) = previous
  generalize Pattern.matchbracketclass (srcAt src s) (pat.drop p) (pat.drop (ep - 1)) = current
  cases previous <;> cases current
  · rfl
  · exact hnext
  · rfl
  · rfl

/-- One call of `match`. -/
theorem matchBody_same (h0 : 0 ∉ pat) (hrec : SameOn pat rec rec') (hp : p ≤ pat.length) :
    Same Eq (matchBody pat src rec ms s p) (Pattern.matchBody src rec' ms s (pat.drop p)) := by
  rw [matchBody, read_eq hp, ok_bind, Pattern.matchBody]
  by_cases hend : deref (pat.drop p) = 0
  · rw [hend]
    rfl
  have hlt := lt_of_deref h0 hp hend
  have hread : ∀ {α : Type} (f : UInt8 → M α), (read pat (p + 1) >>= f) =
      f (deref (pat.drop (p + 1))) := by
    intro α f
    rw [read_eq hlt]
    rfl
  have hp2 : ∀ {c : Char}, ch c ≠ 0 → deref (pat.drop (p + 1)) = ch c → p + 2 ≤ pat.length :=
    fun hc h => lt_of_deref h0 hlt (by rw [h]; exact hc)
  simp only [hread, tail_drop, List.drop_drop]
  split_ifs with hopen hposition hclose hesc hbalance hfrontier hdigit hdollar hlast
  · exact start_capture_same hrec (hp2 (by decide) hposition)
  · exact start_capture_same hrec hlt
  · exact end_capture_same hrec hlt
  · refine (matchbalance_same h0 (hp2 (by decide) hbalance)).bind ?_
    rintro r _ ⟨rfl, hle⟩
    cases r with
    | none => rfl
    | some e => exact hrec ms e (p + 4) hle
  · exact matchFrontier_same h0 hrec (hp2 (by decide) hfrontier)
  · refine (same_lift (match_capture src ms s (deref (pat.drop (p + 1))))).bind ?_
    rintro r _ rfl
    cases r with
    | none => rfl
    | some e =>
      refine hrec ms e (p + 2) (lt_of_deref h0 hlt fun h => ?_)
      rw [h] at hdigit
      exact absurd hdigit (by decide)
  · exact matchItem_same h0 hrec hlt
  · rfl
  · rfl
  · exact matchItem_same h0 hrec hlt
  · exact matchItem_same h0 hrec hlt

end Callbacks

/-- Every call returns what it returns for what is left of the pattern. -/
theorem matchFuel_same (h0 : 0 ∉ pat) (src : List UInt8) (fuel : Nat) :
    SameOn pat (matchFuel pat src fuel) (Pattern.matchFuel src fuel) := by
  induction fuel with
  | zero => exact fun ms s p hp => rfl
  | succ fuel ih => exact fun ms s p hp => matchBody_same h0 ih hp

theorem insideFuel_same (h0 : 0 ∉ pat) (src : List UInt8) (fuel : Nat) :
    SameOn pat (insideFuel pat src fuel) (Pattern.insideFuel src fuel) := by
  induction fuel with
  | zero => exact fun ms s p hp => rfl
  | succ fuel ih =>
    intro ms s p hp
    rw [insideFuel, Pattern.insideFuel]
    by_cases h : Inside ms s ∧ s ≤ src.length
    · rw [if_pos ⟨h.1, h.2, hp⟩, if_pos h]
      exact matchBody_same h0 ih hp
    · rw [if_neg fun h' => h ⟨h'.1, h'.2.1⟩, if_neg h]
      rfl

theorem Same.unique {α : Type} {x x' : M α} {y : Except String α} (h : Same Eq x y)
    (h' : Same Eq x' y) : x' = x := by
  match x, x', y with
  | .ok _, .ok _, .ok _ => exact congrArg Except.ok (h'.trans h.symm)
  | .error _, .error _, .error _ => exact congrArg Except.error (h'.trans h.symm)
  | .ok _, _, .error _ => exact h.elim
  | .error _, _, .ok _ => exact h.elim
  | _, .ok _, .error _ => exact h'.elim
  | _, .error _, .ok _ => exact h'.elim

/-! ## No trace -/

/-- What a call leaves, if it returns; it does not read beyond the pattern. -/
def Leaves (src : List UInt8) (ms : MatchState) (s : Nat) : Result → Prop
  | .ok r => Pattern.Leaves src ms s (.ok r)
  | .error (.error msg) => msg ≠ OUT_OF_FUEL
  | .error (.overread _) => False

theorem Leaves.of_same {src : List UInt8} {ms : MatchState} {s : Nat} {r : Result}
    {r' : Pattern.Result} (h : Same Eq r r') (hleaves : Pattern.Leaves src ms s r') :
    Leaves src ms s r := by
  match r, r' with
  | .ok _, .ok _ =>
    obtain rfl := h
    exact hleaves
  | .error _, .error msg =>
    obtain rfl := h
    exact hleaves
  | .ok _, .error _ => exact h.elim
  | .error _, .ok _ => exact h.elim

theorem lt_of_classend {ep : Nat} (hp : p ≤ pat.length) (hep : ep < pat.length)
    (hclass : classend pat p = .ok ep) : p < pat.length := by
  refine lt_of_le_of_ne hp fun heq => ?_
  rw [classend, read_eq hp, heq, List.drop_length, ok_bind, deref_nil] at hclass
  have : pat.length + 1 = ep := Except.ok.inj hclass
  omega

/-- From every state inside the subject, and so from the first one, all calls that `match` makes are
made from such states. A call that fails leaves the level and the captures below it; one that
succeeds ends in the subject, with all captures; and none reads the pattern beyond its NUL. -/
theorem failed_matches_leave_no_trace (h0 : 0 ∉ pat) (src : List UInt8) {ms : MatchState} {s : Nat}
    (hs : s ≤ src.length) (hp : p ≤ pat.length) (h : Inside ms s) :
    insideFuel pat src (pat.length + 1) ms s p = do_match pat src ms s p ∧
    Leaves src ms s (do_match pat src ms s p) ∧
    (∀ ep < pat.length, classend pat p = .ok ep →
      Leaves src ms s (max_expand pat src (do_match pat src) ms s p ep) ∧
      Leaves src ms s (min_expand pat src (do_match pat src) ms s p ep)) ∧
    (∀ what, what = CAP_UNFINISHED ∨ what = CAP_POSITION →
      Leaves src ms s (start_capture (do_match pat src) ms s p what)) ∧
    Leaves src ms s (end_capture (do_match pat src) ms s p) := by
  have hsame : SameOn pat (do_match pat src) (Pattern.matchFuel src (pat.length + 1)) :=
    matchFuel_same h0 src (pat.length + 1)
  have hlen : (pat.drop p).length < pat.length + 1 := by
    rw [List.length_drop]
    omega
  -- a call from `match` has enough fuel for the whole pattern
  have hclean : CleanOn src (0 :: pat) (Pattern.matchFuel src (pat.length + 1))
      (Pattern.insideFuel src (pat.length + 1)) :=
    fun ms s q hq hs h => matchFuel_clean hq hs h
  have hmatch := hclean ms s (pat.drop p) hlen hs h
  refine ⟨?_, .of_same (hsame ms s p hp) hmatch.leaves, ?_, ?_, ?_⟩
  · refine (hsame ms s p hp).unique ?_
    rw [← hmatch.eq]
    exact insideFuel_same h0 src _ ms s p hp
  · intro ep hep hclass
    have hlt := lt_of_classend hp hep hclass
    have hitem := classend_same h0 hlt
    rw [hclass] at hitem
    cases hq : Pattern.classend (pat.drop p) with
    | error msg =>
      rw [hq] at hitem
      exact hitem.elim
    | ok q =>
      rw [hq] at hitem
      have hshort : (pat.drop ep).length < (pat.drop p).length := by
        have := hitem.2.1
        rw [List.length_drop, List.length_drop]
        omega
      have hclean' : CleanOn src (pat.drop p) (Pattern.matchFuel src (pat.length + 1))
          (Pattern.insideFuel src (pat.length + 1)) :=
        fun ms s q hq => hclean ms s q (hq.trans hlen)
      exact ⟨.of_same (max_expand_same h0 hsame hitem.2.1 hep)
          (max_expand_clean hclean' hshort hs h).leaves,
        .of_same (minTry_same h0 hsame hitem.2.1 hep _)
          (min_expand_clean hclean' hshort hs h).leaves⟩
  · intro what hwhat
    exact .of_same (start_capture_same hsame hp) (start_capture_clean hclean hlen hwhat hs h).leaves
  · exact .of_same (end_capture_same hsame hp) (end_capture_clean hclean hlen hs h).leaves

/-- `(a*)b` at the beginning of `aac`. -/
theorem failed_match_leaves_no_trace :
    Leaves [ch 'a', ch 'a', ch 'c'] ⟨0, fun _ => ⟨0, 0⟩⟩ 0
      (do_match [ch '(', ch 'a', ch '*', ch ')', ch 'b'] [ch 'a', ch 'a', ch 'c']
        ⟨0, fun _ => ⟨0, 0⟩⟩ 0 0) :=
  (failed_matches_leave_no_trace (by decide) _ (Nat.zero_le _) (Nat.zero_le _)
    (inside_start _ _)).2.1

end

end Offsets

end Luaxx.Pattern
