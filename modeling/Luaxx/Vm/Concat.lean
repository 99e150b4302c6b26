import Luaxx.Vm.Compare

/-!
# Concatenation (`lvm.c`)

The stack is the list of its values, the topmost first. Allocations succeed.
-/

namespace Luaxx.Vm

def MAX_SIZET : Nat := 2 ^ 64 - 3

section

variable {σ ε : Type} (host : Host σ ε)

/-- `tostring`: a number is converted in place. -/
def tostring : TValue → Option (List UInt8)
  | .string s => some s
  | .number n => some (host.lua_number2str n)
  | _ => none

/-- `none` if there is no tag method. -/
def call_binTM (p1 p2 : TValue) (event : TMS) : LuaM σ ε (Option TValue) := do
  -- try first operand
  let tm1 ← host.luaT_gettmbyobj p1 event
  let tm ← if tm1.ttisnil then host.luaT_gettmbyobj p2 event else pure tm1
  if tm.ttisnil then return none
  let res ← host.callTMres tm p1 p2
  return some res

def luaG_concaterror {α : Type} (p1 p2 : TValue) : LuaM σ ε α :=
  throw (host.typeerror (if p1.ttisstring || p1.ttisnumber then p2 else p1) "concatenate")

/-- The loop that collects the total length `tl`: the strings below the top, the next one first, and
what is left of the stack. At most `k` operands are taken; `none` is the overflow. -/
def collect : Nat → Nat → List TValue → Option (List (List UInt8) × List TValue)
  | k + 1, tl, x :: rest =>
    match tostring host x with
    | none => some ([], x :: rest)
    | some s =>
      if s.length ≥ MAX_SIZET - tl then none
      else (collect k (tl + s.length) rest).map fun (strs, rest) => (s :: strs, rest)
  | _, _, rest => some ([], rest)

/-- One pass: the number of elements handled in it, and the stack. -/
def concatPass (total : Nat) : List TValue → LuaM σ ε (Nat × List TValue)
  | x1 :: x2 :: rest =>
    let tryTM : LuaM σ ε (Nat × List TValue) := do
      match ← call_binTM host x2 x1 .TM_CONCAT with
      | some res => return (2, res :: rest)
      | none => luaG_concaterror host x2 x1
    if !(x2.ttisstring || x2.ttisnumber) then tryTM
    else
      match tostring host x1 with
      | none => tryTM
      | some s =>
        if s.length = 0 then
          -- result is first op (as string)
          pure (2, (match tostring host x2 with | some s => .string s | none => x2) :: rest)
        else
          -- at least two string values; get as many as possible
          match collect host (total - 1) s.length (x2 :: rest) with
          | none => throw (host.runerror "string length overflow")
          | some (strs, rest) =>
            pure (strs.length + 1, .string (strs.reverse.flatten ++ s) :: rest)
  | stack => pure (2, stack)

/-- Every pass handles at least two elements, so that `total` passes are enough. -/
def concatLoop : Nat → Nat → List TValue → LuaM σ ε (List TValue)
  | 0, _, stack => pure stack
  | fuel + 1, total, stack => do
    let (n, stack) ← concatPass host total stack
    if total - (n - 1) > 1 then concatLoop fuel (total - (n - 1)) stack else pure stack

def luaV_concat (total : Nat) (stack : List TValue) : LuaM σ ε (List TValue) :=
  concatLoop host total total stack

/-! ## The operator -/

/-- The binary operator: strings and numbers are put together, and a tag method does the rest. -/
def concat (a b : TValue) : LuaM σ ε TValue :=
  match tostring host a, tostring host b with
  | some s, some s' =>
    if s' ≠ [] ∧ s.length ≥ MAX_SIZET - s'.length then
      throw (host.runerror "string length overflow")
    else pure (.string (s ++ s'))
  | _, _ => do
    match ← call_binTM host a b .TM_CONCAT with
    | some res => return res
    | none => luaG_concaterror host a b

/-- The operator from right to left, with the last operand `v`. -/
def concatFold (v : TValue) (operands : List TValue) : LuaM σ ε TValue :=
  operands.foldlM (fun v a => concat host a v) v

variable {host}

theorem concatFold_cons (v a : TValue) (operands : List TValue) :
    concatFold host v (a :: operands) = concat host a v >>= fun v => concatFold host v operands :=
  List.foldlM_cons

theorem tostring_isSome (host : Host σ ε) (v : TValue) :
    (tostring host v).isSome = (v.ttisstring || v.ttisnumber) := by
  cases v with
  | object kind p => cases kind <;> rfl
  | _ => rfl

theorem concat_string {a : TValue} {s s' : List UInt8} (ha : tostring host a = some s)
    (hne : s' ≠ []) :
    concat host a (.string s') =
      if s.length ≥ MAX_SIZET - s'.length then throw (host.runerror "string length overflow")
      else pure (.string (s ++ s')) := by
  have hs' : tostring host (.string s') = some s' := rfl
  simp only [concat, ha, hs', hne, ne_eq, not_false_eq_true, true_and]

/-- What is collected is what the operator puts together one by one. -/
theorem collect_spec (host : Host σ ε) {s : List UInt8} (hs : s ≠ []) (operands below : List TValue) :
    match collect host operands.length s.length (operands ++ below) with
    | none => concatFold host (.string s) operands =
        throw (host.runerror "string length overflow")
    | some (strs, rest) => strs.length ≤ operands.length ∧
        rest = operands.drop strs.length ++ below ∧
        concatFold host (.string s) operands =
          concatFold host (.string (strs.reverse.flatten ++ s)) (operands.drop strs.length) := by
  induction operands generalizing s with
  | nil => simp [collect]
  | cons a operands ih =>
    simp only [List.length_cons, List.cons_append, collect]
    cases ha : tostring host a with
    | none => simp
    | some l =>
      simp only
      rw [concatFold_cons, concat_string ha hs]
      split_ifs with hlong
      · rfl
      · have hne : l ++ s ≠ [] := by simp [hs]
        specialize ih hne
        rw [List.length_append, Nat.add_comm] at ih
        generalize collect host operands.length (s.length + l.length) (operands ++ below) = r at ih ⊢
        cases r with
        | none => exact ih
        | some p =>
          obtain ⟨strs, rest⟩ := p
          obtain ⟨hle, hrest, hfold⟩ := ih
          simp only [Option.map_some, List.length_cons, List.drop_succ_cons, List.reverse_cons,
            List.flatten_append, List.flatten_singleton, List.append_assoc]
          exact ⟨by omega, hrest, hfold⟩

theorem collect_pos {k tl : Nat} {a : TValue} {rest rest' : List TValue} {strs : List (List UInt8)}
    (ha : (tostring host a).isSome = true)
    (h : collect host (k + 1) tl (a :: rest) = some (strs, rest')) : 0 < strs.length := by
  obtain ⟨s, hs⟩ := Option.isSome_iff_exists.mp ha
  simp only [collect, hs] at h
  split_ifs at h
  obtain ⟨p, -, heq⟩ := Option.map_eq_some_iff.mp h
  cases heq
  exact Nat.succ_pos _

/-- A pass that handles two elements is the operator on them. -/
theorem concatPass_two {x a : TValue} {total : Nat} {rest : List TValue}
    (h : tostring host a = none ∨ tostring host x = none ∨ tostring host x = some []) :
    concatPass host total (x :: a :: rest) =
      concat host a x >>= fun v => pure (2, v :: rest) := by
  have htry : (do
      match ← call_binTM host a x .TM_CONCAT with
      | some res => return (2, res :: rest)
      | none => luaG_concaterror host a x : LuaM σ ε (Nat × List TValue)) =
      (do
        match ← call_binTM host a x .TM_CONCAT with
        | some res => return res
        | none => luaG_concaterror host a x) >>= fun v => pure (2, v :: rest) := by
    rw [bind_assoc]
    congr 1
    funext r
    cases r with
    | some res => rw [pure_bind]
    | none => rfl
  rw [concatPass, ← tostring_isSome host]
  cases ha : tostring host a with
  | none =>
    simp only [concat, ha, Option.isSome_none, Bool.not_false, if_true]
    exact htry
  | some s =>
    simp only [Option.isSome_some, Bool.not_true, Bool.false_eq_true, if_false]
    rcases h with h | h | h
    · rw [ha] at h
      cases h
    · simp only [concat, ha, h]
      exact htry
    · simp [concat, ha, h]

theorem concatPass_strings {x a : TValue} {s : List UInt8} {total : Nat} {rest : List TValue}
    (ha : (tostring host a).isSome = true) (hx : tostring host x = some s) (hs : s ≠ []) :
    concatPass host total (x :: a :: rest) =
      match collect host (total - 1) s.length (a :: rest) with
      | none => throw (host.runerror "string length overflow")
      | some (strs, rest) => pure (strs.length + 1, .string (strs.reverse.flatten ++ s) :: rest) := by
  have hlen : s.length ≠ 0 := fun h => hs (List.length_eq_zero_iff.mp h)
  rw [concatPass, ← tostring_isSome host, ha]
  simp only [Bool.not_true, Bool.false_eq_true, if_false, hx, hlen]

/-- The last operand may be a number that is converted. -/
theorem concatFold_tostring {x : TValue} {s : List UInt8} (hx : tostring host x = some s)
    {a : TValue} (ha : (tostring host a).isSome = true) (operands : List TValue) :
    concatFold host x (a :: operands) = concatFold host (.string s) (a :: operands) := by
  obtain ⟨l, hl⟩ := Option.isSome_iff_exists.mp ha
  have hs : tostring host (.string s) = some s := rfl
  rw [concatFold_cons, concatFold_cons]
  simp only [concat, hl, hx, hs]

theorem concatLoop_eq {fuel : Nat} {operands : List TValue} (x : TValue) (below : List TValue)
    (hne : operands ≠ []) (hfuel : operands.length ≤ fuel) :
    concatLoop host fuel (operands.length + 1) (x :: (operands ++ below)) =
      concatFold host x operands >>= fun v => pure (v :: below) := by
  induction fuel generalizing x operands with
  | zero => exact absurd (List.length_eq_zero_iff.mp (Nat.le_zero.mp hfuel)) hne
  | succ fuel ih =>
    -- what is left to do when `rest` has not been handled yet
    have next : ∀ (v : TValue) (rest : List TValue), rest.length ≤ fuel →
        (if rest.length + 1 > 1 then concatLoop host fuel (rest.length + 1) (v :: (rest ++ below))
          else pure (v :: (rest ++ below))) =
        concatFold host v rest >>= fun v => pure (v :: below) := by
      intro v rest hle
      by_cases hrest : rest = []
      · subst hrest
        rfl
      · have hpos := List.length_pos_iff.mpr hrest
        rw [if_pos (by omega), ih v hrest hle]
    obtain ⟨a, ys, rfl⟩ := List.exists_cons_of_ne_nil hne
    rw [List.length_cons] at hfuel
    rw [concatLoop, List.cons_append, List.length_cons]
    by_cases htwo : tostring host a = none ∨ tostring host x = none ∨ tostring host x = some []
    · rw [concatPass_two htwo, concatFold_cons, bind_assoc, bind_assoc]
      congr 1
      funext v
      rw [pure_bind]
      exact next v ys (by omega)
    · push Not at htwo
      obtain ⟨ha, hx, hxne⟩ := htwo
      have ha' := Option.isSome_iff_ne_none.mpr ha
      obtain ⟨s, hs⟩ := Option.ne_none_iff_exists'.mp hx
      have hsne : s ≠ [] := fun h => hxne (h ▸ hs)
      have hspec := collect_spec host hsne (a :: ys) below
      rw [List.length_cons, List.cons_append] at hspec
      rw [concatPass_strings ha' hs hsne, Nat.add_sub_cancel, concatFold_tostring hs ha']
      generalize hr : collect host (ys.length + 1) s.length (a :: (ys ++ below)) = r at hspec
      cases r with
      | none =>
        rw [hspec]
        rfl
      | some p =>
        obtain ⟨strs, rest⟩ := p
        obtain ⟨hle, rfl, hfold⟩ := hspec
        have hpos := collect_pos ha' hr
        rw [hfold]
        show (if _ then concatLoop host fuel _ _ else pure _) = _
        have htotal : ys.length + 1 + 1 - (strs.length + 1 - 1) =
            ((a :: ys).drop strs.length).length + 1 := by
          rw [List.length_drop, List.length_cons]
          omega
        rw [htotal]
        exact next _ _ (by rw [List.length_drop, List.length_cons]; omega)

/-- Concatenating `total` operands is the operator from right to left, with the same calls of tag
methods, and what is below the operands is not touched. -/
theorem luaV_concat_eq_fold {σ ε : Type} (host : Host σ ε) :
    (∀ a b below, luaV_concat host 2 (b :: a :: below) =
      concat host a b >>= fun v => pure (v :: below)) ∧
    ∀ (x y : TValue) (operands below : List TValue),
      luaV_concat host (operands.length + 2) (x :: y :: operands ++ below) =
        concatFold host x (y :: operands) >>= fun v => pure (v :: below) := by
  refine ⟨fun a b below => ?_, fun x y operands below => ?_⟩
  · refine (concatLoop_eq b below (List.cons_ne_nil a []) (Nat.le_succ 1)).trans ?_
    rw [concatFold_cons, bind_assoc]
    rfl
  · exact concatLoop_eq x below (List.cons_ne_nil y operands) (Nat.le_succ _)

end

end Luaxx.Vm
