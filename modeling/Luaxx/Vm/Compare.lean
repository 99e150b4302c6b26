import Luaxx.Core.Value
import Mathlib.Data.List.TakeWhile

/-!
# The order of values (`lvm.c`)

What an operation on values needs of the rest of the state is a `Host`: it finds and calls tag
methods, which may do anything to a state that is not looked at here, and raises errors. A string is
its bytes, since strings are interned.
-/

namespace Luaxx.Vm

inductive TValue where
  | nil
  | boolean (b : Bool)
  | lightuserdata (p : Nat)
  | number (n : Number)
  | string (s : List UInt8)
  | object (kind : ObjectKind) (p : Nat)
  deriving DecidableEq, Repr

namespace TValue

def ttype : TValue → Nat
  | nil => 0
  | boolean _ => 1
  | lightuserdata _ => 2
  | number _ => 3
  | string _ => 4
  | object .table _ => 5
  | object .function _ => 6
  | object .userdata _ => 7
  | object .thread _ => 8

def ttisnil (v : TValue) : Bool := v.ttype == 0

def ttisnumber (v : TValue) : Bool := v.ttype == 3

def ttisstring (v : TValue) : Bool := v.ttype == 4

def l_isfalse : TValue → Bool
  | nil => true
  | boolean b => !b
  | _ => false

/-- `luaO_rawequalObj`. -/
def rawequal : TValue → TValue → Bool
  | number a, number b => luai_numeq a b
  | a, b => a == b

end TValue

def luaT_typenames : List String :=
  ["nil", "boolean", "userdata", "number", "string", "table", "function", "userdata", "thread",
    "proto", "upval"]

/-- The events of tag methods for operators. -/
inductive TMS where
  | TM_LT | TM_LE | TM_CONCAT
  deriving DecidableEq, Repr

/-- A computation on a state, which may end in an error. -/
abbrev LuaM (σ ε α : Type) : Type := ExceptT ε (StateM σ) α

theorem run_bind_ok {σ ε α β : Type} {x : LuaM σ ε α} {f : α → LuaM σ ε β} {a : α} {st st' : σ}
    (h : x.run st = (.ok a, st')) : (x >>= f).run st = (f a).run st' := by
  show (x.run >>= ExceptT.bindCont f) st = _
  show (let (r, st) := x.run st; ExceptT.bindCont f r st) = _
  rw [h]
  rfl

theorem run_bind_error {σ ε α β : Type} {x : LuaM σ ε α} {f : α → LuaM σ ε β} {e : ε} {st st' : σ}
    (h : x.run st = (.error e, st')) : (x >>= f).run st = (.error e, st') := by
  show (x.run >>= ExceptT.bindCont f) st = _
  show (let (r, st) := x.run st; ExceptT.bindCont f r st) = _
  rw [h]
  rfl

structure Host (σ ε : Type) where
  luaT_gettmbyobj : TValue → TMS → LuaM σ ε TValue
  callTMres : TValue → TValue → TValue → LuaM σ ε TValue
  /-- The error with a message. -/
  runerror : String → ε
  /-- The error about the type of a value in an operation. -/
  typeerror : TValue → String → ε
  /-- On the bytes before the first NUL. -/
  strcoll : List UInt8 → List UInt8 → Int
  lua_number2str : Number → List UInt8

/-! ## Strings -/

/-- The C string at the beginning of some bytes that a NUL follows. -/
def cstr (s : List UInt8) : List UInt8 := s.takeWhile (· ≠ 0)

section

variable (strcoll : List UInt8 → List UInt8 → Int)

def l_strcmp (l r : List UInt8) : Int :=
  let temp := strcoll (cstr l) (cstr r)
  if temp ≠ 0 then temp
  else
    -- index of first `\0` in both strings
    let len := (cstr l).length
    if len = r.length then if len = l.length then 0 else 1
    else if len = l.length then -1
    else l_strcmp (l.drop (len + 1)) (r.drop (len + 1))
termination_by l.length
decreasing_by
  have : (cstr l).length ≤ l.length := (List.takeWhile_prefix _).length_le
  simp only [List.length_drop]
  omega

end

section

variable {σ ε : Type} (host : Host σ ε)

def luaG_ordererror {α : Type} (p1 p2 : TValue) : LuaM σ ε α :=
  let t1 := luaT_typenames.getD p1.ttype ""
  let t2 := luaT_typenames.getD p2.ttype ""
  if t1.toList[2]? = t2.toList[2]? then
    throw (host.runerror ("attempt to compare two " ++ t1 ++ " values"))
  else throw (host.runerror ("attempt to compare " ++ t1 ++ " with " ++ t2))

/-- `none` is -1. -/
def call_orderTM (p1 p2 : TValue) (event : TMS) : LuaM σ ε (Option Bool) := do
  let tm1 ← host.luaT_gettmbyobj p1 event
  if tm1.ttisnil then return none
  let tm2 ← host.luaT_gettmbyobj p2 event
  if !tm1.rawequal tm2 then return none
  let res ← host.callTMres tm1 p1 p2
  return some !res.l_isfalse

def luaV_lessthan (l r : TValue) : LuaM σ ε Bool :=
  if l.ttype ≠ r.ttype then luaG_ordererror host l r
  else
    match l, r with
    | .number a, .number b => pure (luai_numlt a b)
    | .string a, .string b => pure (decide (l_strcmp host.strcoll a b < 0))
    | l, r => do
      match ← call_orderTM host l r .TM_LT with
      | some res => return res
      | none => luaG_ordererror host l r

def lessequal (l r : TValue) : LuaM σ ε Bool :=
  if l.ttype ≠ r.ttype then luaG_ordererror host l r
  else
    match l, r with
    | .number a, .number b => pure (luai_numle a b)
    | .string a, .string b => pure (decide (l_strcmp host.strcoll a b ≤ 0))
    | l, r => do
      -- first try `le`
      match ← call_orderTM host l r .TM_LE with
      | some res => return res
      | none =>
        -- else try `lt`
        match ← call_orderTM host r l .TM_LT with
        | some res => return !res
        | none => luaG_ordererror host l r

end

/-! ## The order of strings -/

/-- `strcoll` compares C strings by their bytes, as unsigned numbers. -/
def Bytewise (strcoll : List UInt8 → List UInt8 → Int) : Prop :=
  ∀ a b : List UInt8, 0 ∉ a → 0 ∉ b → (strcoll a b < 0 ↔ a < b) ∧ (strcoll a b = 0 ↔ a = b)

theorem zero_not_mem_cstr (s : List UInt8) : 0 ∉ cstr s := fun h => by
  simpa using List.mem_takeWhile_imp h

/-- After its C string a string ends, or goes on with a NUL. -/
theorem cstr_cases (s : List UInt8) :
    cstr s = s ∨ s = cstr s ++ 0 :: s.drop ((cstr s).length + 1) := by
  induction s with
  | nil => exact .inl rfl
  | cons x s ih =>
    by_cases hx : x = 0
    · subst hx
      exact .inr rfl
    · have hcons : cstr (x :: s) = x :: cstr s := List.takeWhile_cons_of_pos (by simpa using hx)
      rw [hcons]
      rcases ih with h | h
      · exact .inl (by rw [h])
      · exact .inr (congrArg (x :: ·) h)

theorem zero_lt_of_ne {x : UInt8} (h : x ≠ 0) : 0 < x := by
  have hne : x.toNat ≠ 0 := fun hx => h (UInt8.toNat_inj.mp hx)
  exact UInt8.lt_iff_toNat_lt.mpr (Nat.pos_of_ne_zero hne)

/-- Where the C strings differ, they decide. -/
theorem lt_iff_cstr_lt {l r : List UInt8} (h : cstr l ≠ cstr r) : l < r ↔ cstr l < cstr r := by
  induction l generalizing r with
  | nil =>
    cases r with
    | nil => exact absurd rfl h
    | cons y r =>
      by_cases hy : y = 0
      · subst hy
        exact absurd rfl h
      · rw [show cstr (y :: r) = y :: cstr r from List.takeWhile_cons_of_pos (by simpa using hy)]
        simp [cstr]
  | cons x l ih =>
    by_cases hx : x = 0
    · subst hx
      have hl : cstr (0 :: l) = [] := rfl
      rw [hl] at h ⊢
      cases r with
      | nil => exact absurd rfl h
      | cons y r =>
        by_cases hy : y = 0
        · subst hy
          exact absurd rfl h
        · rw [show cstr (y :: r) = y :: cstr r from List.takeWhile_cons_of_pos (by simpa using hy)]
          simp [List.cons_lt_cons_iff, zero_lt_of_ne hy]
    · have hl : cstr (x :: l) = x :: cstr l := List.takeWhile_cons_of_pos (by simpa using hx)
      rw [hl] at h ⊢
      cases r with
      | nil => simp [cstr]
      | cons y r =>
        by_cases hy : y = 0
        · subst hy
          have hr : cstr (0 :: r) = [] := rfl
          have hlt : ¬ x < 0 := UInt8.not_lt_zero
          simp [hr, List.cons_lt_cons_iff, hlt, hx]
        · have hr : cstr (y :: r) = y :: cstr r := List.takeWhile_cons_of_pos (by simpa using hy)
          rw [hr] at h ⊢
          rw [List.cons_lt_cons_iff, List.cons_lt_cons_iff]
          refine or_congr_right (and_congr_right fun hxy => ih fun he => h ?_)
          rw [hxy, he]

theorem append_lt_append_left (c l r : List UInt8) : c ++ l < c ++ r ↔ l < r := by
  induction c with
  | nil => rfl
  | cons x c ih => simpa [List.cons_lt_cons_iff] using ih

theorem l_strcmp_spec {strcoll : List UInt8 → List UInt8 → Int} (h : Bytewise strcoll)
    (l r : List UInt8) :
    (l_strcmp strcoll l r < 0 ↔ l < r) ∧ (l_strcmp strcoll l r = 0 ↔ l = r) := by
  obtain ⟨hlt, heq⟩ := h (cstr l) (cstr r) (zero_not_mem_cstr l) (zero_not_mem_cstr r)
  rw [l_strcmp]
  by_cases hne : strcoll (cstr l) (cstr r) ≠ 0
  · -- the C strings decide
    have hne' : cstr l ≠ cstr r := fun he => hne (heq.mpr he)
    simp only [if_pos hne]
    refine ⟨hlt.trans (lt_iff_cstr_lt hne').symm, heq.trans ⟨fun he => absurd he hne', ?_⟩⟩
    rintro rfl
    rfl
  · have he := heq.mp (not_not.mp hne)
    simp only [if_neg hne]
    have hlen : (cstr l).length = (cstr r).length := by rw [he]
    have hfinished : ∀ s : List UInt8, (cstr s).length = s.length → cstr s = s := fun s hs =>
      (List.takeWhile_prefix _).eq_of_length hs
    have hgoes : ∀ s : List UInt8, (cstr s).length ≠ s.length →
        s = cstr s ++ 0 :: s.drop ((cstr s).length + 1) := fun s hs =>
      (cstr_cases s).resolve_left fun hc => hs (by rw [hc])
    split_ifs with hr hl hl
    · -- both are finished
      rw [hfinished l hl, hfinished r (hlen ▸ hr)] at he
      subst he
      simp [List.lt_irrefl]
    · -- r is finished
      have hr' := hfinished r (hlen ▸ hr)
      have hlong : r < l := by
        rw [hgoes l hl, he, hr', ← List.append_nil r, List.append_assoc, append_lt_append_left]
        exact List.nil_lt_cons _ _
      simp only [Int.reduceLT, false_iff, one_ne_zero]
      exact ⟨fun hlt => List.lt_irrefl _ (List.lt_trans hlt hlong), fun hlr => List.lt_irrefl r (hlr ▸ hlong)⟩
    · -- l is finished
      have hl' := hfinished l hl
      have hlong : l < r := by
        rw [hgoes r (hlen ▸ hr), ← he, hl', ← List.append_nil l, List.append_assoc, append_lt_append_left]
        exact List.nil_lt_cons _ _
      simp only [Int.reduceLT, Int.reduceNeg, true_iff, false_iff]
      exact ⟨hlong, fun hlr => List.lt_irrefl l (hlr ▸ hlong)⟩
    · -- both strings are longer
      obtain ⟨ihlt, iheq⟩ := l_strcmp_spec h (l.drop ((cstr l).length + 1))
        (r.drop ((cstr l).length + 1))
      have hl' := hgoes l hl
      have hr' := hgoes r (hlen ▸ hr)
      rw [← he] at hr'
      refine ⟨ihlt.trans ?_, iheq.trans ?_⟩
      · conv_rhs => rw [hl', hr']
        rw [append_lt_append_left, List.cons_lt_cons_self]
      · conv_rhs => rw [hl', hr']
        rw [List.append_cancel_left_eq, List.cons_inj_right]
termination_by l.length
decreasing_by
  have : (cstr l).length ≤ l.length := (List.takeWhile_prefix _).length_le
  simp only [List.length_drop]
  omega

theorem trichotomous (a b : List UInt8) : a < b ∨ a = b ∨ b < a := by
  by_cases hab : a < b
  · exact .inl hab
  · by_cases hba : b < a
    · exact .inr (.inr hba)
    · exact .inr (.inl (List.le_antisymm (List.not_lt.mp hba) (List.not_lt.mp hab)))

/-- `l_strcmp` is the lexicographic comparison of all bytes, and the comparisons of strings are the
strict total order that belongs to it, with its equality. -/
theorem string_order {σ ε : Type} (host : Host σ ε) (h : Bytewise host.strcoll) :
    (∀ a b : List UInt8, (l_strcmp host.strcoll a b < 0 ↔ a < b) ∧
      (l_strcmp host.strcoll a b = 0 ↔ a = b) ∧ (0 < l_strcmp host.strcoll a b ↔ b < a)) ∧
    ∃ lt : List UInt8 → List UInt8 → Bool,
      (∀ a b, luaV_lessthan host (.string a) (.string b) = pure (lt a b)) ∧
      (∀ a b, lessequal host (.string a) (.string b) = pure (!lt b a)) ∧
      (∀ a, lt a a = false) ∧
      (∀ a b c, lt a b = true → lt b c = true → lt a c = true) ∧
      ∀ a b, (TValue.string a).rawequal (.string b) = (!lt a b && !lt b a) := by
  have hspec := l_strcmp_spec h
  have hpos : ∀ a b : List UInt8, 0 < l_strcmp host.strcoll a b ↔ b < a := by
    intro a b
    obtain ⟨hlt, heq⟩ := hspec a b
    constructor
    · intro hp
      have hnlt : ¬ a < b := fun hab => by have := hlt.mpr hab; omega
      have hne : a ≠ b := fun hab => by have := heq.mpr hab; omega
      exact ((trichotomous a b).resolve_left hnlt).resolve_left hne
    · intro hba
      have hnlt : ¬ l_strcmp host.strcoll a b < 0 := fun hp =>
        List.lt_irrefl b (List.lt_trans hba (hlt.mp hp))
      have hne : l_strcmp host.strcoll a b ≠ 0 := fun hp =>
        List.lt_irrefl b (heq.mp hp ▸ hba)
      omega
  refine ⟨fun a b => ⟨(hspec a b).1, (hspec a b).2, hpos a b⟩, fun a b => decide (a < b),
    fun a b => ?_, fun a b => ?_, fun a => ?_, fun a b c hab hbc => ?_, fun a b => ?_⟩
  · show pure (decide (l_strcmp host.strcoll a b < 0)) = pure (decide (a < b))
    rw [decide_eq_decide.mpr (hspec a b).1]
  · show pure (decide (l_strcmp host.strcoll a b ≤ 0)) = pure (!decide (b < a))
    rw [← decide_not, decide_eq_decide.mpr]
    rw [← hpos a b, not_lt]
  · exact decide_eq_false (List.lt_irrefl a)
  · exact decide_eq_true (List.lt_trans (of_decide_eq_true hab) (of_decide_eq_true hbc))
  · show (TValue.string a == TValue.string b) = _
    rw [Bool.eq_iff_iff, beq_iff_eq, TValue.string.injEq, Bool.and_eq_true, Bool.not_eq_true',
      Bool.not_eq_true', decide_eq_false_iff_not, decide_eq_false_iff_not]
    constructor
    · rintro rfl
      exact ⟨List.lt_irrefl a, List.lt_irrefl a⟩
    · rintro ⟨hab, hba⟩
      exact ((trichotomous a b).resolve_left hab).resolve_right hba

/-- `strcmp` on the bytes of C strings. -/
def strcmp : List UInt8 → List UInt8 → Int
  | [], [] => 0
  | [], b :: _ => -b.toNat
  | a :: _, [] => a.toNat
  | a :: l, b :: r => if a = b then strcmp l r else (a.toNat : Int) - b.toNat

theorem bytewise_strcmp : Bytewise strcmp := by
  intro a b ha hb
  induction a generalizing b with
  | nil =>
    cases b with
    | nil => simp [strcmp]
    | cons y b =>
      have hy : 0 < y := zero_lt_of_ne fun h => hb (h ▸ List.mem_cons_self)
      have : 0 < y.toNat := UInt8.lt_iff_toNat_lt.mp hy
      simp [strcmp]
      omega
  | cons x a ih =>
    have hx : 0 < x := zero_lt_of_ne fun h => ha (h ▸ List.mem_cons_self)
    cases b with
    | nil =>
      have : 0 < x.toNat := UInt8.lt_iff_toNat_lt.mp hx
      simp [strcmp]
      omega
    | cons y b =>
      by_cases hxy : x = y
      · subst hxy
        obtain ⟨hlt, heq⟩ := ih b (fun h => ha (List.mem_cons_of_mem x h))
          fun h => hb (List.mem_cons_of_mem x h)
        simpa [strcmp, List.cons_lt_cons_iff] using ⟨hlt, heq⟩
      · have hne : x.toNat ≠ y.toNat := fun h => hxy (UInt8.toNat_inj.mp h)
        simp only [strcmp, if_false, List.cons_lt_cons_iff, hxy, false_and, or_false,
          UInt8.lt_iff_toNat_lt, List.cons.injEq, iff_false]
        omega

/-- A host whose values have no tag methods. -/
def plainHost : Host Unit String where
  luaT_gettmbyobj _ _ := pure .nil
  callTMres _ _ _ := pure .nil
  runerror msg := msg
  typeerror _ op := op
  strcoll := strcmp
  lua_number2str _ := []

/-- `"a\0b"` is before `"a\0c"`, and after its prefix `"a"`. -/
theorem string_order_strcmp :
    (0 < l_strcmp strcmp [97, 0, 98] [97] ↔ [97] < ([97, 0, 98] : List UInt8)) ∧
    (l_strcmp strcmp [97, 0, 98] [97, 0, 99] < 0 ↔
      ([97, 0, 98] : List UInt8) < [97, 0, 99]) :=
  ⟨((string_order plainHost bytewise_strcmp).1 _ _).2.2,
    ((string_order plainHost bytewise_strcmp).1 _ _).1⟩

end Luaxx.Vm
