import Luaxx.Code.Expressions
import Mathlib.Data.List.Forall2

/-!
# The constants of a function

`h` finds a constant by `luaO_rawequalObj`, so that a request gets the first constant that was
entered of those that are `==` to it. For everything but numbers that is the constant itself.
-/

namespace Luaxx.Code

variable {ν : Type}

/-- A constant that the code generator can ask for. -/
inductive Request (ν : Type) where
  | nil
  | boolean (b : Bool)
  | number (r : ν)
  | string (s : Nat)
  deriving DecidableEq, Repr

def Request.value : Request ν → TValue ν
  | nil => .nil
  | boolean b => .boolean b
  | number r => .number r
  | string s => .string s

/-- The key under which a constant is found. -/
def Request.key (hp : Nat) : Request ν → TValue ν
  | nil => .object hp
  | r => r.value

/-- Two requests that have to be told apart, and are not. -/
def Request.Collide [LuaNumber ν] : Request ν → Request ν → Prop
  | number a, number b => LuaNumber.luai_numeq a b = true ∧ a ≠ b
  | _, _ => False

variable [LuaNumber ν]

def addConstant (fs : FuncState ν) : Request ν → Gen (Nat × FuncState ν)
  | .nil => nilK fs
  | .boolean b => boolK fs b
  | .number r => luaK_numberK fs r
  | .string s => luaK_stringK fs s

def addConstants (fs : FuncState ν) : List (Request ν) → Gen (List Nat × FuncState ν)
  | [] => .ok ([], fs)
  | r :: rs => do
    let (i, fs) ← addConstant fs r
    let (is, fs) ← addConstants fs rs
    .ok (i :: is, fs)

theorem addConstant_eq (fs : FuncState ν) (r : Request ν) :
    addConstant fs r = addk fs (r.key fs.hp) r.value := by
  cases r <;> rfl

omit [LuaNumber ν] in
theorem Request.key_inj {hp : Nat} {r s : Request ν} (h : r.key hp = s.key hp) : r = s := by
  cases r <;> cases s <;> simp_all [Request.key, Request.value]

/-- Requests that are found under one key are the same, or collide. -/
theorem Request.eq_or_collide {hp : Nat} {r s : Request ν}
    (h : (r.key hp).rawequal (s.key hp) = true) : r = s ∨ r.Collide s := by
  cases r <;> cases s <;> simp_all [Request.key, Request.value, TValue.rawequal, Request.Collide]
  exact Classical.em _

theorem Request.Collide.rawequal {hp : Nat} {r s : Request ν} (h : r.Collide s) :
    (r.key hp).rawequal (s.key hp) = true := by
  cases r <;> cases s <;> simp_all [Request.key, Request.value, TValue.rawequal, Request.Collide]

theorem Request.Collide.value_ne {r s : Request ν} (h : r.Collide s) : r.value ≠ s.value := by
  cases r <;> cases s <;> simp_all [Request.value, Request.Collide]

/-! ## What `h` finds -/

section Lookup

variable {h h' : List (TValue ν × Nat)} {key key' : TValue ν} {idx : Nat}

theorem luaH_get_eq_some (hget : luaH_get h key = some idx) :
    ∃ k, (k, idx) ∈ h ∧ k.rawequal key = true := by
  obtain ⟨⟨k, i⟩, hfind, rfl⟩ := Option.map_eq_some_iff.mp hget
  exact ⟨k, List.mem_of_find?_eq_some hfind,
    List.find?_some (p := fun e : TValue ν × Nat => e.1.rawequal key) hfind⟩

theorem luaH_get_congr (hk : key.rawequal key' = true) : luaH_get h key = luaH_get h key' := by
  have : (fun e : TValue ν × Nat => e.1.rawequal key) = fun e => e.1.rawequal key' := by
    funext e
    rw [Bool.eq_iff_iff]
    refine ⟨fun h => TValue.rawequal_trans h hk, fun h => TValue.rawequal_trans h ?_⟩
    rw [TValue.rawequal_comm]
    exact hk
  rw [luaH_get, luaH_get, this]

/-- A new key hides none of the old ones. -/
theorem luaH_get_cons_of_none {k : TValue ν} (hk : luaH_get h k = none)
    (hget : luaH_get h key = some idx) (i : Nat) : luaH_get ((k, i) :: h) key = some idx := by
  obtain hne | heq := Bool.eq_false_or_eq_true (k.rawequal key)
  · rw [← luaH_get_congr hne, hk] at hget
    cases hget
  · rw [luaH_get, List.find?_cons_of_neg (by simp [heq])]
    exact hget

theorem luaH_newkey_ok (hnew : luaH_newkey h key idx = .ok h') :
    h' = (key, idx) :: h ∧ key.rawequal key = true := by
  unfold luaH_newkey at hnew
  cases key <;> simp_all [TValue.rawequal]
  split at hnew <;> simp_all [luai_numisnan]

end Lookup

/-! ## Entering a constant -/

/-- What `h` maps to a number is a request, and the number the index of its constant. -/
def Consistent (fs : FuncState ν) : Prop :=
  ∀ k i, (k, i) ∈ fs.h → ∃ r : Request ν, k = r.key fs.hp ∧ fs.k[i]? = some r.value

/-- The constant of `r` is entered, with index `i`: only the constants change, and what was found
before is still found. -/
structure Entered (fs : FuncState ν) (r : Request ν) (i : Nat) (fs' : FuncState ν) : Prop where
  frame : fs' = { fs with k := fs'.k, h := fs'.h }
  k : fs.k <+: fs'.k
  found : luaH_get fs'.h (r.key fs.hp) = some i
  index : i ≤ fs.k.length
  limit : fs.k.length ≤ MAXARG_Bx → fs'.k.length ≤ MAXARG_Bx
  keeps : ∀ key j, luaH_get fs.h key = some j → luaH_get fs'.h key = some j
  mem : ∀ e ∈ fs'.h, e ∈ fs.h ∨ e.1 = r.key fs.hp

omit [LuaNumber ν] in
theorem consistent_open_func (hp : Nat) : Consistent (.open_func hp : FuncState ν) := by
  intro k i h
  cases h

theorem Consistent.lookup {fs : FuncState ν} (hc : Consistent fs) {r : Request ν} {i : Nat}
    (h : luaH_get fs.h (r.key fs.hp) = some i) :
    ∃ s : Request ν, (s.key fs.hp, i) ∈ fs.h ∧ fs.k[i]? = some s.value ∧
      (s = r ∨ s.Collide r) := by
  obtain ⟨k, hmem, heq⟩ := luaH_get_eq_some h
  obtain ⟨s, rfl, hs⟩ := hc k i hmem
  exact ⟨s, hmem, hs, Request.eq_or_collide heq⟩

theorem addConstant_spec {fs fs' : FuncState ν} {r : Request ν} {i : Nat} (hc : Consistent fs)
    (h : addConstant fs r = .ok (i, fs')) : Consistent fs' ∧ Entered fs r i fs' := by
  rw [addConstant_eq, addk] at h
  cases hget : luaH_get fs.h (r.key fs.hp) with
  | some idx =>
    rw [hget] at h
    cases h
    obtain ⟨k, hmem, -⟩ := luaH_get_eq_some hget
    obtain ⟨s, -, hs⟩ := hc k _ hmem
    exact ⟨hc, rfl, List.prefix_rfl, hget, (List.getElem?_eq_some_iff.mp hs).1.le, id,
      fun _ _ hj => hj, fun _ he => .inl he⟩
  | none =>
    rw [hget] at h
    obtain ⟨h', hnew, h⟩ := Result.bind_ok.mp h
    obtain ⟨rfl, hself⟩ := luaH_newkey_ok hnew
    obtain ⟨hlimit, h⟩ := Result.ite_error_ok.mp h
    cases h
    refine ⟨?_, rfl, List.prefix_append _ _, ?_, le_rfl, fun _ => ?_, ?_, ?_⟩
    · intro k j hmem
      rcases List.mem_cons.mp hmem with heq | hmem
      · cases heq
        exact ⟨r, rfl, by simp⟩
      · obtain ⟨s, hs, hj⟩ := hc k j hmem
        have hlt := (List.getElem?_eq_some_iff.mp hj).1
        exact ⟨s, hs, by rw [List.getElem?_append_left hlt, hj]⟩
    · exact congrArg (Option.map Prod.snd) (List.find?_cons_of_pos hself)
    · rw [List.length_append]
      exact not_le.mp hlimit
    · intro key j hj
      exact luaH_get_cons_of_none hget hj _
    · intro e he
      rcases List.mem_cons.mp he with rfl | he
      · exact .inr rfl
      · exact .inl he

/-! ## Sequences of constants -/

/-- All requests find their index in the end. -/
theorem addConstants_spec {fs fs' : FuncState ν} {rs : List (Request ν)} {is : List Nat}
    (hc : Consistent fs) (h : addConstants fs rs = .ok (is, fs')) :
    Consistent fs' ∧ fs'.hp = fs.hp ∧
      (∀ key j, luaH_get fs.h key = some j → luaH_get fs'.h key = some j) ∧
      List.Forall₂ (fun (r : Request ν) i => luaH_get fs'.h (r.key fs.hp) = some i) rs is ∧
      ∀ e ∈ fs'.h, e ∈ fs.h ∨ ∃ r ∈ rs, e.1 = r.key fs.hp := by
  induction rs generalizing fs is with
  | nil =>
    cases h
    exact ⟨hc, rfl, fun _ _ hj => hj, .nil, fun _ he => .inl he⟩
  | cons r rs ih =>
    obtain ⟨⟨i, fs1⟩, h1, h⟩ := Result.bind_ok.mp h
    obtain ⟨⟨is', fs2⟩, h2, h⟩ := Result.bind_ok.mp h
    cases h
    obtain ⟨hc1, entered⟩ := addConstant_spec hc h1
    obtain ⟨hc2, hhp, keeps, found, mem⟩ := ih hc1 h2
    have hhp1 : fs1.hp = fs.hp := by rw [entered.frame]
    rw [hhp1] at hhp found mem
    refine ⟨hc2, hhp, fun key j hj => keeps _ _ (entered.keeps _ _ hj),
      .cons (keeps _ _ entered.found) found, ?_⟩
    intro e he
    rcases mem e he with he | ⟨s, hs, he⟩
    · rcases entered.mem e he with he | he
      · exact .inl he
      · exact .inr ⟨r, List.mem_cons_self, he⟩
    · exact .inr ⟨s, List.mem_cons_of_mem r hs, he⟩

/-- No two requests of a sequence collide. -/
def Distinct (rs : List (Request ν)) : Prop := ∀ r ∈ rs, ∀ s ∈ rs, ¬ r.Collide s

/-- Every request got an index with the constant it asked for. -/
def Kept (fs : FuncState ν) (rs : List (Request ν)) (is : List Nat) : Prop :=
  List.Forall₂ (fun r i => fs.k[i]? = some r.value) rs is

theorem kept_iff_distinct {hp : Nat} {rs : List (Request ν)} {is : List Nat}
    {fs : FuncState ν} (h : addConstants (.open_func hp) rs = .ok (is, fs)) :
    Kept fs rs is ↔ Distinct rs := by
  obtain ⟨hc, hhp, -, found, mem⟩ := addConstants_spec (consistent_open_func hp) h
  have hhp' : fs.hp = hp := hhp
  constructor
  · intro kept r hr s hs collide
    obtain ⟨j, hj, rfl⟩ := List.getElem_of_mem hr
    obtain ⟨l, hl, rfl⟩ := List.getElem_of_mem hs
    have hlen := found.length_eq
    have hfj := List.Forall₂.get found hj (by omega)
    have hfl := List.Forall₂.get found hl (by omega)
    have hkj := List.Forall₂.get kept hj (by omega)
    have hkl := List.Forall₂.get kept hl (by omega)
    have heq : luaH_get fs.h (rs[j].key hp) = luaH_get fs.h (rs[l].key hp) :=
      luaH_get_congr collide.rawequal
    simp only [List.get_eq_getElem] at hfj hfl hkj hkl
    have hidx : is[j] = is[l] := by
      have := hfj.symm.trans (heq.trans hfl)
      exact Option.some.inj this
    rw [hidx, hkl] at hkj
    exact collide.value_ne (Option.some.inj hkj).symm
  · intro distinct
    refine List.forall₂_iff_zip.mpr ⟨found.length_eq, fun {r i} hri => ?_⟩
    have hfind : luaH_get fs.h (r.key fs.hp) = some i := hhp' ▸ List.forall₂_zip found hri
    obtain ⟨s, hs, hk, rfl | collide⟩ := hc.lookup hfind
    · exact hk
    · rcases mem _ hs with hs | ⟨r', hr', hkey⟩
      · cases hs
      · obtain rfl := Request.key_inj (hhp' ▸ hkey)
        exact absurd collide (distinct _ hr' r (List.of_mem_zip hri).1)

end Luaxx.Code
