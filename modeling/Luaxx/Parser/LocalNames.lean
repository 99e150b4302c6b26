import Luaxx.Parser.Scopes
import Mathlib.Data.List.Range

/-!
# The names of locals at run time

The parser records the locals of a function with their scopes, and `luaF_getlocalname` finds them by
their registers.
-/

namespace Luaxx.Parser.Locals

open Result

/-! ## The operations -/

/-- The variable is in one of these places of `actvar`. -/
def Held (actvar : Nat → Nat) (lo hi i : Nat) : Prop := ∃ j, j < hi ∧ lo ≤ j ∧ actvar j = i

instance (actvar : Nat → Nat) (lo hi i : Nat) : Decidable (Held actvar lo hi i) :=
  inferInstanceAs (Decidable (∃ j, j < hi ∧ lo ≤ j ∧ actvar j = i))

/-- The registered variables after a change to those in some places of `actvar`. -/
def stamp (actvar : Nat → Nat) (lo hi : Nat) (f : LocVar → LocVar) (locvars : Nat → LocVar) (i : Nat) :
    LocVar :=
  if Held actvar lo hi i then f (locvars i) else locvars i

def withStart (pc : Nat) (v : LocVar) : LocVar := { v with startpc := pc }

def withEnd (pc : Nat) (v : LocVar) : LocVar := { v with endpc := pc }

section stamp

variable {actvar : Nat → Nat} {lo hi i : Nat} {locvars : Nat → LocVar} {f : LocVar → LocVar}

theorem held_first (h : lo < hi) :
    Held actvar lo hi i ↔ i = actvar lo ∨ Held actvar (lo + 1) hi i := by
  constructor
  · rintro ⟨j, hj, hlo, rfl⟩
    by_cases heq : j = lo
    · left
      rw [heq]
    · right
      exact ⟨j, hj, by omega, rfl⟩
  · rintro (rfl | ⟨j, hj, hlo, rfl⟩)
    · exact ⟨lo, h, le_rfl, rfl⟩
    · exact ⟨j, hj, by omega, rfl⟩

theorem held_last (h : lo ≤ hi) :
    Held actvar lo (hi + 1) i ↔ i = actvar hi ∨ Held actvar lo hi i := by
  constructor
  · rintro ⟨j, hj, hlo, rfl⟩
    by_cases heq : j = hi
    · left
      rw [heq]
    · right
      exact ⟨j, by omega, hlo, rfl⟩
  · rintro (rfl | ⟨j, hj, hlo, rfl⟩)
    · exact ⟨hi, by omega, h, rfl⟩
    · exact ⟨j, by omega, hlo, rfl⟩

theorem not_held_self : ¬ Held actvar lo lo i := by
  rintro ⟨j, hj, hlo, -⟩
  omega

theorem stamp_of_held (h : Held actvar lo hi i) : stamp actvar lo hi f locvars i = f (locvars i) :=
  if_pos h

theorem stamp_of_not_held (h : ¬ Held actvar lo hi i) :
    stamp actvar lo hi f locvars i = locvars i :=
  if_neg h

@[simp] theorem stamp_self : stamp actvar lo lo f locvars = locvars :=
  funext fun _ => stamp_of_not_held not_held_self

/-- One variable more or less makes no difference where the change is made to it at once. -/
theorem stamp_update {lo' hi' k : Nat} (hf : ∀ v, f (f v) = f v)
    (h : ∀ i, Held actvar lo' hi' i ↔ i = k ∨ Held actvar lo hi i) :
    stamp actvar lo hi f (Function.update locvars k (f (locvars k))) =
      stamp actvar lo' hi' f locvars := by
  funext i
  by_cases hk : i = k
  · rw [stamp_of_held ((h i).mpr (.inl hk)), stamp, hk, Function.update_self, hf, ite_self]
  · by_cases hheld : Held actvar lo hi i
    · rw [stamp_of_held hheld, stamp_of_held ((h i).mpr (.inr hheld)), Function.update_of_ne hk]
    · have hnot : ¬ Held actvar lo' hi' i := fun hheld' => ((h i).mp hheld').elim hk hheld
      rw [stamp_of_not_held hheld, stamp_of_not_held hnot, Function.update_of_ne hk]

end stamp

theorem adjustLoop_eq (n : Nat) (fs : FuncState) (hn : n ≤ fs.nactvar) :
    adjustLoop n fs = { fs with
      locvars := stamp fs.actvar (fs.nactvar - n) fs.nactvar (withStart fs.pc) fs.locvars } := by
  induction n generalizing fs with
  | zero => simp [adjustLoop]
  | succ n ih =>
    have hfirst : fs.nactvar - n = fs.nactvar - (n + 1) + 1 := by omega
    rw [adjustLoop, ih (setstartpc fs (fs.nactvar - (n + 1))) (Nat.le_of_succ_le hn)]
    simp only [setstartpc, setlocvar, getlocvar]
    congr 1
    rw [hfirst]
    exact stamp_update (fun _ => rfl) fun i => held_first (by omega)

theorem adjustlocalvars_eq {nvars : Nat} {fs : FuncState}
    (h : fs.nactvar + nvars ≤ LUAI_MAXVARS) :
    adjustlocalvars nvars fs = { fs with
      nactvar := fs.nactvar + nvars
      locvars := stamp fs.actvar fs.nactvar (fs.nactvar + nvars) (withStart fs.pc) fs.locvars } := by
  have hmod : (fs.nactvar + nvars) % 2 ^ 8 = fs.nactvar + nvars := by
    rw [LUAI_MAXVARS] at h
    omega
  rw [adjustlocalvars, hmod, adjustLoop_eq _ _ (Nat.le_add_left ..)]
  simp

theorem removeLoop_eq (n : Nat) (fs : FuncState) (hn : n ≤ fs.nactvar) :
    removeLoop n fs = { fs with
      nactvar := fs.nactvar - n
      locvars := stamp fs.actvar (fs.nactvar - n) fs.nactvar (withEnd fs.pc) fs.locvars } := by
  induction n generalizing fs with
  | zero => simp [removeLoop]
  | succ n ih =>
    have hlevel : fs.nactvar - (n + 1) = fs.nactvar - 1 - n := by omega
    rw [removeLoop, ih _ (Nat.le_sub_one_of_lt hn)]
    simp only [setendpc, setlocvar, getlocvar, hlevel]
    congr 1
    have hlast : fs.nactvar = fs.nactvar - 1 + 1 := by omega
    refine stamp_update (fun _ => rfl) fun i => ?_
    rw [hlast]
    exact held_last (by omega)

theorem removevars_eq {level : Nat} {fs : FuncState} (h : level ≤ fs.nactvar) :
    removevars level fs = { fs with
      nactvar := level
      locvars := stamp fs.actvar level fs.nactvar (withEnd fs.pc) fs.locvars } := by
  rw [removevars, removeLoop_eq _ _ (Nat.sub_le ..), Nat.sub_sub_self h]

/-- The state after `new_localvar`. -/
def naming (name : String) (n : Nat) (fs : FuncState) : FuncState :=
  { fs with
    nlocvars := fs.nlocvars + 1
    locvars := Function.update fs.locvars fs.nlocvars
      { fs.locvars fs.nlocvars with varname := name }
    actvar := Function.update fs.actvar (fs.nactvar + n) fs.nlocvars
    registers := fs.registers ++ [fs.nactvar + n] }

def namings : List String → Nat → FuncState → FuncState
  | [], _, fs => fs
  | name :: names, n, fs => namings names (n + 1) (naming name n fs)

section naming

variable {names : List String} {name : String} {n : Nat} {fs fs' : FuncState}

theorem naming_pc : (naming name n fs).pc = fs.pc := rfl

theorem naming_nactvar : (naming name n fs).nactvar = fs.nactvar := rfl

theorem naming_nlocvars : (naming name n fs).nlocvars = fs.nlocvars + 1 := rfl

theorem naming_registers : (naming name n fs).registers = fs.registers ++ [fs.nactvar + n] := rfl

theorem naming_actvar :
    (naming name n fs).actvar = Function.update fs.actvar (fs.nactvar + n) fs.nlocvars := rfl

theorem naming_locvars : (naming name n fs).locvars = Function.update fs.locvars fs.nlocvars
    { fs.locvars fs.nlocvars with varname := name } := rfl

theorem namings_nil : namings [] n fs = fs := rfl

theorem namings_cons :
    namings (name :: names) n fs = namings names (n + 1) (naming name n fs) := rfl

theorem new_localvar_ok (h : new_localvar name n fs = .ok fs') :
    fs' = naming name n fs ∧ fs.nlocvars + 1 ≤ SHRT_MAX ∧ fs.nactvar + n + 1 ≤ LUAI_MAXVARS := by
  rw [new_localvar, ite_ok_error] at h
  obtain ⟨hlimit, h⟩ := h
  obtain ⟨⟨v, fs₁⟩, hregister, h⟩ := bind_ok.mp h
  rw [registerlocalvar, ite_ok_error] at hregister
  obtain ⟨hshort, hregister⟩ := hregister
  cases hregister
  cases h
  have hmod : fs.nlocvars % 2 ^ 16 = fs.nlocvars := by
    rw [SHRT_MAX] at hshort
    omega
  refine ⟨?_, hshort, hlimit⟩
  rw [hmod]
  rfl

theorem new_localvars_ok (h : new_localvars names n fs = .ok fs') (hshort : fs.nlocvars ≤ SHRT_MAX)
    (hlimit : fs.nactvar + n ≤ LUAI_MAXVARS) :
    fs' = namings names n fs ∧ fs.nlocvars + names.length ≤ SHRT_MAX ∧
      fs.nactvar + n + names.length ≤ LUAI_MAXVARS := by
  induction names generalizing n fs with
  | nil =>
    cases h
    exact ⟨rfl, hshort, hlimit⟩
  | cons name names ih =>
    obtain ⟨fs₁, hfirst, h⟩ := bind_ok.mp h
    obtain ⟨rfl, hshort₁, hlimit₁⟩ := new_localvar_ok hfirst
    obtain ⟨rfl, hshort', hlimit'⟩ := ih h hshort₁ hlimit₁
    refine ⟨rfl, ?_, ?_⟩
    · rw [naming_nlocvars] at hshort'
      simp only [List.length_cons]
      omega
    · rw [naming_nactvar] at hlimit'
      simp only [List.length_cons]
      omega

theorem namings_append (names names' : List String) (n : Nat) (fs : FuncState) :
    namings (names ++ names') n fs = namings names' (n + names.length) (namings names n fs) := by
  induction names generalizing n fs with
  | nil => rfl
  | cons name names ih =>
    have hn : n + (names.length + 1) = n + 1 + names.length := by omega
    rw [List.cons_append, namings_cons, ih, List.length_cons, hn, namings_cons]

@[simp] theorem namings_pc : (namings names n fs).pc = fs.pc := by
  induction names generalizing n fs with
  | nil => rfl
  | cons name names ih => rw [namings_cons, ih, naming_pc]

@[simp] theorem namings_nactvar : (namings names n fs).nactvar = fs.nactvar := by
  induction names generalizing n fs with
  | nil => rfl
  | cons name names ih => rw [namings_cons, ih, naming_nactvar]

@[simp] theorem namings_nlocvars : (namings names n fs).nlocvars = fs.nlocvars + names.length := by
  induction names generalizing n fs with
  | nil => rfl
  | cons name names ih =>
    simp only [namings_cons, ih, naming_nlocvars, List.length_cons]
    omega

@[simp] theorem namings_registers : (namings names n fs).registers =
    fs.registers ++ List.range' (fs.nactvar + n) names.length := by
  induction names generalizing n fs with
  | nil => simp [namings_nil]
  | cons name names ih =>
    rw [namings_cons, ih, naming_registers, naming_nactvar, List.append_assoc, List.length_cons,
      List.range'_succ]
    rfl

theorem namings_actvar_lt {j : Nat} (hj : j < fs.nactvar + n) :
    (namings names n fs).actvar j = fs.actvar j := by
  induction names generalizing n fs with
  | nil => rfl
  | cons name names ih =>
    rw [namings_cons, ih (by rw [naming_nactvar]; omega), naming_actvar]
    exact Function.update_of_ne (by omega) ..

theorem namings_actvar {j : Nat} (hj : j < names.length) :
    (namings names n fs).actvar (fs.nactvar + n + j) = fs.nlocvars + j := by
  induction names generalizing n fs j with
  | nil => exact absurd hj (Nat.not_lt_zero j)
  | cons name names ih =>
    cases j with
    | zero =>
      rw [namings_cons, namings_actvar_lt (by rw [naming_nactvar]; omega), naming_actvar]
      exact Function.update_self ..
    | succ j =>
      have hrest : (namings names (n + 1) (naming name n fs)).actvar (fs.nactvar + (n + 1) + j) =
          fs.nlocvars + 1 + j := ih (Nat.lt_of_succ_lt_succ hj)
      have hplace : fs.nactvar + n + (j + 1) = fs.nactvar + (n + 1) + j := by omega
      have hindex : fs.nlocvars + (j + 1) = fs.nlocvars + 1 + j := by omega
      rw [namings_cons, hplace, hindex]
      exact hrest

theorem namings_locvars_lt {i : Nat} (hi : i < fs.nlocvars) :
    (namings names n fs).locvars i = fs.locvars i := by
  induction names generalizing n fs with
  | nil => rfl
  | cons name names ih =>
    rw [namings_cons, ih (by rw [naming_nlocvars]; omega), naming_locvars]
    exact Function.update_of_ne hi.ne ..

theorem namings_varname {j : Nat} (hj : names[j]? = some name) :
    ((namings names n fs).locvars (fs.nlocvars + j)).varname = name := by
  induction names generalizing n fs j with
  | nil => simp at hj
  | cons first names ih =>
    cases j with
    | zero =>
      rw [namings_cons, namings_locvars_lt (by rw [naming_nlocvars]; omega), naming_locvars]
      simpa using hj
    | succ j =>
      have hindex : fs.nlocvars + (j + 1) = (naming first n fs).nlocvars + j := by
        rw [naming_nlocvars]
        omega
      rw [namings_cons, hindex]
      exact ih hj

end naming

/-! ## What is recorded -/

/-- The state behind some more instructions. -/
def advance (n : Nat) (fs : FuncState) : FuncState := { fs with pc := fs.pc + n }

section advance

variable (n : Nat) (fs : FuncState)

@[simp] theorem advance_pc : (advance n fs).pc = fs.pc + n := rfl
@[simp] theorem advance_nactvar : (advance n fs).nactvar = fs.nactvar := rfl
@[simp] theorem advance_actvar : (advance n fs).actvar = fs.actvar := rfl
@[simp] theorem advance_nlocvars : (advance n fs).nlocvars = fs.nlocvars := rfl
@[simp] theorem advance_locvars : (advance n fs).locvars = fs.locvars := rfl
@[simp] theorem advance_registers : (advance n fs).registers = fs.registers := rfl

end advance

/-- The active variables are registered, and there are not too many. -/
structure Registered (fs : FuncState) : Prop where
  limit : fs.nactvar ≤ LUAI_MAXVARS
  short : fs.nlocvars ≤ SHRT_MAX
  actvar : ∀ j < fs.nactvar, fs.actvar j < fs.nlocvars

/-- Between the states `size` instructions were added and the locals of `scope` registered, whose
argument is the end of the block. Those that are still active have no `endpc` yet. -/
structure Recorded (fs fs' : FuncState) (size opens : Nat) (scope : Nat → List Local) : Prop where
  registered : Registered fs'
  pc : fs'.pc = fs.pc + size
  nactvar : fs'.nactvar = fs.nactvar + opens
  nlocvars : ∀ endpc, fs'.nlocvars = fs.nlocvars + (scope endpc).length
  registers : ∀ endpc, fs'.registers = fs.registers ++ (scope endpc).map (·.register)
  actvar : ∀ j < fs.nactvar, fs'.actvar j = fs.actvar j
  fresh : ∀ j, fs.nactvar ≤ j → j < fs'.nactvar → fs.nlocvars ≤ fs'.actvar j
  earlier : ∀ i < fs.nlocvars, fs'.locvars i = fs.locvars i
  locvars : ∀ endpc i v, (scope endpc)[i]? = some v →
    stamp fs'.actvar fs.nactvar fs'.nactvar (withEnd endpc) fs'.locvars (fs.nlocvars + i) = v.locvar

section Recorded

variable {fs fs₁ fs₂ : FuncState} {size size' opens opens' : Nat} {scope scope' : Nat → List Local}

theorem luaK_code_ok {n : Nat} (h : luaK_code n fs = .ok fs₁) : fs₁ = advance n fs := by
  rw [luaK_code, ite_ok_error] at h
  cases h.2
  rfl

theorem Recorded.advanced (hfs : Registered fs) (n : Nat) :
    Recorded fs (advance n fs) n 0 (fun _ => []) where
  registered := ⟨hfs.limit, hfs.short, hfs.actvar⟩
  pc := rfl
  nactvar := rfl
  nlocvars := fun _ => rfl
  registers := fun _ => (List.append_nil _).symm
  actvar := fun _ _ => rfl
  fresh := fun j hj hlt => absurd hj (Nat.not_le.mpr hlt)
  earlier := fun _ _ => rfl
  locvars := fun _ _ _ hv => by simp at hv

theorem Recorded.code {n : Nat} (hfs : Registered fs) (h : luaK_code n fs = .ok fs₁) :
    Recorded fs fs₁ n 0 (fun _ => []) := by
  obtain rfl := luaK_code_ok h
  exact .advanced hfs n

theorem Recorded.append (h : Recorded fs fs₁ size opens scope)
    (h' : Recorded fs₁ fs₂ size' opens' scope') :
    Recorded fs fs₂ (size + size') (opens + opens') (fun e => scope e ++ scope' e) where
  registered := h'.registered
  pc := by rw [h'.pc, h.pc, Nat.add_assoc]
  nactvar := by rw [h'.nactvar, h.nactvar, Nat.add_assoc]
  nlocvars := by
    intro e
    rw [h'.nlocvars e, h.nlocvars e, List.length_append, Nat.add_assoc]
  registers := by
    intro e
    rw [h'.registers e, h.registers e, List.map_append, List.append_assoc]
  actvar := by
    intro j hj
    rw [h'.actvar j (by rw [h.nactvar]; omega), h.actvar j hj]
  fresh := by
    intro j hj hlt
    have hnlocvars := h.nlocvars 0
    by_cases hmid : j < fs₁.nactvar
    · rw [h'.actvar j hmid]
      exact h.fresh j hj hmid
    · exact (by omega : fs.nlocvars ≤ fs₁.nlocvars).trans (h'.fresh j (by omega) hlt)
  earlier := by
    intro i hi
    have hnlocvars := h.nlocvars 0
    rw [h'.earlier i (by omega), h.earlier i hi]
  locvars := by
    intro e i v hv
    have hnlocvars := h.nlocvars e
    have hnactvar := h.nactvar
    have hnactvar' := h'.nactvar
    by_cases hi : i < (scope e).length
    · -- registered before: the second part opens no variable there
      rw [List.getElem?_append_left hi] at hv
      rw [← h.locvars e i v hv]
      have hheld : Held fs₂.actvar fs.nactvar fs₂.nactvar (fs.nlocvars + i) ↔
          Held fs₁.actvar fs.nactvar fs₁.nactvar (fs.nlocvars + i) := by
        constructor
        · rintro ⟨j, hj, hlo, hactvar⟩
          have hmid : j < fs₁.nactvar := by
            by_contra hmid
            have := h'.fresh j (by omega) hj
            omega
          exact ⟨j, hmid, hlo, by rw [← h'.actvar j hmid, hactvar]⟩
        · rintro ⟨j, hj, hlo, hactvar⟩
          exact ⟨j, by omega, hlo, by rw [h'.actvar j hj, hactvar]⟩
      simp only [stamp, hheld, h'.earlier (fs.nlocvars + i) (by omega)]
    · rw [List.getElem?_append_right (by omega)] at hv
      have hindex : fs.nlocvars + i = fs₁.nlocvars + (i - (scope e).length) := by omega
      rw [hindex, ← h'.locvars e _ v hv]
      have hheld : Held fs₂.actvar fs.nactvar fs₂.nactvar (fs₁.nlocvars + (i - (scope e).length)) ↔
          Held fs₂.actvar fs₁.nactvar fs₂.nactvar (fs₁.nlocvars + (i - (scope e).length)) := by
        constructor
        · rintro ⟨j, hj, hlo, hactvar⟩
          have hmid : fs₁.nactvar ≤ j := by
            by_contra hmid
            rw [h'.actvar j (by omega)] at hactvar
            have := h.registered.actvar j (by omega)
            omega
          exact ⟨j, hj, hmid, hactvar⟩
        · rintro ⟨j, hj, hlo, hactvar⟩
          exact ⟨j, hj, by omega, hactvar⟩
      simp only [stamp, hheld]

/-- At the end of a block its locals get their `endpc`. -/
theorem Recorded.removevars (hfs : Registered fs) (h : Recorded fs fs₁ size opens scope) :
    Recorded fs (removevars fs.nactvar fs₁) size 0 (fun _ => scope (fs.pc + size)) := by
  have hnactvar := h.nactvar
  rw [removevars_eq (by omega)]
  exact {
    registered := by
      refine ⟨hfs.limit, h.registered.short, fun j hj => ?_⟩
      exact h.registered.actvar j (hj.trans_le (show fs.nactvar ≤ fs₁.nactvar by omega))
    pc := h.pc
    nactvar := rfl
    nlocvars := fun _ => h.nlocvars _
    registers := fun _ => h.registers _
    actvar := h.actvar
    fresh := fun j hj hlt => absurd hj (Nat.not_le.mpr hlt)
    earlier := by
      intro i hi
      refine (stamp_of_not_held ?_).trans (h.earlier i hi)
      rintro ⟨j, hj, hlo, rfl⟩
      have := h.fresh j hlo hj
      omega
    locvars := by
      intro e i v hv
      have hlocvars := h.locvars (fs.pc + size) i v hv
      rw [← h.pc] at hlocvars
      simpa using hlocvars }

theorem Recorded.leaveblock (hfs : Registered fs) (h : Recorded fs fs₁ size opens scope)
    {upval : Bool} (hleave : leaveblock fs.nactvar upval fs₁ = .ok fs₂) :
    Recorded fs fs₂ (size + upval.toNat) 0 (fun _ => scope (fs.pc + size)) := by
  have hremove := h.removevars hfs
  have hcode := hremove.append (.code hremove.registered hleave)
  simpa using hcode

/-- A declaration: the names are registered, and activated after some code. -/
theorem Recorded.declare (hfs : Registered fs) (names : List String) (n : Nat)
    (hshort : fs.nlocvars + names.length ≤ SHRT_MAX)
    (hlimit : fs.nactvar + names.length ≤ LUAI_MAXVARS) :
    Recorded fs (adjustlocalvars names.length (advance n (namings names 0 fs))) n names.length
      (fun e => declared names fs.nactvar (fs.pc + n) e) := by
  rw [adjustlocalvars_eq (by simpa using hlimit)]
  have hplace : ∀ i < names.length,
      (namings names 0 fs).actvar (fs.nactvar + i) = fs.nlocvars + i := fun i hi =>
    namings_actvar hi
  exact {
    registered := by
      refine ⟨by simpa using hlimit, by simpa using hshort, fun j hj => ?_⟩
      simp only [advance_nactvar, advance_actvar, advance_nlocvars, namings_nactvar,
        namings_nlocvars] at hj ⊢
      by_cases hold : j < fs.nactvar
      · rw [namings_actvar_lt hold]
        have := hfs.actvar j hold
        omega
      · obtain ⟨i, rfl⟩ := Nat.exists_eq_add_of_le (Nat.le_of_not_lt hold)
        rw [hplace i (by omega)]
        omega
    pc := by simp
    nactvar := by simp
    nlocvars := by simp
    registers := by simp [registers_declared]
    actvar := fun j hj => namings_actvar_lt hj
    fresh := by
      intro j hj hlt
      simp only [advance_nactvar, advance_actvar, namings_nactvar] at hlt ⊢
      obtain ⟨i, rfl⟩ := Nat.exists_eq_add_of_le hj
      rw [hplace i (by omega)]
      omega
    earlier := by
      intro i hi
      refine (stamp_of_not_held ?_).trans (namings_locvars_lt hi)
      rintro ⟨j, hj, hlo, hactvar⟩
      simp only [advance_nactvar, advance_actvar, namings_nactvar] at hj hlo hactvar
      obtain ⟨k, rfl⟩ := Nat.exists_eq_add_of_le hlo
      rw [hplace k (by omega)] at hactvar
      omega
    locvars := by
      intro e i v hv
      rw [getElem?_declared, Option.map_eq_some_iff] at hv
      obtain ⟨name, hname, rfl⟩ := hv
      have hi := (List.getElem?_eq_some_iff.mp hname).1
      have hheld : Held (namings names 0 fs).actvar fs.nactvar (fs.nactvar + names.length)
          (fs.nlocvars + i) :=
        ⟨fs.nactvar + i, by omega, by omega, hplace i hi⟩
      simp only [advance_nactvar, advance_actvar, advance_locvars, advance_pc, namings_nactvar,
        namings_pc, stamp_of_held hheld]
      simp [withEnd, withStart, Local.locvar, namings_varname hname] }

/-- `localfunc` declares its name before the function, but its scope starts behind it. -/
theorem setstartpc_adjust {n : Nat} (hlimit : fs.nactvar + 1 ≤ LUAI_MAXVARS) :
    setstartpc (advance n (adjustlocalvars 1 fs)) fs.nactvar = adjustlocalvars 1 (advance n fs) := by
  have hadvance : (advance n fs).nactvar + 1 ≤ LUAI_MAXVARS := hlimit
  rw [adjustlocalvars_eq hlimit, adjustlocalvars_eq hadvance]
  simp only [setstartpc, setlocvar, getlocvar, advance]
  congr 1
  have hheld : ∀ i, Held fs.actvar fs.nactvar (fs.nactvar + 1) i ↔ i = fs.actvar fs.nactvar := by
    intro i
    rw [held_last le_rfl]
    exact or_iff_left not_held_self
  funext i
  by_cases hi : i = fs.actvar fs.nactvar
  · rw [hi, Function.update_self, stamp_of_held ((hheld _).mpr rfl),
      stamp_of_held ((hheld _).mpr rfl)]
    rfl
  · rw [Function.update_of_ne hi, stamp_of_not_held (hi ∘ (hheld i).mp),
      stamp_of_not_held (hi ∘ (hheld i).mp)]

theorem naming_adjust {name : String} {m n k : Nat} (hlimit : fs.nactvar + m ≤ LUAI_MAXVARS)
    (hold : ∀ j, fs.nactvar ≤ j → j < fs.nactvar + m → fs.actvar j < fs.nlocvars) :
    adjustlocalvars m (advance n (naming name (m + k) fs)) =
      naming name k (adjustlocalvars m (advance n fs)) := by
  have hnaming : (advance n (naming name (m + k) fs)).nactvar + m ≤ LUAI_MAXVARS := hlimit
  have hadvance : (advance n fs).nactvar + m ≤ LUAI_MAXVARS := hlimit
  rw [adjustlocalvars_eq hnaming, adjustlocalvars_eq hadvance]
  simp only [naming, advance, Nat.add_assoc]
  congr 1
  funext i
  have hheld : Held (Function.update fs.actvar (fs.nactvar + (m + k)) fs.nlocvars) fs.nactvar
      (fs.nactvar + m) i ↔ Held fs.actvar fs.nactvar (fs.nactvar + m) i := by
    constructor
    · rintro ⟨j, hj, hlo, rfl⟩
      exact ⟨j, hj, hlo, (Function.update_of_ne (by omega) ..).symm⟩
    · rintro ⟨j, hj, hlo, rfl⟩
      exact ⟨j, hj, hlo, Function.update_of_ne (by omega) ..⟩
  by_cases hi : i = fs.nlocvars
  · have hnot : ¬ Held fs.actvar fs.nactvar (fs.nactvar + m) i := by
      rintro ⟨j, hj, hlo, hactvar⟩
      have := hold j hlo hj
      omega
    rw [stamp_of_not_held (hnot ∘ hheld.mp), hi, Function.update_self, Function.update_self,
      stamp_of_not_held (hi ▸ hnot)]
  · rw [Function.update_of_ne hi, stamp, Function.update_of_ne hi, stamp]
    simp only [hheld]

/-- Names in later registers may be registered before or after others are activated. -/
theorem namings_adjust {names : List String} {m n k : Nat} (hlimit : fs.nactvar + m ≤ LUAI_MAXVARS)
    (hold : ∀ j, fs.nactvar ≤ j → j < fs.nactvar + m → fs.actvar j < fs.nlocvars) :
    adjustlocalvars m (advance n (namings names (m + k) fs)) =
      namings names k (adjustlocalvars m (advance n fs)) := by
  induction names generalizing k fs with
  | nil => rfl
  | cons name names ih =>
    rw [namings, namings, ← naming_adjust hlimit hold]
    refine ih (k := k + 1) hlimit fun j hlo hj => ?_
    simp only [naming] at hlo hj ⊢
    rw [Function.update_of_ne (by omega)]
    exact (hold j hlo hj).trans (Nat.lt_succ_self _)

end Recorded

/-! ## Statements -/

/-- What a part of the parser records for a statement or a chunk, from any state. -/
def Records (run : FuncState → Except String FuncState) (size opens : Nat)
    (scope : (register pc endpc : Nat) → List Local) : Prop :=
  ∀ fs fs', Registered fs → run fs = .ok fs' →
    Recorded fs fs' size opens (scope fs.nactvar fs.pc)

section Records

variable {fs fs' : FuncState} {run : FuncState → Except String FuncState} {size opens : Nat}
  {scope : (register pc endpc : Nat) → List Local}

theorem Records.block (h : Records run size opens scope) (upval : Bool) :
    Records (block upval run) (size + upval.toNat) 0
      (fun register pc _ => scope register pc (pc + size)) := by
  intro fs fs' hfs hblock
  obtain ⟨fs₁, hrun, hleave⟩ := bind_ok.mp hblock
  exact (h fs fs₁ hfs hrun).leaveblock hfs hleave

theorem Recorded.forbody {control names : List String} {exps : Nat} {upval isnum outer : Bool}
    {fs₁ fs₂ fs₃ : FuncState} (hfs : Registered fs) (h : Records run size opens scope)
    (hcontrol : control.length = 3)
    (hshort : fs.nlocvars + (control ++ names).length ≤ SHRT_MAX)
    (hlimit : fs.nactvar + (control ++ names).length ≤ LUAI_MAXVARS)
    (hcode : luaK_code exps (namings (control ++ names) 0 fs) = .ok fs₁)
    (hbody : Locals.forbody upval run names.length isnum outer fs₁ = .ok fs₂)
    (hleave : Locals.leaveblock fs.nactvar false fs₂ = .ok fs₃) :
    Recorded fs fs₃ (exps + (1 + (size + upval.toNat) + outer.toNat + forloop isnum)) 0 fun _ =>
      forScope control names isnum size upval outer
        (scope (fs.nactvar + 3 + names.length) (fs.pc + exps + 1) (fs.pc + exps + 1 + size))
        fs.nactvar (fs.pc + exps) := by
  rw [List.length_append, hcontrol] at hshort hlimit
  obtain rfl := luaK_code_ok hcode
  obtain ⟨fsPrep, hprep, hbody⟩ := bind_ok.mp hbody
  obtain ⟨fsBlock, hblock, hbody⟩ := bind_ok.mp hbody
  obtain ⟨fsScope, hscope, hloop⟩ := bind_ok.mp hbody
  have hactive := Recorded.declare hfs control exps (by omega) (by omega)
  -- the declared names might as well be registered when the control variables are active
  have hmove : adjustlocalvars 3 (advance exps (namings (control ++ names) 0 fs)) =
      namings names 0 (adjustlocalvars 3 (advance exps (namings control 0 fs))) := by
    rw [namings_append, hcontrol]
    refine namings_adjust (k := 0) (by simp; omega) fun j hlo hj => ?_
    simp only [namings_nactvar, namings_nlocvars] at hlo hj ⊢
    obtain ⟨i, rfl⟩ := Nat.exists_eq_add_of_le hlo
    have hplace : (namings control 0 fs).actvar (fs.nactvar + i) = fs.nlocvars + i :=
      namings_actvar (by omega)
    omega
  rw [hcontrol] at hactive
  rw [hmove] at hprep
  obtain rfl := luaK_code_ok hprep
  clear hprep
  generalize adjustlocalvars 3 (advance exps (namings control 0 fs)) = fsControl at *
  have hnactvar := hactive.nactvar
  have hnlocvars := hactive.nlocvars 0
  rw [length_declared] at hnlocvars
  have hdeclare := Recorded.declare hactive.registered names 1 (by omega) (by omega)
  rw [advance_nactvar, namings_nactvar] at hscope
  have hinner := hdeclare.append (h.block upval _ _ hdeclare.registered hblock)
  have hdeclared := hinner.leaveblock hactive.registered hscope
  have hend := hdeclared.append (.code hdeclared.registered hloop)
  have hall := (hactive.append hend).leaveblock hfs hleave
  simp only [Bool.toNat_false, Nat.add_zero] at hall
  convert hall using 2
  rw [hdeclare.pc, hdeclare.nactvar, hactive.pc, hnactvar, List.append_nil, forScope, hcontrol]
  simp only [Nat.add_assoc]

theorem Records.code (n : Nat) : Records (luaK_code n) n 0 (fun _ _ _ => []) :=
  fun _ _ hfs h => .code hfs h

theorem Records.for (control names : List String) (exps : Nat) (upval isnum outer : Bool)
    (h : Records run size opens scope) (hcontrol : control.length = 3) :
    Records (fun fs => do
        let level := fs.nactvar
        let fs ← new_localvars (control ++ names) 0 fs
        let fs ← luaK_code exps fs
        let fs ← Locals.forbody upval run names.length isnum outer fs
        leaveblock level false fs)
      (exps + (1 + (size + upval.toNat) + outer.toNat + forloop isnum)) 0 fun register pc _ =>
        forScope control names isnum size upval outer
          (scope (register + 3 + names.length) (pc + exps + 1) (pc + exps + 1 + size))
          register (pc + exps) := by
  intro fs fs' hfs hrun
  obtain ⟨fs₁, hnames, hrun⟩ := bind_ok.mp hrun
  obtain ⟨fs₂, hcode, hrun⟩ := bind_ok.mp hrun
  obtain ⟨fs₃, hbody, hleave⟩ := bind_ok.mp hrun
  obtain ⟨rfl, hshort, hlimit⟩ := new_localvars_ok hnames hfs.short hfs.limit
  exact .forbody hfs h hcontrol hshort hlimit hcode hbody hleave

theorem Records.nil : Records .ok 0 0 (fun _ _ _ => []) := by
  intro fs fs' hfs h
  cases h
  exact .advanced hfs 0

theorem Records.bind {run' : FuncState → Except String FuncState} {size' opens' : Nat}
    {scope' : (register pc endpc : Nat) → List Local} (h : Records run size opens scope)
    (h' : Records run' size' opens' scope') :
    Records (fun fs => run fs >>= run') (size + size') (opens + opens') fun register pc endpc =>
      scope register pc endpc ++ scope' (register + opens) (pc + size) endpc := by
  intro fs fs' hfs hrun
  obtain ⟨fs₁, hfirst, hrest⟩ := bind_ok.mp hrun
  have hrecorded := h fs fs₁ hfs hfirst
  have hall := hrecorded.append (h' fs₁ fs' hrecorded.registered hrest)
  rw [hrecorded.nactvar, hrecorded.pc] at hall
  exact hall

theorem Records.congr {run' : FuncState → Except String FuncState} {size' opens' : Nat}
    {scope' : (register pc endpc : Nat) → List Local} (h : Records run size opens scope)
    (hrun : ∀ fs, run' fs = run fs) (hsize : size' = size) (hopens : opens' = opens)
    (hscope : ∀ register pc endpc, scope' register pc endpc = scope register pc endpc) :
    Records run' size' opens' scope' := by
  obtain rfl : run' = run := funext hrun
  obtain rfl : scope' = scope := by
    funext register pc endpc
    exact hscope register pc endpc
  rw [hsize, hopens]
  exact h

end Records

mutual

theorem Statement.records (stat : Statement) :
    Records (statement stat) stat.size stat.opens stat.scope := by
  cases stat with
  | exprstat code => exact .code code
  | dostat body upval => exact body.records.block upval
  | ifstat cond body upval more =>
    refine ((Records.code cond).bind ((body.records.block upval).bind more.records)).congr
      (fun _ => rfl) ?_ rfl ?_
    · rw [Statement.size]
      omega
    · intro register pc endpc
      simp [Statement.scope, Nat.add_assoc]
  | whilestat cond body upval =>
    refine ((Records.code cond).bind
      (((body.records.block upval).bind (.code 1)).block false)).congr ?_ ?_ rfl ?_
    · intro fs
      rw [statement]
      refine bind_congr fun fs => ?_
      simp only [block, bind_assoc]
    · rw [Statement.size, Bool.toNat_false]
      omega
    · intro register pc endpc
      simp [Statement.scope]
  | fornum varname exps body upval scope =>
    refine (Records.for ["(for index)", "(for limit)", "(for step)"] [varname] exps upval true
      scope body.records rfl).congr ?_ ?_ rfl ?_
    · intro fs
      simp only [statement, List.cons_append, List.nil_append, new_localvars, bind_assoc, ok_bind]
      rfl
    · rw [Statement.size]
      omega
    · intro register pc endpc
      rfl
  | forlist indexname names exps body upval scope =>
    refine (Records.for ["(for generator)", "(for state)", "(for control)"] (indexname :: names) exps
      upval false scope body.records rfl).congr ?_ ?_ rfl ?_
    · intro fs
      simp only [statement, List.cons_append, List.nil_append, new_localvars, bind_assoc]
      rfl
    · rw [Statement.size]
      omega
    · intro register pc endpc
      have hregister : register + 3 + (names.length + 1) = register + (names.length + 4) := by omega
      simp only [Statement.scope, List.length_cons, hregister]
  | repeatstat body cond upval =>
    refine ((((body.records.bind ((Records.code cond).bind
      (.code (if upval then 2 else 0)))).block upval).bind
        (.code upval.toNat)).block false).congr ?_ ?_ rfl ?_
    · intro fs
      simp only [statement, block, bind_assoc]
    · rw [Statement.size, Bool.toNat_false]
      omega
    · intro register pc endpc
      simp [Statement.scope, Nat.add_assoc]
  | localstat name names exps =>
    intro fs fs' hfs h
    rw [statement, ← bind_assoc] at h
    obtain ⟨fs₁, hnames, h⟩ := bind_ok.mp h
    obtain ⟨fs₂, hcode, h⟩ := bind_ok.mp h
    cases h
    have hall : new_localvars (name :: names) 0 fs = .ok fs₁ := hnames
    obtain ⟨rfl, hshort, hlimit⟩ := new_localvars_ok hall hfs.short hfs.limit
    obtain rfl := luaK_code_ok hcode
    exact .declare hfs (name :: names) exps hshort hlimit
  | localfunc name body =>
    intro fs fs' hfs h
    obtain ⟨fs₁, hname, h⟩ := bind_ok.mp h
    obtain ⟨fs₂, hcode, h⟩ := bind_ok.mp h
    cases h
    obtain ⟨rfl, hshort, hlimit⟩ := new_localvar_ok hname
    obtain rfl := luaK_code_ok hcode
    have hactive : (naming name 0 fs).nactvar + 1 ≤ LUAI_MAXVARS := hlimit
    have hlast : (advance body (adjustlocalvars 1 (naming name 0 fs))).nactvar - 1 =
        (naming name 0 fs).nactvar := by
      rw [adjustlocalvars_eq hactive]
      rfl
    rw [hlast, setstartpc_adjust hactive]
    exact .declare hfs [name] body hshort hlimit

theorem Chunk.records (c : Chunk) : Records (chunk c) c.size c.opens c.scope := by
  cases c with
  | done => exact .nil
  | next stat rest => exact stat.records.bind rest.records

theorem Clauses.records (more : Clauses) :
    Records (clauses more) more.size 0 (fun register pc _ => more.scope register pc) := by
  cases more with
  | done => exact .nil
  | elseblock body upval =>
    refine ((Records.code 1).bind (body.records.block upval)).congr (fun _ => rfl) ?_ rfl ?_
    · rw [Clauses.size]
      omega
    · intro register pc endpc
      simp [Clauses.scope]
  | elseif cond body upval more =>
    refine ((Records.code 1).bind ((Records.code cond).bind
      ((body.records.block upval).bind more.records))).congr (fun _ => rfl) ?_ rfl ?_
    · rw [Clauses.size]
      omega
    · intro register pc endpc
      simp [Clauses.scope, Nat.add_assoc]

end

/-! ## Functions -/

/-- The declaration of parameters. -/
theorem Records.declare (names : List String) :
    Records (fun fs => do
        let fs ← new_localvars names 0 fs
        .ok (adjustlocalvars names.length fs)) 0 names.length (declared names) := by
  intro fs fs' hfs h
  obtain ⟨fs₁, hnames, h⟩ := bind_ok.mp h
  cases h
  obtain ⟨rfl, hshort, hlimit⟩ := new_localvars_ok hnames hfs.short hfs.limit
  exact .declare hfs names 0 hshort hlimit

namespace Function

variable {f : Function} {locvars : Nat → LocVar} {actvar : Nat → Nat} {fs : FuncState}

theorem recorded (h : f.body locvars actvar = .ok fs) :
    Recorded (open_func f.linedefined locvars actvar) fs (f.chunk.size + 1) 0 (fun _ => f.scope) := by
  have hopen : Registered (open_func f.linedefined locvars actvar) :=
    ⟨Nat.zero_le _, Nat.zero_le _, fun j hj => absurd hj (Nat.not_lt_zero j)⟩
  have hbody := ((Records.declare f.self).bind (.declare f.parlist)).bind f.chunk.records
  rw [body] at h
  obtain ⟨fs₁, hself, h⟩ := bind_ok.mp h
  obtain ⟨fs₂, hparlist, h⟩ := bind_ok.mp h
  obtain ⟨fs₃, hchunk, hreturn⟩ := bind_ok.mp h
  have hrun := hbody (open_func f.linedefined locvars actvar) fs₃ hopen
    (by simp [hself, hparlist, hchunk])
  have hremove := hrun.removevars hopen
  have hall := hremove.append (.code hremove.registered hreturn)
  convert hall using 2
  · simp
  · simp [Function.scope, declared_append, open_func]

theorem vector_eq (h : f.body locvars actvar = .ok fs) : fs.vector = f.scope.map Local.locvar := by
  have hrecorded := recorded h
  have hlength : fs.nlocvars = f.scope.length := by
    simpa [open_func] using hrecorded.nlocvars 0
  apply List.ext_getElem
  · simp [FuncState.vector, hlength]
  · intro i hi hscope
    have hlocvars := hrecorded.locvars 0 i _
      (List.getElem?_eq_getElem (by simpa using hscope))
    rw [hrecorded.nactvar] at hlocvars
    simpa [FuncState.vector, open_func] using hlocvars

theorem registers_eq (h : f.body locvars actvar = .ok fs) :
    fs.registers = f.scope.map (·.register) := by
  simpa [open_func] using (recorded h).registers 0

theorem nests (f : Function) : ∃ opens, Nests 0 0 f.chunk.size f.chunk.size opens f.scope := by
  refine ⟨(f.self ++ f.parlist).length + f.chunk.opens, ?_⟩
  have hparameters := Nests.declared (f.self ++ f.parlist) 0 f.chunk.size (Nat.le_refl 0) le_rfl
  have hchunk := f.chunk.nests (f.self.length + f.parlist.length) 0 f.chunk.size (by omega)
  rw [Nat.zero_add] at hchunk
  refine hparameters.append ?_ le_rfl (Nat.zero_le _)
  rwa [Nat.zero_add, List.length_append]

end Function

/-! ## The lookup -/

theorem luaF_getlocalname_eq {l : List Local} (hsorted : l.Pairwise (·.startpc ≤ ·.startpc)) (n : Nat)
    (pc : Int) : luaF_getlocalname (l.map Local.locvar) (n + 1) pc =
      (active pc l)[n]?.map (·.varname) := by
  induction l generalizing n with
  | nil => rfl
  | cons v l ih =>
    obtain ⟨hfirst, hrest⟩ := List.pairwise_cons.mp hsorted
    rw [List.map_cons, luaF_getlocalname]
    by_cases hstart : (v.startpc : Int) ≤ pc
    · by_cases hend : pc < v.endpc
      · have hactive : active pc (v :: l) = v :: active pc l :=
          List.filter_cons_of_pos (by simp [Local.activeAt, hstart, hend])
        cases n with
        | zero => simp [Local.locvar, hstart, hend, hactive]
        | succ n =>
          have hne : (n : Int) + 1 ≠ 0 := by omega
          simp [Local.locvar, hstart, hend, hactive, hne, ih hrest]
      · have hactive : active pc (v :: l) = active pc l :=
          List.filter_cons_of_neg (by simp [Local.activeAt, hend])
        simp [Local.locvar, hstart, hend, hactive, ih hrest]
    · -- the rest starts no earlier
      have hnone : active pc (v :: l) = [] := by
        rw [active, List.filter_eq_nil_iff]
        intro w hw
        have hw : v.startpc ≤ w.startpc := by
          rcases List.mem_cons.mp hw with rfl | hw
          · exact le_rfl
          · exact hfirst w hw
        simp only [Local.activeAt, decide_eq_true_eq]
        omega
      simp [Local.locvar, hstart, hnone]

/-- In a list of locals with the registers from 0 on, the one in a register. -/
theorem find?_register {l : List Local} {r : Nat} (n : Nat)
    (hregisters : l.map (·.register) = List.range' r l.length) :
    l.find? (fun v => v.register = r + n) = l[n]? := by
  induction l generalizing r n with
  | nil => rfl
  | cons v l ih =>
    simp only [List.map_cons, List.length_cons, List.range'_succ, List.cons.injEq] at hregisters
    obtain ⟨hfirst, hrest⟩ := hregisters
    cases n with
    | zero => simp [hfirst]
    | succ n =>
      have hplace : r + (n + 1) = r + 1 + n := by omega
      have hne : r ≠ r + 1 + n := by omega
      simp [hfirst, hplace, hne, ih n hrest]

/-- The locals of every function are recorded with their scopes, in the order in which these start. The
locals in scope at a place are in the registers from 0 on, and `luaF_getlocalname` finds the name of
the one in register `n - 1`, if there is one. -/
theorem luaF_getlocalname_scope (f : Function) (locvars : Nat → LocVar) (actvar : Nat → Nat)
    (fs : FuncState) (hbody : f.body locvars actvar = .ok fs) :
    fs.vector = f.scope.map Local.locvar ∧ fs.registers = f.scope.map (·.register) ∧
      fs.vector.Pairwise (·.startpc ≤ ·.startpc) ∧
      ∀ pc : Int,
        (active pc f.scope).map (·.register) = List.range (active pc f.scope).length ∧
        ∀ n : Nat, 1 ≤ n →
          luaF_getlocalname fs.vector n pc =
            ((active pc f.scope).find? (fun v => v.register = n - 1)).map (·.varname) ∧
          (luaF_getlocalname fs.vector n pc = none ↔ (active pc f.scope).length < n) := by
  obtain ⟨opens, hnests⟩ := f.nests
  have hvector := Function.vector_eq hbody
  refine ⟨hvector, Function.registers_eq hbody, ?_, fun pc => ⟨?_, fun n hn => ?_⟩⟩
  · rw [hvector, List.pairwise_map]
    exact hnests.sorted
  · rw [List.range_eq_range']
    exact hnests.stacked pc
  · obtain ⟨n, rfl⟩ := Nat.exists_eq_add_of_le' hn
    have hname : luaF_getlocalname fs.vector (n + 1 : Nat) pc =
        (active pc f.scope)[n]?.map (·.varname) := by
      rw [hvector]
      exact luaF_getlocalname_eq hnests.sorted n pc
    have hfind := find?_register n (hnests.stacked pc)
    rw [Nat.zero_add] at hfind
    rw [hname, Nat.add_sub_cancel, hfind]
    refine ⟨rfl, ?_⟩
    rw [Option.map_eq_none_iff, List.getElem?_eq_none_iff]
    omega

/-- `function (a, ...) local x; for i = 1, 2 do local y end end` -/
def loopExample : Function where
  linedefined := 1
  needself := false
  params := ["a"]
  hasarg := true
  chunk := .next (.localstat "x" [] 1) (.next
    (.fornum "i" 3 (.next (.localstat "y" [] 1) .done) false false) .done)

/-- In the body of the loop the hidden variables have registers, too. -/
theorem luaF_getlocalname_loop :
    ∃ fs, loopExample.body (fun _ => ⟨"", 0, 0⟩) id = .ok fs ∧
      luaF_getlocalname fs.vector 7 5 = some "i" ∧ luaF_getlocalname fs.vector 8 5 = none := by
  have hok : (loopExample.body (fun _ => ⟨"", 0, 0⟩) id).isOk := by decide +kernel
  obtain ⟨fs, hbody⟩ : ∃ fs, loopExample.body (fun _ => ⟨"", 0, 0⟩) id = .ok fs := by
    cases h : loopExample.body (fun _ => ⟨"", 0, 0⟩) id with
    | ok fs => exact ⟨fs, rfl⟩
    | error e =>
      rw [h] at hok
      cases hok
  obtain ⟨-, -, -, hnames⟩ := luaF_getlocalname_scope loopExample _ _ fs hbody
  refine ⟨fs, hbody, ?_, ?_⟩
  · refine (((hnames 5).2 7 (by decide)).1).trans ?_
    decide
  · refine (((hnames 5).2 8 (by decide)).2).mpr ?_
    decide

end Luaxx.Parser.Locals
