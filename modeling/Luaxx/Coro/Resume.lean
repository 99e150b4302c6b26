import Luaxx.Coro.Passing

/-!
# Resuming a coroutine

A coroutine that has not begun has its body on its stack, and one that has yielded waits in the
function that yielded. Both are resumed with the values that are moved to them.
-/

namespace Luaxx.Coro

open Luaxx.Call Luaxx.Result

variable {V : Type} {env : Host V}

/-! ## Suspended coroutines -/

structure Fresh (env : Host V) (L : LuaState V) : Prop where
  status : L.status = 0
  callers : L.callers = []
  base_eq : L.base = L.ci.base
  top_eq : L.top = L.base + 1
  callee : ∃ p, env.callee (L.stack L.base) = some (.lua p)

structure Yielded (env : Host V) (L : LuaState V) : Prop where
  status : L.status = LUA_YIELD
  body : HasBody L.callers
  callee : env.callee (L.stack L.ci.func) = some .c
  func_lt : L.ci.func < L.ci.base
  base_eq : L.base = L.ci.base
  top_eq : L.top = L.base

/-- The coroutine has come to its end, and its results are gone, or it has failed. -/
def Dead (L : LuaState V) : Prop :=
  (L.status = 0 ∧ L.callers = [] ∧ L.top = L.base) ∨ LUA_YIELD < L.status

theorem HasBody.ne_nil {frames : List CallInfo} (h : HasBody frames) : frames ≠ [] := by
  obtain ⟨inner, body, bottom, rfl, -⟩ := h
  exact List.append_ne_nil_of_right_ne_nil inner (List.cons_ne_nil _ _)

theorem HasBody.callers_ne_nil {ci : CallInfo} {frames : List CallInfo} (h : HasBody (ci :: frames)) :
    frames ≠ [] := by
  obtain ⟨inner, body, bottom, hframes, -⟩ := h
  cases inner with
  | nil => rw [(List.cons.inj hframes).2]; exact List.cons_ne_nil _ _
  | cons _ inner =>
    rw [(List.cons.inj hframes).2]
    exact List.append_ne_nil_of_right_ne_nil inner (List.cons_ne_nil _ _)

theorem Fresh.costatus {L : LuaState V} (h : Fresh env L) : costatus false L = .CO_SUS := by
  have hstatus : L.status ≠ LUA_YIELD := h.status ▸ Nat.zero_ne_one
  have htop : lua_gettop L ≠ 0 := by
    rw [lua_gettop, h.top_eq, Nat.add_sub_cancel_left]
    exact Nat.one_ne_zero
  have hframe : lua_getstack_zero L = false := by rw [lua_getstack_zero, h.callers]; rfl
  rw [Coro.costatus, if_neg Bool.false_ne_true, if_neg hstatus, if_pos h.status, hframe,
    if_neg Bool.false_ne_true, if_neg htop]

theorem Yielded.costatus {L : LuaState V} (h : Yielded env L) : costatus false L = .CO_SUS := by
  rw [Coro.costatus, if_neg Bool.false_ne_true, if_pos h.status]

theorem Dead.costatus {L : LuaState V} (h : Dead L) : costatus false L = .CO_DEAD := by
  rw [Coro.costatus, if_neg Bool.false_ne_true]
  rcases h with ⟨hstatus, hcallers, htop⟩ | hstatus
  · have hne : L.status ≠ LUA_YIELD := hstatus ▸ Nat.zero_ne_one
    have hframe : lua_getstack_zero L = false := by rw [lua_getstack_zero, hcallers]; rfl
    rw [if_neg hne, if_pos hstatus, hframe, if_neg Bool.false_ne_true, lua_gettop, htop, Nat.sub_self,
      if_pos rfl]
  · rw [if_neg (Nat.ne_of_gt hstatus), if_neg (Nat.ne_of_gt (Nat.zero_lt_of_lt hstatus))]

theorem Active.costatus {isMain : Prop} {L : LuaState V} (h : Active isMain L) :
    costatus false L = .CO_NOR := by
  have hstatus : L.status ≠ LUA_YIELD := h.status ▸ Nat.zero_ne_one
  have hframe : lua_getstack_zero L = true := by
    rw [lua_getstack_zero, List.isEmpty_eq_false_iff.2 h.callers]
    rfl
  rw [Coro.costatus, if_neg Bool.false_ne_true, if_neg hstatus, if_pos h.status, if_pos hframe]

/-! ## `lua_resume` -/

variable (env) in
/-- A coroutine starts with the values behind its body. -/
theorem resume_fresh {L : LuaState V} {p : Proto} {narg : Nat} (hstatus : L.status = 0)
    (hcallers : L.callers = []) (hbase : L.base = L.ci.base) (htop : L.top = L.base + 1 + narg)
    (hp : env.callee (L.stack L.base) = some (.lua p)) :
    (∃ e, resume env L (L.top - narg) = .error e) ∨
      ∃ L', resume env L (L.top - narg) = .ok (.PCRLUA, L') ∧ Active False L' ∧
        Receives env.nil p (L.valuesFrom (L.base + 1)) L'.toThread := by
  have hfunc : L.top - narg - 1 = L.base := by omega
  have hcallable : callable env.toEnv L.toThread L.base = .ok L.toThread := by
    rw [callable, hp, if_neg (by exact Bool.false_ne_true)]
  have hprecall : luaD_precall env.toEnv L.toThread L.base LUA_MULTRET =
      precallLua env.toEnv
        { L.toThread with ci := { L.ci with savedpc := L.savedpc } } L.base p LUA_MULTRET := by
    simp only [luaD_precall, hcallable, ok_bind, hp]
  rw [resume, if_pos hstatus, hfunc, hprecall]
  cases hr : precallLua env.toEnv
      { L.toThread with ci := { L.ci with savedpc := L.savedpc } } L.base p LUA_MULTRET with
  | error e => exact .inl ⟨e, rfl⟩
  | ok r =>
    obtain ⟨pcr, T⟩ := r
    obtain ⟨rfl, hreceives, hframes, hcifunc, hresults, -⟩ := precallLua_receives
      (by show L.base < L.top; omega) (env.numparams_le _ _ hp) hr
    refine .inr ⟨{ L with toThread := T }, rfl, ⟨hstatus, ?_, fun _ => ?_⟩, hreceives⟩
    · show T.callers ≠ []
      rw [hframes]
      exact List.cons_ne_nil _ _
    · refine ⟨[], T.ci, { L.ci with savedpc := L.savedpc }, ?_, hcifunc.trans hbase, hresults⟩
      show T.ci :: T.callers = _
      rw [hframes, hcallers]
      rfl

variable (env) in
/-- The values become the results of the function that has yielded. -/
theorem resume_yielded {L : LuaState V} {narg : Nat} (hstatus : L.status = LUA_YIELD)
    (hbody : HasBody L.callers) (hc : env.callee (L.stack L.ci.func) = some .c)
    (hle : L.ci.func ≤ L.top - narg) :
    ∃ L', resume env L (L.top - narg) = .ok (.PCRLUA, L') ∧ Active False L' ∧
      Results env.nil L.ci.nresults (L.valuesFrom (L.top - narg)) L.ci.func L'.toThread := by
  have hlua : ¬ f_isLua env L.toThread = true := by
    rw [f_isLua, hc]
    exact Bool.false_ne_true
  have hne : L.status ≠ 0 := hstatus ▸ Nat.one_ne_zero
  have hframes : (luaD_poscall env.toEnv L.toThread (L.top - narg)).ci ::
      (luaD_poscall env.toEnv L.toThread (L.top - narg)).callers = L.callers := by
    obtain ⟨hci, hcallers, -⟩ := luaD_poscall_frames env.toEnv L.toThread (L.top - narg)
    obtain ⟨ci, callers, hcons⟩ := List.exists_cons_of_ne_nil hbody.ne_nil
    rw [hci, hcallers, hcons]
    rfl
  have hresults := luaD_poscall_results env.toEnv L.toThread hle
  have hcallers : (luaD_poscall env.toEnv L.toThread (L.top - narg)).callers ≠ [] :=
    (hframes.symm ▸ hbody).callers_ne_nil
  rw [resume, if_neg hne, if_neg hlua]
  refine ⟨_, rfl, ?_⟩
  dsimp only
  split_ifs with hw
  · exact ⟨⟨rfl, hcallers, fun _ => hframes.symm ▸ hbody⟩, hresults⟩
  · exact ⟨⟨rfl, hcallers, fun _ => hframes.symm ▸ hbody⟩, hresults.fixed, fun h => absurd h hw⟩

variable (env) in
theorem lua_resume_fresh {L : LuaState V} {p : Proto} {narg : Nat} (hstatus : L.status = 0)
    (hcallers : L.callers = []) (hbase : L.base = L.ci.base) (htop : L.top = L.base + 1 + narg)
    (hp : env.callee (L.stack L.base) = some (.lua p)) :
    (L.nCcalls ≥ LUAI_MAXCCALLS ∧
      lua_resume env L narg = .refused (resume_error env L "C stack overflow")) ∨
      (∃ e L', lua_resume env L narg = .failed (errorStatus e) L' ∧ L'.status = errorStatus e ∧
        0 < L'.top) ∨
      ∃ L', lua_resume env L narg = .running L' ∧ Active False L' ∧
        Receives env.nil p (L.valuesFrom (L.base + 1)) L'.toThread := by
  have hsus : ¬ (L.status ≠ LUA_YIELD ∧ (L.status ≠ 0 ∨ lua_getstack_zero L = true)) := by
    rw [lua_getstack_zero, hcallers]
    rintro ⟨-, h | h⟩
    · exact h hstatus
    · exact Bool.false_ne_true h
  rw [lua_resume, if_neg hsus]
  by_cases hover : L.nCcalls ≥ LUAI_MAXCCALLS
  · exact .inl ⟨hover, if_pos hover⟩
  rw [if_neg hover]
  refine .inr ?_
  dsimp only
  rcases resume_fresh env
      (L := { L with nCcalls := L.nCcalls + 1, baseCcalls := L.nCcalls + 1 })
      hstatus hcallers hbase htop hp with ⟨e, he⟩ | ⟨L', hr, hactive, hreceives⟩
  · rw [he]
    exact .inl ⟨e, _, rfl, rfl, Nat.succ_pos _⟩
  · rw [hr]
    exact .inr ⟨L', rfl, hactive, hreceives⟩

variable (env) in
theorem lua_resume_yielded {L : LuaState V} {narg : Nat} (hstatus : L.status = LUA_YIELD)
    (hbody : HasBody L.callers) (hc : env.callee (L.stack L.ci.func) = some .c)
    (hle : L.ci.func ≤ L.top - narg) :
    (L.nCcalls ≥ LUAI_MAXCCALLS ∧
      lua_resume env L narg = .refused (resume_error env L "C stack overflow")) ∨
      ∃ L', lua_resume env L narg = .running L' ∧ Active False L' ∧
        Results env.nil L.ci.nresults (L.valuesFrom (L.top - narg)) L.ci.func L'.toThread := by
  rw [lua_resume, if_neg fun h => h.1 hstatus]
  by_cases hover : L.nCcalls ≥ LUAI_MAXCCALLS
  · exact .inl ⟨hover, if_pos hover⟩
  rw [if_neg hover]
  obtain ⟨L', hr, hactive, hresults⟩ := resume_yielded env
    (L := { L with nCcalls := L.nCcalls + 1, baseCcalls := L.nCcalls + 1 }) hstatus hbody hc hle
  refine .inr ⟨L', ?_, hactive, hresults⟩
  dsimp only
  rw [hr]

/-! ## `auxresume` -/

theorem auxresume_ok {self : Bool} {L co : LuaState V} {narg : Nat} {r : Begun V}
    (h : auxresume env self L co narg = .ok r) :
    ∃ room co1, lua_checkstack env co narg = .ok (room, co1) ∧
      ((room = false ∧
          r = .raised (luaL_error env (if self then co1 else L) "too many arguments to resume")) ∨
        (room = true ∧ costatus self co ≠ .CO_SUS ∧ ∃ L', L' = (if self then co1 else L).push
            (env.luaS_new ("cannot resume " ++ statnames (costatus self co) ++ " coroutine")) ∧
          r = .refused L' (if self then L' else co1)) ∨
        (room = true ∧ costatus self co = .CO_SUS ∧ ∃ L' co2,
          lua_xmove (if self then co1 else L) co1 narg = (L', co2) ∧
            r = .resumed L' (lua_resume env { co2 with nCcalls := L'.nCcalls } narg))) := by
  rw [auxresume] at h
  obtain ⟨⟨room, co1⟩, hroom, h⟩ := bind_ok.1 h
  refine ⟨room, co1, hroom, ?_⟩
  cases room with
  | false => exact .inl ⟨rfl, (Except.ok.inj h).symm⟩
  | true =>
    refine .inr ?_
    dsimp only at h
    rw [Bool.not_true, if_neg Bool.false_ne_true] at h
    by_cases hsus : costatus self co = .CO_SUS
    · rw [if_neg (not_not_intro hsus)] at h
      exact .inr ⟨rfl, hsus, _, _, rfl, (Except.ok.inj h).symm⟩
    · rw [if_pos hsus] at h
      exact .inl ⟨rfl, hsus, _, rfl, (Except.ok.inj h).symm⟩

end Luaxx.Coro
