import Luaxx.Coro.Machine

/-!
# What is passed between two threads

What the functions of the library do to the threads they are given: values are moved in order, and
the frames and the statuses are kept but for those that a resume or a yield is about.
-/

namespace Luaxx.Coro

open Luaxx.Call Luaxx.Result

variable {V : Type} {env : Host V}

/-! ## Room on a stack -/

/-- Only the sizes of the stack and of the frame have changed. -/
def Resized (L L' : LuaState V) : Prop :=
  ∃ size last top, L' = { L with
    toThread := { L.toThread with
      stacksize := size, stack_last := last, ci := { L.ci with top := top } } }

theorem Resized.refl (L : LuaState V) : Resized L L := ⟨L.stacksize, L.stack_last, L.ci.top, rfl⟩

theorem lua_checkstack_resized {L L' : LuaState V} {n : Nat} {room : Bool}
    (h : lua_checkstack env L n = .ok (room, L')) :
    Resized L L' ∧ (room = true ↔ lua_gettop L + n ≤ LUAI_MAXCSTACK) := by
  unfold lua_checkstack at h
  rw [lua_gettop]
  by_cases hfull : n > LUAI_MAXCSTACK ∨ L.top - L.base + n > LUAI_MAXCSTACK
  · rw [if_pos hfull] at h
    obtain ⟨rfl, rfl⟩ := Prod.mk.inj (Except.ok.inj h)
    exact ⟨Resized.refl L, iff_of_false Bool.false_ne_true (by omega)⟩
  · rw [if_neg hfull] at h
    have hroom : L.top - L.base + n ≤ LUAI_MAXCSTACK := by omega
    by_cases hn : n > 0
    · rw [if_pos hn] at h
      obtain ⟨T, hT, h⟩ := bind_ok.1 h
      obtain ⟨rfl, rfl⟩ := Prod.mk.inj (Except.ok.inj h)
      refine ⟨?_, iff_of_true rfl hroom⟩
      rw [(luaD_checkstack_ok hT).1]
      split_ifs
      · exact ⟨_, _, _, rfl⟩
      · exact ⟨_, _, _, rfl⟩
    · rw [if_neg hn] at h
      obtain ⟨rfl, rfl⟩ := Prod.mk.inj (Except.ok.inj h)
      exact ⟨Resized.refl L, iff_of_true rfl hroom⟩

/-! ## Values that are moved -/

theorem xmoveLoop_spec (source : Thread V) (n i : Nat) (L : Thread V) :
    (xmoveLoop source n i L).top = L.top + n ∧ (xmoveLoop source n i L).ci = L.ci ∧
      (xmoveLoop source n i L).callers = L.callers ∧ (xmoveLoop source n i L).base = L.base ∧
      ∀ j, (xmoveLoop source n i L).stack j =
        if L.top ≤ j ∧ j < L.top + n then source.stack (source.top + i + (j - L.top))
        else L.stack j := by
  induction n generalizing i L with
  | zero => exact ⟨rfl, rfl, rfl, rfl, fun j => by rw [xmoveLoop, if_neg (by omega)]⟩
  | succ n ih =>
    obtain ⟨htop, hci, hcallers, hbase, hstack⟩ := ih (i + 1) (L.push (source.stack (source.top + i)))
    refine ⟨?_, hci, hcallers, hbase, fun j => ?_⟩
    · rw [xmoveLoop, htop, top_push]
      omega
    · rw [xmoveLoop, hstack, top_push, stack_push]
      by_cases hj : j = L.top
      · rw [if_neg (by omega), if_pos hj, if_pos (by omega), hj, Nat.sub_self, Nat.add_zero]
      by_cases hin : L.top + 1 ≤ j ∧ j < L.top + 1 + n
      · rw [if_pos hin, if_pos (by omega)]
        congr 1
        omega
      · rw [if_neg hin, if_neg hj, if_neg (by omega)]

/-- The values are the last ones of the one thread, and become those of the other. -/
structure Moved (source dest : LuaState V) (n : Nat) (dest' : LuaState V) : Prop where
  status : dest'.status = dest.status
  nCcalls : dest'.nCcalls = dest.nCcalls
  base : dest'.base = dest.base
  ci : dest'.ci = dest.ci
  callers : dest'.callers = dest.callers
  top : dest'.top = dest.top + n
  below : ∀ j < dest.top, dest'.stack j = dest.stack j
  values : dest'.valuesFrom dest.top = source.valuesFrom (source.top - n)

theorem lua_xmove_moved {source : LuaState V} (dest : LuaState V) {n : Nat} (hn : n ≤ source.top) :
    (lua_xmove source dest n).1 = { source with top := source.top - n } ∧
      Moved source dest n (lua_xmove source dest n).2 := by
  obtain ⟨htop, hci, hcallers, hbase, hstack⟩ := xmoveLoop_spec
    { source.toThread with top := source.top - n } n 0 dest.toThread
  refine ⟨rfl, rfl, rfl, hbase, hci, hcallers, htop, fun j hj => ?_, valuesFrom_eq ?_ fun i hi => ?_⟩
  · exact (hstack j).trans (if_neg (by omega))
  · show (xmoveLoop _ n 0 dest.toThread).top - dest.top = _
    rw [htop]
    omega
  · refine (hstack (dest.top + i)).trans ?_
    rw [if_pos (by omega), Nat.add_sub_cancel_left]
    rfl

theorem Moved.value {source dest dest' : LuaState V} (h : Moved source dest 1 dest')
    (hpos : 0 < source.top) : dest'.stack dest.top = source.stack (source.top - 1) := by
  have hvalue := congrArg (·[0]?) h.values
  rw [getElem?_valuesFrom, getElem?_valuesFrom, h.top, if_pos (by omega), if_pos (by omega)] at hvalue
  exact Option.some.inj hvalue

theorem stack_lua_insert (L : Thread V) {p : Nat} (hp : p < L.top) (j : Nat) :
    (lua_insert L p).stack j = if j = p then L.stack (L.top - 1)
      else if p < j ∧ j ≤ L.top then L.stack (j - 1) else L.stack j := by
  rw [lua_insert, stack_set, stack_shiftUp _ _ _ (Nat.sub_le _ _), stack_shiftUp _ _ _ (Nat.sub_le _ _),
    top_shiftUp, Nat.sub_sub_self (Nat.le_of_lt hp),
    if_pos (show p < L.top ∧ L.top ≤ L.top from ⟨hp, Nat.le_refl _⟩)]

/-! ## What a thread gets -/

/-- The frames are kept, and the slots that were in use below `t`. -/
structure Extends (t : Nat) (L L' : LuaState V) : Prop where
  status : L'.status = L.status
  callers : L'.callers = L.callers
  base : L'.base = L.base
  frame : ∃ top, L'.ci = { L.ci with top := top }
  below : ∀ j < t, L'.stack j = L.stack j

theorem Extends.refl (t : Nat) (L : LuaState V) : Extends t L L :=
  ⟨rfl, rfl, rfl, ⟨L.ci.top, rfl⟩, fun _ _ => rfl⟩

theorem Extends.trans {t : Nat} {L L' L'' : LuaState V} (h : Extends t L L')
    (h' : Extends t L' L'') : Extends t L L'' := by
  obtain ⟨top, htop⟩ := h.frame
  obtain ⟨top', htop'⟩ := h'.frame
  exact ⟨h'.status.trans h.status, h'.callers.trans h.callers, h'.base.trans h.base,
    ⟨top', by rw [htop', htop]⟩, fun j hj => (h'.below j hj).trans (h.below j hj)⟩

theorem Resized.extends {L L' : LuaState V} (h : Resized L L') (t : Nat) : Extends t L L' := by
  obtain ⟨size, last, top, rfl⟩ := h
  exact ⟨rfl, rfl, rfl, ⟨top, rfl⟩, fun _ _ => rfl⟩

theorem Moved.extends {source dest dest' : LuaState V} {n : Nat} (h : Moved source dest n dest') :
    Extends dest.top dest dest' :=
  ⟨h.status, h.callers, h.base, ⟨dest.ci.top, h.ci⟩, h.below⟩

theorem push_extends (L : LuaState V) (v : V) {t : Nat} (ht : t ≤ L.top) : Extends t L (L.push v) :=
  ⟨rfl, rfl, rfl, ⟨L.ci.top, rfl⟩, fun _ hj => if_neg (by omega)⟩

theorem HasBody.extends {t : Nat} {L L' : LuaState V} (hb : HasBody (L.ci :: L.callers))
    (h : Extends t L L') : HasBody (L'.ci :: L'.callers) := by
  obtain ⟨top, htop⟩ := h.frame
  obtain ⟨inner, body, bottom, hframes, hfunc, hres⟩ := hb
  rw [htop, h.callers]
  cases inner with
  | nil =>
    obtain ⟨rfl, hcallers⟩ := List.cons.inj hframes
    exact ⟨[], { L.ci with top := top }, bottom, by rw [hcallers]; rfl, hfunc, hres⟩
  | cons ci inner =>
    obtain ⟨rfl, hcallers⟩ := List.cons.inj hframes
    exact ⟨{ L.ci with top := top } :: inner, body, bottom, by rw [hcallers]; rfl, hfunc, hres⟩

theorem Active.extends {isMain : Prop} {t : Nat} {L L' : LuaState V} (ha : Active isMain L)
    (h : Extends t L L') : Active isMain L' :=
  ⟨h.status.trans ha.status, h.callers ▸ ha.callers, fun hm => (ha.body hm).extends h⟩

/-! ## What the functions of the library return -/

/-- What a function returns when the coroutine it has resumed passes on these values, or an error. -/
def Kind.returns (env : Host V) (kind : Kind) (ok : Bool) (values : List V) : List V :=
  match kind, ok with
  | .coresume, ok => env.boolean ok :: values
  | .auxwrap, true => values
  | .auxwrap, false => values.map env.located

/-- The value is put below the others. -/
theorem inserted_values (L : Thread V) (v : V) {p : Nat} (hp : p ≤ L.top) :
    (lua_insert (L.push v) p).valuesFrom p = v :: L.valuesFrom p := by
  have hlt : p < (L.push v).top := Nat.lt_succ_of_le hp
  have htop : (lua_insert (L.push v) p).top = L.top + 1 := by
    rw [lua_insert, top_set, top_shiftUp, top_push]
  refine List.ext_getElem? fun i => ?_
  rw [getElem?_valuesFrom, htop, stack_lua_insert _ hlt]
  cases i with
  | zero =>
    rw [if_pos (by omega), Nat.add_zero, if_pos rfl, List.getElem?_cons_zero, top_push, stack_push,
      if_pos (by omega)]
  | succ i =>
    rw [List.getElem?_cons_succ, getElem?_valuesFrom]
    by_cases hi : p + i < L.top
    · rw [if_pos (by omega), if_neg (by omega), if_pos (by rw [top_push]; omega), stack_push,
        if_neg (by omega), if_pos hi]
      rfl
    · rw [if_neg (by omega), if_neg hi]

theorem insert_extends (L : LuaState V) (v : V) {p : Nat} (hp : p ≤ L.top) :
    Extends p L { L.push v with toThread := lua_insert (L.push v).toThread p } := by
  have hshift := stores_shiftUp ((L.push v).top - p) (L.push v).top (L.push v).toThread
  refine ⟨rfl, hshift.callers, hshift.base, ⟨L.ci.top, hshift.ci⟩, fun j hj => ?_⟩
  show (lua_insert (L.toThread.push v) p).stack j = _
  rw [stack_lua_insert _ (Nat.lt_succ_of_le hp), if_neg (by omega), if_neg (by omega), stack_push,
    if_neg (by omega)]

variable (env) in
theorem finish_results (kind : Kind) (L : LuaState V) {n : Nat} (hn : n ≤ L.top) :
    Extends (L.top - n) L (finish env kind (.results n) L) ∧
      (finish env kind (.results n) L).valuesFrom (L.top - n) =
        kind.returns env true (L.valuesFrom (L.top - n)) := by
  cases kind with
  | coresume =>
    have hp : (L.push (env.boolean true)).top - (n + 1) = L.top - n := by
      show L.top + 1 - (n + 1) = _
      omega
    simp only [finish, hp]
    exact ⟨insert_extends L _ (Nat.sub_le _ _), inserted_values L.toThread _ (Nat.sub_le _ _)⟩
  | auxwrap => exact ⟨Extends.refl _ L, rfl⟩

theorem valuesFrom_pred (L : Thread V) (h : 0 < L.top) :
    L.valuesFrom (L.top - 1) = [L.stack (L.top - 1)] := by
  rw [Thread.valuesFrom, Nat.sub_sub_self h]
  rfl

variable (env) in
theorem finish_flag (kind : Kind) (L : LuaState V) (h : 0 < L.top) :
    Extends (L.top - 1) L (finish env kind .flag L) ∧
      (finish env kind .flag L).valuesFrom (L.top - 1) =
        kind.returns env false [L.stack (L.top - 1)] := by
  cases kind with
  | coresume =>
    have hp : (L.push (env.boolean false)).top - 2 = L.top - 1 := by
      show L.top + 1 - 2 = _
      omega
    simp only [finish, hp]
    refine ⟨insert_extends L _ (Nat.sub_le _ _), ?_⟩
    rw [← valuesFrom_pred L.toThread h]
    exact inserted_values L.toThread _ (Nat.sub_le _ _)
  | auxwrap =>
    refine ⟨⟨rfl, rfl, rfl, ⟨L.ci.top, rfl⟩, fun j hj => if_neg (by omega)⟩, ?_⟩
    refine (valuesFrom_pred (L.toThread.set (L.top - 1) _) h).trans ?_
    rw [top_set, stack_set, if_pos rfl]
    rfl

end Luaxx.Coro
