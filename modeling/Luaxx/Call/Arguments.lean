import Luaxx.Call.Precall

/-!
# Arguments and results

What the loops of a call leave in each slot, and so where a callee finds its arguments and its caller
the results.
-/

namespace Luaxx.Call

open Luaxx.Result

variable {V : Type} {env : Env V}

/-! ## Slots -/

theorem stack_set (L : Thread V) (i j : Nat) (v : V) :
    (L.set i v).stack j = if j = i then v else L.stack j := rfl

theorem stack_push (L : Thread V) (j : Nat) (v : V) :
    (L.push v).stack j = if j = L.top then v else L.stack j := rfl

theorem stack_pushNils (n : Nat) (L : Thread V) (j : Nat) :
    (pushNils env n L).stack j = if L.top ≤ j ∧ j < L.top + n then env.nil else L.stack j := by
  induction n generalizing L with
  | zero => rw [pushNils, if_neg (by omega)]
  | succ n ih =>
    rw [pushNils, ih, top_push, stack_push]
    by_cases hj : j = L.top
    · rw [if_pos hj, if_pos (show L.top ≤ j ∧ j < L.top + (n + 1) by omega), ite_self]
    · rw [if_neg hj]
      by_cases hin : L.top + 1 ≤ j ∧ j < L.top + 1 + n
      · rw [if_pos hin, if_pos (by omega)]
      · rw [if_neg hin, if_neg (by omega)]

theorem stack_clearSlots (n st : Nat) (L : Thread V) (j : Nat) :
    (clearSlots env n st L).stack j = if st ≤ j ∧ j < st + n then env.nil else L.stack j := by
  induction n generalizing st L with
  | zero => rw [clearSlots, if_neg (by omega)]
  | succ n ih =>
    rw [clearSlots, ih, stack_set]
    by_cases hj : j = st
    · rw [if_pos hj, if_pos (show st ≤ j ∧ j < st + (n + 1) by omega), ite_self]
    · rw [if_neg hj]
      by_cases hin : st + 1 ≤ j ∧ j < st + 1 + n
      · rw [if_pos hin, if_pos (by omega)]
      · rw [if_neg hin, if_neg (by omega)]

/-- The parameters are moved up, and nil is left where they were. -/
theorem stack_moveFixed (n fixed : Nat) (L : Thread V) (h : fixed + n ≤ L.top) (j : Nat) :
    (moveFixed env n fixed L).stack j =
      if L.top ≤ j ∧ j < L.top + n then L.stack (fixed + (j - L.top))
      else if fixed ≤ j ∧ j < fixed + n then env.nil else L.stack j := by
  induction n generalizing fixed L with
  | zero => rw [moveFixed, if_neg (by omega), if_neg (by omega)]
  | succ n ih =>
    rw [moveFixed, ih (fixed + 1) _ (by rw [top_set, top_push]; omega), top_set, top_push]
    simp only [stack_set, stack_push]
    by_cases htop : j = L.top
    · rw [if_neg (by omega), if_neg (by omega), if_neg (by omega), if_pos htop, if_pos (by omega),
        htop, Nat.sub_self, Nat.add_zero]
    by_cases hup : L.top + 1 ≤ j ∧ j < L.top + 1 + n
    · rw [if_pos hup, if_neg (by omega), if_neg (by omega), if_pos (by omega)]
      congr 1
      omega
    rw [if_neg hup, if_neg (show ¬ (L.top ≤ j ∧ j < L.top + (n + 1)) by omega)]
    by_cases hj : j = fixed
    · rw [if_neg (by omega), if_pos hj, if_pos (by omega)]
    rw [if_neg hj, if_neg htop]
    by_cases hin : fixed + 1 ≤ j ∧ j < fixed + 1 + n
    · rw [if_pos hin, if_pos (by omega)]
    · rw [if_neg hin, if_neg (by omega)]

/-- The results are moved down in order. -/
theorem stack_moveResults (n res first : Nat) (L : Thread V) (h : res ≤ first) (j : Nat) :
    (moveResults n res first L).stack j =
      if res ≤ j ∧ j < res + n then L.stack (first + (j - res)) else L.stack j := by
  induction n generalizing res first L with
  | zero => rw [moveResults, if_neg (by omega)]
  | succ n ih =>
    rw [moveResults, ih (res + 1) (first + 1) _ (by omega)]
    simp only [stack_set]
    by_cases hj : j = res
    · rw [if_neg (by omega), if_pos hj, if_pos (by omega), hj, Nat.sub_self, Nat.add_zero]
    by_cases hin : res + 1 ≤ j ∧ j < res + 1 + n
    · rw [if_pos hin, if_neg (by omega), if_pos (by omega)]
      congr 1
      omega
    · rw [if_neg hin, if_neg hj, if_neg (by omega)]

theorem stack_shiftUp (n p : Nat) (L : Thread V) (h : n ≤ p) (j : Nat) :
    (shiftUp n p L).stack j = if p - n < j ∧ j ≤ p then L.stack (j - 1) else L.stack j := by
  induction n generalizing p L with
  | zero => rw [shiftUp, if_neg (by omega)]
  | succ n ih =>
    rw [shiftUp, ih (p - 1) _ (by omega)]
    simp only [stack_set]
    by_cases hj : j = p
    · rw [if_neg (by omega), if_pos hj, if_pos (by omega), hj]
    by_cases hin : p - 1 - n < j ∧ j ≤ p - 1
    · rw [if_pos hin, if_neg (by omega), if_pos (by omega)]
    · rw [if_neg hin, if_neg hj, if_neg (by omega)]

/-! ## Results -/

/-- The values from a slot up to the top. -/
def Thread.valuesFrom (L : Thread V) (first : Nat) : List V :=
  (List.range (L.top - first)).map fun i => L.stack (first + i)

theorem length_valuesFrom (L : Thread V) (first : Nat) :
    (L.valuesFrom first).length = L.top - first := by
  rw [Thread.valuesFrom, List.length_map, List.length_range]

theorem getElem?_valuesFrom (L : Thread V) (first i : Nat) :
    (L.valuesFrom first)[i]? = if first + i < L.top then some (L.stack (first + i)) else none := by
  rw [Thread.valuesFrom, List.getElem?_map]
  by_cases h : first + i < L.top
  · rw [if_pos h, List.getElem?_range (by omega)]
    rfl
  · rw [if_neg h, List.getElem?_eq_none (by rw [List.length_range]; omega)]
    rfl

/-- The values are the first ones that are wanted, with nil for those that are not given, or all of
them, up to the top. -/
structure Results (nil : V) (wanted : Int) (values : List V) (func : Nat) (L : Thread V) : Prop where
  fixed : wanted ≠ LUA_MULTRET → ∀ i < wanted.toNat, L.stack (func + i) = values.getD i nil
  all : wanted = LUA_MULTRET → L.valuesFrom func = values

theorem getD_valuesFrom (L : Thread V) (first i : Nat) (v : V) :
    (L.valuesFrom first).getD i v = if first + i < L.top then L.stack (first + i) else v := by
  rw [List.getD_eq_getElem?_getD, getElem?_valuesFrom]
  split_ifs <;> rfl

/-- The values from a slot up to the top, in two threads. -/
theorem valuesFrom_eq {L L' : Thread V} {first first' : Nat}
    (htop : L'.top - first' = L.top - first)
    (h : ∀ i < L.top - first, L'.stack (first' + i) = L.stack (first + i)) :
    L'.valuesFrom first' = L.valuesFrom first := by
  rw [Thread.valuesFrom, Thread.valuesFrom, htop]
  exact List.map_congr_left fun i hi => h i (List.mem_range.1 hi)

variable (env) in
theorem top_luaD_poscall (L : Thread V) (first : Nat) :
    (luaD_poscall env L first).top =
      L.ci.func + if L.ci.nresults = LUA_MULTRET then L.top - first else L.ci.nresults.toNat := by
  show L.ci.func + (if L.ci.nresults = LUA_MULTRET then L.top - first
      else min L.ci.nresults.toNat (L.top - first)) +
    (L.ci.nresults.toNat - if L.ci.nresults = LUA_MULTRET then L.top - first
      else min L.ci.nresults.toNat (L.top - first)) = _
  split_ifs with hw
  · rw [hw, show LUA_MULTRET.toNat = 0 from rfl, Nat.zero_sub, Nat.add_zero]
  · omega

variable (env) in
theorem luaD_poscall_results (L : Thread V) {first : Nat} (h : L.ci.func ≤ first) :
    Results env.nil L.ci.nresults (L.valuesFrom first) L.ci.func (luaD_poscall env L first) := by
  have hstack (j : Nat) : (luaD_poscall env L first).stack j = (clearSlots env
      (L.ci.nresults.toNat - if L.ci.nresults = LUA_MULTRET then L.top - first
        else min L.ci.nresults.toNat (L.top - first))
      (L.ci.func + if L.ci.nresults = LUA_MULTRET then L.top - first
        else min L.ci.nresults.toNat (L.top - first))
      (moveResults (if L.ci.nresults = LUA_MULTRET then L.top - first
        else min L.ci.nresults.toNat (L.top - first)) L.ci.func first L)).stack j := rfl
  refine ⟨fun hw i hi => ?_, fun hw => valuesFrom_eq ?_ fun i hi => ?_⟩
  · rw [hstack, if_neg hw, stack_clearSlots, stack_moveResults _ _ _ _ h, getD_valuesFrom]
    by_cases hgiven : first + i < L.top
    · rw [if_neg (by omega), if_pos (by omega), if_pos hgiven, Nat.add_sub_cancel_left]
    · rw [if_pos (by omega), if_neg hgiven]
  · rw [top_luaD_poscall, if_pos hw, Nat.add_sub_cancel_left]
  · rw [hstack, if_pos hw, stack_clearSlots, stack_moveResults _ _ _ _ h, if_neg (by omega),
      if_pos (by omega), Nat.add_sub_cancel_left]

theorem callers_moveResults (n res first : Nat) (L : Thread V) :
    (moveResults n res first L).callers = L.callers := by
  induction n generalizing res first L with
  | zero => rfl
  | succ n ih => rw [moveResults, ih]; rfl

variable (env) in
/-- The frame of the caller is the one that runs. -/
theorem luaD_poscall_frames (L : Thread V) (first : Nat) :
    (luaD_poscall env L first).ci = L.callers.headD L.ci ∧
      (luaD_poscall env L first).callers = L.callers.tail ∧
      (luaD_poscall env L first).base = (L.callers.headD L.ci).base :=
  ⟨rfl, congrArg List.tail (((stores_clearSlots env _ _ _).callers).trans
    (callers_moveResults _ _ _ L)), rfl⟩

/-- Nothing below the function is changed. -/
theorem stack_luaD_poscall (L : Thread V) {first j : Nat} (h : L.ci.func ≤ first)
    (hj : j < L.ci.func) : (luaD_poscall env L first).stack j = L.stack j := by
  show (clearSlots env _ _ (moveResults _ _ _ L)).stack j = _
  rw [stack_clearSlots, if_neg (by omega), stack_moveResults _ _ _ _ h, if_neg (by omega)]

/-! ## Arguments -/

/-- The parameters are the first arguments, with nil for those that are not given. A vararg function
has the other arguments before its frame. -/
structure Receives (nil : V) (p : Proto) (args : List V) (L : Thread V) : Prop where
  params : ∀ i < p.numparams.toNat, L.stack (L.base + i) = args.getD i nil
  extra : p.is_vararg ≠ 0 → ∀ i < args.length, p.numparams.toNat ≤ i →
    some (L.stack (L.base - args.length + i)) = args[i]?

theorem inc_ci_frame {L L' : Thread V} {ci : CallInfo} (h : inc_ci env L ci = .ok L') :
    L'.callers = L.ci :: L.callers ∧ L'.stack = L.stack := by
  simp only [inc_ci, bind_ok] at h
  obtain ⟨L1, h1, h2⟩ := h
  obtain rfl := Except.ok.inj h2
  simp only [ensureCI, growCI, luaD_reallocCI] at h1
  by_cases hend : L.callers.length + 1 = L.size_ci
  · simp only [if_pos hend, ite_error_ok, bind_ok, ite_ok_error] at h1
    obtain ⟨-, L2, ⟨-, h3⟩, -, h4⟩ := h1
    obtain rfl := Except.ok.inj h3
    obtain rfl := Except.ok.inj h4
    exact ⟨rfl, rfl⟩
  · rw [if_neg hend] at h1
    obtain rfl := Except.ok.inj h1
    exact ⟨rfl, rfl⟩

variable (env) in
theorem hookCall_frame (L : Thread V) : Keeps L (hookCall env L) := by
  unfold hookCall
  split_ifs
  · exact env.callhook_keeps L
  · exact ⟨rfl, rfl, rfl, rfl, rfl, rfl, fun _ _ => rfl⟩

/-- What the frame of a Lua function is before its registers are cleared. -/
structure Prepared (env : Env V) (p : Proto) (func : Nat) (L L' : Thread V) (base : Nat) : Prop where
  base_gt : func < base
  top_le : base ≤ L'.top
  ci : L'.ci = L.ci
  callers : L'.callers = L.callers
  below : ∀ j ≤ func, L'.stack j = L.stack j
  params : ∀ i < p.numparams.toNat,
    (if base + i < L'.top then L'.stack (base + i) else env.nil) =
      (L.valuesFrom (func + 1)).getD i env.nil
  extra : p.is_vararg ≠ 0 → (L.valuesFrom (func + 1)).length ≤ base ∧
    ∀ i < (L.valuesFrom (func + 1)).length, p.numparams.toNat ≤ i →
      L'.stack (base - (L.valuesFrom (func + 1)).length + i) = L.stack (func + 1 + i)

/-- The collector and the second check keep the slots in use. -/
theorem makeArg_keeps {L L' : Thread V} {p : Proto} {actual : Nat} {htab : Option V}
    (h : makeArg env L p actual = .ok (L', htab)) :
    L'.top = L.top ∧ L'.ci = L.ci ∧ L'.callers = L.callers ∧ ∀ j < L.top, L'.stack j = L.stack j := by
  unfold makeArg at h
  split_ifs at h
  · simp only [bind_ok, Except.ok.injEq, Prod.mk.injEq] at h
    obtain ⟨L1, hcheck, rfl, -⟩ := h
    have hgc := env.checkGC_keeps L
    rw [(luaD_checkstack_ok hcheck).1]
    exact ⟨hgc.top, hgc.ci, hgc.callers, hgc.slots⟩
  · obtain ⟨rfl, -⟩ := Prod.mk.inj (Except.ok.inj h)
    exact ⟨rfl, rfl, rfl, fun _ _ => rfl⟩

theorem adjust_varargs_prepared {L L' : Thread V} {p : Proto} {func base : Nat}
    (hfunc : func < L.top) (h : adjust_varargs env L p (L.top - func - 1) = .ok (L', base)) :
    Prepared env p func L L' base := by
  simp only [adjust_varargs, bind_ok] at h
  obtain ⟨⟨M, htab⟩, harg, h⟩ := h
  obtain ⟨htop, hci, hcallers, hslots⟩ := makeArg_keeps harg
  rw [top_pushNils] at htop hslots
  have hpush := stores_pushNils env (p.numparams.toNat - (L.top - func - 1)) L
  -- the arguments, with the nils that were pushed for the missing ones, begin behind the function
  have hfixed : M.top - max (L.top - func - 1) p.numparams.toNat = func + 1 := by omega
  have hroom : func + 1 + p.numparams.toNat ≤ M.top := by omega
  have hM (j : Nat) (hj : j < M.top) : M.stack j = if L.top ≤ j then env.nil else L.stack j := by
    rw [hslots j (htop ▸ hj), stack_pushNils]
    by_cases hle : L.top ≤ j
    · rw [if_pos hle, if_pos (by omega)]
    · rw [if_neg hle, if_neg fun h => hle h.1]
  have hmoved (j : Nat) : (moveFixed env p.numparams.toNat (func + 1) M).stack j =
      if M.top ≤ j ∧ j < M.top + p.numparams.toNat then M.stack (func + 1 + (j - M.top))
      else if func + 1 ≤ j ∧ j < func + 1 + p.numparams.toNat then env.nil else M.stack j :=
    stack_moveFixed _ _ _ hroom j
  have hstores := stores_moveFixed env p.numparams.toNat (func + 1) M hroom
  have hframe : base = M.top ∧ M.top + p.numparams.toNat ≤ L'.top ∧ L'.ci = L.ci ∧
      L'.callers = L.callers ∧ ∀ j < M.top + p.numparams.toNat,
        L'.stack j = (moveFixed env p.numparams.toNat (func + 1) M).stack j := by
    dsimp only at h
    rw [hfixed] at h
    obtain ⟨rfl, rfl⟩ := Prod.mk.inj (Except.ok.inj h)
    cases htab with
    | none => exact ⟨rfl, by rw [top_moveFixed], hstores.ci.trans (hci.trans hpush.ci),
        hstores.callers.trans (hcallers.trans hpush.callers), fun _ _ => rfl⟩
    | some v =>
      refine ⟨rfl, ?_, hstores.ci.trans (hci.trans hpush.ci),
        hstores.callers.trans (hcallers.trans hpush.callers), fun j hj => ?_⟩
      · rw [top_push, top_moveFixed]
        omega
      · rw [stack_push, top_moveFixed, if_neg (by omega)]
  obtain ⟨rfl, htop', hci', hcallers', hstack⟩ := hframe
  have hlen := length_valuesFrom L (func + 1)
  refine ⟨by omega, Nat.le_trans (Nat.le_add_right _ _) htop', hci', hcallers', fun j hj => ?_,
    fun i hi => ?_, fun _ => ⟨by omega, fun i hi hge => ?_⟩⟩
  · rw [hstack j (by omega), hmoved, if_neg (by omega), if_neg (by omega), hM j (by omega),
      if_neg (by omega)]
  · rw [if_pos (by omega), hstack _ (by omega), hmoved, if_pos (by omega), Nat.add_sub_cancel_left,
      hM _ (by omega), getD_valuesFrom]
    split_ifs <;> first | rfl | omega
  · rw [hlen] at hi ⊢
    have hbase : M.top - (L.top - (func + 1)) + i = func + 1 + i := by omega
    rw [hbase, hstack _ (by omega), hmoved, if_neg (by omega), if_neg (by omega), hM _ (by omega),
      if_neg (by omega)]

theorem luaBase_prepared {L L' : Thread V} {p : Proto} {func base : Nat} (hfunc : func < L.top)
    (h : luaBase env L func p = .ok (L', base)) : Prepared env p func L L' base := by
  unfold luaBase at h
  by_cases hva : p.is_vararg = 0
  · rw [if_pos hva] at h
    obtain ⟨rfl, rfl⟩ := Prod.mk.inj (Except.ok.inj h)
    have hparams (top i : Nat) (hi : i < p.numparams.toNat)
        (htop : top = min L.top (func + 1 + p.numparams.toNat)) :
        (if func + 1 + i < top then L.stack (func + 1 + i) else env.nil) =
          (L.valuesFrom (func + 1)).getD i env.nil := by
      rw [getD_valuesFrom]
      split_ifs <;> first | rfl | omega
    split_ifs with htrunc
    · exact ⟨Nat.lt_succ_self _, Nat.le_add_right _ _, rfl, rfl, fun _ _ => rfl,
        fun i hi => hparams _ i hi (min_eq_right (Nat.le_of_lt htrunc)).symm,
        fun hne => absurd hva hne⟩
    · exact ⟨Nat.lt_succ_self _, hfunc, rfl, rfl, fun _ _ => rfl,
        fun i hi => hparams _ i hi (min_eq_left (Nat.not_lt.1 htrunc)).symm,
        fun hne => absurd hva hne⟩
  · rw [if_neg hva] at h
    exact adjust_varargs_prepared hfunc h

/-- A Lua function finds its arguments in its frame, which is above the function. -/
theorem precallLua_receives {L L' : Thread V} {func : Nat} {p : Proto} {nresults : Int} {r : PCR}
    (hfunc : func < L.top) (hp : p.numparams.toNat ≤ p.maxstacksize.toNat)
    (h : precallLua env L func p nresults = .ok (r, L')) :
    r = .PCRLUA ∧ Receives env.nil p (L.valuesFrom (func + 1)) L' ∧ L'.callers = L.ci :: L.callers ∧
      L'.ci.func = func ∧ L'.ci.nresults = nresults ∧ L'.base = L'.ci.base ∧ func < L'.base ∧
      L'.top = L'.ci.top ∧ ∀ j ≤ func, L'.stack j = L.stack j := by
  simp only [precallLua, bind_ok, Except.ok.injEq, Prod.mk.injEq] at h
  obtain ⟨L1, hcheck, ⟨L2, base⟩, hbase, L3, hinc, rfl, rfl⟩ := h
  obtain ⟨hL1, -⟩ := luaD_checkstack_ok hcheck
  have hvalues : L1.valuesFrom (func + 1) = L.valuesFrom (func + 1) := by
    rw [hL1]
    rfl
  have hstack1 : L1.stack = L.stack := by rw [hL1]
  have htop1 : L1.top = L.top := by rw [hL1]
  obtain ⟨hgt, hle, hci2, hcallers2, hbelow, hparams, hextra⟩ :=
    luaBase_prepared (htop1.symm ▸ hfunc) hbase
  rw [hvalues] at hparams hextra
  dsimp only at hinc
  obtain ⟨hci, htop, -, -⟩ := inc_ci_ok hinc
  obtain ⟨hcallers, hstack⟩ := inc_ci_frame hinc
  have hhook := hookCall_frame env (fillFrame env L3 base (base + p.maxstacksize.toNat))
  have hclear (j : Nat) (hj : j < base + p.maxstacksize.toNat) :
      (hookCall env (fillFrame env L3 base (base + p.maxstacksize.toNat))).stack j =
        if j < L2.top then L2.stack j else env.nil := by
    rw [hhook.slots j hj]
    show (clearSlots env (base + p.maxstacksize.toNat - L3.top) L3.top _).stack j = _
    rw [stack_clearSlots]
    show (if L3.top ≤ j ∧ _ then env.nil else L3.stack j) = _
    rw [htop, hstack]
    split_ifs <;> first | rfl | omega
  have hfillci : (fillFrame env L3 base (base + p.maxstacksize.toNat)).ci = L3.ci :=
    (stores_clearSlots env _ _ _).ci
  have hfillcallers : (fillFrame env L3 base (base + p.maxstacksize.toNat)).callers = L3.callers :=
    (stores_clearSlots env _ _ _).callers
  have hfillbase : (fillFrame env L3 base (base + p.maxstacksize.toNat)).base = base :=
    (stores_clearSlots env _ _ _).base
  refine ⟨rfl, ⟨fun i hi => ?_, fun hne i hi hge => ?_⟩, ?_, ?_, ?_, ?_, ?_, ?_, fun j hj => ?_⟩
  · rw [hhook.base, hfillbase, hclear _ (by omega)]
    exact hparams i hi
  · obtain ⟨hlen, hextra⟩ := hextra hne
    rw [hhook.base, hfillbase, hclear _ (by omega), if_pos (by omega), hextra i hi hge,
      getElem?_valuesFrom, hstack1]
    rw [length_valuesFrom] at hi
    rw [if_pos (by omega)]
  · rw [hhook.callers, hfillcallers, hcallers, hci2, hcallers2, hL1]
  · rw [hhook.ci, hfillci, hci]
  · rw [hhook.ci, hfillci, hci]
  · rw [hhook.base, hfillbase, hhook.ci, hfillci, hci]
  · rw [hhook.base, hfillbase]
    exact hgt
  · rw [hhook.top, hhook.ci, hfillci, hci]
    rfl
  · rw [hclear _ (by omega), if_pos (by omega), hbelow j hj, hstack1]

end Luaxx.Call
