import Luaxx.Lib.Result
import Luaxx.Call.Stack

/-!
# Vararg calls and the stack

`luaD_precall` checks once for `maxstacksize` slots. `adjust_varargs` then pushes a nil for every
missing fixed parameter before the frame begins, so a vararg function that is called with too few
arguments gets a frame that ends as many slots higher than what was checked
(`precall_fits_iff`). Only the old `arg` table brings a second check.
-/

namespace Luaxx.Call

open Luaxx.Result

variable {V : Type} {env : Env V}

/-! ## What the loops do

`Stores lo hi L L'`: `L'` is `L` after stores into slots from `lo` to `hi`, apart from `top`. -/

structure Stores (lo hi : Nat) (L L' : Thread V) : Prop where
  stacksize : L'.stacksize = L.stacksize
  stack_last : L'.stack_last = L.stack_last
  base : L'.base = L.base
  ci : L'.ci = L.ci
  callers : L'.callers = L.callers
  trace : ∃ ws : List Nat,
    L'.trace = ws.map (fun w => .write w (L.stack_last + EXTRA_STACK)) ++ L.trace ∧
    ∀ w ∈ ws, lo ≤ w ∧ w < hi

theorem Stores.refl (lo hi : Nat) (L : Thread V) : Stores lo hi L L :=
  ⟨rfl, rfl, rfl, rfl, rfl, [], rfl, by simp⟩

theorem Stores.trans {lo hi : Nat} {L L' L'' : Thread V} (h : Stores lo hi L L')
    (h' : Stores lo hi L' L'') : Stores lo hi L L'' := by
  obtain ⟨ws, hws, hb⟩ := h.trace
  obtain ⟨ws', hws', hb'⟩ := h'.trace
  refine ⟨h'.stacksize.trans h.stacksize, h'.stack_last.trans h.stack_last,
    h'.base.trans h.base, h'.ci.trans h.ci, h'.callers.trans h.callers, ws' ++ ws, ?_, ?_⟩
  · rw [hws', hws, h.stack_last, List.map_append, List.append_assoc]
  · intro w hw
    rcases List.mem_append.mp hw with hw | hw
    · exact hb' w hw
    · exact hb w hw

theorem Stores.mono {lo hi lo' hi' : Nat} {L L' : Thread V} (h : Stores lo hi L L')
    (hlo : lo' ≤ lo) (hhi : hi ≤ hi') : Stores lo' hi' L L' := by
  obtain ⟨ws, hws, hb⟩ := h.trace
  exact ⟨h.stacksize, h.stack_last, h.base, h.ci, h.callers, ws, hws, fun w hw =>
    ⟨Nat.le_trans hlo (hb w hw).1, Nat.lt_of_lt_of_le (hb w hw).2 hhi⟩⟩

theorem stores_set (L : Thread V) (i : Nat) (v : V) : Stores i (i + 1) L (L.set i v) :=
  ⟨rfl, rfl, rfl, rfl, rfl, [i], rfl, by simp⟩

theorem stores_push (L : Thread V) (v : V) : Stores L.top (L.top + 1) L (L.push v) :=
  ⟨rfl, rfl, rfl, rfl, rfl, [L.top], rfl, by simp⟩

@[simp] theorem top_set (L : Thread V) (i : Nat) (v : V) : (L.set i v).top = L.top := rfl
@[simp] theorem top_push (L : Thread V) (v : V) : (L.push v).top = L.top + 1 := rfl

@[simp] theorem top_pushNils (n : Nat) (L : Thread V) : (pushNils env n L).top = L.top + n := by
  induction n generalizing L with
  | zero => rfl
  | succ n ih => rw [pushNils, ih, top_push]; omega

variable (env) in
theorem stores_pushNils (n : Nat) (L : Thread V) :
    Stores L.top (L.top + n) L (pushNils env n L) := by
  induction n generalizing L with
  | zero => exact Stores.refl _ _ L
  | succ n ih =>
      have h := ih (L.push env.nil)
      rw [top_push] at h
      exact ((stores_push L env.nil).mono (Nat.le_refl _) (by omega)).trans
        (h.mono (by omega) (by omega))

@[simp] theorem top_moveFixed (n fixed : Nat) (L : Thread V) :
    (moveFixed env n fixed L).top = L.top + n := by
  induction n generalizing fixed L with
  | zero => rfl
  | succ n ih => rw [moveFixed, ih, top_set, top_push]; omega

variable (env) in
/-- The parameters are copied up and cleared below, where they were. -/
theorem stores_moveFixed (n fixed : Nat) (L : Thread V) (h : fixed + n ≤ L.top) :
    Stores 0 (L.top + n) L (moveFixed env n fixed L) := by
  induction n generalizing fixed L with
  | zero => exact Stores.refl _ _ L
  | succ n ih =>
      have h1 := (stores_push L (L.stack fixed)).mono (Nat.zero_le _)
        (show L.top + 1 ≤ L.top + (n + 1) by omega)
      have h2 := (stores_set (L.push (L.stack fixed)) fixed env.nil).mono (Nat.zero_le _)
        (show fixed + 1 ≤ L.top + (n + 1) by omega)
      have h3 := ih (fixed + 1) ((L.push (L.stack fixed)).set fixed env.nil)
        (by rw [top_set, top_push]; omega)
      rw [top_set, top_push] at h3
      exact (h1.trans h2).trans (h3.mono (Nat.le_refl _) (by omega))

variable (env) in
theorem stores_clearSlots (n st : Nat) (L : Thread V) :
    Stores st (st + n) L (clearSlots env n st L) := by
  induction n generalizing st L with
  | zero => exact Stores.refl _ _ L
  | succ n ih =>
      exact ((stores_set L st env.nil).mono (Nat.le_refl _) (by omega)).trans
        ((ih (st + 1) _).mono (by omega) (by omega))

@[simp] theorem top_shiftUp (n p : Nat) (L : Thread V) : (shiftUp n p L).top = L.top := by
  induction n generalizing p L with
  | zero => rfl
  | succ n ih => rw [shiftUp, ih, top_set]

theorem stores_shiftUp (n p : Nat) (L : Thread V) : Stores 0 (p + 1) L (shiftUp n p L) := by
  induction n generalizing p L with
  | zero => exact Stores.refl _ _ L
  | succ n ih =>
      exact ((stores_set L p _).mono (Nat.zero_le _) (Nat.le_refl _)).trans
        ((ih (p - 1) _).mono (Nat.le_refl _) (by omega))

/-! ## Sizes -/

/-- `L->stack_last` after `luaD_checkstack(L, n)`. -/
def checkedLast (L : Thread V) (n : Nat) : Nat :=
  if L.stack_last ≤ L.top + n then
    if n ≤ L.stacksize then 2 * L.stacksize else L.stacksize + n
  else L.stack_last

/-- A successful check changes the sizes and nothing else. -/
theorem luaD_checkstack_ok {L L' : Thread V} {n : Nat} (h : luaD_checkstack env L n = .ok L') :
    L' = { L with stacksize := L'.stacksize, stack_last := checkedLast L n } ∧ (L.Ok → L'.Ok) := by
  simp only [luaD_checkstack, luaD_growstack, luaD_reallocstack] at h
  unfold checkedLast
  split_ifs at h ⊢
  · obtain rfl := Except.ok.inj h
    refine ⟨rfl, fun hok => ⟨?_, ?_⟩⟩ <;> simp only <;> have := hok.stack_last <;>
      have := hok.top <;> omega
  · obtain rfl := Except.ok.inj h
    refine ⟨rfl, fun hok => ⟨?_, ?_⟩⟩ <;> simp only <;> have := hok.stack_last <;>
      have := hok.top <;> omega
  · obtain rfl := Except.ok.inj h
    exact ⟨rfl, id⟩

/-- After the check there is room for `n` values above the top. -/
theorem lt_checkedLast {L : Thread V} {n : Nat} (hok : L.Ok) : L.top + n < checkedLast L n := by
  have := hok.stack_last
  have := hok.top
  unfold checkedLast
  split_ifs <;> omega

/-! ## What a call wrote

`Wrote good L L'`: between `L` and `L'` only writes were recorded, and all within the bound that
held for them if `good`. -/

def Wrote (good : Prop) (L L' : Thread V) : Prop :=
  ∃ ws : List (Nat × Nat), L'.trace = ws.map (fun w => .write w.1 w.2) ++ L.trace ∧
    (good → ∀ w ∈ ws, w.1 < w.2)

theorem Wrote.of_trace_eq {good : Prop} {L L' : Thread V} (h : L'.trace = L.trace) :
    Wrote good L L' := ⟨[], h, by simp⟩

theorem Wrote.trans {good : Prop} {L L' L'' : Thread V} (h : Wrote good L L')
    (h' : Wrote good L' L'') : Wrote good L L'' := by
  obtain ⟨ws, hws, hb⟩ := h
  obtain ⟨ws', hws', hb'⟩ := h'
  refine ⟨ws' ++ ws, ?_, fun hg w hw => ?_⟩
  · rw [hws', hws, List.map_append, List.append_assoc]
  · rcases List.mem_append.mp hw with hw | hw
    · exact hb' hg w hw
    · exact hb hg w hw

theorem Stores.wrote {good : Prop} {lo hi : Nat} {L L' : Thread V} (h : Stores lo hi L L')
    (hb : good → hi ≤ L.stack_last + EXTRA_STACK) : Wrote good L L' := by
  obtain ⟨ws, hws, hw⟩ := h.trace
  refine ⟨ws.map fun w => (w, L.stack_last + EXTRA_STACK), ?_, fun hg w hmem => ?_⟩
  · rw [hws, List.map_map]
    rfl
  · obtain ⟨x, hx, rfl⟩ := List.mem_map.mp hmem
    exact Nat.lt_of_lt_of_le (hw x hx).2 (hb hg)

/-! ## The metamethod of a value that is no function -/

theorem callable_ok {L L' : Thread V} {func : Nat} (h : callable env L func = .ok L')
    (hok : L.Ok) (hfunc : func < L.top) (good : Prop) :
    L'.Ok ∧ func < L'.top ∧ Wrote good L L' := by
  unfold callable at h
  split_ifs at h with hf
  · simp only [tryfuncTM, ite_error_ok, bind_ok] at h
    obtain ⟨-, L1, h1, h2⟩ := h
    obtain rfl := Except.ok.inj h2
    obtain ⟨hL1, hok1⟩ := luaD_checkstack_ok h1
    have hshift := stores_shiftUp (L.top - func) L.top L
    have htop : L1.top = L.top := by rw [hL1]; exact top_shiftUp _ _ _
    have hroom : L.top + 1 < L1.stack_last := by
      have hok' : (shiftUp (L.top - func) L.top L).Ok := by
        refine ⟨?_, ?_⟩
        · rw [hshift.stacksize, hshift.stack_last]; exact hok.stack_last
        · rw [hshift.stack_last, top_shiftUp]; exact hok.top
      rw [hL1]
      have := lt_checkedLast (n := 1) hok'
      rwa [top_shiftUp] at this
    have hok1' := hok1 ⟨by rw [hshift.stacksize, hshift.stack_last]; exact hok.stack_last,
      by rw [hshift.stack_last, top_shiftUp]; exact hok.top⟩
    refine ⟨⟨hok1'.stack_last, ?_⟩, ?_, ?_⟩
    · show L1.top + 1 < L1.stack_last + EXTRA_STACK
      omega
    · show func < L1.top + 1
      omega
    · have w1 : Wrote good L (shiftUp (L.top - func) L.top L) := hshift.wrote fun _ => hok.top
      have w2 : Wrote good (shiftUp (L.top - func) L.top L) { L1 with top := L1.top + 1 } :=
        .of_trace_eq (by rw [hL1])
      refine (w1.trans w2).trans ((stores_set _ func _).wrote fun _ => ?_)
      show func + 1 ≤ L1.stack_last + EXTRA_STACK
      omega
  · obtain rfl := Except.ok.inj h
    exact ⟨hok, hfunc, .of_trace_eq rfl⟩

/-! ## The frame of a Lua function -/

/-- Nothing is pushed below the new frame after the check, or what is pushed fits as well. -/
def Fits (L : Thread V) (func : Nat) (p : Proto) : Prop :=
  p.is_vararg = 0 ∨ p.is_vararg &&& VARARG_NEEDSARG ≠ 0 ∨
    L.top + (p.numparams.toNat - (L.top - func - 1)) + p.maxstacksize.toNat ≤
      checkedLast L p.maxstacksize.toNat

instance (L : Thread V) (func : Nat) (p : Proto) : Decidable (Fits L func p) :=
  inferInstanceAs (Decidable (_ ∨ _ ∨ _))

/-- `adjust_varargs` when there is no `arg` table to make: the base goes up by the missing
arguments. -/
theorem adjust_varargs_plain {L L' : Thread V} {p : Proto} {actual base : Nat}
    (hflag : p.is_vararg &&& VARARG_NEEDSARG = 0) (hact : actual ≤ L.top)
    (h : adjust_varargs env L p actual = .ok (L', base)) :
    base = L.top + (p.numparams.toNat - actual) ∧ L'.top = base + p.numparams.toNat ∧
      Stores 0 (base + p.numparams.toNat) L L' := by
  simp only [adjust_varargs, makeArg, hflag, ne_eq, not_true_eq_false, if_false, ok_bind,
    Except.ok.injEq, Prod.mk.injEq] at h
  obtain ⟨rfl, rfl⟩ := h
  have h1 := stores_pushNils env (p.numparams.toNat - actual) L
  have h2 := stores_moveFixed env p.numparams.toNat
    ((pushNils env (p.numparams.toNat - actual) L).top - max actual p.numparams.toNat)
    (pushNils env (p.numparams.toNat - actual) L) (by rw [top_pushNils]; omega)
  rw [top_pushNils] at h2
  refine ⟨top_pushNils _ _, by rw [top_moveFixed], ?_⟩
  rw [top_pushNils]
  exact (h1.mono (Nat.zero_le _) (by omega)).trans h2

/-- `adjust_varargs` when the function needs the `arg` table: there is a second check. -/
theorem adjust_varargs_arg {L L' : Thread V} {p : Proto} {actual base : Nat} (hok : L.Ok)
    (hroom : L.top + p.maxstacksize.toNat < L.stack_last)
    (hp : p.numparams.toNat ≤ p.maxstacksize.toNat)
    (hflag : p.is_vararg &&& VARARG_NEEDSARG ≠ 0) (hact : actual ≤ L.top)
    (h : adjust_varargs env L p actual = .ok (L', base)) (good : Prop) :
    base + p.maxstacksize.toNat ≤ L'.stack_last ∧ L'.top = base + p.numparams.toNat + 1 ∧
      Wrote good L L' := by
  obtain ⟨P, hP⟩ : ∃ P, P = pushNils env (p.numparams.toNat - actual) L := ⟨_, rfl⟩
  have hPs : Stores L.top (L.top + (p.numparams.toNat - actual)) L P := hP ▸ stores_pushNils env _ L
  have hPtop : P.top = L.top + (p.numparams.toNat - actual) := by rw [hP, top_pushNils]
  have hPok : P.Ok := by
    refine ⟨?_, ?_⟩
    · rw [hPs.stacksize, hPs.stack_last]; exact hok.stack_last
    · rw [hPs.stack_last, hPtop]; omega
  have hgc := env.checkGC_keeps P
  have hgcok := env.checkGC_ok P hPok
  simp only [adjust_varargs, ← hP, bind_ok] at h
  obtain ⟨⟨L2', htab⟩, harg, h⟩ := h
  simp only [makeArg, if_pos hflag, bind_ok, Except.ok.injEq, Prod.mk.injEq] at harg
  obtain ⟨L2, hcheck, rfl, rfl⟩ := harg
  obtain ⟨hL2, -⟩ := luaD_checkstack_ok hcheck
  have hL2top : L2.top = L.top + (p.numparams.toNat - actual) := by
    rw [hL2]; exact hgc.top.trans hPtop
  have hL2room : L2.top + p.maxstacksize.toNat < L2.stack_last := by
    have := lt_checkedLast (n := p.maxstacksize.toNat) hgcok
    rw [hL2]
    exact this
  simp only [Except.ok.injEq, Prod.mk.injEq] at h
  obtain ⟨rfl, rfl⟩ := h
  have hmove := stores_moveFixed env p.numparams.toNat
    (L2.top - max actual p.numparams.toNat) L2 (by omega)
  refine ⟨?_, ?_, ?_⟩
  · show L2.top + p.maxstacksize.toNat ≤ (moveFixed env _ _ L2).stack_last
    rw [hmove.stack_last]
    omega
  · rw [top_push, top_moveFixed]
  · have w1 : Wrote good L P := hPs.wrote fun _ => by omega
    have w2 : Wrote good P L2 := .of_trace_eq (by rw [hL2]; exact hgc.trace)
    have w3 : Wrote good L2 (moveFixed env p.numparams.toNat
        (L2.top - max actual p.numparams.toNat) L2) := hmove.wrote fun _ => by omega
    refine ((w1.trans w2).trans w3).trans ((stores_push _ _).wrote fun _ => ?_)
    rw [top_moveFixed, hmove.stack_last]
    omega

/-- The base of the new frame: the arguments are in place below `top`, and the registers fit if
and only if `Fits` holds. -/
theorem luaBase_ok {L L1 L' : Thread V} {func base : Nat} {p : Proto} (hok : L.Ok)
    (hfunc : func < L.top) (hp : p.numparams.toNat ≤ p.maxstacksize.toNat)
    (hcheck : luaD_checkstack env L p.maxstacksize.toNat = .ok L1)
    (h : luaBase env L1 func p = .ok (L', base)) :
    (base + p.maxstacksize.toNat ≤ L'.stack_last ↔ Fits L func p) ∧
      L'.top ≤ base + p.maxstacksize.toNat + 1 ∧ Wrote (Fits L func p) L L' := by
  obtain ⟨hL1, hok1⟩ := luaD_checkstack_ok hcheck
  have hlast : L1.stack_last = checkedLast L p.maxstacksize.toNat := by rw [hL1]
  have htop : L1.top = L.top := by rw [hL1]
  have hroom : L1.top + p.maxstacksize.toNat < L1.stack_last := by
    rw [hlast, htop]
    exact lt_checkedLast hok
  have w1 : Wrote (Fits L func p) L L1 := .of_trace_eq (by rw [hL1])
  unfold luaBase at h
  by_cases hva : p.is_vararg = 0
  · -- no varargs: the frame begins at the arguments
    rw [if_pos hva] at h
    simp only [Except.ok.injEq, Prod.mk.injEq] at h
    obtain ⟨rfl, rfl⟩ := h
    have hfits : Fits L func p := Or.inl hva
    split_ifs with htrunc
    · exact ⟨iff_of_true (by simp only; omega) hfits, by simp only; omega, w1⟩
    · exact ⟨iff_of_true (by omega) hfits, by omega, w1⟩
  · rw [if_neg hva] at h
    by_cases hflag : p.is_vararg &&& VARARG_NEEDSARG = 0
    · obtain ⟨hbase, htop', hst⟩ := adjust_varargs_plain hflag (by omega) h
      have hiff : base + p.maxstacksize.toNat ≤ L'.stack_last ↔ Fits L func p := by
        unfold Fits
        rw [hst.stack_last, hlast, hbase, htop]
        simp [hva, hflag]
      refine ⟨hiff, by omega, w1.trans (hst.wrote fun hfits => ?_)⟩
      have := hiff.mpr hfits
      rw [hst.stack_last] at this
      omega
    · obtain ⟨hbase, htop', hw⟩ := adjust_varargs_arg (hok1 hok) hroom hp hflag (by omega) h
        (Fits L func p)
      exact ⟨iff_of_true hbase (Or.inr (Or.inl hflag)), by omega, w1.trans hw⟩

/-- The property of a call that entered a Lua function with `maxstack` registers: every slot
`luaD_precall` and `adjust_varargs` wrote is below `stack_last + EXTRA_STACK`, and the new frame
satisfies `ci->base + maxstack == ci->top <= stack_last` where that is asserted. -/
def StaysInStack (maxstack : Nat) (L L' : Thread V) : Prop :=
  ∃ evs, L'.trace = evs ++ L.trace ∧ (∀ slot limit, .write slot limit ∈ evs → slot < limit) ∧
    ∃ last, .enter L'.ci.base L'.ci.top last ∈ evs ∧
      L'.ci.base + maxstack = L'.ci.top ∧ L'.ci.top ≤ last

theorem inc_ci_ok {L L' : Thread V} {ci : CallInfo} (h : inc_ci env L ci = .ok L') :
    L'.ci = ci ∧ L'.top = L.top ∧ L'.stack_last = L.stack_last ∧ L'.trace = L.trace := by
  simp only [inc_ci, bind_ok] at h
  obtain ⟨L1, h1, h2⟩ := h
  obtain rfl := Except.ok.inj h2
  simp only [ensureCI, growCI, luaD_reallocCI] at h1
  by_cases hend : L.callers.length + 1 = L.size_ci
  · simp only [if_pos hend, ite_error_ok, bind_ok, ite_ok_error] at h1
    obtain ⟨-, L2, ⟨-, h3⟩, -, h4⟩ := h1
    obtain rfl := Except.ok.inj h3
    obtain rfl := Except.ok.inj h4
    exact ⟨rfl, rfl, rfl, rfl⟩
  · rw [if_neg hend] at h1
    obtain rfl := Except.ok.inj h1
    exact ⟨rfl, rfl, rfl, rfl⟩

variable (env) in
/-- The hook changes neither the frames nor what was recorded. -/
theorem hookCall_keeps (L : Thread V) :
    (hookCall env L).ci = L.ci ∧ (hookCall env L).trace = L.trace := by
  unfold hookCall
  split_ifs
  · exact ⟨(env.callhook_keeps L).ci, (env.callhook_keeps L).trace⟩
  · exact ⟨rfl, rfl⟩

variable (env) in
theorem fillFrame_ok (L : Thread V) (base top : Nat) (good : Prop)
    (hgood : good → max top L.top ≤ L.stack_last + EXTRA_STACK) :
    (fillFrame env L base top).ci = L.ci ∧
      Wrote good { L with trace := .enter base top L.stack_last :: L.trace }
        (fillFrame env L base top) := by
  have hst := stores_clearSlots env (top - L.top) L.top
    { L with base := base, savedpc := 0, trace := .enter base top L.stack_last :: L.trace }
  refine ⟨hst.ci, ?_⟩
  have hw := hst.wrote fun hg : good => by
    have := hgood hg
    show L.top + (top - L.top) ≤ L.stack_last + EXTRA_STACK
    omega
  obtain ⟨ws, hws, hb⟩ := hw
  exact ⟨ws, hws, hb⟩

/-- A call writes up to the entry of its frame, asserts, and clears the rest of the frame. -/
theorem precallLua_ok {L L' : Thread V} {func : Nat} {p : Proto} {nresults : Int} (hok : L.Ok)
    (hfunc : func < L.top) (hp : p.numparams.toNat ≤ p.maxstacksize.toNat)
    (h : precallLua env L func p nresults = .ok (.PCRLUA, L')) :
    ∃ L2 : Thread V, ∃ base : Nat, Wrote (Fits L func p) L L2 ∧
      Wrote (Fits L func p)
        { L2 with trace := .enter base (base + p.maxstacksize.toNat) L2.stack_last :: L2.trace } L' ∧
      L'.ci.base = base ∧ L'.ci.top = base + p.maxstacksize.toNat ∧
      (base + p.maxstacksize.toNat ≤ L2.stack_last ↔ Fits L func p) := by
  simp only [precallLua, bind_ok, Except.ok.injEq, Prod.mk.injEq, true_and] at h
  obtain ⟨L1, hcheck, ⟨L2, base⟩, hbase, L3, hinc, rfl⟩ := h
  obtain ⟨hiff, htop2, hw⟩ := luaBase_ok hok hfunc hp hcheck hbase
  obtain ⟨hci3, htop3, hlast3, htrace3⟩ := inc_ci_ok hinc
  obtain ⟨hci, ws, hws, hgood⟩ := fillFrame_ok env L3 base
    (base + p.maxstacksize.toNat) (Fits L func p) fun hfits => by
      have hle : base + p.maxstacksize.toNat ≤ L2.stack_last := hiff.mpr hfits
      have hle2 : L2.top ≤ base + p.maxstacksize.toNat + 1 := htop2
      rw [hlast3, htop3]
      show max _ L2.top ≤ L2.stack_last + 5
      omega
  obtain ⟨hhci, hhtrace⟩ := hookCall_keeps env
    (fillFrame env L3 base (base + p.maxstacksize.toNat))
  refine ⟨L2, base, hw, ⟨ws, ?_, hgood⟩, ?_, ?_, hiff⟩
  · rw [hhtrace, hws, hlast3, htrace3]
  · rw [hhci, hci, hci3]
  · rw [hhci, hci, hci3]

/-- Vararg calls and the stack: a Lua function that `luaD_precall` entered stays inside the stack
if and only if no nil pushed for a missing parameter spoils the check. `L1` is the thread once the
called value is a function. -/
theorem precall_fits_iff (env : Env V) (L L1 L' : Thread V) (func : Nat) (p : Proto) (nresults : Int)
    (hok : L.Ok) (hfunc : func < L.top) (hp : p.numparams.toNat ≤ p.maxstacksize.toNat)
    (hcall : callable env L func = .ok L1) (hlua : env.callee (L1.stack func) = some (.lua p))
    (h : luaD_precall env L func nresults = .ok (.PCRLUA, L')) :
    StaysInStack p.maxstacksize.toNat L L' ↔ Fits L1 func p := by
  obtain ⟨hok1, hfunc1, hw1⟩ := callable_ok hcall hok hfunc (Fits L1 func p)
  simp only [luaD_precall, hcall, ok_bind, hlua] at h
  obtain ⟨L2, base, hw2, ⟨ws, htrace, hgood⟩, hbase, htop, hiff⟩ :=
    precallLua_ok (L := { L1 with ci := { L1.ci with savedpc := L1.savedpc } })
      ⟨hok1.stack_last, hok1.top⟩ hfunc1 hp h
  obtain ⟨ws0, htrace0, hgood0⟩ := (show Wrote _ L L2 from hw1.trans hw2)
  have hevs : L'.trace = (ws.map (fun w => .write w.1 w.2) ++
      .enter base (base + p.maxstacksize.toNat) L2.stack_last ::
        ws0.map (fun w => .write w.1 w.2)) ++ L.trace := by
    rw [htrace]
    simp only [htrace0, List.append_assoc, List.cons_append]
  constructor
  · rintro ⟨evs, hevs', -, last, hmem, -, hlast⟩
    obtain rfl := List.append_cancel_right (hevs'.symm.trans hevs)
    have hlast' : last = L2.stack_last := by
      simp only [List.mem_append, List.mem_map, List.mem_cons, reduceCtorEq, and_false, exists_false,
        false_or, or_false, Event.enter.injEq] at hmem
      exact hmem.2.2
    rw [hlast', htop] at hlast
    exact hiff.mp hlast
  · intro hfits
    refine ⟨_, hevs, ?_, L2.stack_last, ?_, by rw [hbase, htop], htop ▸ hiff.mpr hfits⟩
    · intro slot limit hmem
      simp only [List.mem_append, List.mem_map, List.mem_cons, Event.write.injEq, reduceCtorEq,
        false_or] at hmem
      rcases hmem with ⟨w, hw, rfl, rfl⟩ | ⟨w, hw, rfl, rfl⟩
      · exact hgood hfits w hw
      · exact hgood0 hfits w hw
    · rw [hbase, htop]
      exact List.mem_append_right _ (List.mem_cons_self ..)

/-! ## A call that leaves the stack -/

/-- `function (p1, …, p10, ...) return ... end`: ten parameters and the unused `arg`. -/
def tenParams : Proto where
  k := []
  code := []
  p := []
  lineinfo := []
  locvars := []
  upvalues := []
  source := none
  sizeupvalues := 0
  sizek := 0
  sizecode := 0
  sizelineinfo := 0
  sizep := 0
  sizelocvars := 0
  linedefined := 0
  lastlinedefined := 0
  nups := 0
  numparams := 10
  is_vararg := VARARG_HASARG ||| VARARG_ISVARARG
  maxstacksize := 12

/-- Every value is nil or (`true`) that function; the collector and the hooks do nothing. -/
def tenEnv : Env Bool where
  nil := false
  callee v := if v then some (.lua tenParams) else none
  gettm _ := false
  argTable _ := false
  canAlloc _ := true
  luaC_checkGC L := L
  luaD_callhook L := L
  cfunction L := .ok (L, 0)
  checkGC_keeps _ := ⟨rfl, rfl, rfl, rfl, rfl, rfl, fun _ _ => rfl⟩
  checkGC_ok _ h := h
  callhook_keeps _ := ⟨rfl, rfl, rfl, rfl, rfl, rfl, fun _ _ => rfl⟩

/-- A stack of the basic size in whose slot 25 the function waits to be called without
arguments. -/
def tenThread : Thread Bool where
  stack i := i == 25
  stacksize := 45
  stack_last := 39
  top := 26
  base := 1
  ci := ⟨1, 0, 39, 0, 0, 0⟩
  callers := []
  size_ci := 8
  savedpc := 0
  hookcall := false
  trace := []

/-- The frame that call gets. -/
def tenResult : Thread Bool :=
  match luaD_precall tenEnv tenThread 25 0 with
  | .ok (_, L) => L
  | .error _ => tenThread

theorem tenThread_precall : luaD_precall tenEnv tenThread 25 0 = .ok (.PCRLUA, tenResult) := rfl

theorem tenThread_ok : tenThread.Ok := ⟨rfl, by decide⟩

/-- The frame of the call ends nine slots above `stack_last`, outside the allocated stack. -/
theorem precall_leaves_stack :
    tenThread.Ok ∧ tenParams.numparams.toNat ≤ tenParams.maxstacksize.toNat ∧
      luaD_precall tenEnv tenThread 25 0 = .ok (.PCRLUA, tenResult) ∧
      tenResult.ci.top = 48 ∧ tenResult.stacksize = 45 ∧ .write 47 44 ∈ tenResult.trace ∧
      ¬ StaysInStack 12 tenThread tenResult := by
  refine ⟨tenThread_ok, by decide, tenThread_precall, by decide, by decide, by decide, ?_⟩
  rintro ⟨evs, hevs, hwrites, -⟩
  have hmem : Event.write 47 44 ∈ evs := by
    have h : Event.write 47 44 ∈ tenResult.trace := by decide
    rwa [hevs, show tenThread.trace = [] from rfl, List.append_nil] at h
  exact absurd (hwrites 47 44 hmem) (by decide)

/-- The same call through `precall_fits_iff`. -/
theorem precall_fits_iff_tenParams :
    StaysInStack 12 tenThread tenResult ↔ Fits tenThread 25 tenParams :=
  precall_fits_iff tenEnv tenThread tenThread tenResult 25 tenParams 0 tenThread_ok
    (by decide) (by decide) rfl rfl tenThread_precall

end Luaxx.Call
