import Luaxx.Call.Arguments

/-!
# The entry of a function and a tail call (`ldo.c`, `lvm.c`)

`luaD_precall` is divided where the function runs (`luaD_precall_eq`), so that a run may stop in it
at every call that it makes itself. A tail call puts the new frame in the place of the one that makes
it.
-/

namespace Luaxx.Control

open Luaxx.Call Luaxx.Result

variable {V : Type} (env : Env V)

/-- The branch of `luaD_precall` for a C function, up to the function. -/
def enterC (L : Thread V) (func : Nat) (nresults : Int) : Except Error (Thread V) := do
  let L ← luaD_checkstack env L LUA_MINSTACK
  let top := L.top + LUA_MINSTACK
  let L ← inc_ci env L ⟨func + 1, func, top, 0, nresults, 0⟩
  let L := { L with base := func + 1, trace := .enter (func + 1) top L.stack_last :: L.trace }
  .ok (hookCall env L)

/-- `luaD_precall`, up to the function, and whether this is a Lua function. -/
def enter (L : Thread V) (func : Nat) (nresults : Int) : Except Error (Bool × Thread V) := do
  let L ← callable env L func
  let L := { L with ci := { L.ci with savedpc := L.savedpc } }
  match env.callee (L.stack func) with
  | some (.lua p) => do
    let (_, L) ← precallLua env L func p nresults
    .ok (true, L)
  | some .c => do
    let L ← enterC env L func nresults
    .ok (false, L)
  | none => .error (.typeerror "call")

/-- The branch of `luaD_precall` from the function on. -/
def leaveC (L : Thread V) : Except Error (PCR × Thread V) := do
  let (L, n) ← env.cfunction L
  if n < 0 then .ok (.PCRYIELD, L)
  else .ok (.PCRC, luaD_poscall env L (L.top - n.toNat))

theorem precallC_eq (L : Thread V) (func : Nat) (nresults : Int) :
    precallC env L func nresults = enterC env L func nresults >>= leaveC env := by
  rw [precallC, enterC]
  cases luaD_checkstack env L LUA_MINSTACK with
  | error e => rfl
  | ok L1 =>
    rw [ok_bind, ok_bind]
    dsimp only
    cases inc_ci env L1 ⟨func + 1, func, L1.top + LUA_MINSTACK, 0, nresults, 0⟩ with
    | error e => rfl
    | ok L2 => rfl

theorem precallLua_pcr {L L' : Thread V} {func : Nat} {p : Proto} {nresults : Int} {r : PCR}
    (h : precallLua env L func p nresults = .ok (r, L')) : r = .PCRLUA := by
  simp only [precallLua, bind_ok, Except.ok.injEq, Prod.mk.injEq] at h
  obtain ⟨L1, -, ⟨L2, base⟩, -, L3, -, rfl, -⟩ := h
  rfl

theorem luaD_precall_eq (L : Thread V) (func : Nat) (nresults : Int) :
    luaD_precall env L func nresults = enter env L func nresults >>= fun r =>
      if r.1 then .ok (.PCRLUA, r.2) else leaveC env r.2 := by
  rw [luaD_precall, enter]
  cases callable env L func with
  | error e => rfl
  | ok L1 =>
    rw [ok_bind, ok_bind]
    dsimp only
    cases env.callee (L1.stack func) with
    | none => rfl
    | some f =>
      cases f with
      | c =>
        dsimp only
        rw [precallC_eq]
        cases enterC env { L1 with ci := { L1.ci with savedpc := L1.savedpc } } func nresults with
        | error e => rfl
        | ok L2 => rfl
      | lua p =>
        dsimp only
        cases hr : precallLua env { L1 with ci := { L1.ci with savedpc := L1.savedpc } } func p
            nresults with
        | error e => rfl
        | ok r =>
          obtain ⟨pcr, L2⟩ := r
          rw [precallLua_pcr env hr]
          rfl

/-! ## What is entered -/

/-- The arguments of a call: a value that is no function is the first argument of its metamethod. -/
def callArgs (L : Thread V) (func : Nat) : List V :=
  if (env.callee (L.stack func)).isNone then L.valuesFrom func else L.valuesFrom (func + 1)

/-- The function that runs has its arguments, between its slot and its top. -/
def Gets (args : List V) (L : Thread V) : Prop :=
  match env.callee (L.stack L.ci.func) with
  | some (.lua p) => Receives env.nil p args L ∧ L.base + p.numparams.toNat ≤ L.top ∧
      (p.is_vararg ≠ 0 → L.ci.func + args.length < L.base)
  | some .c => L.valuesFrom L.base = args
  | none => False

/-- There is a new frame above that of the caller. -/
structure Entered (L : Thread V) (func : Nat) (nresults : Int) (L' : Thread V) : Prop where
  callers : L'.callers = { L.ci with savedpc := L.savedpc } :: L.callers
  func_eq : L'.ci.func = func
  nresults : L'.ci.nresults = nresults
  base_eq : L'.base = L'.ci.base
  func_lt : func < L'.base
  below : ∀ j < func, L'.stack j = L.stack j

structure Callable (L : Thread V) (func : Nat) (L' : Thread V) : Prop where
  ci : L'.ci = L.ci
  callers : L'.callers = L.callers
  savedpc : L'.savedpc = L.savedpc
  func_lt : func < L'.top
  below : ∀ j < func, L'.stack j = L.stack j
  args : L'.valuesFrom (func + 1) = callArgs env L func

variable {env}

theorem savedpc_shiftUp (n p : Nat) (L : Thread V) : (shiftUp n p L).savedpc = L.savedpc := by
  induction n generalizing p L with
  | zero => rfl
  | succ n ih => rw [shiftUp, ih]; rfl

theorem callable_spec {L L' : Thread V} {func : Nat} (hfunc : func < L.top)
    (h : callable env L func = .ok L') : Callable env L func L' := by
  unfold callable at h
  split_ifs at h with hnone
  · simp only [tryfuncTM, ite_error_ok, bind_ok] at h
    obtain ⟨-, L1, hcheck, h⟩ := h
    obtain rfl := Except.ok.inj h
    obtain ⟨hL1, -⟩ := luaD_checkstack_ok hcheck
    have hshift := stores_shiftUp (L.top - func) L.top L
    have htop : L1.top = L.top := by rw [hL1]; exact top_shiftUp _ _ _
    have hstack (j : Nat) : L1.stack j =
        if func < j ∧ j ≤ L.top then L.stack (j - 1) else L.stack j := by
      rw [hL1]
      show (shiftUp _ _ L).stack j = _
      rw [stack_shiftUp _ _ _ (Nat.sub_le _ _), Nat.sub_sub_self (Nat.le_of_lt hfunc)]
    have hargs : callArgs env L func = L.valuesFrom func := if_pos hnone
    refine ⟨?_, ?_, ?_, ?_, fun j hj => ?_, hargs ▸ valuesFrom_eq ?_ fun i hi => ?_⟩
    · show L1.ci = _
      rw [hL1]
      exact hshift.ci
    · show L1.callers = _
      rw [hL1]
      exact hshift.callers
    · show L1.savedpc = _
      rw [hL1]
      exact savedpc_shiftUp _ _ _
    · show func < L1.top + 1
      omega
    · rw [stack_set, if_neg (by omega)]
      show L1.stack j = _
      rw [hstack, if_neg (by omega)]
    · show L1.top + 1 - (func + 1) = _
      omega
    · rw [stack_set, if_neg (by omega)]
      show L1.stack (func + 1 + i) = _
      rw [hstack, if_pos (by omega)]
      congr 1
      omega
  · obtain rfl := Except.ok.inj h
    exact ⟨rfl, rfl, rfl, hfunc, fun _ _ => rfl, (if_neg hnone).symm⟩

theorem enterC_spec {L L' : Thread V} {func : Nat} {nresults : Int}
    (h : enterC env L func nresults = .ok L') :
    L'.callers = L.ci :: L.callers ∧ L'.ci.func = func ∧ L'.ci.nresults = nresults ∧
      L'.base = L'.ci.base ∧ L'.base = func + 1 ∧ L'.top = L.top ∧
      ∀ j < L.top, L'.stack j = L.stack j := by
  simp only [enterC, bind_ok, Except.ok.injEq] at h
  obtain ⟨L1, hcheck, L2, hinc, rfl⟩ := h
  obtain ⟨hL1, -⟩ := luaD_checkstack_ok hcheck
  obtain ⟨hci, htop, -, -⟩ := inc_ci_ok hinc
  obtain ⟨hcallers, hstack⟩ := inc_ci_frame hinc
  have htop1 : L1.top = L.top := by rw [hL1]
  have hhook := hookCall_frame env { L2 with
    base := func + 1
    trace := .enter (func + 1) (L1.top + LUA_MINSTACK) L2.stack_last :: L2.trace }
  refine ⟨?_, ?_, ?_, ?_, hhook.base, ?_, fun j hj => ?_⟩
  · rw [hhook.callers]
    show L2.callers = _
    rw [hcallers, hL1]
  · rw [hhook.ci]
    show L2.ci.func = _
    rw [hci]
  · rw [hhook.ci]
    show L2.ci.nresults = _
    rw [hci]
  · rw [hhook.base, hhook.ci]
    show func + 1 = L2.ci.base
    rw [hci]
  · rw [hhook.top]
    exact htop.trans htop1
  · rw [hhook.slots j (by show j < L2.top; rw [htop, htop1]; exact hj)]
    show L2.stack j = _
    rw [hstack, hL1]

theorem makeArg_top {L L' : Thread V} {p : Proto} {actual : Nat} {htab : Option V}
    (h : makeArg env L p actual = .ok (L', htab)) : L'.top = L.top :=
  (makeArg_keeps h).1

/-- The frame has room for the registers, and a vararg frame is above all arguments. -/
theorem precallLua_room {L L' : Thread V} {func : Nat} {p : Proto} {nresults : Int} {r : PCR}
    (hfunc : func < L.top) (h : precallLua env L func p nresults = .ok (r, L')) :
    L'.top = L'.base + p.maxstacksize.toNat ∧
      (p.is_vararg ≠ 0 → func + (L.valuesFrom (func + 1)).length < L'.base) := by
  simp only [precallLua, bind_ok, Except.ok.injEq, Prod.mk.injEq] at h
  obtain ⟨L1, hcheck, ⟨L2, base⟩, hbase, L3, -, -, rfl⟩ := h
  have htop1 : L1.top = L.top := by rw [(luaD_checkstack_ok hcheck).1]
  have hhook := hookCall_frame env (fillFrame env L3 base (base + p.maxstacksize.toNat))
  have hfill : (fillFrame env L3 base (base + p.maxstacksize.toNat)).base = base :=
    (stores_clearSlots env _ _ _).base
  refine ⟨?_, fun hne => ?_⟩
  · rw [hhook.top, hhook.base, hfill]
    rfl
  · rw [hhook.base, hfill, length_valuesFrom]
    rw [luaBase, if_neg hne] at hbase
    simp only [adjust_varargs, bind_ok] at hbase
    obtain ⟨⟨M, htab⟩, harg, hbase⟩ := hbase
    have hM := makeArg_top harg
    rw [top_pushNils] at hM
    obtain rfl : M.top = base := (Prod.mk.inj (Except.ok.inj hbase)).2
    omega

/-- A function is entered with its arguments. -/
theorem enter_spec {L L' : Thread V} {func : Nat} {nresults : Int} {lua : Bool}
    (hp : ∀ v p, env.callee v = some (.lua p) → p.numparams.toNat ≤ p.maxstacksize.toNat)
    (hfunc : func < L.top) (h : enter env L func nresults = .ok (lua, L')) :
    Entered L func nresults L' ∧ Gets env (callArgs env L func) L' ∧
      (lua = true → ∃ p, env.callee (L'.stack L'.ci.func) = some (.lua p)) := by
  simp only [enter, bind_ok] at h
  obtain ⟨L1, hcall, h⟩ := h
  obtain ⟨hci, hcallers, hsavedpc, hlt, hbelow, hargs⟩ := callable_spec hfunc hcall
  have hframe : ({ L1.ci with savedpc := L1.savedpc } : CallInfo) =
      { L.ci with savedpc := L.savedpc } := by
    rw [hci, hsavedpc]
  cases hf : env.callee (L1.stack func) with
  | none =>
    rw [hf] at h
    exact absurd h (by rintro ⟨⟩)
  | some f =>
    cases f with
    | c =>
      rw [hf] at h
      simp only [bind_ok, Except.ok.injEq, Prod.mk.injEq] at h
      obtain ⟨L2, hC, rfl, rfl⟩ := h
      obtain ⟨hcallers', hfunc', hres, hbase, hbase', htop, hslots⟩ := enterC_spec hC
      have hvalues : L2.valuesFrom (func + 1) = L1.valuesFrom (func + 1) :=
        valuesFrom_eq (congrArg (· - (func + 1)) htop)
          fun i hi => hslots _ (show func + 1 + i < L1.top by omega)
      refine ⟨⟨?_, hfunc', hres, hbase, by omega, fun j hj => ?_⟩, ?_⟩
      · rw [hcallers', ← hframe, ← hcallers]
      · rw [hslots j (show j < L1.top by omega)]
        exact hbelow j hj
      · have hcallee : env.callee (L2.stack L2.ci.func) = some .c := by
          rw [hfunc', hslots func hlt]
          exact hf
        refine ⟨?_, fun hl => by cases hl⟩
        rw [Gets, hcallee]
        show L2.valuesFrom L2.base = _
        rw [hbase', hvalues, hargs]
    | lua p =>
      rw [hf] at h
      simp only [bind_ok, Except.ok.injEq, Prod.mk.injEq] at h
      obtain ⟨⟨r, L2⟩, hlua, -, rfl⟩ := h
      obtain ⟨-, hreceives, hcallers', hfunc', hres, hbase, hbase', -, hslots⟩ :=
        precallLua_receives (L := { L1 with ci := { L1.ci with savedpc := L1.savedpc } }) hlt
          (hp _ _ hf) hlua
      obtain ⟨htop, hroom⟩ :=
        precallLua_room (L := { L1 with ci := { L1.ci with savedpc := L1.savedpc } }) hlt hlua
      refine ⟨⟨?_, hfunc', hres, hbase, hbase', fun j hj => ?_⟩, ?_⟩
      · rw [hcallers', ← hframe, ← hcallers]
      · rw [hslots j (Nat.le_of_lt hj)]
        exact hbelow j hj
      · have hcallee : env.callee (L2.stack L2.ci.func) = some (.lua p) := by
          rw [hfunc', hslots func (Nat.le_refl _)]
          exact hf
        refine ⟨?_, fun _ => ⟨p, hcallee⟩⟩
        rw [Gets, hcallee]
        show Receives env.nil p _ L2 ∧ _
        rw [← hargs, hfunc']
        refine ⟨hreceives, ?_, hroom⟩
        rw [htop]
        exact Nat.add_le_add_left (hp _ _ hf) _

/-! ## A tail call -/

/-- `OP_TAILCALL`, from the entry of a Lua function on: the new frame is put in place of the
previous one. -/
def tailcall (L : Thread V) : Thread V :=
  let ci := L.callers.headD L.ci
  let func := ci.func
  let pfunc := L.ci.func
  let base := func + (L.ci.base - pfunc)
  let top := func + (L.top - pfunc)
  { moveResults (L.top - pfunc) func pfunc L with
    ci := { ci with base := base, top := top, savedpc := L.savedpc, tailcalls := ci.tailcalls + 1 }
    callers := L.callers.tail
    base := base
    top := top }

theorem stack_tailcall {L : Thread V} {ci : CallInfo} {callers : List CallInfo}
    (hcallers : L.callers = ci :: callers) (hle : ci.func ≤ L.ci.func) (j : Nat) :
    (tailcall L).stack j = if ci.func ≤ j ∧ j < ci.func + (L.top - L.ci.func) then
      L.stack (L.ci.func + (j - ci.func)) else L.stack j := by
  have hhead : L.callers.headD L.ci = ci := by rw [hcallers]; rfl
  show (moveResults (L.top - L.ci.func) (L.callers.headD L.ci).func L.ci.func L).stack j = _
  rw [hhead, stack_moveResults _ _ _ _ hle]

/-- The frame keeps its place and the number of results that its caller wants. -/
theorem tailcall_frame {L : Thread V} {ci : CallInfo} {callers : List CallInfo}
    (hcallers : L.callers = ci :: callers) (hbase : L.base = L.ci.base) (hlt : L.ci.func < L.base) :
    (tailcall L).callers = callers ∧ (tailcall L).ci.func = ci.func ∧
      (tailcall L).ci.nresults = ci.nresults ∧ (tailcall L).base = (tailcall L).ci.base ∧
      (tailcall L).base = ci.func + (L.base - L.ci.func) ∧ ci.func < (tailcall L).base := by
  have hhead : L.callers.headD L.ci = ci := by rw [hcallers]; rfl
  have hnew : (tailcall L).base = ci.func + (L.base - L.ci.func) := by
    show (L.callers.headD L.ci).func + _ = _
    rw [hhead, hbase]
  refine ⟨?_, ?_, ?_, rfl, hnew, ?_⟩
  · show L.callers.tail = callers
    rw [hcallers]
    rfl
  · show (L.callers.headD L.ci).func = _
    rw [hhead]
  · show (L.callers.headD L.ci).nresults = _
    rw [hhead]
  · rw [hnew]
    omega

/-- The arguments are moved down with the frame. -/
theorem tailcall_gets {L : Thread V} {ci : CallInfo} {callers : List CallInfo} {p : Proto}
    {args : List V} (hcallers : L.callers = ci :: callers) (hle : ci.func ≤ L.ci.func)
    (hbase : L.base = L.ci.base) (hlt : L.ci.func < L.base)
    (hp : env.callee (L.stack L.ci.func) = some (.lua p)) (h : Gets env args L) :
    Gets env args (tailcall L) := by
  rw [Gets, hp] at h
  obtain ⟨hreceives, htop, hroom⟩ := h
  obtain ⟨-, hfunc, -, -, hnew, -⟩ := tailcall_frame hcallers hbase hlt
  have hhead : L.callers.headD L.ci = ci := by rw [hcallers]; rfl
  have htop' : (tailcall L).top = ci.func + (L.top - L.ci.func) := by
    show (L.callers.headD L.ci).func + _ = _
    rw [hhead]
  have hcallee : env.callee ((tailcall L).stack (tailcall L).ci.func) = some (.lua p) := by
    rw [hfunc, stack_tailcall hcallers hle, if_pos (by omega), Nat.sub_self, Nat.add_zero]
    exact hp
  rw [Gets, hcallee]
  refine ⟨⟨fun i hi => ?_, fun hne i hi hge => ?_⟩, ?_, fun hne => ?_⟩
  · rw [hnew, stack_tailcall hcallers hle, if_pos (by omega), ← hreceives.params i hi]
    congr 1
    omega
  · have hlen := hroom hne
    rw [hnew, stack_tailcall hcallers hle, if_pos (by omega), ← hreceives.extra hne i hi hge]
    congr 2
    omega
  · rw [hnew, htop']
    omega
  · rw [hfunc, hnew]
    have hlen := hroom hne
    omega

end Luaxx.Control
