import Luaxx.Coro.Agreement

/-!
# Steps

Every step keeps the agreement of the state with the history, and passes its values from the one
thread to the other.
-/

namespace Luaxx.Coro

open Luaxx.Call

variable {V : Type} {env : Host V} {s s' : State V} {h : History}

/-! ## What a step passes on -/

/-- The values arrive as the arguments of the body, or as the results of the pending yield. -/
def Arrives (env : Host V) (args : List V) (L L' : LuaState V) : Life → Prop
  | .fresh => ∃ p, env.callee (L.stack L.base) = some (.lua p) ∧ Receives env.nil p args L'.toThread
  | .yielded => Results env.nil L.ci.nresults args L.ci.func L'.toThread
  | _ => False

/-- The values are what the function in which the thread waits returns. -/
structure Gets (env : Host V) (kind : Kind) (ok : Bool) (values : List V) (t : Nat)
    (L L' : LuaState V) : Prop where
  kept : Extends t L L'
  values : L'.valuesFrom t = kind.returns env ok values

/-- The thread that runs gets an error, and goes on. -/
def Fails (env : Host V) (s s' : State V) (v : V) : Prop :=
  s'.running = s.running ∧ s'.resumers = s.resumers ∧
    ∃ kind t, Gets env kind false [v] t (s.threads s.running) (s'.threads s.running)

/-- The thread that waits gets the values, and goes on. -/
def Returns (env : Host V) (s s' : State V) (ok : Bool) (values : List V) : Prop :=
  ∃ p, s.resumers = p :: s'.resumers ∧ s'.running = p.thread ∧
    Gets env p.kind ok values (s.threads p.thread).top (s.threads p.thread) (s'.threads p.thread)

/-- The other threads are kept. -/
def State.Keeps (s s' : State V) (changed : List Nat) : Prop :=
  ∀ i < s.count, i ∉ changed → s'.threads i = s.threads i

/-- A suspended coroutine is entered, and the thread that ran waits for it. -/
def Enters (s s' : State V) (c : Nat) : Prop :=
  s'.running = c ∧ ∃ kind, s'.resumers = ⟨s.running, kind⟩ :: s.resumers

def Passes (env : Host V) (h : History) (s : State V) : Event V → State V → Prop
  | .other, s' | .create, s' | .tooMany, s' =>
    s'.running = s.running ∧ s'.resumers = s.resumers ∧ s.Keeps s' [s.running]
  | .resume c args, s' =>
    s.Keeps s' [s.running, c] ∧
      if (h.lives c).suspended then
        Enters s s' c ∧ Arrives env args (s.threads c) (s'.threads c) (h.lives c)
      else
        Fails env s s'
            (env.luaS_new ("cannot resume " ++ statnames (h.lives c).costatus ++ " coroutine")) ∧
          (c ≠ s.running → Resized (s.threads c) (s'.threads c))
  | .overflow c, s' =>
    s.Keeps s' [s.running, c] ∧ Fails env s s' (env.luaS_new "C stack overflow")
  | .fails c, s' => s.Keeps s' [s.running, c] ∧ ∃ v, Fails env s s' v
  | .yield values, s' | .finish values, s' =>
    s.Keeps s' (s.running :: s.resumers.map Pending.thread) ∧ Returns env s s' true values
  | .error v, s' =>
    s.Keeps s' (s.running :: s.resumers.map Pending.thread) ∧ Returns env s s' false [v]

/-! ## `auxresume_end` -/

theorem Ends.flag {L L' co co' : LuaState V} {status : Nat} {res : Aux} (hstatus : LUA_YIELD < status)
    (htop : 0 < co.top) (he : Ends env L co status res L' co') (kind : Kind) :
    co' = { co with top := co.top - 1 } ∧
      Gets env kind false [co.stack (co.top - 1)] L.top L (finish env kind res L') := by
  have hend : auxresume_end env L co status =
      .ok (.flag, (lua_xmove co L 1).2, (lua_xmove co L 1).1) := by
    have hne : ¬ (status = 0 ∨ status = LUA_YIELD) := by
      rintro (rfl | rfl)
      · exact absurd hstatus (by decide)
      · exact absurd hstatus (by decide)
    rw [auxresume_end, if_neg hne]
  obtain ⟨hco, hmoved⟩ := lua_xmove_moved (n := 1) L htop
  rcases he with he | ⟨⟨e, he⟩, -⟩
  · obtain ⟨rfl, hpair⟩ := Prod.mk.inj (Except.ok.inj (hend.symm.trans he))
    obtain ⟨rfl, rfl⟩ := Prod.mk.inj hpair
    obtain ⟨hext, hvalues⟩ := finish_flag env kind (lua_xmove co L 1).2
      (by rw [hmoved.top]; exact Nat.succ_pos _)
    rw [hmoved.top, Nat.add_sub_cancel, hmoved.value htop] at hvalues
    rw [hmoved.top, Nat.add_sub_cancel] at hext
    exact ⟨hco, hmoved.extends.trans hext, hvalues⟩
  · rw [hend] at he
    exact absurd he (by rintro ⟨⟩)

theorem Ends.returns {L L' co co' : LuaState V} {status : Nat} {res : Aux}
    (hstatus : status = 0 ∨ status = LUA_YIELD) (htop : co.base ≤ co.top)
    (hroom : ∃ L1, lua_checkstack env L (lua_gettop co + 1) = .ok (true, L1))
    (he : Ends env L co status res L' co') (kind : Kind) :
    co' = { co with top := co.base } ∧
      Gets env kind true (co.valuesFrom co.base) L.top L (finish env kind res L') := by
  obtain ⟨L1, hL1⟩ := hroom
  have hend : auxresume_end env L co status = .ok (.results (lua_gettop co),
      (lua_xmove co L1 (lua_gettop co)).2, (lua_xmove co L1 (lua_gettop co)).1) := by
    simp only [auxresume_end, if_pos hstatus, hL1]
    rfl
  have hresized := (lua_checkstack_resized hL1).1
  have htopL : L1.top = L.top := by
    obtain ⟨_, _, _, rfl⟩ := hresized
    rfl
  have hbase : co.top - lua_gettop co = co.base := by
    rw [lua_gettop]
    omega
  obtain ⟨hco, hmoved⟩ := lua_xmove_moved (n := lua_gettop co) L1
    (Nat.sub_le co.top co.base)
  rcases he with he | ⟨⟨e, he⟩, -⟩
  · obtain ⟨rfl, hpair⟩ := Prod.mk.inj (Except.ok.inj (hend.symm.trans he))
    obtain ⟨rfl, rfl⟩ := Prod.mk.inj hpair
    obtain ⟨hext, hvalues⟩ := finish_results env kind (lua_xmove co L1 (lua_gettop co)).2
      (n := lua_gettop co) (by rw [hmoved.top]; exact Nat.le_add_left _ _)
    have hmoveds := hmoved.values
    have hexts := hmoved.extends
    rw [hmoved.top, Nat.add_sub_cancel, htopL] at hvalues hext
    rw [htopL, hbase] at hmoveds
    rw [htopL] at hexts
    rw [hmoveds] at hvalues
    rw [hbase] at hco
    exact ⟨hco, ((hresized.extends L.top).trans hexts).trans hext, hvalues⟩
  · rw [hend] at he
    exact absurd he (by rintro ⟨⟩)

/-! ## Resumes -/

theorem Life.Fits.resized {isMain : Prop} {life : Life} {L L' : LuaState V}
    (hf : life.Fits env isMain L) (hr : Resized L L') : life.Fits env isMain L' := by
  cases life with
  | fresh =>
    obtain ⟨_, _, _, rfl⟩ := hr
    exact ⟨hf.status, hf.callers, hf.base_eq, hf.top_eq, hf.callee⟩
  | yielded =>
    obtain ⟨_, _, _, rfl⟩ := hr
    exact ⟨hf.status, hf.body, hf.callee, hf.func_lt, hf.base_eq, hf.top_eq⟩
  | running => exact Active.extends hf (hr.extends 0)
  | normal => exact Active.extends hf (hr.extends 0)
  | dead =>
    obtain ⟨_, _, _, rfl⟩ := hr
    exact hf

theorem Active.of_not_main {isMain : Prop} {L : LuaState V} (ha : Active False L) : Active isMain L :=
  ⟨ha.status, ha.callers, fun _ => ha.body not_false⟩

variable (env) in
/-- A refused resume is an error of the function that has made it. -/
theorem refused_gets (kind : Kind) {L L1 : LuaState V} (hr : Resized L L1) (v : V) :
    Gets env kind false [v] L.top L (finish env kind .flag (L1.push v)) := by
  have htop : L1.top = L.top := by
    obtain ⟨_, _, _, rfl⟩ := hr
    rfl
  obtain ⟨hext, hvalues⟩ := finish_flag env kind (L1.push v) (Nat.succ_pos _)
  have hpush : (L1.push v).top - 1 = L1.top := rfl
  have hv : (L1.push v).stack L1.top = v := if_pos rfl
  rw [hpush, hv, htop] at hvalues
  rw [hpush, htop] at hext
  exact ⟨((hr.extends _).trans (push_extends L1 v (Nat.le_of_eq htop.symm))).trans hext, hvalues⟩

theorem step_refused (ha : Agrees env s h) {kind : Kind} {c narg : Nat} {L co : LuaState V}
    {args : List V} (hc : c < s.count)
    (hr : auxresume env (c = s.running) (s.threads s.running) (s.threads c) narg =
      .ok (.refused L co)) :
    Agrees env ((s.set c co).set s.running (finish env kind .flag L)) (h.after (.resume c args)) ∧
      Passes env h s (.resume c args) ((s.set c co).set s.running (finish env kind .flag L)) := by
  obtain ⟨room, co1, hroom, ⟨-, hb⟩ | ⟨-, hsus, L', hL', hb⟩ | ⟨-, -, L', co2, -, hb⟩⟩ :=
    auxresume_ok hr
  · exact absurd hb (by rintro ⟨⟩)
  · obtain ⟨rfl, rfl⟩ := Begun.refused.inj hb
    have hresized := (lua_checkstack_resized hroom).1
    have hlife : ¬ (h.lives c).suspended = true := fun hs => hsus ((ha.suspended_iff hc).1 hs)
    have hafter : h.after (.resume c args : Event V) = h := if_neg hlife
    rw [ha.costatus hc] at hL'
    obtain ⟨M, hM⟩ : ∃ M, M = if decide (c = s.running) then co1 else s.threads s.running := ⟨_, rfl⟩
    rw [← hM] at hL'
    -- the thread of a coroutine that resumes itself is enlarged
    have hresizedM : Resized (s.threads s.running) M := by
      by_cases hself : c = s.running
      · rw [hM, decide_eq_true hself, if_pos rfl, ← hself]
        exact hresized
      · rw [hM, decide_eq_false hself, if_neg Bool.false_ne_true]
        exact Resized.refl _
    have hgets := refused_gets env kind hresizedM
      (env.luaS_new ("cannot resume " ++ statnames (h.lives c).costatus ++ " coroutine"))
    rw [← hL'] at hgets
    have hactive := ha.runs.extends hgets.kept
    rw [hafter]
    refine ⟨?_, fun i _ hi => ?_, ?_⟩
    · by_cases hself : c = s.running
      · rw [hself, State.set_set]
        exact ha.set (by rw [ha.lives_running]; exact hactive)
      · rw [decide_eq_false hself, if_neg Bool.false_ne_true]
        refine (ha.set ((ha.fits c hc).resized hresized)).set ?_
        rw [ha.lives_running]
        exact hactive
    · obtain ⟨hir, hic⟩ : i ≠ s.running ∧ i ≠ c := by
        rw [List.mem_cons, List.mem_singleton, not_or] at hi
        exact hi
      rw [State.set_of_ne _ _ hir, State.set_of_ne _ _ hic]
    · rw [if_neg hlife]
      refine ⟨⟨rfl, rfl, kind, (s.threads s.running).top, ?_⟩, fun hself => ?_⟩
      · rw [State.set_self]
        exact hgets
      · rw [State.set_of_ne _ _ hself, State.set_self, decide_eq_false hself,
          if_neg Bool.false_ne_true]
        exact hresized
  · exact absurd hb (by rintro ⟨⟩)

/-- What becomes of a coroutine that is suspended when it is resumed with these values. -/
inductive Outcome (env : Host V) (args : List V) (life : Life) (co : LuaState V) : Resumed V → Prop
  | refused {co' : LuaState V} (htop : 0 < co'.top)
      (hmsg : co'.stack (co'.top - 1) = env.luaS_new "C stack overflow")
      (hyielded : life = .yielded → Yielded env { co' with top := co'.top - 1 }) :
    Outcome env args life co (.refused co')
  | failed {status : Nat} {co' : LuaState V} (hstatus : LUA_YIELD < status)
      (hco : co'.status = status) (htop : 0 < co'.top) : Outcome env args life co (.failed status co')
  | running {co' : LuaState V} (hactive : Active False co') (harrives : Arrives env args co co' life) :
    Outcome env args life co (.running co')

theorem LUA_YIELD_lt_errorStatus (e : Error) : LUA_YIELD < errorStatus e := by
  cases e with
  | errmem => decide
  | errerr => decide
  | runerror msg => exact Nat.lt_succ_self 1
  | typeerror op => exact Nat.lt_succ_self 1

theorem Fresh.outcome {co co1 co2 : LuaState V} {source : LuaState V} {narg n : Nat}
    (hf : Fresh env co) (hr : Resized co co1) (hm : Moved source co1 narg co2) :
    Outcome env (source.valuesFrom (source.top - narg)) .fresh co
      (lua_resume env { co2 with nCcalls := n } narg) := by
  obtain ⟨p, hp⟩ := hf.callee
  obtain ⟨_, _, _, rfl⟩ := hr
  have htop : co2.top = co2.base + 1 + narg := by
    rw [hm.top, hm.base]
    show co.top + narg = _
    rw [hf.top_eq]
  have hp2 : env.callee (co2.stack co2.base) = some (.lua p) := by
    rw [hm.base, hm.below _ (by show co.base < co.top; rw [hf.top_eq]; exact Nat.lt_succ_self _)]
    exact hp
  have hbase : co2.base = co2.ci.base := by
    rw [hm.base, hm.ci]
    exact hf.base_eq
  have hvalues : co2.valuesFrom (co2.base + 1) = source.valuesFrom (source.top - narg) := by
    rw [← hm.values, hm.base]
    show _ = co2.valuesFrom co.top
    rw [hf.top_eq]
  rcases lua_resume_fresh env (L := { co2 with nCcalls := n }) (hm.status.trans hf.status)
      (hm.callers.trans hf.callers) hbase htop hp2 with
    ⟨-, hres⟩ | ⟨e, L', hres, hstatus, hpos⟩ | ⟨L', hres, hactive, hreceives⟩
  · rw [hres]
    exact .refused (Nat.succ_pos _) (if_pos rfl) (fun hl => absurd hl (by decide))
  · rw [hres]
    exact .failed (LUA_YIELD_lt_errorStatus e) hstatus hpos
  · rw [hres]
    refine .running hactive ⟨p, hp, ?_⟩
    rw [← hvalues]
    exact hreceives

theorem Yielded.outcome {co co1 co2 : LuaState V} {source : LuaState V} {narg n : Nat}
    (hf : Yielded env co) (hr : Resized co co1) (hm : Moved source co1 narg co2) :
    Outcome env (source.valuesFrom (source.top - narg)) .yielded co
      (lua_resume env { co2 with nCcalls := n } narg) := by
  obtain ⟨_, _, _, rfl⟩ := hr
  have hfirst : co2.top - narg = co.top := by
    rw [hm.top, Nat.add_sub_cancel]
  have hlt : co.ci.func < co.top := by
    rw [hf.top_eq, hf.base_eq]
    exact hf.func_lt
  have hci : co2.ci.func = co.ci.func := by rw [hm.ci]
  have hcallee : env.callee (co2.stack co2.ci.func) = some .c := by
    rw [hci, hm.below _ hlt]
    exact hf.callee
  have hstatus : co2.status = LUA_YIELD := hm.status.trans hf.status
  have hbody : HasBody co2.callers := by
    rw [hm.callers]
    exact hf.body
  rcases lua_resume_yielded env (L := { co2 with nCcalls := n }) hstatus hbody
      hcallee (by show co2.ci.func ≤ co2.top - narg; rw [hfirst, hci]; exact Nat.le_of_lt hlt) with
    ⟨-, hres⟩ | ⟨L', hres, hactive, hresults⟩
  · rw [hres]
    have hcibase : co2.ci.base = co.ci.base := by rw [hm.ci]
    refine .refused (Nat.succ_pos _) (if_pos rfl) fun _ => ⟨hstatus, hbody, ?_, ?_, ?_, ?_⟩
    · refine (congrArg env.callee (if_neg ?_)).trans hcallee
      show co2.ci.func ≠ co2.ci.base
      rw [hci, hcibase]
      exact Nat.ne_of_lt hf.func_lt
    · show co2.ci.func < co2.ci.base
      rw [hci, hcibase]
      exact hf.func_lt
    · show co2.base = co2.ci.base
      rw [hm.base, hcibase]
      exact hf.base_eq
    · show co2.ci.base + 1 - 1 = co2.base
      rw [hcibase, hm.base]
      exact hf.base_eq.symm
  · rw [hres]
    refine .running hactive ?_
    have hresults' : Results env.nil co2.ci.nresults (co2.valuesFrom (co2.top - narg)) co2.ci.func
        L'.toThread := hresults
    have hvalues : co2.valuesFrom (co2.top - narg) = source.valuesFrom (source.top - narg) := by
      rw [hfirst, ← hm.values]
    rw [hvalues, hci, show co2.ci.nresults = co.ci.nresults by rw [hm.ci]] at hresults'
    exact hresults'

theorem auxresume_resumed (ha : Agrees env s h) {c narg : Nat} {L : LuaState V} {r : Resumed V}
    (hc : c < s.count) (hnarg : narg ≤ (s.threads s.running).top)
    (hr : auxresume env (c = s.running) (s.threads s.running) (s.threads c) narg =
      .ok (.resumed L r)) :
    (h.lives c).suspended = true ∧
      L = { s.threads s.running with top := (s.threads s.running).top - narg } ∧
      Outcome env ((s.threads s.running).valuesFrom ((s.threads s.running).top - narg)) (h.lives c)
        (s.threads c) r := by
  obtain ⟨room, co1, hroom, ⟨-, hb⟩ | ⟨-, -, L', -, hb⟩ | ⟨-, hsus, L', co2, hmove, hb⟩⟩ :=
    auxresume_ok hr
  · exact absurd hb (by rintro ⟨⟩)
  · exact absurd hb (by rintro ⟨⟩)
  obtain ⟨rfl, rfl⟩ := Begun.resumed.inj hb
  have hlife := (ha.suspended_iff hc).2 hsus
  rw [decide_eq_false (ha.suspended_ne hc hlife), if_neg Bool.false_ne_true] at hmove
  have hresized := (lua_checkstack_resized hroom).1
  obtain ⟨hL, hmoved⟩ := lua_xmove_moved co1 hnarg
  rw [hmove] at hL hmoved
  have hfits := ha.fits c hc
  refine ⟨hlife, hL, ?_⟩
  cases hl : h.lives c with
  | fresh =>
    rw [hl] at hfits
    exact Fresh.outcome hfits hresized hmoved
  | yielded =>
    rw [hl] at hfits
    exact Yielded.outcome hfits hresized hmoved
  | running => rw [hl] at hlife; exact absurd hlife Bool.false_ne_true
  | normal => rw [hl] at hlife; exact absurd hlife Bool.false_ne_true
  | dead => rw [hl] at hlife; exact absurd hlife Bool.false_ne_true

theorem not_mem_pair {i a b : Nat} (h : i ∉ [a, b]) : i ≠ a ∧ i ≠ b := by
  rw [List.mem_cons, List.mem_singleton, not_or] at h
  exact h

theorem Resumes.narg_le {kind : Kind} {L : LuaState V} {c narg : Nat} (hk : Resumes env kind L c narg) :
    narg ≤ L.top := by
  cases kind with
  | coresume =>
    obtain ⟨-, -, rfl⟩ := hk
    exact (Nat.sub_le _ _).trans (Nat.sub_le _ _)
  | auxwrap =>
    rw [show narg = lua_gettop L from hk]
    exact Nat.sub_le _ _

theorem Agrees.headD_active (ha : Agrees env s h) : h.active.headD 0 = s.running := by
  rw [ha.active]
  rfl

/-- The arguments are gone from the stack of the thread that resumes. -/
theorem popped_extends (L : LuaState V) (n : Nat) : Extends (L.top - n) L { L with top := L.top - n } :=
  ⟨rfl, rfl, rfl, ⟨L.ci.top, rfl⟩, fun _ _ => rfl⟩

theorem Gets.popped {kind : Kind} {ok : Bool} {values : List V} {L L' : LuaState V} {n : Nat}
    (hg : Gets env kind ok values (L.top - n) { L with top := L.top - n } L') :
    Gets env kind ok values (L.top - n) L L' :=
  ⟨(popped_extends L n).trans hg.kept, hg.values⟩

theorem step_resumed (ha : Agrees env s h) {kind : Kind} {c narg : Nat} {L co : LuaState V}
    (hk : Resumes env kind (s.threads s.running) c narg) (hc : c < s.count)
    (hr : auxresume env (c = s.running) (s.threads s.running) (s.threads c) narg =
      .ok (.resumed L (.running co))) :
    Agrees env { (s.set s.running L).set c co with
        running := c, resumers := ⟨s.running, kind⟩ :: s.resumers }
        (h.after (.resume c ((s.threads s.running).valuesFrom ((s.threads s.running).top - narg)))) ∧
      Passes env h s (.resume c ((s.threads s.running).valuesFrom ((s.threads s.running).top - narg)))
        { (s.set s.running L).set c co with
          running := c, resumers := ⟨s.running, kind⟩ :: s.resumers } := by
  obtain ⟨hlife, rfl, hout⟩ := auxresume_resumed ha hc hk.narg_le hr
  cases hout with
  | running hactive harrives =>
    obtain ⟨hnr, hnn⟩ := Life.suspended_ne hlife
    have hafter (args : List V) : h.after (.resume c args) =
        { h with
          lives := Function.update (Function.update h.lives s.running .normal) c .running
          active := c :: h.active } := by
      rw [History.after, if_pos hlife, ha.headD_active]
    rw [hafter]
    refine ⟨ha.enter hc (ha.not_mem_active hc hnr hnn) (ha.runs.extends (popped_extends _ narg))
      hactive.of_not_main, fun i _ hi => ?_, ?_⟩
    · obtain ⟨hir, hic⟩ := not_mem_pair hi
      show ((s.set s.running _).set c co).threads i = _
      rw [State.set_of_ne _ _ hic, State.set_of_ne _ _ hir]
    · rw [if_pos hlife]
      refine ⟨⟨rfl, kind, rfl⟩, ?_⟩
      show Arrives env _ _ (((s.set s.running _).set c co).threads c) _
      rw [State.set_self]
      exact harrives

/-- A resume that fails is an error of the function that has made it; the coroutine comes to
`life`. -/
theorem step_failed (ha : Agrees env s h) {c narg status : Nat} {L' co co' : LuaState V}
    {res : Aux} (hc : c < s.count) (hlife : (h.lives c).suspended = true)
    (hstatus : LUA_YIELD < status) (htop : 0 < co.top) (life : Life) (hrun : life ≠ .running)
    (hnor : life ≠ .normal)
    (hfits : life.Fits env (c = 0) { co with top := co.top - 1 }) (kind : Kind)
    (hend : Ends env { s.threads s.running with top := (s.threads s.running).top - narg } co status
      res L' co') :
    Agrees env ((s.set c co').set s.running (finish env kind res L'))
        { h with lives := Function.update h.lives c life } ∧
      s.Keeps ((s.set c co').set s.running (finish env kind res L')) [s.running, c] ∧
      Fails env s ((s.set c co').set s.running (finish env kind res L')) (co.stack (co.top - 1)) := by
  obtain ⟨rfl, hgets⟩ := hend.flag hstatus htop kind
  have hgets' := Gets.popped hgets
  have hne := ha.suspended_ne hc hlife
  obtain ⟨hnr, hnn⟩ := Life.suspended_ne hlife
  have hc' := ha.become (ha.not_mem_active hc hnr hnn) hrun hnor hfits
  refine ⟨hc'.set ?_, fun i _ hi => ?_, rfl, rfl, kind, (s.threads s.running).top - narg, ?_⟩
  · show Life.Fits env (s.running = 0) (Function.update h.lives c life s.running) _
    rw [Function.update_of_ne hne.symm, ha.lives_running]
    exact ha.runs.extends hgets'.kept
  · obtain ⟨hir, hic⟩ := not_mem_pair hi
    rw [State.set_of_ne _ _ hir, State.set_of_ne _ _ hic]
  · rw [State.set_self]
    exact hgets'

theorem step_overflow (ha : Agrees env s h) {kind : Kind} {c narg : Nat} {L L' co co' : LuaState V}
    {res : Aux} (hfine : (s.threads c).status = LUA_YIELD)
    (hk : Resumes env kind (s.threads s.running) c narg) (hc : c < s.count)
    (hr : auxresume env (c = s.running) (s.threads s.running) (s.threads c) narg =
      .ok (.resumed L (.refused co)))
    (hend : Ends env L co LUA_ERRRUN res L' co') :
    Agrees env ((s.set c co').set s.running (finish env kind res L')) h ∧
      s.Keeps ((s.set c co').set s.running (finish env kind res L')) [s.running, c] ∧
      Fails env s ((s.set c co').set s.running (finish env kind res L'))
        (env.luaS_new "C stack overflow") := by
  obtain ⟨hlife, rfl, hout⟩ := auxresume_resumed ha hc hk.narg_le hr
  have hyield : h.lives c = .yielded := by
    have hfits := ha.fits c hc
    cases hl : h.lives c with
    | yielded => rfl
    | fresh =>
      rw [hl] at hfits
      exact absurd (hfine.symm.trans hfits.status) Nat.one_ne_zero
    | running => rw [hl] at hlife; exact absurd hlife Bool.false_ne_true
    | normal => rw [hl] at hlife; exact absurd hlife Bool.false_ne_true
    | dead => rw [hl] at hlife; exact absurd hlife Bool.false_ne_true
  cases hout with
  | refused htop hmsg hyielded =>
    have hstep := step_failed ha hc hlife (by decide) htop (h.lives c) (by rw [hyield]; decide)
      (by rw [hyield]; decide)
      (by rw [hyield]; exact hyielded hyield) kind hend
    rw [Function.update_eq_self, hmsg] at hstep
    exact hstep

theorem step_fails (ha : Agrees env s h) {kind : Kind} {c narg status : Nat} {L L' co co' : LuaState V}
    {res : Aux} (hk : Resumes env kind (s.threads s.running) c narg) (hc : c < s.count)
    (hr : auxresume env (c = s.running) (s.threads s.running) (s.threads c) narg =
      .ok (.resumed L (.failed status co)))
    (hend : Ends env L co status res L' co') :
    Agrees env ((s.set c co').set s.running (finish env kind res L')) (h.after (.fails c : Event V)) ∧
      Passes env h s (.fails c) ((s.set c co').set s.running (finish env kind res L')) := by
  obtain ⟨hlife, rfl, hout⟩ := auxresume_resumed ha hc hk.narg_le hr
  cases hout with
  | failed hstatus hco htop =>
    obtain ⟨hagrees, hkeeps, hfails⟩ := step_failed ha hc hlife hstatus htop .dead (by decide)
      (by decide) (.inr (hco.symm ▸ hstatus)) kind hend
    exact ⟨hagrees, hkeeps, _, hfails⟩

end Luaxx.Coro
