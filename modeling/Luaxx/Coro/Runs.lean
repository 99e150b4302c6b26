import Luaxx.Coro.Steps

/-!
# Runs

In a run of which all steps are fine the state agrees with the history, and every next step passes
its values on.
-/

namespace Luaxx.Coro

open Luaxx.Call

variable {V : Type} {env : Host V} {s s' : State V} {h : History}

/-! ## The thread that runs leaves -/

/-- The thread that waits gets the values. -/
theorem leaves_gets (ha : Agrees env s h) {co : LuaState V} {status : Nat} {ok : Bool}
    {values : List V} (hl : Leaves env s co status s') (life : Life) (hrun : life ≠ .running)
    (hnor : life ≠ .normal) (co1 : LuaState V) (hfits : life.Fits env False co1)
    (hends : ∀ p ∈ s.resumers.head?, ∀ (res : Aux) (L' co' : LuaState V),
      Ends env (s.threads p.thread) co status res L' co' → co' = co1 ∧
        Gets env p.kind ok values (s.threads p.thread).top (s.threads p.thread)
          (finish env p.kind res L')) :
    Agrees env s' (h.leave life) ∧ s.Keeps s' (s.running :: s.resumers.map Pending.thread) ∧
      Returns env s s' ok values := by
  obtain ⟨p, rest, res, L', co', hp, hend, rfl⟩ := hl
  obtain ⟨rfl, hgets⟩ := hends p (by rw [hp]; exact Option.mem_some_self p) res L' co' hend
  have hmem : p.thread ∈ h.active := by
    rw [ha.active, hp]
    exact List.mem_cons_of_mem _ List.mem_cons_self
  have hpt : p.thread < s.count := ha.lt _ hmem
  have hnormal : h.lives p.thread = .normal :=
    (ha.normal_iff _ hpt).2 (by rw [hp]; exact List.mem_cons_self)
  have hactive : Active (p.thread = 0) (s.threads p.thread) := by
    have hfits := ha.fits _ hpt
    rw [hnormal] at hfits
    exact hfits
  have hmain : life.Fits env (s.running = 0) co' := by
    cases life with
    | running => exact absurd rfl hrun
    | normal => exact absurd rfl hnor
    | fresh => exact hfits
    | yielded => exact hfits
    | dead => exact hfits
  refine ⟨ha.leave hp hrun hnor hmain (hactive.extends hgets.kept), fun i _ hi => ?_, p, hp, rfl, ?_⟩
  · rw [hp, List.map_cons, List.mem_cons, List.mem_cons, not_or, not_or] at hi
    show ((s.set s.running co').set p.thread _).threads i = _
    rw [State.set_of_ne _ _ hi.2.1, State.set_of_ne _ _ hi.1]
  · show Gets env p.kind ok values _ _ (((s.set s.running co').set p.thread _).threads p.thread)
    rw [State.set_self]
    exact hgets

theorem Agrees.leaves_ne_zero (ha : Agrees env s h) {co : LuaState V} {status : Nat}
    (hl : Leaves env s co status s') : s.running ≠ 0 := by
  obtain ⟨p, rest, -, -, -, hp, -⟩ := hl
  exact ha.running_ne_zero hp

theorem step_yield (ha : Agrees env s h) {co : LuaState V} (hC : InC env (s.threads s.running))
    (hbody : HasBody (s.threads s.running).callers)
    (hy : lua_yield (s.threads s.running) (lua_gettop (s.threads s.running)) = some co)
    (hl : Leaves env s (lua_resume_end co) LUA_YIELD s')
    (hfine : Fine env s (.yield ((s.threads s.running).valuesFrom (s.threads s.running).base))) :
    Agrees env s' (h.leave .yielded) ∧ s.Keeps s' (s.running :: s.resumers.map Pending.thread) ∧
      Returns env s s' true ((s.threads s.running).valuesFrom (s.threads s.running).base) := by
  unfold lua_yield at hy
  split_ifs at hy
  obtain rfl := Option.some.inj hy
  have hbase : (s.threads s.running).top - lua_gettop (s.threads s.running) =
      (s.threads s.running).base := Nat.sub_sub_self hC.base_le
  rw [hbase] at hl
  refine leaves_gets ha hl .yielded (by decide) (by decide)
    { lua_resume_end { s.threads s.running with status := LUA_YIELD } with
      top := (s.threads s.running).base }
    ⟨rfl, hbody, hC.callee, hC.func_lt, hC.base_eq, rfl⟩ fun p hp res L' co' hend => ?_
  have hroom := hfine p hp
  rw [length_valuesFrom] at hroom
  have hle : (lua_resume_end { s.threads s.running with status := LUA_YIELD }).base ≤
      (lua_resume_end { s.threads s.running with status := LUA_YIELD }).top := hC.base_le
  exact hend.returns (.inr rfl) hle hroom p.kind

variable (env) in
/-- The results of the body are all that is on the stack of the coroutine. -/
theorem luaD_poscall_body {L : LuaState V} {first : Nat} (hbody : HasBody (L.ci :: L.callers))
    (hone : L.callers.length = 1) (hfirst : L.ci.func ≤ first) :
    (luaD_poscall env.toEnv L.toThread first).callers = [] ∧
      (luaD_poscall env.toEnv L.toThread first).top =
        (luaD_poscall env.toEnv L.toThread first).base + (L.top - first) ∧
      (luaD_poscall env.toEnv L.toThread first).valuesFrom
        (luaD_poscall env.toEnv L.toThread first).base = L.valuesFrom first := by
  -- the body and the first frame are all there is
  obtain ⟨bottom, hcallers⟩ := List.length_eq_one_iff.1 hone
  obtain ⟨hfunc, hres⟩ : L.ci.func = bottom.base ∧ L.ci.nresults = LUA_MULTRET := by
    obtain ⟨inner, body, bottom', hframes, hfunc, hres⟩ := hbody
    rw [hcallers] at hframes
    cases inner with
    | nil =>
      obtain ⟨rfl, hbottom⟩ := List.cons.inj hframes
      obtain ⟨rfl, -⟩ := List.cons.inj hbottom
      exact ⟨hfunc, hres⟩
    | cons ci inner =>
      have hlen : [bottom].length = (inner ++ [body, bottom']).length :=
        congrArg List.length (List.cons.inj hframes).2
      rw [List.length_append, List.length_singleton, List.length_cons, List.length_singleton] at hlen
      omega
  obtain ⟨-, hcallers', hbase⟩ := luaD_poscall_frames env.toEnv L.toThread first
  have htop := top_luaD_poscall env.toEnv L.toThread first
  have hresults := (luaD_poscall_results env.toEnv L.toThread hfirst).all hres
  rw [hcallers] at hcallers' hbase
  rw [if_pos hres, hfunc] at htop
  rw [hfunc] at hresults
  rw [hbase]
  exact ⟨hcallers', htop, hresults⟩

theorem step_finish (ha : Agrees env s h) {first : Nat}
    (hone : (s.threads s.running).callers.length = 1)
    (hfirst : (s.threads s.running).ci.func ≤ first)
    (hl : Leaves env s (lua_resume_end { s.threads s.running with
      toThread := luaD_poscall env.toEnv (s.threads s.running).toThread first })
      (s.threads s.running).status s')
    (hfine : Fine env s (.finish ((s.threads s.running).valuesFrom first))) :
    Agrees env s' (h.leave .dead) ∧ s.Keeps s' (s.running :: s.resumers.map Pending.thread) ∧
      Returns env s s' true ((s.threads s.running).valuesFrom first) := by
  obtain ⟨co, hco⟩ : ∃ co, co = lua_resume_end { s.threads s.running with
    toThread := luaD_poscall env.toEnv (s.threads s.running).toThread first } := ⟨_, rfl⟩
  obtain ⟨hcallers, htop, hvalues⟩ :=
    luaD_poscall_body env (ha.runs.body (ha.leaves_ne_zero hl)) hone hfirst
  rw [← hco, ha.runs.status] at hl
  have hgettop : lua_gettop co = (s.threads s.running).top - first := by
    rw [hco]
    exact (congrArg (· - _) htop).trans (Nat.add_sub_cancel_left _ _)
  have hle : co.base ≤ co.top := by
    rw [hco]
    exact Nat.le.intro htop.symm
  have hresults : co.valuesFrom co.base = (s.threads s.running).valuesFrom first := by
    rw [hco]
    exact hvalues
  refine leaves_gets ha hl .dead (by decide) (by decide) { co with top := co.base }
    (.inl ⟨by rw [hco]; exact ha.runs.status, by rw [hco]; exact hcallers, rfl⟩)
    fun p hp res L' co' hend => ?_
  have hroom := hfine p hp
  rw [length_valuesFrom, ← hgettop] at hroom
  rw [← hresults]
  exact hend.returns (.inl rfl) hle hroom p.kind

theorem step_error (ha : Agrees env s h) {status : Nat} (hstatus : LUA_YIELD < status)
    (hl : Leaves env s (lua_resume_catch env (s.threads s.running) status) status s') :
    Agrees env s' (h.leave .dead) ∧ s.Keeps s' (s.running :: s.resumers.map Pending.thread) ∧
      Returns env s s' false [(luaD_seterrorobj env (s.threads s.running).toThread status
        (s.threads s.running).top).stack (s.threads s.running).top] :=
  leaves_gets ha hl .dead (by decide) (by decide)
    { lua_resume_catch env (s.threads s.running) status with
      top := (lua_resume_catch env (s.threads s.running) status).top - 1 }
    (.inr hstatus) fun p _ _ _ _ hend => hend.flag hstatus (Nat.succ_pos _) p.kind

/-! ## A coroutine is created -/

variable (env) in
theorem luaB_cocreate_spec (L : LuaState V) (id : Nat) (harg : 0 < lua_gettop L) :
    Extends L.top L (luaB_cocreate env L id).1 ∧
      ∀ p, env.callee (L.stack L.base) = some (.lua p) → Fresh env (luaB_cocreate env L id).2 := by
  obtain ⟨T, hT⟩ : ∃ T, T = env.luaC_checkGC L.toThread := ⟨_, rfl⟩
  have hkeeps : Keeps L.toThread T := hT ▸ env.checkGC_keeps L.toThread
  have hlt : L.base < L.top := Nat.lt_of_sub_pos harg
  obtain ⟨M, hM⟩ : ∃ M : LuaState V, M = { L with toThread := T }.push (env.thread id) := ⟨_, rfl⟩
  have hext : Extends L.top L M := by
    rw [hM]
    exact ⟨rfl, hkeeps.callers, hkeeps.base, ⟨L.ci.top, hkeeps.ci⟩, fun j hj =>
      (if_neg (by rw [hkeeps.top]; exact Nat.ne_of_lt hj)).trans (hkeeps.slots j hj)⟩
  have htop : M.top = L.top + 1 := by
    rw [hM]
    exact congrArg (· + 1) hkeeps.top
  have hcreate : luaB_cocreate env L id =
      lua_xmove (M.push (M.stack M.base)) (luaE_newthread env { L with toThread := T }) 1 := by
    rw [hM, hT]
    rfl
  have hpos : 1 ≤ (M.push (M.stack M.base)).top := Nat.succ_pos _
  obtain ⟨hsource, hmoved⟩ := lua_xmove_moved (luaE_newthread env { L with toThread := T }) hpos
  rw [← hcreate] at hsource hmoved
  refine ⟨?_, fun p hp => ?_⟩
  · rw [hsource]
    exact (hext.trans (push_extends M _ (by omega))).trans
      ⟨rfl, rfl, rfl, ⟨_, rfl⟩, fun _ _ => rfl⟩
  · have hvalue : (luaB_cocreate env L id).2.stack 1 = M.stack M.base :=
      (hmoved.value (Nat.succ_pos _)).trans (if_pos rfl)
    refine ⟨hmoved.status, hmoved.callers, ?_, ?_, p, ?_⟩
    · rw [hmoved.base, hmoved.ci]
      rfl
    · rw [hmoved.top, hmoved.base]
      rfl
    · rw [hmoved.base]
      show env.callee ((luaB_cocreate env L id).2.stack 1) = _
      rw [hvalue, hext.base, hext.below _ hlt]
      exact hp

theorem step_create (ha : Agrees env s h) {p : Proto} (harg : 0 < lua_gettop (s.threads s.running))
    (hf : env.callee ((s.threads s.running).stack (s.threads s.running).base) = some (.lua p)) :
    Agrees env { (s.set s.running (luaB_cocreate env (s.threads s.running) s.count).1).set s.count
        (luaB_cocreate env (s.threads s.running) s.count).2 with count := s.count + 1 }
        (h.after (.create : Event V)) ∧
      Passes env h s .create
        { (s.set s.running (luaB_cocreate env (s.threads s.running) s.count).1).set s.count
          (luaB_cocreate env (s.threads s.running) s.count).2 with count := s.count + 1 } := by
  obtain ⟨hext, hfresh⟩ := luaB_cocreate_spec env (s.threads s.running) s.count harg
  have hset : Agrees env (s.set s.running (luaB_cocreate env (s.threads s.running) s.count).1) h :=
    ha.set (by rw [ha.lives_running]; exact ha.runs.extends hext)
  refine ⟨hset.create (hfresh p hf), rfl, rfl, fun i hi hne => ?_⟩
  show ((s.set s.running _).set s.count _).threads i = _
  rw [State.set_of_ne _ _ (Nat.ne_of_lt hi), State.set_of_ne _ _ (List.ne_of_not_mem_cons hne)]

theorem step_runs (ha : Agrees env s h) {L : LuaState V} (hL : Active (s.running = 0) L) :
    Agrees env (s.set s.running L) h ∧ s.Keeps (s.set s.running L) [s.running] := by
  refine ⟨ha.set (by rw [ha.lives_running]; exact hL), fun i _ hne => ?_⟩
  rw [State.set_of_ne _ _ (List.ne_of_not_mem_cons hne)]

/-- A resume with too many arguments is an error of the thread that runs. -/
theorem step_tooMany (ha : Agrees env s h) {c narg : Nat} {L : LuaState V}
    (hr : auxresume env (c = s.running) (s.threads s.running) (s.threads c) narg = .ok (.raised L)) :
    Active (s.running = 0) L := by
  obtain ⟨room, co1, hroom, ⟨-, hb⟩ | ⟨-, -, L', -, hb⟩ | ⟨-, -, L', co2, -, hb⟩⟩ := auxresume_ok hr
  · obtain rfl := Begun.raised.inj hb
    have hM : Active (s.running = 0)
        (if decide (c = s.running) = true then co1 else s.threads s.running) := by
      by_cases hself : c = s.running
      · rw [decide_eq_true hself, if_pos rfl]
        exact ha.runs.extends ((hself ▸ (lua_checkstack_resized hroom).1).extends 0)
      · rw [decide_eq_false hself, if_neg Bool.false_ne_true]
        exact ha.runs
    exact hM.extends (push_extends _ _ (Nat.zero_le _))
  · exact absurd hb (by rintro ⟨⟩)
  · exact absurd hb (by rintro ⟨⟩)

/-! ## Runs -/

/-- One step keeps the agreement and passes its values on. -/
theorem step_agrees (ha : Agrees env s h) {e : Event V} (hs : Step env s e s') (hfine : Fine env s e) :
    Agrees env s' (h.after e) ∧ Passes env h s e s' := by
  cases hs with
  | other hL =>
    obtain ⟨hagrees, hkeeps⟩ := step_runs ha hL
    exact ⟨hagrees, rfl, rfl, hkeeps⟩
  | create hC harg hf => exact step_create ha harg hf
  | tooMany hC hk hc hr =>
    obtain ⟨hagrees, hkeeps⟩ := step_runs ha (step_tooMany ha hr)
    exact ⟨hagrees, rfl, rfl, hkeeps⟩
  | refused hC hk hc hr => exact step_refused ha hc hr
  | resumed hC hk hc hr => exact step_resumed ha hk hc hr
  | overflow hC hk hc hr hend => exact step_overflow ha hfine hk hc hr hend
  | fails hC hk hc hr hend => exact step_fails ha hk hc hr hend
  | yield hC hbody hy hl => exact step_yield ha hC hbody hy hl hfine
  | finish hone hfirst hl => exact step_finish ha hone hfirst hl hfine
  | error hstatus hl => exact step_error ha hstatus.1 hl

theorem history_snoc (es : List (Event V)) (e : Event V) :
    history (es ++ [e]) = (history es).after e := by
  rw [history, List.foldl_append]
  rfl

theorem Initial.agrees (hi : Initial s) : Agrees env s .start where
  count := hi.count
  active := by rw [hi.running, hi.resumers]; rfl
  nodup := by decide
  last := rfl
  lt i hmem := by
    rw [List.mem_singleton.1 hmem, hi.count]
    exact Nat.one_pos
  running_iff i hlt := by
    rw [hi.count] at hlt
    rw [hi.running]
    exact iff_of_true rfl (Nat.lt_one_iff.1 hlt)
  normal_iff i hlt := by
    rw [hi.resumers]
    exact iff_of_false (show Life.running ≠ .normal by decide) List.not_mem_nil
  fits i hlt := by
    rw [hi.count] at hlt
    obtain rfl := Nat.lt_one_iff.1 hlt
    have hactive := hi.active
    rw [hi.running] at hactive
    exact hactive

theorem FineRun.run {es : List (Event V)} (hr : FineRun env es s) : Run env es s := by
  induction hr with
  | init hi => exact .init hi
  | step hr hs hfine ih => exact .step ih hs

theorem FineRun.agrees {es : List (Event V)} (hr : FineRun env es s) : Agrees env s (history es) := by
  induction hr with
  | init hi => exact hi.agrees
  | step hr hs hfine ih =>
    rw [history_snoc]
    exact (step_agrees ih hs hfine).1

/-- The coroutine state machine: after every run in which the values of every yield and return have
room with the thread that waits, and no coroutine is resumed for the first time where the C stack is
used up, the status of every coroutine is what its history says, and every step that may follow passes
its values on. -/
theorem coroutine_statuses (env : Host V) (es : List (Event V)) (s : State V) (hr : FineRun env es s) :
    (∀ c < s.count, costatus (c = s.running) (s.threads c) = ((history es).lives c).costatus) ∧
      ∀ e s', Step env s e s' → Fine env s e → Passes env (history es) s e s' :=
  ⟨fun _ hc => hr.agrees.costatus hc, fun _ _ hs hfine => (step_agrees hr.agrees hs hfine).2⟩

/-! ## The main thread and one coroutine -/

inductive Val where
  | nil
  | boolean (b : Bool)
  | string (s : String)
  /-- The body of the coroutine, without parameters. -/
  | body
  | cfunction
  | thread (id : Nat)
  | table (values : List Val)

def bodyProto : Proto where
  k := []
  code := []
  p := []
  lineinfo := []
  locvars := []
  upvalues := []
  source := none
  sizeupvalues := 0
  sizek := 0
  sizecode := 0
  sizelineinfo := 0
  sizep := 0
  sizelocvars := 0
  linedefined := 0
  lastlinedefined := 0
  nups := 0
  numparams := 0
  is_vararg := 0
  maxstacksize := 2

def valHost : Host Val where
  nil := .nil
  callee v := match v with
    | .body => some (.lua bodyProto)
    | .cfunction => some .c
    | _ => none
  gettm _ := .nil
  argTable := .table
  canAlloc _ := true
  luaC_checkGC L := L
  luaD_callhook L := L
  cfunction L := .ok (L, 0)
  checkGC_keeps _ := ⟨rfl, rfl, rfl, rfl, rfl, rfl, fun _ _ => rfl⟩
  checkGC_ok _ h := h
  callhook_keeps _ := ⟨rfl, rfl, rfl, rfl, rfl, rfl, fun _ _ => rfl⟩
  luaS_new := .string
  boolean := .boolean
  thread := .thread
  lua_tothread v := match v with
    | .thread id => some id
    | _ => none
  located v := match v with
    | .string s => .string ("main:1: " ++ s)
    | v => v
  message
    | .errmem => .string "not enough memory"
    | .errerr => .string "error in error handling"
    | .runerror msg => .string msg
    | .typeerror op => .string ("attempt to " ++ op)
  numparams_le v p h := by
    cases v with
    | body =>
      obtain rfl := Callee.lua.inj (Option.some.inj h)
      decide
    | _ => exact absurd h (by rintro ⟨⟩)

/-- The main thread in a C function with one argument. -/
def inFunction (arg : Val) : LuaState Val where
  stack i := if i = 1 then .body else if i = 2 then .cfunction else if i = 3 then arg else .nil
  stacksize := 45
  stack_last := 39
  top := 4
  base := 3
  ci := ⟨3, 2, 24, 0, 1, 0⟩
  callers := [⟨2, 1, 4, 0, 0, 0⟩, ⟨1, 0, 21, 0, 0, 0⟩]
  size_ci := 8
  savedpc := 0
  hookcall := false
  trace := []
  status := 0
  nCcalls := 1
  baseCcalls := 0

def atCreate : State Val := ⟨fun _ => inFunction .body, 1, 0, []⟩

def created : State Val :=
  { (atCreate.set 0 (luaB_cocreate valHost (inFunction .body) 1).1).set 1
      (luaB_cocreate valHost (inFunction .body) 1).2 with count := 2 }

def atResume : State Val := created.set 0 (inFunction (.thread 1))

/-- The threads where `coroutine.resume` enters the body. -/
def entered : LuaState Val × LuaState Val :=
  match auxresume valHost false (inFunction (.thread 1)) (created.threads 1) 0 with
  | .ok (.resumed L (.running co)) => (L, co)
  | _ => (inFunction .nil, inFunction .nil)

def resumed : State Val :=
  { (atResume.set 0 entered.1).set 1 entered.2 with running := 1, resumers := [⟨0, .coresume⟩] }

theorem entered_ok : auxresume valHost false (inFunction (.thread 1)) (created.threads 1) 0 =
    .ok (.resumed entered.1 (.running entered.2)) := rfl

theorem inFunction_inC (arg : Val) : InC valHost (inFunction arg) :=
  ⟨rfl, Nat.lt_succ_self 2, rfl, Nat.le_succ 3⟩

theorem inFunction_active (arg : Val) : Active (0 = 0) (inFunction arg) :=
  ⟨rfl, List.cons_ne_nil _ _, fun h => absurd rfl h⟩

theorem atCreate_initial : Initial atCreate := ⟨rfl, rfl, rfl, inFunction_active _⟩

theorem created_step : Step valHost atCreate .create created :=
  .create (inFunction_inC _) (Nat.succ_pos 0) rfl

theorem atResume_step : Step valHost created .other atResume := .other (inFunction_active _)

theorem resumed_step : Step valHost atResume (.resume 1 []) resumed :=
  @Step.resumed _ valHost atResume .coresume 1 0 _ _ (inFunction_inC _) ⟨Nat.succ_pos 0, rfl, rfl⟩
    (by decide) entered_ok

/-- The coroutine with `n` values in the frame of its body. -/
def inBody (n : Nat) : LuaState Val := { entered.2 with top := entered.2.base + n }

theorem inBody_active (n : Nat) : Active (1 = 0) (inBody n) :=
  ⟨rfl, List.cons_ne_nil _ _, fun _ => ⟨[], _, _, rfl, rfl, rfl⟩⟩

theorem inBody_base_lt (n : Nat) : (inBody (n + 1)).base < (inBody (n + 1)).top :=
  Nat.lt_add_of_pos_right (Nat.succ_pos n)

theorem inBody_values (n : Nat) : (inBody n).top - (inBody n).base = n := Nat.add_sub_cancel_left _ _

def working (n : Nat) : State Val := resumed.set 1 (inBody n)

theorem working_step (n : Nat) : Step valHost resumed .other (working n) := .other (inBody_active n)

theorem working_run (n : Nat) : FineRun valHost [.create, .other, .resume 1 [], .other] (working n) :=
  .step (.step (.step (.step (.init atCreate_initial) created_step trivial) atResume_step trivial)
    resumed_step trivial) (working_step n) trivial

/-- The coroutine behind its body. -/
def returned (n : Nat) : LuaState Val :=
  lua_resume_end { inBody n with
    toThread := luaD_poscall valHost.toEnv (inBody n).toThread (inBody n).base }

theorem returned_gettop (n : Nat) : lua_gettop (returned n) = n := by
  show (luaD_poscall _ _ _).top - (luaD_poscall _ _ _).base = n
  rw [top_luaD_poscall, (luaD_poscall_frames _ _ _).2.2]
  show 1 + (entered.2.base + n - entered.2.base) - 1 = n
  omega

theorem returned_callers (n : Nat) : (returned n).callers = [] :=
  (luaD_poscall_frames _ _ _).2.1

/-- The main thread gets the values. -/
def finished : State Val :=
  match auxresume_end valHost entered.1 (returned 3) 0 with
  | .ok (r, L, co) =>
    { ((working 3).set 1 co).set 0 (finish valHost .coresume r L) with running := 0, resumers := [] }
  | .error _ => working 3

theorem finished_step : Step valHost (working 3) (.finish [.nil, .nil, .nil]) finished :=
  @Step.finish _ valHost (working 3) finished (inBody 3).base rfl (by decide)
    ⟨⟨0, .coresume⟩, [], .results 3, _, _, rfl, .inl rfl, rfl⟩

theorem finished_fine : Fine valHost (working 3) (.finish [.nil, .nil, .nil]) := by
  intro p hp
  obtain rfl := Option.mem_some.1 hp
  exact ⟨_, rfl⟩

/-- The main thread has resumed the coroutine, which returns three values. -/
theorem coroutine_statuses_returned :
    (∀ c < 2, costatus (c = 1) ((working 3).threads c) =
        ((history [.create, .other, .resume 1 ([] : List Val), .other]).lives c).costatus) ∧
      Passes valHost (history [.create, .other, .resume 1 ([] : List Val), .other]) (working 3)
        (.finish [.nil, .nil, .nil]) finished := by
  obtain ⟨hstatus, hpasses⟩ := coroutine_statuses valHost _ (working 3) (working_run 3)
  exact ⟨hstatus, hpasses _ _ finished_step finished_fine⟩

/-! ## A coroutine that returns too many values -/

/-- Where the thread that waits has no room for the values, they stay with the coroutine. -/
theorem Ends.raised {L L' L1 co co' : LuaState V} {status : Nat} {res : Aux}
    (hstatus : status = 0 ∨ status = LUA_YIELD)
    (hroom : lua_checkstack env L (lua_gettop co + 1) = .ok (false, L1))
    (he : Ends env L co status res L' co') : res = .raised ∧ co' = co := by
  have hend : auxresume_end env L co status =
      .ok (.raised, luaL_error env L1 "too many results to resume", co) := by
    simp only [auxresume_end, if_pos hstatus, hroom]
    rfl
  rcases he with he | ⟨⟨e, he⟩, -⟩
  · obtain ⟨rfl, hpair⟩ := Prod.mk.inj (Except.ok.inj (hend.symm.trans he))
    exact ⟨rfl, (Prod.mk.inj hpair).2.symm⟩
  · rw [hend] at he
    exact absurd he (by rintro ⟨⟩)

/-- A coroutine that has returned, with its results on its stack, seems not to have begun. -/
theorem costatus_of_results {L : LuaState V} (hstatus : L.status = 0) (hcallers : L.callers = [])
    (htop : 0 < lua_gettop L) : costatus false L = .CO_SUS := by
  have hne : L.status ≠ LUA_YIELD := hstatus ▸ Nat.zero_ne_one
  have hframe : lua_getstack_zero L = false := by rw [lua_getstack_zero, hcallers]; rfl
  rw [costatus, if_neg Bool.false_ne_true, if_neg hne, if_pos hstatus, hframe,
    if_neg Bool.false_ne_true, if_neg (Nat.ne_of_gt htop)]

/-- A coroutine returns values for which there is no room. -/
theorem finish_without_room (ha : Agrees env s h) {first : Nat}
    (hone : (s.threads s.running).callers.length = 1)
    (hfirst : (s.threads s.running).ci.func ≤ first)
    (hl : Leaves env s (lua_resume_end { s.threads s.running with
      toThread := luaD_poscall env.toEnv (s.threads s.running).toThread first })
      (s.threads s.running).status s')
    (hvalues : first < (s.threads s.running).top)
    (hroom : ∀ p ∈ s.resumers.head?, ∃ L, lua_checkstack env (s.threads p.thread)
      ((s.threads s.running).top - first + 1) = .ok (false, L)) :
    costatus (s.running = s'.running) (s'.threads s.running) = .CO_SUS := by
  obtain ⟨hcallers, htop, -⟩ := luaD_poscall_body env (ha.runs.body (ha.leaves_ne_zero hl)) hone hfirst
  obtain ⟨p, rest, res, L', co', hp, hend, rfl⟩ := hl
  obtain ⟨L1, hL1⟩ := hroom p (by rw [hp]; exact Option.mem_some_self p)
  have hgettop : lua_gettop (lua_resume_end { s.threads s.running with
      toThread := luaD_poscall env.toEnv (s.threads s.running).toThread first }) =
      (s.threads s.running).top - first :=
    (congrArg (· - _) htop).trans (Nat.add_sub_cancel_left _ _)
  rw [← hgettop] at hL1
  obtain ⟨-, rfl⟩ := hend.raised (.inl ha.runs.status) hL1
  have hne : s.running ≠ p.thread := fun he => by
    have hnodup := ha.nodup
    rw [ha.active, hp, List.map_cons, List.nodup_cons, ← he] at hnodup
    exact hnodup.1 List.mem_cons_self
  show costatus (s.running = p.thread) (((s.set s.running _).set p.thread _).threads s.running) = _
  rw [decide_eq_false hne, State.set_of_ne _ _ hne, State.set_self]
  refine costatus_of_results ha.runs.status hcallers ?_
  rw [hgettop]
  omega

/-- The coroutine has returned 8001 values, and the main thread has an error. -/
def overfull : State Val :=
  { ((working 8001).set 1 (returned 8001)).set 0
      (luaL_error valHost entered.1 "too many results to resume") with running := 0, resumers := [] }

theorem overfull_room : lua_checkstack valHost entered.1 (8001 + 1) = .ok (false, entered.1) := rfl

theorem overfull_leaves : Leaves valHost (working 8001) (returned 8001) 0 overfull := by
  have hend : auxresume_end valHost entered.1 (returned 8001) 0 =
      .ok (.raised, luaL_error valHost entered.1 "too many results to resume", returned 8001) := by
    simp only [auxresume_end, returned_gettop, overfull_room]
    rfl
  exact ⟨⟨0, .coresume⟩, [], .raised, _, returned 8001, rfl, .inl hend, rfl⟩

def overfullRun : List (Event Val) :=
  [.create, .other, .resume 1 [], .other, .finish ((inBody 8001).valuesFrom (inBody 8001).base)]

/-- The coroutine has returned, and seems to be suspended. -/
theorem overfull_suspended :
    Run valHost overfullRun overfull ∧ 1 < overfull.count ∧ (history overfullRun).lives 1 = .dead ∧
      costatus (1 = overfull.running) (overfull.threads 1) = .CO_SUS ∧
      costatus (1 = overfull.running) (overfull.threads 1) ≠
        ((history overfullRun).lives 1).costatus := by
  have hrun : Run valHost overfullRun overfull :=
    .step (working_run 8001).run (.finish rfl (by decide) overfull_leaves)
  have hroom : ∀ p ∈ (working 8001).resumers.head?, ∃ L,
      lua_checkstack valHost ((working 8001).threads p.thread)
        ((inBody 8001).top - (inBody 8001).base + 1) = .ok (false, L) := by
    intro p hp
    obtain rfl := Option.mem_some.1 hp
    rw [inBody_values]
    exact ⟨entered.1, overfull_room⟩
  have hstatus := finish_without_room (working_run 8001).agrees rfl (by decide) overfull_leaves
    (inBody_base_lt 8000) hroom
  exact ⟨hrun, by decide, rfl, hstatus, fun he => absurd (hstatus.symm.trans he) (by decide)⟩

end Luaxx.Coro
