import Luaxx.Control.Watched
import Luaxx.Coro.Runs

/-!
# The calling convention

A function that is called, by an instruction, by the C API or as a metamethod, may call, yield, and
catch errors before it returns. When it does, its results are where its caller wants them, and the
caller goes on where it was.
-/

namespace Luaxx.Control

open Luaxx.Call Luaxx.Result
open Luaxx.Coro (Host Val valHost)

variable {V : Type} {env : Host V} {s s' : State V}

/-! ## Reachable threads -/

/-- A thread in which nothing has been called. -/
structure Initial (s : State V) : Prop where
  ctl : s.ctl = []
  callers : s.callers = []
  openupval : s.openupval = []
  base : s.base = s.ci.base
  func_lt : s.ci.func < s.ci.base
  nCcalls : s.baseCcalls ≤ s.nCcalls

def Reachable (env : Host V) (s : State V) : Prop :=
  ∃ init events, Initial init ∧ Run env (fun _ => True) init events s

theorem Initial.wf (h : Initial s) : Wf s where
  stacked := by rw [h.ctl]; exact .idle
  weight := by rw [h.ctl, h.callers]; rfl
  restores := by rw [h.ctl]; trivial
  base := h.base
  frames f hf := by
    rw [h.callers] at hf
    obtain rfl := List.mem_singleton.1 hf
    exact h.func_lt
  descending := by rw [h.openupval]; exact .nil
  ids := by rw [h.openupval]; exact .nil
  nCcalls := by rw [h.ctl]; exact h.nCcalls

theorem Wf.run {good : State V → Prop} {events : List (Event V)} (hr : Run env good s events s')
    (hw : Wf s) : Wf s' := by
  induction hr with
  | refl => exact hw
  | step hstep _ _ ih => exact ih (step_spec hw hstep).1

theorem Reachable.wf (h : Reachable env s) : Wf s := by
  obtain ⟨init, events, hinit, hr⟩ := h
  exact hinit.wf.run hr

theorem Reachable.step {e : Event V} (hs : Reachable env s) (h : Step env s e s') :
    Reachable env s' := by
  obtain ⟨init, events, hinit, hr⟩ := hs
  exact ⟨init, _, hinit, hr.snoc h trivial⟩

/-! ## What a call leaves on the C stack -/

inductive Awaits : Kind → Int → List Ctl → List Ctl → Prop
  | reenter {nresults : Int} {n : Nat} {rest : List Ctl} (hn : 0 < n) :
    Awaits .op_call nresults (.luaV_execute n :: rest) (.luaV_execute (n + 1) :: rest)
  | op_call {nresults : Int} {c : List Ctl} :
    Awaits .op_call nresults c (.cfunction :: .op_call nresults :: c)
  | luaD_call {nresults : Int} {x : Ctl} {c : List Ctl} (hx : x = .luaV_execute 1 ∨ x = .cfunction) :
    Awaits .luaD_call nresults c (x :: .luaD_call :: c)
  | lua_resume {nresults : Int} : Awaits .lua_resume nresults [] [.luaV_execute 1]

theorem entered_ctl (lua : Bool) :
    (if lua then Ctl.luaV_execute 1 else .cfunction) = .luaV_execute 1 ∨
      (if lua then Ctl.luaV_execute 1 else .cfunction) = .cfunction := by
  cases lua with
  | true => exact .inl rfl
  | false => exact .inr rfl

theorem call_awaits {kind : Kind} {func pc : Nat} {nresults : Int} {args : List V} (hw : Wf s)
    (h : Step env s (.call kind func nresults pc args) s') : Awaits kind nresults s.ctl s'.ctl := by
  cases h with
  | @op_call n ra b c pc rest lua L hctl hra hlt h =>
    have hstacked := hw.stacked
    rw [hctl] at hstacked
    cases lua with
    | true =>
      rw [hctl]
      exact .reenter hstacked.pos
    | false => exact .op_call
  | luaD_call => exact .luaD_call (entered_ctl _)
  | start hctl =>
    rw [hctl]
    exact .lua_resume

/-- The function that is called has its arguments. -/
theorem call_gets {kind : Kind} {func pc : Nat} {nresults : Int} {args : List V}
    (h : Step env s (.call kind func nresults pc args) s') : Gets env.toEnv args s'.toThread := by
  cases h with
  | op_call hctl hra hlt h => exact (enter_spec env.numparams_le hlt h).2.1
  | luaD_call hfunc hlt hcalls h => exact (enter_spec env.numparams_le hlt h).2.1
  | start hctl hfunc hlt h => exact (enter_spec env.numparams_le hlt h).2.1

/-- A call is marked by the function that it has entered. -/
def callMark (s' : State V) (func : Nat) : Mark where
  limit := func
  entry := s'.ctl.headD .cfunction
  rest := s'.ctl.tail
  frame := s'.ci
  callers := s'.callers

theorem Awaits.head {kind : Kind} {nresults : Int} {c c' : List Ctl} (h : Awaits kind nresults c c') :
    ∃ x rest, c' = x :: rest ∧ ((∃ n, x = .luaV_execute n ∧ 0 < n) ∨ x = .cfunction) := by
  cases h with
  | reenter hn => exact ⟨_, _, rfl, .inl ⟨_, rfl, Nat.succ_pos _⟩⟩
  | op_call => exact ⟨_, _, rfl, .inr rfl⟩
  | luaD_call hx => exact ⟨_, _, rfl, hx.imp_left fun h => ⟨1, h, Nat.one_pos⟩⟩
  | lua_resume => exact ⟨_, _, rfl, .inl ⟨1, rfl, Nat.one_pos⟩⟩

/-- What holds of a thread that has just called a function. -/
structure Called (s : State V) (func : Nat) (nresults : Int) (pc : Nat) (s' : State V) : Prop where
  callers : s'.callers = { s.ci with savedpc := pc } :: s.callers
  func_eq : s'.ci.func = func
  nresults : s'.ci.nresults = nresults
  entry : s'.ctl = (callMark s' func).entry :: (callMark s' func).rest
  ok : (callMark s' func).Ok
  above : (callMark s' func).Above s.stack (s.openupval.filter (·.v < func)) s'

theorem call_called {kind : Kind} {func pc : Nat} {nresults : Int} {args : List V} (hw : Wf s)
    (h : Step env s (.call kind func nresults pc args) s') : Called s func nresults pc s' := by
  obtain ⟨hw', heffect⟩ := step_spec hw h
  obtain ⟨x, rest, hc, hx⟩ := (call_awaits hw h).head
  have hentry : s'.ctl = (callMark s' func).entry :: (callMark s' func).rest := by
    show s'.ctl = s'.ctl.headD .cfunction :: s'.ctl.tail
    rw [hc]
    rfl
  cases heffect with
  | stay he => exact he.elim
  | enter hcallers hfunc hnresults hfloor hctl hk =>
    refine ⟨hcallers, hfunc, hnresults, hentry, .function ?_ hfunc.symm ?_, ?_, ?_, hk.slots,
      hk.upvals _ (Nat.le_refl _)⟩
    · show (∃ n, s'.ctl.headD .cfunction = _ ∧ _) ∨ s'.ctl.headD .cfunction = _
      rw [hc]
      exact hx
    · rw [← hentry]
      exact hw'.weight
    · rw [hentry]
      exact Mark.Ok.holds_entry _
    · exact ⟨[], s'.ci, rfl, ⟨rfl, rfl, fun _ _ => rfl⟩, fun g hg => absurd hg List.not_mem_nil⟩

/-- The function of a call is the one that runs. -/
theorem Mark.Above.innermost {m : Mark} {below : Nat → V} {uvs : List OpenUpval} (hw : Wf s)
    (h : m.Above below uvs s) (hm : m.Ok) (hle : s.callers.length ≤ m.callers.length)
    (hctl : ∀ old rest, s.ctl ≠ .luaD_pcall old :: rest) :
    s.ctl = m.entry :: m.rest ∧ s.callers = m.callers ∧ m.Frame s.ci := by
  have hweight : weight s.ctl ≤ weight (m.entry :: m.rest) := by
    rw [hw.weight, hm.count]
    exact hle
  constructor
  · obtain ⟨xs, e, hon⟩ := h.ctl
    have hsum := hon.weight
    have hzero : weight xs = 0 := by omega
    cases xs with
    | nil =>
      rw [hon.eq, List.nil_append]
      rw [hon.eq] at hweight
      have hgrows := hon.grows
      generalize m.entry = entry at hgrows hweight
      cases hgrows with
      | refl => rfl
      | @luaV_execute a n hle' =>
        have hweight : n + weight m.rest ≤ a + weight m.rest := hweight
        rw [show n = a by omega]
    | cons x xs =>
      exfalso
      have hsplit : weight (x :: xs) = weight [x] + weight xs := weight_append [x] xs
      rcases hw.stacked.head hon.eq with ⟨old, rfl⟩ | hpos
      · exact hctl _ _ hon.eq
      · omega
  · obtain ⟨inner, f, hover⟩ := h.frames
    cases inner with
    | nil =>
      obtain ⟨hf, hfs⟩ := List.cons.inj hover.eq
      exact ⟨hfs, hf ▸ hover.frame⟩
    | cons g inner =>
      have hlen := congrArg List.length hover.eq
      rw [List.cons_append, List.length_cons, List.length_cons, List.length_append,
        List.length_cons] at hlen
      omega

/-! ## Returns -/

/-- The top after the results have been put in place. -/
def topAfter (func : Nat) (nresults : Int) (values : List V) : Nat :=
  func + if nresults = LUA_MULTRET then values.length else nresults.toNat

/-- `luaD_poscall` has put the values in place, and its caller is the frame that runs. -/
structure Posted (nil : V) (s : State V) (values : List V) (L : Thread V) : Prop where
  results : Results nil s.ci.nresults values s.ci.func L
  top : L.top = topAfter s.ci.func s.ci.nresults values
  savedpc : L.savedpc = (s.callers.headD s.ci).savedpc

variable (env) in
theorem luaD_poscall_posted {l : Thread V} (hci : l.ci = s.ci) (hcallers : l.callers = s.callers)
    (first : Nat) (hfirst : s.ci.func ≤ first) :
    Posted env.nil s (l.valuesFrom first) (luaD_poscall env.toEnv l first) := by
  refine ⟨?_, ?_, ?_⟩
  · rw [← hci]
    exact luaD_poscall_results env.toEnv l (by rw [hci]; exact hfirst)
  · rw [top_luaD_poscall, hci, topAfter, length_valuesFrom]
  · rw [← hci, ← hcallers]
    rfl

/-- Where the results are when the caller goes on, and its top. After an instruction whose results
have a fixed number the top is that of the frame again. -/
def Delivered (nil : V) (kind : Kind) (func : Nat) (nresults : Int) (values : List V) (s : State V) :
    Prop :=
  match kind with
  | .op_call => Results nil nresults values func s.toThread ∧
      s.top = if 0 ≤ nresults then s.ci.top else topAfter func nresults values
  | _ => Results nil nresults values func s.toThread ∧ s.top = topAfter func nresults values

/-- The results are not among the slots that change. -/
theorem results_of_slots {nil : V} {wanted : Int} {values : List V} {func : Nat} {L L' : Thread V}
    (h : Results nil wanted values func L) (hslots : ∀ j, L'.stack j = L.stack j)
    (htop : wanted = LUA_MULTRET → L'.top = L.top) : Results nil wanted values func L' :=
  ⟨fun hne i hi => (hslots _).trans (h.fixed hne i hi), fun he =>
    (valuesFrom_eq (congrArg (· - func) (htop he)) fun _ _ => hslots _).trans (h.all he)⟩

/-- The caller of `luaD_call` goes on. -/
theorem returned_luaD_call {t : State V} {c : List Ctl} {values : List V}
    (h : Posted env.nil s values t.toThread) (hctl : t.ctl = .luaD_call :: c) :
    (returned t).ctl = c ∧ (returned t).savedpc = (s.callers.headD s.ci).savedpc ∧
      Delivered env.nil .luaD_call s.ci.func s.ci.nresults values (returned t) := by
  have hreturned : returned t = { t with nCcalls := t.nCcalls - 1, ctl := c } := by
    rw [returned, hctl]
  rw [hreturned]
  exact ⟨rfl, h.savedpc, h.results, h.top⟩

/-- After an instruction the top is that of the frame, but for all results. -/
theorem Posted.delivered_op_call {values : List V} {L : Thread V} {t : State V} {p : Prop}
    [Decidable p] (h : Posted env.nil s values L) (hn : LUA_MULTRET ≤ s.ci.nresults)
    (hall : p ↔ s.ci.nresults = LUA_MULTRET)
    (ht : t.toThread = if p then L else { L with top := L.ci.top }) :
    Delivered env.nil .op_call s.ci.func s.ci.nresults values t ∧
      t.savedpc = (s.callers.headD s.ci).savedpc := by
  have hstack (j : Nat) : t.stack j = L.stack j := by
    rw [ht]
    split_ifs <;> rfl
  have hcase : ¬ 0 ≤ s.ci.nresults ↔ s.ci.nresults = LUA_MULTRET := by
    have hm : LUA_MULTRET = -1 := rfl
    omega
  refine ⟨⟨results_of_slots h.results hstack fun he => ?_, ?_⟩, ?_⟩
  · rw [ht, if_pos (hall.2 he)]
  · by_cases he : s.ci.nresults = LUA_MULTRET
    · rw [if_neg (hcase.2 he), ht, if_pos (hall.2 he)]
      exact h.top
    · rw [if_pos (not_not.1 fun hle => he (hcase.1 hle)), ht, if_neg fun ha => he (hall.1 ha)]
  · rw [ht]
    split_ifs <;> exact h.savedpc

/-- The caller goes on where it was, with the results that it wants. -/
theorem returns_spec {kind : Kind} {nresults : Int} {c : List Ctl} {values : List V} (hw : Wf s)
    (h : Step env s (.returns values) s') (ha : Awaits kind nresults c s.ctl)
    (hn : s.ci.nresults = nresults) (hle : kind = .op_call → LUA_MULTRET ≤ nresults) :
    s'.ctl = c ∧ s'.savedpc = (s.callers.headD s.ci).savedpc ∧
      Delivered env.nil kind s.ci.func nresults values s' := by
  have hfunc := hw.func_lt
  cases h with
  | @op_return n ra b rest isdead hctl hra =>
    have hP := luaD_poscall_posted env (s := s) (l := (atReturn s ra b).toThread) rfl rfl
      ra (by omega)
    rw [op_return_execute (s := atReturn s ra b) hctl]
    rw [hctl] at ha
    cases ha with
    | @reenter _ k _ hk =>
      rw [Nat.add_sub_cancel, if_neg (Nat.ne_of_gt hk)]
      obtain ⟨hd, hpc⟩ := hP.delivered_op_call (p := ¬ s.ci.nresults ≠ LUA_MULTRET)
        (t := { luaF_close isdead (atReturn s ra b).base (atReturn s ra b) with
          toThread := if s.ci.nresults ≠ LUA_MULTRET then
              { luaD_poscall env.toEnv (atReturn s ra b).toThread ra with
                top := (luaD_poscall env.toEnv (atReturn s ra b).toThread ra).ci.top }
            else luaD_poscall env.toEnv (atReturn s ra b).toThread ra
          ctl := .luaV_execute k :: rest }) (hn ▸ hle rfl) not_not (ite_not _ _ _).symm
      exact ⟨rfl, hpc, hn ▸ hd⟩
    | luaD_call hx =>
      obtain rfl : n = 1 := by
        rcases hx with hx | hx
        · exact Ctl.luaV_execute.inj hx
        · cases hx
      rw [if_pos rfl]
      obtain ⟨hc, hpc, hd⟩ := returned_luaD_call (t := { luaF_close isdead (atReturn s ra b).base
          (atReturn s ra b) with
        toThread := luaD_poscall env.toEnv (atReturn s ra b).toThread ra
        ctl := _ }) hP rfl
      exact ⟨hc, hpc, hn ▸ hd⟩
    | lua_resume =>
      rw [if_pos rfl]
      exact ⟨rfl, hP.savedpc, hn ▸ ⟨hP.results, hP.top⟩⟩
  | @c_return n rest hctl hbase =>
    have hP := luaD_poscall_posted env (s := s) (l := s.toThread) rfl rfl (s.top - n)
      (by omega)
    rw [hctl] at ha
    cases ha with
    | op_call =>
      have hm : LUA_MULTRET ≤ nresults := hle rfl
      obtain ⟨hd, hpc⟩ := hP.delivered_op_call (p := ¬ nresults ≥ 0)
        (t := { s with
          toThread := if nresults ≥ 0 then { luaD_poscall env.toEnv s.toThread (s.top - n) with
              top := (luaD_poscall env.toEnv s.toThread (s.top - n)).ci.top }
            else luaD_poscall env.toEnv s.toThread (s.top - n)
          ctl := c }) (hn ▸ hm)
        (by have : LUA_MULTRET = -1 := rfl
            omega) (ite_not _ _ _).symm
      exact ⟨rfl, hpc, hn ▸ hd⟩
    | luaD_call hx =>
      obtain ⟨hc, hpc, hd⟩ := returned_luaD_call (t := { s with
        toThread := luaD_poscall env.toEnv s.toThread (s.top - n), ctl := _ }) hP rfl
      exact ⟨hc, hpc, hn ▸ hd⟩
  | @yield t rest hctl hcalls hci hcallers hbelow hopen hlevel =>
    obtain ⟨r, m, -, rfl, hlen⟩ := hw.yields hctl hcalls
    have hP := luaD_poscall_posted env (s := s) hci hcallers s.base (Nat.le_of_lt hfunc)
    have hcount : (luaD_poscall env.toEnv t.toThread s.base).callers.length = m := by
      rw [(luaD_poscall_frames env.toEnv t.toThread s.base).2.1, hcallers, List.length_tail, hlen]
      rfl
    rw [hctl] at ha
    cases ha with
    | op_call =>
      obtain ⟨hd, hpc⟩ := hP.delivered_op_call (p := s.ci.nresults = LUA_MULTRET)
        (t := { t with
          toThread := if s.ci.nresults = LUA_MULTRET then luaD_poscall env.toEnv t.toThread s.base
            else { luaD_poscall env.toEnv t.toThread s.base with
              top := (luaD_poscall env.toEnv t.toThread s.base).ci.top }
          ctl := [.luaV_execute (luaD_poscall env.toEnv t.toThread s.base).callers.length] })
        (hn ▸ hle rfl) Iff.rfl rfl
      exact ⟨by rw [hcount], hpc, hn ▸ hd⟩

/-! ## Runs -/

theorem call_nresults {func pc : Nat} {nresults : Int} {args : List V}
    (h : Step env s (.call .op_call func nresults pc args) s') : LUA_MULTRET ≤ nresults := by
  cases h with
  | @op_call n ra b c pc rest lua L hctl hra hlt h =>
    have hm : LUA_MULTRET = -1 := rfl
    omega

/-- The caller goes on where it was. Below the function only assignments have changed slots, and only
the collector has freed upvalues. -/
structure Resumed (s : State V) (func pc : Nat) (events : List (Event V)) (s' : State V) : Prop where
  ctl : s'.ctl = s.ctl
  ci : s'.ci = { s.ci with savedpc := pc }
  callers : s'.callers = s.callers
  base : s'.base = s.base
  savedpc : s'.savedpc = pc
  slots : ∀ j < func, s'.stack j = assigned s.stack events j
  openupval :
    s'.openupval.filter (·.v < func) = unswept (s.openupval.filter (·.v < func)) events

/-- Whatever a function does before it returns: it may call and tail call functions, catch errors,
and, in a coroutine, yield. -/
theorem call_returns {s₀ s₁ s₂ s₃ : State V} {kind : Kind} {func pc : Nat} {nresults : Int}
    {args values : List V} {events : List (Event V)} (hs : Reachable env s₀)
    (hcall : Step env s₀ (.call kind func nresults pc args) s₁)
    (hrun : Run env (fun s => s₀.callers.length < s.callers.length) s₁ events s₂)
    (hret : Step env s₂ (.returns values) s₃) (hleft : s₃.callers.length ≤ s₀.callers.length) :
    Gets env.toEnv args s₁.toThread ∧ Delivered env.nil kind func nresults values s₃ ∧
      Resumed s₀ func pc events s₃ := by
  have hw₀ := hs.wf
  have hw₁ := (step_spec hw₀ hcall).1
  have ha := call_awaits hw₀ hcall
  have hc := call_called hw₀ hcall
  have hcount : s₁.callers.length = s₀.callers.length + 1 := by rw [hc.callers]; rfl
  have hstays (s : State V) (hw : Wf s) (hlt : s₀.callers.length < s.callers.length) :
      (callMark s₁ func).Stays s.ctl := by
    have hweight : weight ((callMark s₁ func).entry :: (callMark s₁ func).rest) ≤ weight s.ctl := by
      rw [← hc.entry, hw₁.weight, hw.weight]
      omega
    obtain ⟨x, rest, hx, hor⟩ := ha.head
    have hentry : (callMark s₁ func).entry = x := by
      show s₁.ctl.headD .cfunction = x
      rw [hx]
      rfl
    rw [hentry] at hweight
    rw [Mark.Stays, hentry]
    rcases hor with ⟨n, rfl, -⟩ | rfl <;> exact hweight
  obtain ⟨hw₂, habove⟩ := hc.above.run hc.ok hstays hrun hw₁
  obtain ⟨hw₃, heffect⟩ := step_spec hw₂ hret
  cases heffect with
  | stay he => exact he.elim
  | leave hl =>
    have hlen : s₂.callers.length = s₃.callers.length + 1 := by rw [hl.callers]; rfl
    obtain ⟨hctl, hcallers, hframe⟩ := habove.innermost hw₂ hc.ok
      (by show s₂.callers.length ≤ s₁.callers.length; omega)
      (fun old rest he => by
        have hpops := hl.ctl
        rw [he] at hpops
        cases hpops with
        | luaD_call hx => rcases hx with hx | hx <;> cases hx)
    rw [← hc.entry] at hctl
    have hcallers : s₂.callers = s₁.callers := hcallers
    have hfunc : s₂.ci.func = func := hframe.func.trans hc.func_eq
    obtain ⟨hctl₃, hpc, hd⟩ := returns_spec hw₂ hret (hctl ▸ ha)
      (hframe.nresults.trans hc.nresults) (fun hk => call_nresults (hk ▸ hcall))
    have hframes : ({ s₀.ci with savedpc := pc } : CallInfo) :: s₀.callers = s₃.ci :: s₃.callers := by
      rw [← hc.callers, ← hcallers]
      exact hl.callers
    obtain ⟨hci, hcs⟩ := List.cons.inj hframes
    refine ⟨call_gets hcall, hfunc ▸ hd, hctl₃, hci.symm, hcs.symm, ?_, ?_, fun j hj => ?_, ?_⟩
    · rw [hw₃.base, ← hci, hw₀.base]
    · rw [hpc, hcallers, hc.callers]
      rfl
    · rw [hl.below.slots j (by rw [hfunc]; exact hj)]
      exact habove.slots j hj
    · rw [hl.below.upvals func (Nat.le_of_eq hfunc.symm)]
      exact habove.upvals

/-- A coroutine with a Lua function on its stack. -/
def fresh : State Val where
  stack i := if i = 1 then .body else .nil
  stacksize := 45
  stack_last := 39
  top := 2
  base := 1
  ci := ⟨1, 0, 21, 0, 0, 0⟩
  callers := []
  size_ci := 8
  savedpc := 0
  hookcall := false
  trace := []
  nCcalls := 0
  baseCcalls := 0
  allowhook := true
  errfunc := 0
  openupval := []
  closed _ := none
  ctl := []

/-- The thread that has entered a function. -/
def enterOr (L : Thread Val) (func : Nat) (nresults : Int) : Thread Val :=
  match enter valHost.toEnv L func nresults with
  | .ok (_, L') => L'
  | .error _ => L

def started : State Val :=
  { fresh with toThread := enterOr fresh.toThread 1 LUA_MULTRET, ctl := [.luaV_execute 1] }

/-- The function has captured its first register, and has a C function in the second one. -/
def captured : State Val :=
  { started with
    toThread := started.toThread.set 3 .cfunction
    openupval := luaF_findupval 2 0 started.openupval }

def inCall : State Val :=
  { captured with
    toThread := enterOr (atCall captured.toThread 3 1 7) 3 1
    ctl := [.cfunction, .op_call 1, .luaV_execute 1] }

/-- The C function has assigned to the upvalue and has two results on the stack. -/
def beforeReturn : State Val :=
  { inCall with
    toThread :=
      { ((inCall.toThread.set 2 (.boolean true)).set 4 (.string "a")).set 5 (.string "b") with
        top := 6 } }

def afterReturn : State Val :=
  returned { beforeReturn with
    toThread := luaD_poscall valHost.toEnv beforeReturn.toThread (beforeReturn.top - 2)
    ctl := [.op_call 1, .luaV_execute 1] }

theorem fresh_initial : Initial fresh :=
  ⟨rfl, rfl, rfl, rfl, Nat.zero_lt_one, Nat.le_refl 0⟩

theorem started_step : Step valHost fresh (.call .lua_resume 1 LUA_MULTRET 0 []) started :=
  .start rfl (Nat.le_refl 1) (Nat.lt_succ_self 1) rfl

theorem started_work :
    Step valHost started .work { started with toThread := started.toThread.set 3 .cfunction } :=
  .work ⟨rfl, rfl, rfl, rfl, rfl, fun j (hj : j < 2) => if_neg (by omega), rfl, rfl, rfl,
    Nat.le_refl 0⟩

theorem captured_step :
    Step valHost { started with toThread := started.toThread.set 3 .cfunction } .work captured :=
  .findupval (Nat.le_refl 2) fun _ h => absurd h List.not_mem_nil

theorem captured_reachable : Reachable valHost captured :=
  ⟨fresh, _, fresh_initial, .step started_step trivial
    (.step started_work trivial (.step captured_step trivial (.refl _)))⟩

theorem inCall_step : Step valHost captured (.call .op_call 3 1 7 []) inCall :=
  @Step.op_call _ valHost captured 1 3 1 2 7 [] false _ rfl (by decide) (by decide) rfl

theorem beforeReturn_run : Run valHost (fun s => captured.callers.length < s.callers.length) inCall
    [.assign 2 (.boolean true), .work] beforeReturn := by
  refine .step (@Step.assign _ valHost inCall ⟨2, 0⟩ _ List.mem_cons_self) (by decide)
    (.step (.work ?_) (by decide) (.refl _))
  refine ⟨rfl, rfl, rfl, rfl, rfl, fun j (hj : j < 4) => ?_, rfl, rfl, rfl, Nat.le_refl 0⟩
  exact (if_neg (by omega)).trans (if_neg (by omega))

theorem call_returns_captured :
    Gets valHost.toEnv [] inCall.toThread ∧
      Delivered valHost.nil .op_call 3 1 [.string "a", .string "b"] afterReturn ∧
      Resumed captured 3 7 [.assign 2 (.boolean true), .work] afterReturn :=
  call_returns captured_reachable inCall_step beforeReturn_run
    (@Step.c_return _ valHost beforeReturn 2 _ rfl (by decide)) (by decide)

/-- A tail call gives its arguments to the callee, and to the callee the frame that it is made from:
its place, and the results that are wanted from it. The upvalues of the frame are closed. -/
theorem tailcall_receives {args : List V} (hs : Reachable env s) (h : Step env s (.tailcall args) s') :
    Gets env.toEnv args s'.toThread ∧ s'.ctl = s.ctl ∧ s'.callers = s.callers ∧
      s'.ci.func = s.ci.func ∧ s'.ci.nresults = s.ci.nresults ∧
      s'.ci.tailcalls = s.ci.tailcalls + 1 ∧ (∀ j < s.ci.func, s'.stack j = s.stack j) ∧
      s'.openupval = s.openupval.filter (·.v < s.base) := by
  have hw := hs.wf
  have heffect := (step_spec hw h).2
  cases h with
  | @op_tailcall n ra b pc rest isdead L hctl hra hlt h =>
    obtain ⟨he, hgets, hlua⟩ := enter_spec env.numparams_le hlt h
    obtain ⟨p, hp⟩ := hlua rfl
    have hcallers : L.callers = { s.ci with savedpc := pc } :: s.callers := he.callers
    have hfunc : s.ci.func ≤ L.ci.func := by
      rw [he.func_eq]
      exact Nat.le_of_lt (Nat.lt_of_lt_of_le hw.func_lt hra)
    have hbase : (L.callers.headD L.ci).base = s.base := by
      rw [hcallers, hw.base]
      rfl
    cases heffect with
    | stay he => exact he.elim
    | tailcall hfunc' hnresults hcallers' hexec hctl' hk =>
      refine ⟨tailcall_gets hcallers hfunc he.base_eq (by rw [he.func_eq]; exact he.func_lt) hp hgets,
        hctl', hcallers', hfunc', hnresults, ?_, hk.slots, ?_⟩
      · show (L.callers.headD L.ci).tailcalls + 1 = _
        rw [hcallers]
        rfl
      · show (luaF_close isdead (L.callers.headD L.ci).base { s with toThread := L }).openupval = _
        rw [openupval_luaF_close, hbase]
        exact dropWhile_eq_filter hw.descending

/-- The function of `captured`, with a Lua function in its second register. -/
def beforeTail : State Val := { captured with toThread := captured.toThread.set 3 .body }

def afterTail : State Val :=
  op_tailcall (fun _ => false) beforeTail (enterOr (atCall beforeTail.toThread 3 1 8) 3 LUA_MULTRET)

theorem beforeTail_reachable : Reachable valHost beforeTail :=
  captured_reachable.step (.work ⟨rfl, rfl, rfl, rfl, rfl,
    fun j (hj : j < 2) => if_neg (by omega), rfl, rfl, rfl, Nat.le_refl 0⟩)

theorem afterTail_step : Step valHost beforeTail (.tailcall []) afterTail :=
  @Step.op_tailcall _ valHost beforeTail 1 3 1 8 [] _ _ rfl (by decide) (by decide) rfl

theorem tailcall_receives_afterTail :
    Gets valHost.toEnv [] afterTail.toThread ∧ afterTail.ctl = beforeTail.ctl ∧
      afterTail.callers = beforeTail.callers ∧ afterTail.ci.func = beforeTail.ci.func ∧
      afterTail.ci.nresults = beforeTail.ci.nresults ∧
      afterTail.ci.tailcalls = beforeTail.ci.tailcalls + 1 ∧
      (∀ j < beforeTail.ci.func, afterTail.stack j = beforeTail.stack j) ∧
      afterTail.openupval = beforeTail.openupval.filter (·.v < beforeTail.base) :=
  tailcall_receives beforeTail_reachable afterTail_step

/-- Where `lua_yield` allows a C function to yield, the C stack has that function and one activation
of `luaV_execute`, which runs all other frames of the coroutine: it is the one that `resume` begins
again after `luaD_poscall`. -/
theorem yield_stack (hs : Reachable env s) {rest : List Ctl} (hctl : s.ctl = .cfunction :: rest)
    (hcalls : ¬ s.nCcalls > s.baseCcalls) (first : Nat) :
    ∃ nresults, s.ctl = [.cfunction, .op_call nresults,
      .luaV_execute (luaD_poscall env.toEnv s.toThread first).callers.length] := by
  obtain ⟨nresults, n, -, rfl, hlen⟩ := hs.wf.yields hctl hcalls
  have hcount : (luaD_poscall env.toEnv s.toThread first).callers.length = n := by
    rw [(luaD_poscall_frames env.toEnv s.toThread first).2.1, List.length_tail, hlen]
    rfl
  exact ⟨nresults, by rw [hctl, hcount]⟩

theorem yield_stack_inCall : ∃ nresults, inCall.ctl = [.cfunction, .op_call nresults,
    .luaV_execute (luaD_poscall valHost.toEnv inCall.toThread 4).callers.length] :=
  yield_stack (captured_reachable.step inCall_step) rfl (by decide) 4

end Luaxx.Control
