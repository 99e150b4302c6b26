import Luaxx.Control.Calls

/-!
# Protected calls

Whatever is called in a protected call, at any depth, and however often it catches errors itself: an
error that it does not catch leaves the thread as it was when `luaD_pcall` was called, but for the
error value and the assignments.
-/

namespace Luaxx.Control

open Luaxx.Call Luaxx.Result
open Luaxx.Coro (Host Val valHost LUA_ERRRUN LUA_ERRMEM LUA_ERRERR)

variable {V : Type} {env : Host V} {s s' : State V}

/-- A protected call is marked by its caller, which goes on in the same frame. -/
def pcallMark (s : State V) (old : OldState) : Mark where
  limit := old.old_top
  entry := .luaD_pcall old
  rest := s.ctl
  frame := s.ci
  callers := s.callers

/-- What `luaD_pcall` keeps of its caller. -/
def State.saved (s : State V) (old_top : Nat) : OldState :=
  ⟨s.nCcalls, s.callers.length, s.allowhook, s.errfunc, old_top⟩

theorem pcallMark_ok (hw : Wf s) (old_top : Nat) : (pcallMark s (s.saved old_top)).Ok :=
  .pcall rfl rfl hw.weight

theorem protect_above {old_top : Nat} (h : Step env s (.protect old_top) s') :
    (pcallMark s (s.saved old_top)).Above s.stack (s.openupval.filter (·.v < old_top)) s' := by
  cases h with
  | luaD_pcall hfloor htop hc =>
    exact ⟨Mark.Ok.holds_entry _, ⟨[], s.ci, rfl, ⟨rfl, rfl, fun _ _ => rfl⟩,
      fun g hg => absurd hg List.not_mem_nil⟩, fun _ _ => rfl, rfl⟩

/-- The innermost protected call catches an error. -/
theorem errorJmp_append {xs ctl rest : List Ctl} {old old' : OldState}
    (h : errorJmp (xs ++ .luaD_pcall old :: rest) = some (old', ctl)) :
    (old' = old ∧ ctl = rest) ∨ rest.length < ctl.length := by
  induction xs with
  | nil =>
    obtain ⟨rfl, rfl⟩ := Prod.mk.inj (Option.some.inj h)
    exact .inl ⟨rfl, rfl⟩
  | cons x xs ih =>
    cases x with
    | luaD_pcall old'' =>
      obtain ⟨rfl, rfl⟩ := Prod.mk.inj (Option.some.inj h)
      right
      show rest.length < (xs ++ .luaD_pcall old :: rest).length
      rw [List.length_append, List.length_cons]
      omega
    | luaV_execute n => exact ih h
    | op_call r => exact ih h
    | cfunction => exact ih h
    | luaD_call => exact ih h

variable (env) in
/-- The value that an error leaves on the stack. -/
def errorValue (status : Nat) (v : V) : V :=
  if status = LUA_ERRMEM then env.luaS_new "not enough memory"
  else if status = LUA_ERRERR then env.luaS_new "error in error handling"
  else v

/-- The caller of `luaD_pcall` goes on, in the frame that it had. -/
structure Restored (s : State V) (old_top : Nat) (events : List (Event V)) (s' : State V) : Prop where
  ctl : s'.ctl = s.ctl
  callers : s'.callers = s.callers
  func : s'.ci.func = s.ci.func
  ci_base : s'.ci.base = s.ci.base
  nresults : s'.ci.nresults = s.ci.nresults
  base : s'.base = s.base
  top : s'.top = old_top + 1
  nCcalls : s'.nCcalls = s.nCcalls
  allowhook : s'.allowhook = s.allowhook
  errfunc : s'.errfunc = s.errfunc
  slots : ∀ j < old_top, s'.stack j = assigned s.stack events j
  openupval : s'.openupval = unswept (s.openupval.filter (·.v < old_top)) events

/-- The upvalues that are open at or above a level are closed with the values of their slots, but for
the dead ones. -/
def Closes (isdead : Nat → Bool) (level : Nat) (s s' : State V) : Prop :=
  (∀ uv ∈ s.openupval, level ≤ uv.v → isdead uv.id = false → s'.closed uv.id = some (s.stack uv.v)) ∧
    ∀ id, (∀ uv ∈ s.openupval, level ≤ uv.v → uv.id ≠ id) → s'.closed id = s.closed id

theorem pcall_restores {s₀ s₁ s₂ s₃ : State V} {old_top status : Nat} {isdead : Nat → Bool} {v : V}
    {events : List (Event V)} (hs : Reachable env s₀) (hcall : Step env s₀ (.protect old_top) s₁)
    (hrun : Run env (fun s => s₀.ctl.length < s.ctl.length) s₁ events s₂)
    (hthrow : Step env s₂ (.throw status isdead v) s₃) (hleft : s₃.ctl.length ≤ s₀.ctl.length) :
    Restored s₀ old_top events s₃ ∧ s₃.stack old_top = errorValue env status v ∧
      Closes isdead old_top s₂ s₃ := by
  have hw₀ := hs.wf
  have hw₁ := (step_spec hw₀ hcall).1
  obtain ⟨hw₂, habove⟩ :=
    (protect_above hcall).run (pcallMark_ok hw₀ old_top) (fun _ _ hlt => hlt) hrun hw₁
  cases hthrow with
  | @throw _ _ old ctl _ _ hjmp hcatch =>
    have hc := luaD_pcall_caught hcatch
    obtain ⟨xs, e, hon⟩ := habove.ctl
    have he : e = .luaD_pcall (s₀.saved old_top) := by
      cases hon.grows with
      | refl => rfl
    have heq : s₂.ctl = xs ++ .luaD_pcall (s₀.saved old_top) :: s₀.ctl := by
      rw [← he]
      exact hon.eq
    rw [hc.ctl] at hleft
    obtain ⟨rfl, rfl⟩ : old = s₀.saved old_top ∧ ctl = s₀.ctl :=
      (errorJmp_append (heq ▸ hjmp)).resolve_right (Nat.not_lt_of_le hleft)
    obtain ⟨inner, f, hover⟩ := habove.frames
    have hframes : s₃.ci :: s₃.callers = f :: s₀.callers := by
      rw [hc.frames, hover.eq, restoreci]
      show (inner ++ f :: s₀.callers).drop
        ((inner ++ f :: s₀.callers).length - (s₀.callers.length + 1)) = _
      rw [List.length_append, List.length_cons, Nat.add_sub_cancel, List.drop_left]
    obtain ⟨hci, hcallers⟩ := List.cons.inj hframes
    have hbase : s₃.ci.base = s₀.ci.base := by
      rw [hci]
      exact hover.frame.base _ rfl
    refine ⟨⟨hc.ctl, hcallers, ?_, hbase, ?_, ?_, hc.top, hc.nCcalls, hc.allowhook, hc.errfunc,
      fun j hj => ?_, ?_⟩, ?_, fun uv huv hle hdead => ?_, fun id hid => ?_⟩
    · rw [hci]
      exact hover.frame.func
    · rw [hci]
      exact hover.frame.nresults
    · rw [hc.base, hbase, hw₀.base]
    · rw [hc.stack]
      exact (if_neg (Nat.ne_of_lt hj)).trans (habove.slots j hj)
    · rw [hc.openupval, openupval_luaF_close, dropWhile_eq_filter hw₂.descending]
      exact habove.upvals
    · rw [hc.stack]
      exact if_pos rfl
    · rw [hc.closed]
      exact (closeLoop_snd isdead s₂.stack old_top s₂.closed hw₂.descending hw₂.ids).1 uv huv hle hdead
    · rw [hc.closed]
      exact (closeLoop_snd isdead s₂.stack old_top s₂.closed hw₂.descending hw₂.ids).2 id hid

/-- A C function with a Lua function to call. -/
def beforePcall : State Val :=
  { inCall with toThread := { inCall.toThread.set 4 .body with top := 5 } }

def inPcall : State Val :=
  { beforePcall with errfunc := 0, ctl := .luaD_pcall (beforePcall.saved 4) :: beforePcall.ctl }

def inBody : State Val :=
  { inPcall with
    toThread := enterOr inPcall.toThread 4 0
    nCcalls := 1
    ctl := .luaV_execute 1 :: .luaD_call :: inPcall.ctl }

/-- The function has captured its first register, assigned to the upvalue of its caller's caller and
pushed an error value. -/
def beforeThrow : State Val :=
  { inBody with
    toThread := (inBody.toThread.set 2 (.boolean true)).set 6 (.string "error")
    openupval := luaF_findupval 5 1 inBody.openupval }

def caught : State Val :=
  match luaD_pcall_catch valHost (fun _ => false) beforeThrow LUA_ERRRUN (beforePcall.saved 4)
      beforePcall.ctl with
  | .ok s => s
  | .error _ => beforeThrow

theorem beforePcall_reachable : Reachable valHost beforePcall :=
  (captured_reachable.step inCall_step).step (.work ⟨rfl, rfl, rfl, rfl, rfl,
    fun j (hj : j < 4) => if_neg (by omega), rfl, rfl, rfl, Nat.le_refl 0⟩)

theorem inPcall_step : Step valHost beforePcall (.protect 4) inPcall :=
  .luaD_pcall (Nat.le_refl 4) (by decide) fun n rest h => by cases h

theorem inBody_step : Step valHost inPcall (.call .luaD_call 4 0 7 []) inBody :=
  @Step.luaD_call _ valHost inPcall 4 0 true _ (Nat.le_refl 4) (by decide) (by decide) rfl

theorem beforeThrow_run : Run valHost (fun s => beforePcall.ctl.length < s.ctl.length) inPcall
    [.call .luaD_call 4 0 7 [], .assign 2 (.boolean true), .work, .work] beforeThrow := by
  refine .step inBody_step (by decide)
    (.step (@Step.assign _ valHost inBody ⟨2, 0⟩ _ List.mem_cons_self) (by decide)
      (.step (@Step.findupval _ _ _ 5 1 (Nat.le_refl 5) fun uv h => ?_) (by decide)
        (.step (.work ?_) (by decide) (.refl _))))
  · obtain rfl := List.mem_singleton.1 h
    decide
  · exact ⟨rfl, rfl, rfl, rfl, rfl, fun j (hj : j < 5) => if_neg (by omega), rfl, rfl, rfl,
      Nat.le_refl 1⟩

theorem caught_step : Step valHost beforeThrow (.throw LUA_ERRRUN (fun _ => false) (.string "error"))
    caught :=
  @Step.throw _ valHost beforeThrow caught LUA_ERRRUN (beforePcall.saved 4) beforePcall.ctl _
    (by decide) rfl rfl

theorem pcall_restores_caught :
    Restored beforePcall 4 [.call .luaD_call 4 0 7 [], .assign 2 (.boolean true), .work, .work] caught ∧
      caught.stack 4 = errorValue valHost LUA_ERRRUN (.string "error") ∧
      Closes (fun _ => false) 4 beforeThrow caught :=
  pcall_restores beforePcall_reachable inPcall_step beforeThrow_run caught_step (Nat.le_refl _)

end Luaxx.Control
