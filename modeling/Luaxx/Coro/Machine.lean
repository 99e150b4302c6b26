import Mathlib.Logic.Function.Basic
import Luaxx.Coro.Coroutine

/-!
# Coroutines that resume each other

All threads of a program, of which one runs. Each of those that have resumed another one waits for it
in a C function. What a thread does between the functions of the coroutine library is left open: it
keeps its status, and the frame of the function that it was created with. The debug library, which
reads and writes the stacks of other threads, is left out.
-/

namespace Luaxx.Coro

open Luaxx.Call

/-- A thread that waits for the coroutine it has resumed. -/
structure Pending where
  thread : Nat
  kind : Kind
  deriving DecidableEq, Repr

structure State (V : Type) where
  threads : Nat → LuaState V
  count : Nat
  running : Nat
  resumers : List Pending

/-- What the thread that runs does, with the values that it passes on. -/
inductive Event (V : Type) where
  | other
  | create
  | resume (co : Nat) (args : List V)
  /-- There are too many values to resume a coroutine with. -/
  | tooMany
  /-- The C stack is used up where a coroutine is resumed. -/
  | overflow (co : Nat)
  /-- The body of a coroutine cannot be called. -/
  | fails (co : Nat)
  | yield (values : List V)
  | finish (values : List V)
  | error (v : V)

variable {V : Type} (env : Host V)

/-- The frames of a coroutine that has begun: its body is called from the first frame, and all its
results are wanted. -/
def HasBody (frames : List CallInfo) : Prop :=
  ∃ inner body bottom, frames = inner ++ [body, bottom] ∧ body.func = bottom.base ∧
    body.nresults = LUA_MULTRET

/-- The thread is in a function, and a coroutine in its body or a function called from there. -/
structure Active (isMain : Prop) (L : LuaState V) : Prop where
  status : L.status = 0
  callers : L.callers ≠ []
  body : ¬ isMain → HasBody (L.ci :: L.callers)

/-- A C function runs, on its arguments. -/
structure InC (L : LuaState V) : Prop where
  callee : env.callee (L.stack L.ci.func) = some .c
  func_lt : L.ci.func < L.ci.base
  base_eq : L.base = L.ci.base
  base_le : L.base ≤ L.top

/-- The C function that runs resumes the coroutine with its last arguments. -/
def Resumes (kind : Kind) (L : LuaState V) (co narg : Nat) : Prop :=
  match kind with
  | .coresume => 0 < lua_gettop L ∧ env.lua_tothread (L.stack L.base) = some co ∧
      narg = lua_gettop L - 1
  | .auxwrap => narg = lua_gettop L

def State.set (s : State V) (i : Nat) (L : LuaState V) : State V :=
  { s with threads := Function.update s.threads i L }

/-- What `auxresume_end` leaves in the two threads; where the stack cannot be enlarged, the error is
raised in the thread that waits. -/
def Ends (L co : LuaState V) (status : Nat) (res : Aux) (L' co' : LuaState V) : Prop :=
  auxresume_end env L co status = .ok (res, L', co') ∨
    (∃ e, auxresume_end env L co status = .error e) ∧ res = .raised ∧ L' = L ∧ co' = co

/-- The thread that waits goes on with what `lua_resume` returns. -/
def Leaves (s : State V) (co : LuaState V) (status : Nat) (s' : State V) : Prop :=
  ∃ p rest res L co', s.resumers = p :: rest ∧
    Ends env (s.threads p.thread) co status res L co' ∧
    s' = { (s.set s.running co').set p.thread (finish env p.kind res L) with
      running := p.thread, resumers := rest }

inductive Step : State V → Event V → State V → Prop
  | other {s : State V} {L : LuaState V} (h : Active (s.running = 0) L) :
    Step s .other (s.set s.running L)
  | create {s : State V} {p : Proto} (hC : InC env (s.threads s.running))
      (harg : 0 < lua_gettop (s.threads s.running))
      (hf : env.callee ((s.threads s.running).stack (s.threads s.running).base) = some (.lua p)) :
    Step s .create
      { (s.set s.running (luaB_cocreate env (s.threads s.running) s.count).1).set s.count
          (luaB_cocreate env (s.threads s.running) s.count).2 with count := s.count + 1 }
  | tooMany {s : State V} {kind : Kind} {c narg : Nat} {L : LuaState V}
      (hC : InC env (s.threads s.running)) (hk : Resumes env kind (s.threads s.running) c narg)
      (hc : c < s.count)
      (h : auxresume env (c = s.running) (s.threads s.running) (s.threads c) narg =
        .ok (.raised L)) :
    Step s .tooMany (s.set s.running L)
  | refused {s : State V} {kind : Kind} {c narg : Nat} {L co : LuaState V}
      (hC : InC env (s.threads s.running)) (hk : Resumes env kind (s.threads s.running) c narg)
      (hc : c < s.count)
      (h : auxresume env (c = s.running) (s.threads s.running) (s.threads c) narg =
        .ok (.refused L co)) :
    Step s (.resume c ((s.threads s.running).valuesFrom ((s.threads s.running).top - narg)))
      ((s.set c co).set s.running (finish env kind .flag L))
  | resumed {s : State V} {kind : Kind} {c narg : Nat} {L co : LuaState V}
      (hC : InC env (s.threads s.running)) (hk : Resumes env kind (s.threads s.running) c narg)
      (hc : c < s.count)
      (h : auxresume env (c = s.running) (s.threads s.running) (s.threads c) narg =
        .ok (.resumed L (.running co))) :
    Step s (.resume c ((s.threads s.running).valuesFrom ((s.threads s.running).top - narg)))
      { (s.set s.running L).set c co with
        running := c, resumers := ⟨s.running, kind⟩ :: s.resumers }
  | overflow {s : State V} {kind : Kind} {c narg : Nat} {L L' co co' : LuaState V} {res : Aux}
      (hC : InC env (s.threads s.running)) (hk : Resumes env kind (s.threads s.running) c narg)
      (hc : c < s.count)
      (h : auxresume env (c = s.running) (s.threads s.running) (s.threads c) narg =
        .ok (.resumed L (.refused co)))
      (hend : Ends env L co LUA_ERRRUN res L' co') :
    Step s (.overflow c) ((s.set c co').set s.running (finish env kind res L'))
  | fails {s : State V} {kind : Kind} {c narg status : Nat} {L L' co co' : LuaState V} {res : Aux}
      (hC : InC env (s.threads s.running)) (hk : Resumes env kind (s.threads s.running) c narg)
      (hc : c < s.count)
      (h : auxresume env (c = s.running) (s.threads s.running) (s.threads c) narg =
        .ok (.resumed L (.failed status co)))
      (hend : Ends env L co status res L' co') :
    Step s (.fails c) ((s.set c co').set s.running (finish env kind res L'))
  | yield {s s' : State V} {co : LuaState V} (hC : InC env (s.threads s.running))
      (hbody : HasBody (s.threads s.running).callers)
      (hy : lua_yield (s.threads s.running) (lua_gettop (s.threads s.running)) = some co)
      (h : Leaves env s (lua_resume_end co) LUA_YIELD s') :
    Step s (.yield ((s.threads s.running).valuesFrom (s.threads s.running).base)) s'
  | finish {s s' : State V} {first : Nat} (hbody : (s.threads s.running).callers.length = 1)
      (hfirst : (s.threads s.running).ci.func ≤ first)
      (h : Leaves env s (lua_resume_end { s.threads s.running with
        toThread := luaD_poscall env.toEnv (s.threads s.running).toThread first })
        (s.threads s.running).status s') :
    Step s (.finish ((s.threads s.running).valuesFrom first)) s'
  | error {s s' : State V} {status : Nat} (hstatus : LUA_YIELD < status ∧ status ≤ LUA_ERRERR)
      (h : Leaves env s (lua_resume_catch env (s.threads s.running) status) status s') :
    Step s (.error ((luaD_seterrorobj env (s.threads s.running).toThread status
      (s.threads s.running).top).stack (s.threads s.running).top)) s'

/-! ## Histories -/

/-- What has become of a thread. -/
inductive Life where
  | fresh
  | yielded
  | running
  | normal
  | dead
  deriving DecidableEq, Repr

def Life.suspended : Life → Bool
  | .fresh | .yielded => true
  | _ => false

def Life.costatus : Life → CoStatus
  | .fresh | .yielded => .CO_SUS
  | .running => .CO_RUN
  | .normal => .CO_NOR
  | .dead => .CO_DEAD

/-- The threads, with the one that runs and those that wait for each other before it. -/
structure History where
  lives : Nat → Life
  count : Nat
  active : List Nat

/-- The main thread runs. -/
def History.start : History := ⟨fun _ => .running, 1, [0]⟩

/-- The thread that runs comes to `life`, and the one that waits for it goes on. -/
def History.leave (h : History) (life : Life) : History :=
  match h.active with
  | c :: r :: rest =>
    { h with
      lives := Function.update (Function.update h.lives c life) r .running
      active := r :: rest }
  | _ => h

def History.after (h : History) : Event V → History
  | .other | .tooMany | .overflow _ => h
  | .create => { h with lives := Function.update h.lives h.count .fresh, count := h.count + 1 }
  | .resume c _ =>
    if (h.lives c).suspended then
      { h with
        lives := Function.update (Function.update h.lives (h.active.headD 0) .normal) c .running
        active := c :: h.active }
    else h
  | .fails c => { h with lives := Function.update h.lives c .dead }
  | .yield _ => h.leave .yielded
  | .finish _ | .error _ => h.leave .dead

def history (es : List (Event V)) : History := es.foldl History.after .start

/-! ## Runs -/

/-- A coroutine that has not begun is not resumed where the C stack is used up, and what a coroutine
yields or returns has room on the stack of the thread that waits. -/
def Fine (s : State V) : Event V → Prop
  | .overflow c => (s.threads c).status = LUA_YIELD
  | .yield values | .finish values => ∀ p ∈ s.resumers.head?,
      ∃ L, lua_checkstack env (s.threads p.thread) (values.length + 1) = .ok (true, L)
  | _ => True

/-- The main thread runs. -/
structure Initial (s : State V) : Prop where
  count : s.count = 1
  running : s.running = 0
  resumers : s.resumers = []
  active : Active (s.running = 0) (s.threads 0)

inductive Run : List (Event V) → State V → Prop
  | init {s : State V} (h : Initial s) : Run [] s
  | step {es : List (Event V)} {e : Event V} {s s' : State V} (hr : Run es s)
      (h : Step env s e s') : Run (es ++ [e]) s'

/-- A run of which all steps are fine. -/
inductive FineRun : List (Event V) → State V → Prop
  | init {s : State V} (h : Initial s) : FineRun [] s
  | step {es : List (Event V)} {e : Event V} {s s' : State V} (hr : FineRun es s)
      (h : Step env s e s') (hfine : Fine env s e) : FineRun (es ++ [e]) s'

end Luaxx.Coro
