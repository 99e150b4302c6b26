import Luaxx.Control.Upvalues

/-!
# Frames and C frames

`Wf` is what holds of a thread between two steps: the functions on its C stack run just the frames
that it has. Every step keeps it, and `Effect` says what a step changes: the frames, the C stack, and
which slots and upvalues it leaves alone.
-/

namespace Luaxx.Control

open Luaxx.Call Luaxx.Result
open Luaxx.Coro (Host luaD_seterrorobj)

variable {V : Type} {env : Host V}

/-! ## Well-formed threads -/

/-- The C stack, with code that runs on top. -/
inductive Stacked : List Ctl → Prop
  | idle : Stacked []
  | body {n : Nat} (h : 0 < n) : Stacked [.luaV_execute n]
  | execute {n : Nat} {rest : List Ctl} (h : 0 < n) (hr : Stacked rest) :
    Stacked (.luaV_execute n :: .luaD_call :: rest)
  | called {nresults : Int} {n : Nat} {rest : List Ctl} (hr : Stacked (.luaV_execute n :: rest)) :
    Stacked (.cfunction :: .op_call nresults :: .luaV_execute n :: rest)
  | cfunction {rest : List Ctl} (hr : Stacked rest) : Stacked (.cfunction :: .luaD_call :: rest)
  | pcall {old : OldState} {rest : List Ctl} (hr : Stacked rest) : Stacked (.luaD_pcall old :: rest)

/-- What `luaD_pcall` keeps is what was there when it was called. -/
def Restores (baseCcalls : Nat) : List Ctl → Prop
  | [] => True
  | .luaD_pcall old :: rest =>
    old.old_ci = weight rest ∧ baseCcalls + calls rest ≤ old.oldnCcalls ∧ Restores baseCcalls rest
  | _ :: rest => Restores baseCcalls rest

structure Wf (s : State V) : Prop where
  stacked : Stacked s.ctl
  weight : weight s.ctl = s.callers.length
  restores : Restores s.baseCcalls s.ctl
  base : s.base = s.ci.base
  frames : ∀ f ∈ s.ci :: s.callers, f.func < f.base
  descending : Descending s.openupval
  ids : (ids s.openupval).Nodup
  nCcalls : s.baseCcalls + calls s.ctl ≤ s.nCcalls

theorem Wf.func_lt {s : State V} (hw : Wf s) : s.ci.func < s.base := by
  rw [hw.base]
  exact hw.frames _ List.mem_cons_self

theorem Stacked.pos {n : Nat} {rest : List Ctl} (h : Stacked (.luaV_execute n :: rest)) : 0 < n := by
  cases h with
  | body h => exact h
  | execute h _ => exact h

theorem Stacked.reenter {n m : Nat} {rest : List Ctl} (h : Stacked (.luaV_execute n :: rest))
    (hm : 0 < m) : Stacked (.luaV_execute m :: rest) := by
  cases h with
  | body _ => exact .body hm
  | execute _ hr => exact .execute hm hr

/-! ## What a step changes -/

structure Like (f f' : CallInfo) : Prop where
  func : f'.func = f.func
  base : f'.base = f.base
  nresults : f'.nresults = f.nresults

theorem Like.refl (f : CallInfo) : Like f f := ⟨rfl, rfl, rfl⟩

/-- The slots and the open upvalues below `lo` are kept. -/
structure KeepsBelow (lo : Nat) (s s' : State V) : Prop where
  slots : ∀ j < lo, s'.stack j = s.stack j
  upvals : ∀ limit ≤ lo, s'.openupval.filter (·.v < limit) = s.openupval.filter (·.v < limit)

/-- A function is called. -/
inductive Pushes : List Ctl → List Ctl → Prop
  | reenter {n : Nat} {rest : List Ctl} :
    Pushes (.luaV_execute n :: rest) (.luaV_execute (n + 1) :: rest)
  | op_call {n : Nat} {nresults : Int} {rest : List Ctl} :
    Pushes (.luaV_execute n :: rest) (.cfunction :: .op_call nresults :: .luaV_execute n :: rest)
  | luaD_call {lua : Bool} {c : List Ctl} :
    Pushes c ((if lua then .luaV_execute 1 else .cfunction) :: .luaD_call :: c)
  | start : Pushes [] [.luaV_execute 1]

/-- A function returns. -/
inductive Pops : List Ctl → List Ctl → Prop
  | back {n : Nat} {rest : List Ctl} (h : 0 < n) :
    Pops (.luaV_execute (n + 1) :: rest) (.luaV_execute n :: rest)
  | op_call {nresults : Int} {rest : List Ctl} : Pops (.cfunction :: .op_call nresults :: rest) rest
  | luaD_call {x : Ctl} {rest : List Ctl} (hx : x = .luaV_execute 1 ∨ x = .cfunction) :
    Pops (x :: .luaD_call :: rest) rest
  | body : Pops [.luaV_execute 1] []

/-- The frame of the caller is the one that runs. -/
structure Left (s s' : State V) : Prop where
  callers : s.callers = s'.ci :: s'.callers
  ctl : Pops s.ctl s'.ctl
  below : KeepsBelow s.ci.func s s'

/-- Nothing is called, left, assigned or freed. -/
def Event.Quiet : Event V → Prop
  | .work => True
  | .protect _ => True
  | .unprotect => True
  | _ => False

inductive Effect (s : State V) : Event V → State V → Prop
  | assign {slot : Nat} {v : V} {s' : State V}
      (hslots : ∀ j, s'.stack j = if j = slot then v else s.stack j)
      (hopen : s'.openupval = s.openupval) (hci : s'.ci = s.ci) (hcallers : s'.callers = s.callers) (hctl : s'.ctl = s.ctl) :
    Effect s (.assign slot v) s'
  | stay {e : Event V} {s' : State V} (he : e.Quiet)
      (hlike : Like s.ci s'.ci) (hcallers : s'.callers = s.callers)
      (hctl : s'.ctl = s.ctl ∨ (∃ old, s'.ctl = .luaD_pcall old :: s.ctl ∧ s.floor ≤ old.old_top) ∨
        ∃ old, s.ctl = .luaD_pcall old :: s'.ctl)
      (hk : KeepsBelow s.floor s s') : Effect s e s'
  | sweep {dead : Nat → Bool} {s' : State V} (hopen : s'.openupval = s.openupval.filter (!dead ·.id))
      (hstack : s'.stack = s.stack) (hci : s'.ci = s.ci) (hcallers : s'.callers = s.callers)
      (hctl : s'.ctl = s.ctl) : Effect s (.sweep dead) s'
  | enter {kind : Kind} {func pc : Nat} {nresults : Int} {args : List V} {s' : State V}
      (hcallers : s'.callers = { s.ci with savedpc := pc } :: s.callers) (hfunc : s'.ci.func = func)
      (hnresults : s'.ci.nresults = nresults) (hfloor : s.floor ≤ func)
      (hctl : Pushes s.ctl s'.ctl) (hk : KeepsBelow func s s') :
    Effect s (.call kind func nresults pc args) s'
  | tailcall {args : List V} {s' : State V} (hfunc : s'.ci.func = s.ci.func)
      (hnresults : s'.ci.nresults = s.ci.nresults) (hcallers : s'.callers = s.callers) {n : Nat} {rest : List Ctl}
      (hexec : s.ctl = .luaV_execute n :: rest) (hctl : s'.ctl = s.ctl)
      (hk : KeepsBelow s.ci.func s s') : Effect s (.tailcall args) s'
  | leave {values : List V} {s' : State V} (h : Left s s') : Effect s (.returns values) s'
  | unwind {status : Nat} {isdead : Nat → Bool} {v : V} {s' : State V} {old : OldState}
      (hjmp : errorJmp s.ctl = some (old, s'.ctl))
      (hframes : s'.ci :: s'.callers = restoreci (s.ci :: s.callers) old.old_ci)
      (hk : KeepsBelow old.old_top s s') : Effect s (.throw status isdead v) s'

/-! ## Code that makes no call -/

theorem Wf.works {s s' : State V} (hw : Wf s) (h : Works s s') : Wf s' where
  stacked := by rw [h.ctl]; exact hw.stacked
  weight := by rw [h.ctl, h.callers]; exact hw.weight
  restores := by rw [h.ctl, h.baseCcalls]; exact hw.restores
  base := by rw [h.base, h.ci_base]; exact hw.base
  frames f hf := by
    rcases List.mem_cons.1 hf with rfl | hf
    · rw [h.func, h.ci_base]
      exact hw.frames _ List.mem_cons_self
    · exact hw.frames f (List.mem_cons_of_mem _ (h.callers ▸ hf))
  descending := by rw [h.openupval]; exact hw.descending
  ids := by rw [h.openupval]; exact hw.ids
  nCcalls := by rw [h.ctl, h.baseCcalls]; exact h.nCcalls

theorem Works.like {s s' : State V} (h : Works s s') : Like s.ci s'.ci :=
  ⟨h.func, h.ci_base, h.nresults⟩

theorem work_spec {s s' : State V} (hw : Wf s) (h : Works s s') : Wf s' ∧ Effect s .work s' :=
  ⟨hw.works h, .stay trivial h.like h.callers (.inl h.ctl) ⟨h.below, fun _ _ => by rw [h.openupval]⟩⟩

theorem assign_spec {s : State V} (hw : Wf s) (slot : Nat) (v : V) :
    Wf { s with toThread := s.set slot v } ∧
      Effect s (.assign slot v) { s with toThread := s.set slot v } :=
  ⟨⟨hw.stacked, hw.weight, hw.restores, hw.base, hw.frames, hw.descending, hw.ids, hw.nCcalls⟩,
    .assign (fun _ => rfl) rfl rfl rfl rfl⟩

theorem sweep_spec {s : State V} (hw : Wf s) (dead : Nat → Bool) :
    Wf { s with openupval := s.openupval.filter (!dead ·.id) } ∧
      Effect s (.sweep dead) { s with openupval := s.openupval.filter (!dead ·.id) } :=
  ⟨⟨hw.stacked, hw.weight, hw.restores, hw.base, hw.frames, List.Pairwise.filter _ hw.descending,
      List.Nodup.sublist (List.filter_sublist.map _) hw.ids, hw.nCcalls⟩,
    .sweep rfl rfl rfl rfl rfl⟩

theorem findupval_spec {s : State V} (hw : Wf s) {level new : Nat} (hlevel : s.floor ≤ level)
    (hnew : ∀ uv ∈ s.openupval, uv.id ≠ new) :
    Wf { s with openupval := luaF_findupval level new s.openupval } ∧
      Effect s .work { s with openupval := luaF_findupval level new s.openupval } :=
  ⟨⟨hw.stacked, hw.weight, hw.restores, hw.base, hw.frames, hw.descending.luaF_findupval,
      ids_luaF_findupval hw.ids hnew, hw.nCcalls⟩,
    .stay trivial (Like.refl _) rfl (.inl rfl)
      ⟨fun _ _ => rfl, fun _ hle => filter_luaF_findupval (Nat.le_trans hle hlevel) _⟩⟩

theorem Wf.close {s : State V} (hw : Wf s) (isdead : Nat → Bool) (level : Nat) :
    Wf (luaF_close isdead level s) :=
  ⟨hw.stacked, hw.weight, hw.restores, hw.base, hw.frames, hw.descending.luaF_close,
    ids_luaF_close hw.ids, hw.nCcalls⟩

theorem close_keeps (isdead : Nat → Bool) (level : Nat) (s : State V) :
    KeepsBelow level s (luaF_close isdead level s) :=
  ⟨fun _ _ => rfl, fun _ hle => by rw [openupval_luaF_close]; exact filter_dropWhile hle _⟩

theorem KeepsBelow.mono {lo lo' : Nat} {s s' : State V} (h : KeepsBelow lo' s s') (hle : lo ≤ lo') :
    KeepsBelow lo s s' :=
  ⟨fun j hj => h.slots j (Nat.lt_of_lt_of_le hj hle),
    fun limit hl => h.upvals limit (Nat.le_trans hl hle)⟩

theorem close_spec {s : State V} (hw : Wf s) {isdead : Nat → Bool} {level : Nat}
    (hlevel : s.floor ≤ level) :
    Wf (luaF_close isdead level s) ∧ Effect s .work (luaF_close isdead level s) :=
  ⟨hw.close isdead level, .stay trivial (Like.refl _) rfl (.inl rfl)
    ((close_keeps isdead level s).mono hlevel)⟩

theorem protect_spec {s : State V} (hw : Wf s) {old_top ef : Nat} (hfloor : s.floor ≤ old_top) :
    Wf { s with
        errfunc := ef
        ctl := .luaD_pcall ⟨s.nCcalls, s.callers.length, s.allowhook, s.errfunc, old_top⟩ :: s.ctl } ∧
      Effect s (.protect old_top) { s with
        errfunc := ef
        ctl := .luaD_pcall ⟨s.nCcalls, s.callers.length, s.allowhook, s.errfunc, old_top⟩ :: s.ctl } :=
  ⟨⟨hw.stacked.pcall, hw.weight, ⟨hw.weight.symm, hw.nCcalls, hw.restores⟩, hw.base, hw.frames,
      hw.descending, hw.ids, hw.nCcalls⟩,
    .stay trivial (Like.refl _) rfl (.inr (.inl ⟨_, rfl, hfloor⟩))
      ⟨fun _ _ => rfl, fun _ _ => rfl⟩⟩

theorem unprotect_spec {s : State V} (hw : Wf s) {old : OldState} {rest : List Ctl}
    (hctl : s.ctl = .luaD_pcall old :: rest) :
    Wf { s with errfunc := old.old_errfunc, ctl := rest } ∧
      Effect s .unprotect { s with errfunc := old.old_errfunc, ctl := rest } := by
  have hstacked := hw.stacked
  have hweight := hw.weight
  have hrestores := hw.restores
  have hcalls := hw.nCcalls
  rw [hctl] at hstacked hweight hrestores hcalls
  cases hstacked with
  | pcall hr =>
    exact ⟨⟨hr, hweight, hrestores.2.2, hw.base, hw.frames, hw.descending, hw.ids, hcalls⟩,
      .stay trivial (Like.refl _) rfl (.inr (.inr ⟨old, hctl⟩))
        ⟨fun _ _ => rfl, fun _ _ => rfl⟩⟩

/-! ## Calls -/

/-- A new frame. -/
theorem Wf.push {s : State V} (hw : Wf s) {L : Thread V} {func nCcalls : Nat} {nresults : Int}
    {ctl : List Ctl} {l : Thread V} (hl : l.ci = s.ci ∧ l.callers = s.callers)
    (he : Entered l func nresults L) (hstacked : Stacked ctl)
    (hweight : Control.weight ctl = Control.weight s.ctl + 1)
    (hrestores : Restores s.baseCcalls ctl) (hcalls : s.baseCcalls + calls ctl ≤ nCcalls) :
    Wf { s with toThread := L, nCcalls := nCcalls, ctl := ctl } where
  stacked := hstacked
  weight := by
    show Control.weight ctl = L.callers.length
    rw [hweight, hw.weight, he.callers, hl.2]
    rfl
  restores := hrestores
  base := he.base_eq
  frames f hf := by
    rcases List.mem_cons.1 hf with rfl | hf
    · show L.ci.func < L.ci.base
      rw [← he.base_eq, he.func_eq]
      exact he.func_lt
    · have hf : f ∈ L.callers := hf
      rw [he.callers, hl.1, hl.2] at hf
      rcases List.mem_cons.1 hf with rfl | hf
      · exact hw.frames s.ci List.mem_cons_self
      · exact hw.frames f (List.mem_cons_of_mem _ hf)
  descending := hw.descending
  ids := hw.ids
  nCcalls := hcalls

theorem floor_of_execute {s : State V} {n : Nat} {rest : List Ctl}
    (hctl : s.ctl = .luaV_execute n :: rest) : s.floor = s.base := by
  rw [State.floor, hctl]

theorem op_call_spec {s : State V} (hw : Wf s) {nexeccalls ra b pc : Nat} {rest : List Ctl}
    {nresults : Int} {lua : Bool} {L : Thread V} (hctl : s.ctl = .luaV_execute nexeccalls :: rest)
    (hra : s.base ≤ ra) (hlt : ra < (atCall s.toThread ra b pc).top)
    (h : enter env.toEnv (atCall s.toThread ra b pc) ra nresults = .ok (lua, L)) (args : List V) :
    Wf { s with
        toThread := L
        ctl := if lua then .luaV_execute (nexeccalls + 1) :: rest
          else .cfunction :: .op_call nresults :: s.ctl } ∧
      Effect s (.call .op_call ra nresults pc args) { s with
        toThread := L
        ctl := if lua then .luaV_execute (nexeccalls + 1) :: rest
          else .cfunction :: .op_call nresults :: s.ctl } := by
  obtain ⟨he, -⟩ := enter_spec env.numparams_le hlt h
  have hstacked := hw.stacked
  have hrestores := hw.restores
  have hcalls := hw.nCcalls
  have hfloor := floor_of_execute hctl
  refine ⟨?_, .enter he.callers he.func_eq he.nresults (hfloor ▸ hra) ?_
    ⟨he.below, fun _ _ => rfl⟩⟩
  · cases lua with
    | true =>
      rw [hctl] at hstacked hrestores hcalls
      refine hw.push (l := atCall s.toThread ra b pc) ⟨rfl, rfl⟩ he
        (hstacked.reenter (Nat.succ_pos _)) ?_ hrestores hcalls
      rw [hctl]
      show nexeccalls + 1 + weight rest = nexeccalls + weight rest + 1
      omega
    | false =>
      refine hw.push (l := atCall s.toThread ra b pc) ⟨rfl, rfl⟩ he ?_ (Nat.add_comm 1 _) hrestores
        hcalls
      rw [hctl] at hstacked ⊢
      exact hstacked.called
  · cases lua with
    | true =>
      rw [hctl]
      exact .reenter
    | false =>
      rw [hctl]
      exact .op_call

theorem luaD_call_spec {s : State V} (hw : Wf s) {func : Nat} {nresults : Int} {lua : Bool}
    {L : Thread V} (hfunc : s.floor ≤ func) (hlt : func < s.top)
    (h : enter env.toEnv s.toThread func nresults = .ok (lua, L)) (args : List V) :
    Wf { s with
        toThread := L
        nCcalls := s.nCcalls + 1
        ctl := (if lua then .luaV_execute 1 else .cfunction) :: .luaD_call :: s.ctl } ∧
      Effect s (.call .luaD_call func nresults s.savedpc args) { s with
        toThread := L
        nCcalls := s.nCcalls + 1
        ctl := (if lua then .luaV_execute 1 else .cfunction) :: .luaD_call :: s.ctl } := by
  obtain ⟨he, -⟩ := enter_spec env.numparams_le hlt h
  have hcalls : s.baseCcalls + (1 + calls s.ctl) ≤ s.nCcalls + 1 := by
    have := hw.nCcalls
    omega
  refine ⟨?_, .enter he.callers he.func_eq he.nresults hfunc .luaD_call ⟨he.below, fun _ _ => rfl⟩⟩
  cases lua with
  | true =>
    exact hw.push (l := s.toThread) ⟨rfl, rfl⟩ he (.execute Nat.one_pos hw.stacked) (Nat.add_comm 1 _)
      hw.restores hcalls
  | false =>
    exact hw.push (l := s.toThread) ⟨rfl, rfl⟩ he hw.stacked.cfunction (Nat.add_comm 1 _) hw.restores
      hcalls

theorem start_spec {s : State V} (hw : Wf s) {func : Nat} {L : Thread V} (hctl : s.ctl = [])
    (hfunc : s.floor ≤ func) (hlt : func < s.top)
    (h : enter env.toEnv s.toThread func LUA_MULTRET = .ok (true, L)) (args : List V) :
    Wf { s with toThread := L, ctl := [.luaV_execute 1] } ∧
      Effect s (.call .lua_resume func LUA_MULTRET s.savedpc args)
        { s with toThread := L, ctl := [.luaV_execute 1] } := by
  obtain ⟨he, -⟩ := enter_spec env.numparams_le hlt h
  have hcalls := hw.nCcalls
  rw [hctl] at hcalls
  refine ⟨hw.push (l := s.toThread) ⟨rfl, rfl⟩ he (.body Nat.one_pos) (by rw [hctl]; rfl) trivial
    hcalls, .enter he.callers he.func_eq he.nresults hfunc ?_ ⟨he.below, fun _ _ => rfl⟩⟩
  rw [hctl]
  exact .start

/-- A tail call gives the frame that it is made from to the callee. -/
theorem op_tailcall_spec {s : State V} (hw : Wf s) {nexeccalls ra b pc : Nat} {rest : List Ctl}
    {isdead : Nat → Bool} {L : Thread V} (hctl : s.ctl = .luaV_execute nexeccalls :: rest)
    (hra : s.base ≤ ra) (hlt : ra < (atCall s.toThread ra b pc).top)
    (h : enter env.toEnv (atCall s.toThread ra b pc) ra LUA_MULTRET = .ok (true, L)) (args : List V) :
    Wf (op_tailcall isdead s L) ∧ Effect s (.tailcall args) (op_tailcall isdead s L) := by
  obtain ⟨he, -⟩ := enter_spec env.numparams_le hlt h
  have hcallers : L.callers = { s.ci with savedpc := pc } :: s.callers := he.callers
  have hfunc : s.ci.func ≤ L.ci.func := by
    rw [he.func_eq]
    exact Nat.le_of_lt (Nat.lt_of_lt_of_le hw.func_lt hra)
  obtain ⟨hcallers', hfunc', hres, hbase, -, hlt'⟩ := tailcall_frame hcallers he.base_eq
    (by rw [he.func_eq]; exact he.func_lt)
  have hlevel : (L.callers.headD L.ci).base = s.base := by
    rw [hcallers, hw.base]
    rfl
  have hclose := close_keeps isdead (L.callers.headD L.ci).base { s with toThread := L }
  refine ⟨⟨hw.stacked, ?_, hw.restores, hbase, fun f hf => ?_,
    Descending.luaF_close (s := { s with toThread := L }) hw.descending,
    ids_luaF_close (s := { s with toThread := L }) hw.ids, hw.nCcalls⟩,
    .tailcall hfunc' hres hcallers' hctl rfl ⟨fun j hj => ?_, ?_⟩⟩
  · show weight s.ctl = (tailcall L).callers.length
    rw [hcallers', hw.weight]
  · rcases List.mem_cons.1 hf with rfl | hf
    · show (tailcall L).ci.func < (tailcall L).ci.base
      rw [← hbase, hfunc']
      exact hlt'
    · have hf : f ∈ (tailcall L).callers := hf
      rw [hcallers'] at hf
      exact hw.frames f (List.mem_cons_of_mem _ hf)
  · show (tailcall L).stack j = _
    rw [stack_tailcall hcallers hfunc, if_neg fun h => Nat.not_lt_of_le h.1 hj,
      he.below j (by have := hw.func_lt; omega)]
    rfl
  · intro limit hle
    exact hclose.upvals limit (hlevel ▸ Nat.le_trans hle (Nat.le_of_lt hw.func_lt))

/-! ## Returns -/

/-- The frame of the caller is back, and the slots below that of the function are kept. -/
structure Popped (s : State V) (L : Thread V) : Prop where
  frames : s.callers = L.ci :: L.callers
  base : L.base = L.ci.base
  top : s.ci.func ≤ L.top
  below : ∀ j < s.ci.func, L.stack j = s.stack j

variable (env) in
theorem poscall_popped {s : State V} (hw : Wf s) (hpos : 0 < weight s.ctl) {l : Thread V}
    (hci : l.ci = s.ci) (hcallers : l.callers = s.callers)
    (hbelow : ∀ j < s.ci.func, l.stack j = s.stack j) (first : Nat) (hfirst : s.ci.func ≤ first) :
    Popped s (luaD_poscall env.toEnv l first) := by
  obtain ⟨hci', hcallers', hbase⟩ := luaD_poscall_frames env.toEnv l first
  rw [hw.weight] at hpos
  obtain ⟨g, fs, hfs⟩ := List.exists_cons_of_ne_nil (List.ne_nil_of_length_pos hpos)
  refine ⟨?_, ?_, ?_, fun j hj => ?_⟩
  · rw [hci', hcallers', hcallers, hfs]
    rfl
  · rw [hbase, hci']
  · rw [top_luaD_poscall, hci]
    exact Nat.le_add_right _ _
  · rw [stack_luaD_poscall l (by rw [hci]; exact hfirst) (by rw [hci]; exact hj)]
    exact hbelow j hj

theorem Wf.pop {s : State V} (hw : Wf s) {L : Thread V} {nCcalls : Nat} {ctl : List Ctl}
    (hframes : s.callers = L.ci :: L.callers) (hbase : L.base = L.ci.base) (hstacked : Stacked ctl)
    (hweight : Control.weight ctl + 1 = Control.weight s.ctl) (hrestores : Restores s.baseCcalls ctl)
    (hcalls : s.baseCcalls + calls ctl ≤ nCcalls) :
    Wf { s with toThread := L, nCcalls := nCcalls, ctl := ctl } where
  stacked := hstacked
  weight := by
    have hlen := congrArg List.length hframes
    rw [← hw.weight, ← hweight] at hlen
    exact Nat.succ.inj hlen
  restores := hrestores
  base := hbase
  frames f hf := hw.frames f (List.mem_cons_of_mem _ (hframes ▸ hf))
  descending := hw.descending
  ids := hw.ids
  nCcalls := hcalls

theorem returned_spec {s : State V} (hw : Wf s) {x : Ctl} {rest : List Ctl} (hctl : s.ctl = x :: rest)
    (hx : x = .luaV_execute 1 ∨ x = .cfunction) {L : Thread V} (hL : Popped s L) :
    Wf (returned { s with toThread := L, ctl := rest }) ∧
      Left s (returned { s with toThread := L, ctl := rest }) := by
  have hstacked := hw.stacked
  have hrestores := hw.restores
  have hcalls := hw.nCcalls
  have hweight : weight s.ctl = 1 + weight rest := by
    rw [hctl]
    rcases hx with rfl | rfl <;> rfl
  rw [hctl] at hstacked hrestores hcalls
  have hbelow (T : Thread V) (ctl : List Ctl) (nCcalls : Nat) (hT : T.stack = L.stack) :
      KeepsBelow s.ci.func s { s with toThread := T, nCcalls := nCcalls, ctl := ctl } :=
    ⟨fun j hj => by
      show T.stack j = _
      rw [hT]
      exact hL.below j hj, fun _ _ => rfl⟩
  -- a call through `luaD_call`
  have hcall (rest' : List Ctl) (hr : Stacked rest') (he : rest = .luaD_call :: rest') :
      Wf (returned { s with toThread := L, ctl := rest }) ∧
        Left s (returned { s with toThread := L, ctl := rest }) := by
    subst he
    have hrestores' : Restores s.baseCcalls rest' := by
      rcases hx with rfl | rfl <;> exact hrestores
    have hcalls' : s.baseCcalls + calls rest' ≤ s.nCcalls - 1 := by
      have : s.baseCcalls + (1 + calls rest') ≤ s.nCcalls := by
        rcases hx with rfl | rfl <;> exact hcalls
      omega
    refine ⟨hw.pop hL.frames hL.base hr ?_ hrestores' hcalls', hL.frames, ?_, hbelow L _ _ rfl⟩
    · rw [hweight]
      exact Nat.add_comm _ 1
    · rw [hctl]
      exact .luaD_call hx
  cases hstacked with
  | body h =>
    refine ⟨hw.pop hL.frames hL.base .idle (by rw [hweight]; rfl) trivial hcalls, hL.frames, ?_,
      hbelow L _ _ rfl⟩
    rcases hx with hx | hx
    · rw [hctl, hx]
      exact .body
    · exact absurd hx (by rintro ⟨⟩)
  | execute h hr => exact hcall _ hr rfl
  | cfunction hr => exact hcall _ hr rfl
  | pcall hr => rcases hx with hx | hx <;> exact absurd hx (by rintro ⟨⟩)
  | called hr =>
    rename_i nresults n rest'
    obtain ⟨T, hT, hci, hcallers, hbase, hstack⟩ : ∃ T : Thread V,
        T = (if nresults ≥ 0 then { L with top := L.ci.top } else L) ∧ T.ci = L.ci ∧
          T.callers = L.callers ∧ T.base = L.base ∧ T.stack = L.stack := by
      split_ifs <;> exact ⟨_, rfl, rfl, rfl, rfl, rfl⟩
    have hreturned : returned
        { s with toThread := L, ctl := .op_call nresults :: .luaV_execute n :: rest' } =
        { s with toThread := T, ctl := .luaV_execute n :: rest' } := by
      rw [hT]
      rfl
    rw [hreturned]
    refine ⟨hw.pop (by rw [hci, hcallers]; exact hL.frames) (by rw [hbase, hci]; exact hL.base) hr
      (by rw [hweight]; exact Nat.add_comm _ 1) hrestores hcalls,
      by rw [hci, hcallers]; exact hL.frames, ?_, hbelow T _ _ hstack⟩
    rw [hctl]
    exact .op_call

theorem c_return_spec {s : State V} (hw : Wf s) {n : Nat} {rest : List Ctl}
    (hctl : s.ctl = .cfunction :: rest) (hn : s.base + n ≤ s.top) (values : List V) :
    Wf (returned
        { s with toThread := luaD_poscall env.toEnv s.toThread (s.top - n), ctl := rest }) ∧
      Effect s (.returns values) (returned
        { s with toThread := luaD_poscall env.toEnv s.toThread (s.top - n), ctl := rest }) := by
  have hpos : 0 < weight s.ctl := by
    rw [hctl]
    exact Nat.add_pos_left Nat.one_pos _
  have hfunc := hw.func_lt
  obtain ⟨hwf, hleft⟩ := returned_spec hw hctl (.inr rfl)
    (poscall_popped env hw hpos rfl rfl (fun _ _ => rfl) (s.top - n) (by omega))
  exact ⟨hwf, .leave hleft⟩

theorem op_return_execute {s : State V} {n ra : Nat} {rest : List Ctl} {isdead : Nat → Bool}
    (hctl : s.ctl = .luaV_execute n :: rest) :
    op_return env isdead s ra =
      if n - 1 = 0 then
        returned { luaF_close isdead s.base s with
          toThread := luaD_poscall env.toEnv s.toThread ra, ctl := rest }
      else
        { luaF_close isdead s.base s with
          toThread := if s.ci.nresults ≠ LUA_MULTRET then
              { luaD_poscall env.toEnv s.toThread ra with
                top := (luaD_poscall env.toEnv s.toThread ra).ci.top }
            else luaD_poscall env.toEnv s.toThread ra
          ctl := .luaV_execute (n - 1) :: rest } := by
  have hclose : (luaF_close isdead s.base s).ctl = .luaV_execute n :: rest := hctl
  unfold op_return
  simp only [hclose]
  rfl

/-- The upvalues of the frame are closed first. -/
theorem Left.of_close {s s' : State V} {isdead : Nat → Bool} {level : Nat}
    (hlevel : s.ci.func ≤ level) (h : Left (luaF_close isdead level s) s') : Left s s' :=
  ⟨h.callers, h.ctl, h.below.slots, fun limit hle => (h.below.upvals limit hle).trans
    ((close_keeps isdead level s).upvals limit (Nat.le_trans hle hlevel))⟩

theorem op_return_spec {s : State V} (hw : Wf s) {n ra b : Nat} {rest : List Ctl}
    {isdead : Nat → Bool} (hctl : s.ctl = .luaV_execute n :: rest) (hra : s.base ≤ ra)
    (values : List V) :
    Wf (op_return env isdead (atReturn s ra b) ra) ∧
      Effect s (.returns values) (op_return env isdead (atReturn s ra b) ra) := by
  obtain ⟨t, ht⟩ : ∃ t, t = atReturn s ra b := ⟨_, rfl⟩
  have hwt : Wf t := by
    rw [ht]
    exact ⟨hw.stacked, hw.weight, hw.restores, hw.base, hw.frames, hw.descending, hw.ids, hw.nCcalls⟩
  have hctlt : t.ctl = .luaV_execute n :: rest := by
    rw [ht]
    exact hctl
  have hleft (s' : State V) (h : Left (luaF_close isdead t.base t) s') : Left s s' := by
    have := h.of_close (Nat.le_of_lt hwt.func_lt)
    rw [ht] at this
    exact ⟨this.callers, this.ctl, this.below.slots, this.below.upvals⟩
  rw [← ht, op_return_execute hctlt]
  have hstacked := hwt.stacked
  rw [hctlt] at hstacked
  have hn := hstacked.pos
  have hwc := hwt.close isdead t.base
  have hfirst : t.ci.func ≤ ra := by
    have := hwt.func_lt
    have hbase : t.base = s.base := by rw [ht]; rfl
    omega
  have hpos : 0 < weight t.ctl := by
    rw [hctlt]
    exact Nat.add_pos_left hn _
  have hL : Popped (luaF_close isdead t.base t) (luaD_poscall env.toEnv t.toThread ra) :=
    poscall_popped env hwc hpos rfl rfl (fun _ _ => rfl) ra hfirst
  by_cases hone : n - 1 = 0
  · rw [if_pos hone]
    obtain rfl : n = 1 := by omega
    obtain ⟨hwf, hl⟩ := returned_spec hwc hctlt (.inl rfl) hL
    exact ⟨hwf, .leave (hleft _ hl)⟩
  · rw [if_neg hone]
    -- the function was called from the same activation of `luaV_execute`
    obtain ⟨m, rfl⟩ : ∃ m, n = m + 1 := ⟨n - 1, by omega⟩
    have hm : 0 < m := by omega
    rw [Nat.add_sub_cancel]
    obtain ⟨T, hT, hci, hcallers, hbase, hstack⟩ : ∃ T : Thread V,
        T = (if t.ci.nresults ≠ LUA_MULTRET then { luaD_poscall env.toEnv t.toThread ra with
            top := (luaD_poscall env.toEnv t.toThread ra).ci.top }
          else luaD_poscall env.toEnv t.toThread ra) ∧
          T.ci = (luaD_poscall env.toEnv t.toThread ra).ci ∧
          T.callers = (luaD_poscall env.toEnv t.toThread ra).callers ∧
          T.base = (luaD_poscall env.toEnv t.toThread ra).base ∧
          T.stack = (luaD_poscall env.toEnv t.toThread ra).stack := by
      split_ifs <;> exact ⟨_, rfl, rfl, rfl, rfl, rfl⟩
    rw [← hT]
    have hrestores := hwt.restores
    have hcalls := hwt.nCcalls
    rw [hctlt] at hrestores hcalls
    have hweight : weight (.luaV_execute m :: rest) + 1 = weight (luaF_close isdead t.base t).ctl := by
      show m + weight rest + 1 = weight t.ctl
      rw [hctlt]
      show _ = m + 1 + weight rest
      omega
    refine ⟨hwc.pop (by rw [hci, hcallers]; exact hL.frames) (by rw [hbase, hci]; exact hL.base)
      (hstacked.reenter hm) hweight hrestores hcalls, .leave (hleft _
        ⟨by rw [hci, hcallers]; exact hL.frames, ?_, fun j hj => ?_, fun _ _ => rfl⟩)⟩
    · show Pops t.ctl (.luaV_execute m :: rest)
      rw [hctlt]
      exact .back hm
    · show T.stack j = _
      rw [hstack]
      exact hL.below j hj

/-- Across no other C call, the C function that yields was called by `luaV_execute`, which runs all
frames of the coroutine. -/
theorem Wf.yields {s : State V} (hw : Wf s) {rest : List Ctl} (hctl : s.ctl = .cfunction :: rest)
    (hcalls : ¬ s.nCcalls > s.baseCcalls) :
    ∃ nresults n, 0 < n ∧ rest = [.op_call nresults, .luaV_execute n] ∧ s.callers.length = n + 1 := by
  have hstacked := hw.stacked
  have hn := hw.nCcalls
  have hweight := hw.weight
  rw [hctl] at hstacked hn hweight
  have hzero : calls rest = 0 := by
    have : s.baseCcalls + calls rest ≤ s.nCcalls := hn
    omega
  cases hstacked with
  | cfunction hr => exact absurd hzero (Nat.succ_ne_zero _ ∘ (Nat.add_comm 1 _).symm.trans)
  | called hr =>
    rename_i nresults n rest'
    cases hr with
    | body h =>
      refine ⟨nresults, n, h, rfl, ?_⟩
      rw [← hweight]
      exact Nat.add_comm 1 n
    | execute h hr => exact absurd hzero (Nat.succ_ne_zero _ ∘ (Nat.add_comm 1 _).symm.trans)

theorem yield_spec {s s' : State V} (hw : Wf s) {rest : List Ctl} (hctl : s.ctl = .cfunction :: rest)
    (hcalls : ¬ s.nCcalls > s.baseCcalls) (hci : s'.ci = s.ci) (hcallers : s'.callers = s.callers)
    (hbelow : ∀ j < s.base, s'.stack j = s.stack j) (hopen : s'.openupval = s.openupval)
    (hlevel : s'.baseCcalls = s'.nCcalls) (values : List V) :
    Wf { s' with
        toThread :=
          let L := luaD_poscall env.toEnv s'.toThread s.base
          if s.ci.nresults = LUA_MULTRET then L else { L with top := L.ci.top }
        ctl := [.luaV_execute (luaD_poscall env.toEnv s'.toThread s.base).callers.length] } ∧
      Effect s (.returns values) { s' with
        toThread :=
          let L := luaD_poscall env.toEnv s'.toThread s.base
          if s.ci.nresults = LUA_MULTRET then L else { L with top := L.ci.top }
        ctl := [.luaV_execute (luaD_poscall env.toEnv s'.toThread s.base).callers.length] } := by
  obtain ⟨nresults, n, hn, rfl, hlen⟩ := hw.yields hctl hcalls
  have hpos : 0 < weight s.ctl := by
    rw [hw.weight, hlen]
    exact Nat.succ_pos n
  have hL := poscall_popped env hw hpos hci hcallers
    (fun j hj => hbelow j (Nat.lt_trans hj hw.func_lt)) s.base (Nat.le_of_lt hw.func_lt)
  have hcount : (luaD_poscall env.toEnv s'.toThread s.base).callers.length = n := by
    have hframes := congrArg List.length hL.frames
    rw [hlen] at hframes
    exact (Nat.succ.inj hframes).symm
  obtain ⟨T, hT, hTci, hTcallers, hTbase, hTstack⟩ : ∃ T : Thread V,
      T = (if s.ci.nresults = LUA_MULTRET then luaD_poscall env.toEnv s'.toThread s.base
        else { luaD_poscall env.toEnv s'.toThread s.base with
          top := (luaD_poscall env.toEnv s'.toThread s.base).ci.top }) ∧
        T.ci = (luaD_poscall env.toEnv s'.toThread s.base).ci ∧
        T.callers = (luaD_poscall env.toEnv s'.toThread s.base).callers ∧
        T.base = (luaD_poscall env.toEnv s'.toThread s.base).base ∧
        T.stack = (luaD_poscall env.toEnv s'.toThread s.base).stack := by
    split_ifs <;> exact ⟨_, rfl, rfl, rfl, rfl, rfl⟩
  dsimp only
  rw [← hT, hcount]
  have hframes : s.callers = T.ci :: T.callers := by rw [hTci, hTcallers]; exact hL.frames
  refine ⟨⟨.body hn, ?_, trivial, ?_, fun f hf => ?_, ?_, ?_, ?_⟩,
    .leave ⟨hframes, ?_, fun j hj => ?_, fun _ _ => by rw [hopen]⟩⟩
  · show n = T.callers.length
    rw [hTcallers, hcount]
  · show T.base = T.ci.base
    rw [hTbase, hTci]
    exact hL.base
  · exact hw.frames f (List.mem_cons_of_mem _ (hframes ▸ hf))
  · show Descending s'.openupval
    rw [hopen]
    exact hw.descending
  · show (ids s'.openupval).Nodup
    rw [hopen]
    exact hw.ids
  · show s'.baseCcalls + 0 ≤ s'.nCcalls
    exact Nat.le_of_eq hlevel
  · rw [hctl]
    exact .op_call
  · show T.stack j = _
    rw [hTstack]
    exact hL.below j hj

/-! ## Errors -/

theorem Restores.errorJmp {n : Nat} {c rest : List Ctl} {old : OldState} (h : Restores n c)
    (hjmp : errorJmp c = some (old, rest)) :
    old.old_ci = weight rest ∧ n + calls rest ≤ old.oldnCcalls ∧ Restores n rest := by
  induction c with
  | nil => exact absurd hjmp (by rintro ⟨⟩)
  | cons x c ih =>
    cases x with
    | luaD_pcall old' =>
      obtain ⟨rfl, rfl⟩ := Prod.mk.inj (Option.some.inj hjmp)
      exact h
    | luaV_execute m => exact ih h hjmp
    | op_call r => exact ih h hjmp
    | cfunction => exact ih h hjmp
    | luaD_call => exact ih h hjmp

theorem errorJmp_suffix {c rest : List Ctl} {old : OldState} (hjmp : errorJmp c = some (old, rest)) :
    .luaD_pcall old :: rest <:+ c := by
  induction c with
  | nil => exact absurd hjmp (by rintro ⟨⟩)
  | cons x c ih =>
    cases x with
    | luaD_pcall old' =>
      obtain ⟨rfl, rfl⟩ := Prod.mk.inj (Option.some.inj hjmp)
      exact List.suffix_rfl
    | luaV_execute m => exact (ih hjmp).trans (List.suffix_cons _ _)
    | op_call r => exact (ih hjmp).trans (List.suffix_cons _ _)
    | cfunction => exact (ih hjmp).trans (List.suffix_cons _ _)
    | luaD_call => exact (ih hjmp).trans (List.suffix_cons _ _)

theorem weight_append (xs ys : List Ctl) : weight (xs ++ ys) = weight xs + weight ys := by
  induction xs with
  | nil => exact (Nat.zero_add _).symm
  | cons x xs ih =>
    cases x with
    | luaV_execute n => exact (congrArg (n + ·) ih).trans (Nat.add_assoc _ _ _).symm
    | cfunction => exact (congrArg (1 + ·) ih).trans (Nat.add_assoc _ _ _).symm
    | op_call r => exact ih
    | luaD_call => exact ih
    | luaD_pcall old => exact ih

theorem Stacked.errorJmp {c rest : List Ctl} {old : OldState} (h : Stacked c)
    (hjmp : errorJmp c = some (old, rest)) : Stacked rest := by
  induction h with
  | idle => exact absurd hjmp (by rintro ⟨⟩)
  | body h => exact absurd hjmp (by rintro ⟨⟩)
  | execute h hr ih => exact ih hjmp
  | called hr ih => exact ih hjmp
  | cfunction hr ih => exact ih hjmp
  | pcall hr ih =>
    obtain ⟨rfl, rfl⟩ := Prod.mk.inj (Option.some.inj hjmp)
    exact hr

theorem restore_stack_limit_ok {L L' : Thread V} (h : restore_stack_limit env L = .ok L') :
    ∃ size, L' = { L with size_ci := size } := by
  rw [restore_stack_limit, luaD_reallocCI] at h
  split_ifs at h
  · exact ⟨_, (Except.ok.inj h).symm⟩
  · exact ⟨L.size_ci, (Except.ok.inj h).symm⟩

/-- What `luaD_pcall` makes of a thread in which an error is raised. -/
structure Caught (env : Host V) (isdead : Nat → Bool) (s : State V) (status : Nat) (old : OldState)
    (ctl : List Ctl) (s' : State V) : Prop where
  frames : s'.ci :: s'.callers = restoreci (s.ci :: s.callers) old.old_ci
  base : s'.base = s'.ci.base
  savedpc : s'.savedpc = s'.ci.savedpc
  top : s'.top = old.old_top + 1
  stack : ∀ j, s'.stack j =
    (luaD_seterrorobj env s.toThread status old.old_top).stack j
  openupval : s'.openupval = (luaF_close isdead old.old_top s).openupval
  closed : s'.closed = (luaF_close isdead old.old_top s).closed
  nCcalls : s'.nCcalls = old.oldnCcalls
  baseCcalls : s'.baseCcalls = s.baseCcalls
  allowhook : s'.allowhook = old.old_allowhooks
  errfunc : s'.errfunc = old.old_errfunc
  ctl : s'.ctl = ctl

theorem luaD_pcall_caught {isdead : Nat → Bool} {s s' : State V} {status : Nat} {old : OldState}
    {ctl : List Ctl} (h : luaD_pcall_catch env isdead s status old ctl = .ok s') :
    Caught env isdead s status old ctl s' := by
  simp only [luaD_pcall_catch, bind_ok, Except.ok.injEq] at h
  obtain ⟨L, hL, rfl⟩ := h
  obtain ⟨size, rfl⟩ := restore_stack_limit_ok hL
  have hne : restoreci (s.ci :: s.callers) old.old_ci ≠ [] := by
    rw [restoreci]
    refine List.ne_nil_of_length_pos ?_
    rw [List.length_drop, List.length_cons]
    omega
  refine ⟨?_, rfl, rfl, rfl, fun _ => rfl, rfl, rfl, rfl, rfl, rfl, rfl, rfl⟩
  show (restoreci (s.ci :: s.callers) old.old_ci).headD s.ci ::
    (restoreci (s.ci :: s.callers) old.old_ci).tail = _
  obtain ⟨f, fs, hfs⟩ := List.exists_cons_of_ne_nil hne
  rw [hfs]
  rfl

theorem throw_spec {s s' : State V} (hw : Wf s) {status : Nat} {old : OldState} {ctl : List Ctl}
    {isdead : Nat → Bool} (hjmp : errorJmp s.ctl = some (old, ctl))
    (hcatch : luaD_pcall_catch env isdead s status old ctl = .ok s') (v : V) :
    Wf s' ∧ Effect s (.throw status isdead v) s' := by
  have hc := luaD_pcall_caught hcatch
  obtain ⟨hci, hcalls, hrestores⟩ := hw.restores.errorJmp hjmp
  obtain ⟨xs, hxs⟩ := errorJmp_suffix hjmp
  have hlen : weight ctl ≤ s.callers.length := by
    rw [← hw.weight, ← hxs, weight_append]
    exact Nat.le_add_left _ _
  have hframes : s'.ci :: s'.callers = (s.ci :: s.callers).drop (s.callers.length - weight ctl) := by
    rw [hc.frames, restoreci, hci, List.length_cons, Nat.add_sub_add_right]
  refine ⟨⟨?_, ?_, ?_, hc.base, fun f hf => ?_, ?_, ?_, ?_⟩,
    .unwind (by rw [hc.ctl]; exact hjmp) hc.frames ⟨fun j hj => ?_, fun limit hle => ?_⟩⟩
  · rw [hc.ctl]
    exact hw.stacked.errorJmp hjmp
  · have hl := congrArg List.length hframes
    rw [List.length_drop, List.length_cons, List.length_cons] at hl
    rw [hc.ctl]
    omega
  · rw [hc.ctl, hc.baseCcalls]
    exact hrestores
  · rw [hframes] at hf
    exact hw.frames f (List.mem_of_mem_drop hf)
  · rw [hc.openupval]
    exact hw.descending.luaF_close
  · rw [hc.openupval]
    exact ids_luaF_close hw.ids
  · rw [hc.ctl, hc.baseCcalls, hc.nCcalls]
    exact hcalls
  · rw [hc.stack]
    exact if_neg (Nat.ne_of_lt hj)
  · rw [hc.openupval, (close_keeps isdead old.old_top s).upvals limit hle]

/-! ## Steps -/

/-- Every step keeps a thread well-formed, and has an effect. -/
theorem step_spec {s s' : State V} {e : Event V} (hw : Wf s) (h : Step env s e s') :
    Wf s' ∧ Effect s e s' := by
  cases h with
  | work h => exact work_spec hw h
  | assign h => exact assign_spec hw _ _
  | lua_setlocal hci => exact assign_spec hw _ _
  | sweep => exact sweep_spec hw _
  | findupval hlevel hnew => exact findupval_spec hw hlevel hnew
  | close hlevel => exact close_spec hw hlevel
  | op_call hctl hra hlt h => exact op_call_spec hw hctl hra hlt h _
  | op_tailcall hctl hra hlt h => exact op_tailcall_spec hw hctl hra hlt h _
  | op_return hctl hra => exact op_return_spec hw hctl hra _
  | c_return hctl hn => exact c_return_spec hw hctl hn _
  | luaD_call hfunc hlt hcalls h => exact luaD_call_spec hw hfunc hlt h _
  | start hctl hfunc hlt h => exact start_spec hw hctl hfunc hlt h _
  | luaD_pcall hfloor htop hc => exact protect_spec hw hfloor
  | unprotect hctl => exact unprotect_spec hw hctl
  | throw hstatus hjmp hcatch => exact throw_spec hw hjmp hcatch _
  | yield hctl hcalls hci hcallers hbelow hopen hlevel =>
    exact yield_spec hw hctl hcalls hci hcallers hbelow hopen hlevel _

end Luaxx.Control
