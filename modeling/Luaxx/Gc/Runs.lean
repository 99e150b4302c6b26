import Luaxx.Gc.OpenUpvals
import Mathlib.Data.Option.Basic

/-!
# Runs of the program on upvalues

Every order of captures, assignments, closings and steps of the collector. The collector may give
the upvalues any colour between two steps, as long as no upvalue of a closure that the program can
still use is dead.
-/

namespace Luaxx.Gc

variable {V : Type} {s s' : State V} {a b : Nat}

inductive Op (V : Type) where
  | findupval (t level new : Nat)
  | close (t level : Nat)
  /-- `OP_CLOSURE` in a function with the upvalues `cl`; a main function has none. -/
  | closure (t base : Nat) (cl : List Nat) (code : List Capture)
  /-- An assignment to a local variable. -/
  | setStack (t i : Nat) (v : V)
  /-- `OP_SETUPVAL` -/
  | setUpval (a : Nat) (v : V)
  | sweep (t : Nat)
  /-- The sweep of `rootgc` comes to a closed upvalue. -/
  | sweepClosed (a : Nat)
  | recolour (f : Nat → Marked → Marked) (currentwhite : White) (gcstate : GCState)
  /-- The program can no longer use a closure. -/
  | forget (cl : List Nat)

def State.recolour (s : State V) (f : Nat → Marked → Marked) (currentwhite : White)
    (gcstate : GCState) : State V :=
  { s with
    heap := fun a => (s.heap a).map fun uv => { uv with marked := f a uv.marked }
    currentwhite := currentwhite
    gcstate := gcstate }

theorem State.openupval_setOpen (s : State V) (t : Nat) (l : List Nat) :
    (s.setOpen t l).openupval = Function.update s.openupval t l := rfl

def sweepClosed (s : State V) (a : Nat) : State V :=
  if s.isdead a then luaF_freeupval { s with rootgc := s.rootgc.erase a } a
  else s.mark a (Marked.makewhite s.currentwhite)

def step (s : State V) : Op V → Option (State V)
  | .findupval t level new =>
    if (s.heap new).isNone then some (luaF_findupval s t level new).2 else none
  | .close t level => some (luaF_close s t level)
  | .closure t base cl code =>
    if cl = [] ∨ cl ∈ s.closures then
      (captureLoop t base cl code s).map fun (ncl, s) => { s with closures := ncl :: s.closures }
    else none
  | .setStack t i v => some (s.setStack t i v)
  | .setUpval a v => if ∃ cl ∈ s.closures, a ∈ cl then some (s.setValue a v) else none
  | .sweep t => some (sweepOpen s t)
  | .sweepClosed a => if (s.slot a).isNone then some (sweepClosed s a) else none
  | .recolour f currentwhite gcstate =>
    let s := s.recolour f currentwhite gcstate
    if ∀ cl ∈ s.closures, ∀ a ∈ cl, s.live a = true then some s else none
  | .forget cl => some { s with closures := s.closures.erase cl }

def run (s : State V) (ops : List (Op V)) : Option (State V) := ops.foldlM step s

/-! ## What a step keeps -/

/-- An upvalue that is not dead is not freed, and stays where it is. -/
def Keeps (s s' : State V) : Prop :=
  ∀ a, s.live a = true → s'.live a = true ∧ s'.slot a = s.slot a

theorem Keeps.refl (s : State V) : Keeps s s := fun _ ha => ⟨ha, rfl⟩

theorem Keeps.trans {s'' : State V} (h : Keeps s s') (h' : Keeps s' s'') : Keeps s s'' :=
  fun a ha =>
    have hs := h a ha
    have hs' := h' a hs.1
    ⟨hs'.1, hs'.2.trans hs.2⟩

theorem Keeps.of_view (hcw : s'.currentwhite = s.currentwhite)
    (h : ∀ a, s.live a = true → s'.view a = s.view a) : Keeps s s' := fun a ha =>
  ⟨(live_congr hcw (h a ha)).trans ha, slot_of_view_eq (h a ha)⟩

/-! ## Closing -/

/-- What `luaF_close` does to the upvalues and to the list of the thread. -/
structure Closed (s : State V) (t level : Nat) (s' : State V) : Prop where
  inv : Inv s'
  frame : Frame s s'
  closes : Closes s t level s'
  mem : ∀ a, a ∈ s'.openupval t ↔ a ∈ s.openupval t ∧ s.level a < level
  other : ∀ t' ≠ t, s'.openupval t' = s.openupval t'

theorem luaF_close_spec (t level : Nat) (h : Inv s) : Closed s t level (luaF_close s t level) := by
  obtain ⟨ring, frame, closes, hother, hlisted⟩ :
      Ringed (luaF_close s t level) ∧ Frame s (luaF_close s t level) ∧
        Closes s t level (luaF_close s t level) ∧
        (∀ t' ≠ t, (luaF_close s t level).openupval t' = s.openupval t') ∧
        Listed (luaF_close s t level) t ((luaF_close s t level).openupval t) :=
    closeLoop_spec h.ring (h.listed t) rfl
  generalize luaF_close s t level = s' at *
  -- an upvalue that is not closed keeps its slot, and what is closed has none
  have hslot : ∀ a p, s'.slot a = some p ↔ s.slot a = some p ∧ (p.1 = t → p.2 < level) := by
    rintro a ⟨t', i⟩
    by_cases hlow : ∀ j, s.slot a = some (t, j) → j < level
    · rw [slot_of_view_eq (closes.other a hlow), iff_self_and]
      rintro ha rfl
      exact hlow i ha
    · push Not at hlow
      obtain ⟨j, hj, hle⟩ := hlow
      have hnone : s'.slot a = none := by
        rw [State.slot_eq_view]
        cases hd : s.isdead a with
        | true => rw [closes.dead a j hj hle hd]; rfl
        | false =>
          obtain ⟨m, hm, -⟩ := closes.own a j hj hle hd
          rw [hm]
          rfl
      rw [hnone, hj]
      simp only [reduceCtorEq, Option.some.injEq, Prod.mk.injEq, false_iff, not_and]
      rintro ⟨rfl, rfl⟩ hlt
      exact absurd (hlt rfl) hle.not_gt
  refine ⟨⟨ring, fun t' => ?_⟩, frame, closes, fun a => ?_, hother⟩
  · by_cases ht : t' = t
    · rw [ht]
      exact hlisted
    · rw [hother t' ht]
      have hl := h.listed t'
      have heq : ∀ a ∈ s.openupval t', s'.slot a = s.slot a := fun a ha => by
        obtain ⟨i, hi⟩ := (hl.mem a).mp ha
        rw [hi, hslot]
        exact ⟨hi, fun he => absurd he ht⟩
      refine ⟨hl.sorted.imp_of_mem fun ha hb hlt => ?_, fun a => ?_⟩
      · rwa [State.level, State.level, heq _ ha, heq _ hb]
      · simp only [hl.mem, hslot, ht, false_imp_iff, and_true]
  · rw [hlisted.mem, (h.listed t).mem]
    simp only [hslot, forall_const]
    constructor
    · rintro ⟨i, hi, hlt⟩
      exact ⟨⟨i, hi⟩, (level_of_slot hi).trans_lt hlt⟩
    · rintro ⟨⟨i, hi⟩, hlt⟩
      exact ⟨i, hi, (level_of_slot hi).symm.trans_lt hlt⟩

theorem Closed.live {t level : Nat} (h : Closed s t level s') (ha : s.live a = true) :
    s'.live a = true := by
  by_cases hlow : ∀ j, s.slot a = some (t, j) → j < level
  · rwa [live_congr h.frame.currentwhite (h.closes.other a hlow)]
  · push Not at hlow
    obtain ⟨j, hj, hle⟩ := hlow
    obtain ⟨m, hm, hd⟩ := h.closes.own a j hj hle (isdead_of_live ha)
    exact live_of_view hm (by rwa [h.frame.currentwhite])

/-! ## Sweeping -/

/-- Some upvalues are taken out of the lists, and the others stay open. -/
theorem Inv.filter (h : Inv s) (hr : Ringed s') {keep : Nat → Prop}
    (hslot : ∀ a p, s'.slot a = some p ↔ s.slot a = some p ∧ keep a)
    (hsub : ∀ t, (s'.openupval t).Sublist (s.openupval t))
    (hmem : ∀ t a, a ∈ s'.openupval t ↔ a ∈ s.openupval t ∧ keep a) : Inv s' := by
  refine ⟨hr, fun t => ?_⟩
  have hl := h.listed t
  have heq : ∀ a ∈ s'.openupval t, s'.level a = s.level a := fun a ha => by
    obtain ⟨hs, hk⟩ := (hmem t a).mp ha
    obtain ⟨i, hi⟩ := (hl.mem a).mp hs
    rw [level_of_slot hi, level_of_slot ((hslot a _).mpr ⟨hi, hk⟩)]
  refine ⟨(hl.sorted.sublist (hsub t)).imp_of_mem fun ha hb hlt => ?_, fun a => ?_⟩
  · rwa [heq _ ha, heq _ hb]
  · rw [hmem, hl.mem]
    simp only [hslot, exists_and_right]

theorem sweepOpen_spec (h : Inv s) (t : Nat) :
    Inv (sweepOpen s t) ∧ Frame s (sweepOpen s t) ∧ Keeps s (sweepOpen s t) := by
  have hl := h.listed t
  obtain ⟨hring, frame, hopen, sweeps, hkept⟩ := sweepLoop_spec (l := s.openupval t) h.ring
    (fun a ha => by
      obtain ⟨i, hi⟩ := (hl.mem a).mp ha
      rw [hi]
      rfl) hl.nodup
  rw [sweepOpen]
  generalize sweepLoop (s.openupval t) s = r at hring frame hopen sweeps hkept
  obtain ⟨kept, s1⟩ := r
  obtain rfl : kept = (s.openupval t).filter fun a => !s.isdead a := hkept
  show Inv (s1.setOpen t _) ∧ Frame s (s1.setOpen t _) ∧ Keeps s (s1.setOpen t _)
  -- only the dead upvalues of the list are gone
  have hdead : ∀ a ∈ s.openupval t, s.isdead a = true → s1.slot a = none := fun a ha hd => by
    rw [State.slot_eq_view, sweeps.dead a ha hd]
    rfl
  have hlive : ∀ a ∈ s.openupval t, s.isdead a = false → s1.slot a = s.slot a := fun a ha hd => by
    rw [State.slot_eq_view, sweeps.live a ha hd, State.slot_eq_view]
    cases s.view a <;> rfl
  have hslot : ∀ a p, s1.slot a = some p ↔
      s.slot a = some p ∧ ¬ (a ∈ s.openupval t ∧ s.isdead a = true) := by
    intro a p
    by_cases ha : a ∈ s.openupval t
    · cases hd : s.isdead a with
      | true => simp [hdead a ha hd, ha]
      | false => simp [hlive a ha hd]
    · rw [slot_of_view_eq (sweeps.other a ha)]
      simp [ha]
  refine ⟨?_, ⟨frame.stack, frame.currentwhite, frame.closures⟩, fun a ha => ?_⟩
  · have ring : Ringed (s1.setOpen t ((s.openupval t).filter fun a => !s.isdead a)) :=
      hring.congr (fun _ => rfl) (fun _ _ => rfl) fun _ _ => rfl
    refine h.filter ring hslot (fun t' => ?_) fun t' a => ?_
    · rw [State.openupval_setOpen, hopen]
      by_cases ht : t' = t
      · rw [ht, Function.update_self]
        exact List.filter_sublist
      · rw [Function.update_of_ne ht]
    · rw [State.openupval_setOpen, hopen]
      by_cases ht : t' = t
      · subst ht
        rw [Function.update_self, List.mem_filter]
        simp +contextual
      · rw [Function.update_of_ne ht, iff_self_and]
        rintro ha ⟨ha', -⟩
        -- it would be an upvalue of two threads
        obtain ⟨i, hi⟩ := ((h.listed t').mem a).mp ha
        obtain ⟨j, hj⟩ := (hl.mem a).mp ha'
        rw [hi] at hj
        cases hj
        exact ht rfl
  · have hd := isdead_of_live ha
    by_cases hmem : a ∈ s.openupval t
    · refine ⟨?_, hlive a hmem hd⟩
      obtain ⟨i, hi⟩ := (hl.mem a).mp hmem
      obtain ⟨m, hm⟩ := view_of_slot hi
      have hv : s1.view a = some (.luaC_white s.currentwhite, .stack t i) := by
        rw [sweeps.live a hmem hd, hm]
        rfl
      refine live_of_view (s := s1.setOpen t _) hv ?_
      show (Marked.luaC_white s.currentwhite).isdead s1.currentwhite = false
      rw [frame.currentwhite]
      exact Marked.isdead_luaC_white _
    · have hv := sweeps.other a hmem
      have hlive : s1.live a = s.live a := live_congr frame.currentwhite hv
      exact ⟨hlive.trans ha, slot_of_view_eq hv⟩

/-- The sweep of a closed upvalue leaves the open ones alone. -/
theorem sweepClosed_spec (h : Inv s) (ha : s.slot a = none) :
    Inv (sweepClosed s a) ∧ Frame s (sweepClosed s a) ∧ Keeps s (sweepClosed s a) := by
  rw [sweepClosed]
  cases hd : s.isdead a with
  | true =>
    have hfree : luaF_freeupval { s with rootgc := s.rootgc.erase a } a =
        ({ s with rootgc := s.rootgc.erase a } : State V).setHeap a none := by
      rw [luaF_freeupval, if_neg]
      show ¬ (s.slot a).isSome = true
      simp [ha]
    simp only [if_true]
    rw [hfree]
    have hview : ∀ b ≠ a, (({ s with rootgc := s.rootgc.erase a } : State V).setHeap a none).view b =
        s.view b := fun b hb => by
      rw [State.view_setHeap, if_neg hb]
      rfl
    have hslot : ∀ b, (({ s with rootgc := s.rootgc.erase a } : State V).setHeap a none).slot b =
        s.slot b := fun b => by
      by_cases hb : b = a
      · rw [hb, ha, State.slot_eq_view, State.view_setHeap, if_pos rfl]
        rfl
      · exact slot_of_view_eq (hview b hb)
    have hnode : ∀ n, s.IsNode n → n ≠ .uv a := by
      rintro n hn rfl
      rw [State.IsNode, ha] at hn
      cases hn
    refine ⟨⟨h.ring.congr (fun b => by rw [hslot])
      (fun n hn => State.nextOf_setHeap_of_ne _ _ (hnode n hn))
      fun n hn => State.prevOf_setHeap_of_ne _ _ (hnode n hn), fun t => (h.listed t).congr hslot⟩,
      ⟨rfl, rfl, rfl⟩, .of_view rfl fun b hb => hview b ?_⟩
    rintro rfl
    rw [isdead_of_live hb] at hd
    cases hd
  | false =>
    obtain ⟨frame, hopen, hview, -⟩ := mark_spec s a (Marked.makewhite s.currentwhite)
    have hslot := slot_mark s a (f := Marked.makewhite s.currentwhite)
    refine ⟨⟨h.ring.mark a _, fun t => (h.listed t).congr hslot⟩, frame, fun b hb => ⟨?_, hslot b⟩⟩
    by_cases hba : b = a
    · subst hba
      cases hv : s.view b with
      | none => simp [State.live, State.marked_eq_view, hv] at hb
      | some p =>
        refine live_of_view ((hview b).trans (by rw [if_pos rfl, hv]; rfl)) ?_
        exact Marked.isdead_makewhite _ _
    · have hlive : (s.mark a (Marked.makewhite s.currentwhite)).live b = s.live b :=
        live_congr rfl ((hview b).trans (if_neg hba))
      exact hlive.trans hb

/-! ## Captures -/

theorem Found.keeps {t level new : Nat} (h : Found s t level new a s') : Keeps s s' := by
  refine .of_view h.frame.currentwhite fun b hb => ?_
  by_cases hba : b = a
  · rw [hba]
    exact h.same (hba ▸ hb)
  · exact h.other b hba

/-- What the loop of `OP_CLOSURE` makes of its pseudo-instructions, and what it changes. -/
structure Captured (s : State V) (t base : Nat) (cl : List Nat) (code : List Capture)
    (ncl : List Nat) (s' : State V) : Prop where
  inv : Inv s'
  frame : Frame s s'
  keeps : Keeps s s'
  /-- An upvalue of the closure is one of the enclosing function, or that of a slot. -/
  upvals : List.Forall₂ (fun c a => match c with
    | .GETUPVAL b => cl[b]? = some a
    | .MOVE b _ => s'.slot a = some (t, base + b) ∧ s'.live a = true) code ncl

theorem captureLoop_spec {t base : Nat} {cl ncl : List Nat} {code : List Capture} (h : Inv s)
    (hres : captureLoop t base cl code s = some (ncl, s')) :
    Captured s t base cl code ncl s' := by
  induction code generalizing s ncl with
  | nil =>
    cases hres
    exact ⟨h, .refl _, .refl _, .nil⟩
  | cons c rest ih =>
    cases c with
    | GETUPVAL b =>
      rw [captureLoop] at hres
      obtain ⟨a, ha, hres⟩ := Option.bind_eq_some_iff.mp hres
      obtain ⟨⟨ncl, s1⟩, hrest, heq⟩ := Option.bind_eq_some_iff.mp hres
      cases heq
      obtain ⟨hinv, frame, keeps, upvals⟩ := ih h hrest
      exact ⟨hinv, frame, keeps, .cons ha upvals⟩
    | MOVE b new =>
      rw [captureLoop] at hres
      obtain ⟨u, hguard, hres⟩ := Option.bind_eq_some_iff.mp hres
      have hnew : s.heap new = none := by
        cases hheap : s.heap new with
        | none => rfl
        | some uv =>
          rw [hheap] at hguard
          cases hguard
      obtain ⟨⟨ncl, s1⟩, hrest, heq⟩ := Option.bind_eq_some_iff.mp hres
      cases heq
      have found := luaF_findupval_spec t (base + b) h hnew
      obtain ⟨hinv, frame, keeps, upvals⟩ := ih found.inv hrest
      have hlive := live_of_slot found.slot found.alive
      obtain ⟨hlive', hslot'⟩ := keeps _ hlive
      exact ⟨hinv, found.frame.trans frame, found.keeps.trans keeps,
        .cons ⟨hslot'.trans found.slot, hlive'⟩ upvals⟩

theorem Captured.live {t base : Nat} {cl ncl : List Nat} {code : List Capture}
    (h : Captured s t base cl code ncl s') (hcl : ∀ a ∈ cl, s.live a = true) :
    ∀ a ∈ ncl, s'.live a = true := by
  obtain ⟨-, -, keeps, upvals⟩ := h
  induction upvals with
  | nil => exact fun a ha => absurd ha List.not_mem_nil
  | @cons c b _ _ hb _ ih =>
    intro a ha
    rcases List.mem_cons.mp ha with rfl | ha
    · cases c with
      | GETUPVAL k => exact (keeps a (hcl a (List.mem_of_getElem? hb))).1
      | MOVE k new => exact hb.2
    · exact ih a ha

/-! ## Assignments -/

theorem Inv.congr_heap (h : Inv s) (hheap : s'.heap = s.heap) (hopen : s'.openupval = s.openupval)
    (hnext : s'.headNext = s.headNext) (hprev : s'.headPrev = s.headPrev) : Inv s' := by
  have hslot : ∀ a, s'.slot a = s.slot a := fun a => by rw [State.slot, hheap, State.slot]
  refine ⟨h.ring.congr (fun a => by rw [hslot]) (fun n _ => ?_) fun n _ => ?_, fun t => ?_⟩
  · cases n with
    | uvhead => exact hnext
    | uv a => rw [State.nextOf, hheap, State.nextOf]
  · cases n with
    | uvhead => exact hprev
    | uv a => rw [State.prevOf, hheap, State.prevOf]
  · rw [hopen]
    exact (h.listed t).congr hslot

theorem setStack_spec (h : Inv s) (t i : Nat) (v : V) :
    Inv (s.setStack t i v) ∧ Keeps s (s.setStack t i v) :=
  ⟨h.congr_heap rfl rfl rfl rfl, fun _ ha => ⟨ha, rfl⟩⟩

/-- A variable that has been captured is the value of its upvalue. -/
theorem value_setStack {t i : Nat} (ha : s.slot a = some (t, i)) (v : V) :
    (s.setStack t i v).value a = some v := by
  unfold State.slot at ha
  unfold State.value State.setStack
  split at ha
  · next heq =>
    cases ha
    simp [heq]
  · cases ha

/-- What an assignment through an upvalue does: every closure that has it sees the new value, and so
does the function whose variable it is. -/
structure Assigned (s : State V) (a : Nat) (v : V) (s' : State V) : Prop where
  inv : Inv s'
  keeps : Keeps s s'
  closures : s'.closures = s.closures
  value : s.heap a ≠ none → s'.value a = some v
  stack : ∀ t i, s'.stack t i = if s.slot a = some (t, i) then v else s.stack t i
  other : ∀ b ≠ a, s'.value b = s.value b

theorem setValue_spec (h : Inv s) (a : Nat) (v : V) : Assigned s a v (s.setValue a v) := by
  cases hh : s.heap a with
  | none =>
    have hres : s.setValue a v = s := by rw [State.setValue, hh]
    have hslot : s.slot a = none := by rw [State.slot, hh]
    rw [hres]
    exact ⟨h, .refl s, rfl, fun hn => absurd hh hn, fun t i => by simp [hslot], fun _ _ => rfl⟩
  | some uv =>
    obtain ⟨m, _ | w⟩ := uv
    case stack t level prev next =>
      have hres : s.setValue a v = s.setStack t level v := by rw [State.setValue, hh]
      have hslot : s.slot a = some (t, level) := by rw [State.slot, hh]
      rw [hres]
      refine ⟨(setStack_spec h t level v).1, (setStack_spec h t level v).2, rfl,
        fun _ => value_setStack hslot v, fun t' i => ?_, fun b hb => ?_⟩
      · rw [hslot, State.setStack]
        simp only [Function.update_apply, Option.some.injEq, Prod.mk.injEq]
        split_ifs <;> grind
      · unfold State.value State.setStack
        -- no other upvalue is for the same slot
        rcases hb' : s.heap b with _ | ⟨mb, _ | wb⟩
        · rfl
        · next tb lb pb nb =>
          have hbs : s.slot b = some (tb, lb) := by rw [State.slot, hb']
          have hne : ¬ (tb = t ∧ lb = level) := by
            rintro ⟨rfl, rfl⟩
            exact hb (h.unique hbs hslot)
          simp only [Function.update_apply, Option.some.injEq]
          split_ifs <;> grind
        · rfl
    case own =>
      have hres : s.setValue a v = s.setHeap a (some ⟨m, .own v⟩) := by rw [State.setValue, hh]
      have hslot : s.slot a = none := by rw [State.slot, hh]
      rw [hres]
      have hview : ∀ b, b ≠ a → (s.setHeap a (some ⟨m, .own v⟩)).view b = s.view b := fun b hb => by
        rw [State.view_setHeap, if_neg hb]
      have hself : (s.setHeap a (some ⟨m, .own v⟩)).view a = some (m, .own v) := by
        rw [State.view_setHeap, if_pos rfl]
        rfl
      have hslot' : ∀ b, (s.setHeap a (some ⟨m, .own v⟩)).slot b = s.slot b := fun b => by
        by_cases hb : b = a
        · rw [hb, hslot, State.slot_eq_view, hself]
          rfl
        · exact slot_of_view_eq (hview b hb)
      have hnode : ∀ n, s.IsNode n → n ≠ .uv a := by
        rintro n hn rfl
        rw [State.IsNode, hslot] at hn
        cases hn
      refine ⟨⟨h.ring.congr (fun b => by rw [hslot'])
        (fun n hn => State.nextOf_setHeap_of_ne _ _ (hnode n hn))
        fun n hn => State.prevOf_setHeap_of_ne _ _ (hnode n hn), fun t => (h.listed t).congr hslot'⟩,
        fun b hb => ⟨?_, hslot' b⟩, rfl, fun _ => ?_, fun t i => by simp [hslot, State.setHeap],
        fun b hb => ?_⟩
      · by_cases hba : b = a
        · subst hba
          refine live_of_view hself ?_
          show m.isdead s.currentwhite = false
          simpa [State.live, State.marked, hh] using hb
        · have hlive : (s.setHeap a (some ⟨m, .own v⟩)).live b = s.live b :=
            live_congr rfl (hview b hba)
          exact hlive.trans hb
      · simp [State.value, State.setHeap]
      · simp [State.value, State.setHeap, hb]

/-! ## The collector -/

theorem recolour_spec (h : Inv s) (f : Nat → Marked → Marked) (w : White) (g : GCState) :
    Inv (s.recolour f w g) ∧ ∀ a, (s.recolour f w g).slot a = s.slot a := by
  have hslot : ∀ a, (s.recolour f w g).slot a = s.slot a := fun a => by
    simp only [State.slot, State.recolour]
    rcases s.heap a with _ | ⟨m, _ | _⟩ <;> rfl
  refine ⟨⟨h.ring.congr (fun a => by rw [hslot]) (fun n _ => ?_) fun n _ => ?_,
    fun t => (h.listed t).congr hslot⟩, hslot⟩
  · cases n with
    | uvhead => rfl
    | uv a =>
      simp only [State.nextOf, State.recolour]
      rcases s.heap a with _ | ⟨m, _ | _⟩ <;> rfl
  · cases n with
    | uvhead => rfl
    | uv a =>
      simp only [State.prevOf, State.recolour]
      rcases s.heap a with _ | ⟨m, _ | _⟩ <;> rfl

/-! ## Runs -/

/-- The invariant of a run. -/
structure Held (s : State V) : Prop where
  inv : Inv s
  /-- What a closure has captured is not freed. -/
  alive : ∀ cl ∈ s.closures, ∀ a ∈ cl, s.live a = true

theorem held_lua_newstate (stack : Nat → Nat → V) : Held (lua_newstate stack) := by
  refine ⟨⟨⟨[], ?_, fun n => ?_⟩, fun t => ⟨.nil, fun a => ?_⟩⟩, fun cl hcl => ?_⟩
  · exact ⟨List.nodup_singleton _, .cons_cons ⟨rfl, rfl⟩ (.singleton _)⟩
  · simp [State.slot, lua_newstate]
  · simp [State.slot, lua_newstate]
  · exact absurd hcl List.not_mem_nil

/-- What one step keeps: the invariant, the closures that are not forgotten, and the slots of what
they have captured until these slots are closed. -/
structure Steps (s : State V) (op : Op V) (s' : State V) : Prop where
  held : Held s'
  closures : ∀ cl ∈ s.closures, op ≠ .forget cl → cl ∈ s'.closures
  slots : ∀ cl ∈ s.closures, ∀ a ∈ cl, ∀ t i, s.slot a = some (t, i) →
    (∀ level ≤ i, op ≠ .close t level) → s'.slot a = some (t, i)

theorem Steps.of_keeps {op : Op V} (h : Held s) (hinv : Inv s') (keeps : Keeps s s')
    (hcl : s'.closures = s.closures) : Steps s op s' := by
  refine ⟨⟨hinv, fun cl hmem a ha => ?_⟩, fun cl hmem _ => hcl ▸ hmem, fun cl hmem a ha t i hs _ => ?_⟩
  · rw [hcl] at hmem
    exact (keeps a (h.alive cl hmem a ha)).1
  · rw [(keeps a (h.alive cl hmem a ha)).2, hs]

theorem step_spec {op : Op V} (h : Held s) (hstep : step s op = some s') : Steps s op s' := by
  cases op with
  | findupval t level new =>
    obtain ⟨hnew, rfl⟩ : s.heap new = none ∧ (luaF_findupval s t level new).2 = s' := by
      simpa [step] using hstep
    have found := luaF_findupval_spec t level h.inv hnew
    exact .of_keeps h found.inv found.keeps found.frame.closures
  | close t level =>
    cases hstep
    have closed := luaF_close_spec t level h.inv
    refine ⟨⟨closed.inv, fun cl hmem a ha => ?_⟩, fun cl hmem _ => ?_, fun cl hmem a ha t' i hs hop => ?_⟩
    · rw [closed.frame.closures] at hmem
      exact closed.live (h.alive cl hmem a ha)
    · rwa [closed.frame.closures]
    · rw [slot_of_view_eq (closed.closes.other a fun j hj => ?_), hs]
      rw [hs] at hj
      cases hj
      by_contra hle
      exact hop level (by omega) rfl
  | closure t base cl code =>
    obtain ⟨hcl, ncl, s1, hres, rfl⟩ : (cl = [] ∨ cl ∈ s.closures) ∧ ∃ ncl s1,
        captureLoop t base cl code s = some (ncl, s1) ∧
          { s1 with closures := ncl :: s1.closures } = s' := by
      simpa [step] using hstep
    have captured := captureLoop_spec h.inv hres
    have hinv : Inv { s1 with closures := ncl :: s1.closures } :=
      captured.inv.congr_heap rfl rfl rfl rfl
    refine ⟨⟨hinv, fun c hmem a ha => ?_⟩, fun c hmem _ => ?_, fun c hmem a ha t' i hs _ => ?_⟩
    · rcases List.mem_cons.mp hmem with rfl | hmem
      · refine captured.live (fun b hb => ?_) a ha
        rcases hcl with rfl | hcl
        · exact absurd hb List.not_mem_nil
        · exact h.alive cl hcl b hb
      · rw [captured.frame.closures] at hmem
        exact (captured.keeps a (h.alive c hmem a ha)).1
    · rw [← captured.frame.closures] at hmem
      exact List.mem_cons_of_mem _ hmem
    · exact (captured.keeps a (h.alive c hmem a ha)).2.trans hs
  | setStack t i v =>
    cases hstep
    obtain ⟨hinv, keeps⟩ := setStack_spec h.inv t i v
    exact .of_keeps h hinv keeps rfl
  | setUpval a v =>
    obtain ⟨-, rfl⟩ : (∃ cl ∈ s.closures, a ∈ cl) ∧ s.setValue a v = s' := by
      simpa [step] using hstep
    have assigned := setValue_spec h.inv a v
    exact .of_keeps h assigned.inv assigned.keeps assigned.closures
  | sweep t =>
    cases hstep
    obtain ⟨hinv, frame, keeps⟩ := sweepOpen_spec h.inv t
    exact .of_keeps h hinv keeps frame.closures
  | sweepClosed a =>
    obtain ⟨ha, rfl⟩ : s.slot a = none ∧ sweepClosed s a = s' := by simpa [step] using hstep
    obtain ⟨hinv, frame, keeps⟩ := sweepClosed_spec h.inv ha
    exact .of_keeps h hinv keeps frame.closures
  | recolour f w g =>
    obtain ⟨hlive, rfl⟩ : (∀ cl ∈ (s.recolour f w g).closures, ∀ a ∈ cl,
        (s.recolour f w g).live a = true) ∧ s.recolour f w g = s' := by
      simpa only [step, Option.ite_none_right_eq_some, Option.some.injEq] using hstep
    obtain ⟨hinv, hslot⟩ := recolour_spec h.inv f w g
    exact ⟨⟨hinv, hlive⟩, fun cl hmem _ => hmem, fun cl hmem a ha t i hs _ => (hslot a).trans hs⟩
  | forget cl =>
    cases hstep
    refine ⟨⟨h.inv.congr_heap rfl rfl rfl rfl, fun c hmem a ha => ?_⟩, fun c hmem hop => ?_,
      fun c hmem a ha t i hs _ => hs⟩
    · exact h.alive c (List.mem_of_mem_erase hmem) a ha
    · have hne : c ≠ cl := fun he => hop (he ▸ rfl)
      exact (List.mem_erase_of_ne hne).mpr hmem

theorem run_held {ops : List (Op V)} (h : Held s) (hrun : run s ops = some s') : Held s' := by
  induction ops generalizing s with
  | nil =>
    cases hrun
    exact h
  | cons op ops ih =>
    obtain ⟨s1, hstep, hrest⟩ := Option.bind_eq_some_iff.mp hrun
    exact ih (step_spec h hstep).held hrest

/-- What a closure has captured stays in its slot during a run that does not close the slot. -/
theorem run_slot {ops : List (Op V)} {cl : List Nat} {t i : Nat} (h : Held s)
    (hrun : run s ops = some s') (hcl : cl ∈ s.closures) (ha : a ∈ cl)
    (hs : s.slot a = some (t, i)) (hclose : ∀ level ≤ i, .close t level ∉ ops)
    (hforget : .forget cl ∉ ops) : s'.slot a = some (t, i) := by
  induction ops generalizing s with
  | nil =>
    cases hrun
    exact hs
  | cons op ops ih =>
    obtain ⟨s1, hstep, hrest⟩ := Option.bind_eq_some_iff.mp hrun
    have steps := step_spec h hstep
    have hop : ∀ level ≤ i, op ≠ .close t level := fun level hle he =>
      hclose level hle (he ▸ List.mem_cons_self)
    have hcl1 := steps.closures cl hcl fun he => hforget (he ▸ List.mem_cons_self)
    exact ih steps.held hrest hcl1 (steps.slots cl hcl a ha t i hs hop)
      (fun level hle hmem => hclose level hle (List.mem_cons_of_mem op hmem))
      fun hmem => hforget (List.mem_cons_of_mem op hmem)

/-- In every state that a run reaches, the lists are as they should be, and every operation does
what it is for. -/
theorem upvalues_of_run {stack : Nat → Nat → V} {ops : List (Op V)}
    (hrun : run (lua_newstate stack) ops = some s) :
    Ringed s ∧ (∀ t, Listed s t (s.openupval t)) ∧
    (∀ a b p, s.slot a = some p → s.slot b = some p → a = b) ∧
    (∀ t level new, s.heap new = none →
      Found s t level new (luaF_findupval s t level new).1 (luaF_findupval s t level new).2) ∧
    (∀ t level, Closed s t level (luaF_close s t level)) ∧
    (∀ t base cl code ncl s', captureLoop t base cl code s = some (ncl, s') →
      Captured s t base cl code ncl s') ∧
    (∀ t i v, Inv (s.setStack t i v) ∧
      ∀ a, s.slot a = some (t, i) → (s.setStack t i v).value a = some v) ∧
    (∀ a v, Assigned s a v (s.setValue a v)) ∧
    (∀ t, Inv (sweepOpen s t) ∧ Frame s (sweepOpen s t) ∧ Keeps s (sweepOpen s t)) ∧
    ∀ cl ∈ s.closures, ∀ a ∈ cl, s.live a = true ∧
      -- until the slot is closed, whoever captures it gets the same upvalue
      ∀ t i, s.slot a = some (t, i) → ∀ ops' s', run s ops' = some s' →
        (∀ level ≤ i, .close t level ∉ ops') → .forget cl ∉ ops' →
        s'.slot a = some (t, i) ∧ ∀ new, s'.heap new = none → (luaF_findupval s' t i new).1 = a := by
  have held := run_held (held_lua_newstate stack) hrun
  have hinv := held.inv
  refine ⟨hinv.ring, hinv.listed, fun a b p ha hb => hinv.unique ha hb,
    fun t level new => luaF_findupval_spec t level hinv, fun t level => luaF_close_spec t level hinv,
    fun t base cl code ncl s' => captureLoop_spec hinv,
    fun t i v => ⟨(setStack_spec hinv t i v).1, fun a ha => value_setStack ha v⟩,
    setValue_spec hinv, sweepOpen_spec hinv, fun cl hcl a ha => ⟨held.alive cl hcl a ha, ?_⟩⟩
  intro t i hs ops' s' hrun' hclose hforget
  have hs' := run_slot held hrun' hcl ha hs hclose hforget
  have held' := run_held held hrun'
  exact ⟨hs', fun new hnew => ((luaF_findupval_spec t i held'.inv hnew).shared a hs').1⟩

/-- Two closures that capture the same variable. -/
theorem upvalues_of_run_two_closures :
    ∃ s, run (lua_newstate fun _ i => i)
        [.closure 0 0 [] [.MOVE 2 7, .MOVE 4 8], .closure 0 0 [] [.MOVE 2 9]] = some s ∧
      s.closures = [[7], [7, 8]] ∧ s.openupval 0 = [8, 7] ∧ Ringed s := by
  have hrun : run (lua_newstate fun _ i => i)
      [.closure 0 0 [] [.MOVE 2 7, .MOVE 4 8], .closure 0 0 [] [.MOVE 2 9]] = some _ := rfl
  exact ⟨_, hrun, rfl, rfl, (upvalues_of_run hrun).1⟩

/-- The upvalue of a closure that is no longer used is dead after the mark phase, and is not closed
but freed. -/
theorem dead_upvalue_not_closed :
    ∃ s, run (lua_newstate fun _ i => i)
        [.closure 0 0 [] [.MOVE 3 7], .forget [7],
          .recolour (fun _ m => m) .white1 .GCSsweepstring] = some s ∧
      s.openupval 0 = [7] ∧ s.slot 7 = some (0, 3) ∧ (luaF_close s 0 3).value 7 = none :=
  ⟨_, rfl, rfl, rfl, rfl⟩

end Luaxx.Gc
