import Luaxx.Collector.Making

/-!
# Finalizers and the steps of the collector

Every step of the collector keeps the invariant.
-/

namespace Luaxx.Collector

open Luaxx.Gc (White GCState)

variable {s s' : State} {o p r : Ref} {v : Val}

/-! ## The tag methods of an object -/

theorem luaH_getstr_refs {t : Table} {key : Nat} (ho : o ∈ (luaH_getstr t key).ref) : o ∈ t.refs := by
  unfold luaH_getstr at ho
  cases hfind : t.node.find? fun n => !n.dead && n.key = .string key && n.val ≠ .nil with
  | none =>
    rw [hfind] at ho
    cases ho
  | some n =>
    rw [hfind] at ho
    have hn := List.find?_some hfind
    simp only [Bool.and_eq_true, decide_eq_true_eq] at hn
    exact Table.mem_refs.mpr (Or.inr (Or.inr ⟨n, List.mem_of_find?_eq_some hfind, by simpa using hn.2,
      Or.inr ho⟩))

theorem Kept.fasttm (h : Kept s) {mt : Option Nat} {event : Nat}
    (hmt : ∀ m ∈ mt, Safe s (.table m)) (ho : o ∈ (fasttm s mt event).ref) : Safe s o := by
  cases mt with
  | none => cases ho
  | some m => exact h.refs _ (hmt m rfl) o (luaH_getstr_refs ho)

/-! ## A finalizer is called -/

/-- A userdata that waits for its finalizer is white. -/
theorem Inv.udata_survives (h : Inv s) {u : Nat} (hu : u ∈ s.tmudata) : survives s (.udata u) = true := by
  have hsafe := h.kept.root (.udata u) (Or.inr (Or.inr (Or.inr (Or.inr (Or.inl ⟨u, hu, rfl⟩)))))
  unfold survives
  rcases hsafe.2 with hd | hf
  · simp [hd]
  · simp [hf]

/-- The userdata is in the list of all objects again. -/
theorem relink_inv {u : Nat} {tmudata : List Nat} {rootgc sweepgc : List Ref} (h : Inv s)
    (hstate : s.gcstate = .GCSfinalize) (htm : s.tmudata = u :: tmudata)
    (hcolour : s.marked (.udata u) = some (.white s.currentwhite))
    (hperm : (rootgc ++ sweepgc).Perm (.udata u :: (s.rootgc ++ s.sweepgc))) :
    Inv { s with tmudata := tmudata, rootgc := rootgc, sweepgc := sweepgc } := by
  have hobjects : (State.objects { s with tmudata := tmudata, rootgc := rootgc, sweepgc := sweepgc }).Perm
      s.objects := by
    rw [List.perm_iff_count]
    intro r
    have hcount := hperm.count_eq r
    simp only [State.objects, htm, List.map_cons, List.count_append, List.count_cons] at hcount ⊢
    omega
  have hns : ¬ s.Sweeping := by simp [State.Sweeping, hstate]
  refine ⟨⟨fun o ho => h.kept.root o ?_, fun o ho o' ho' => h.kept.refs o ho o' (by cases o <;> exact ho'),
    h.kept.fixed⟩, ⟨hobjects.nodup_iff.mpr h.listed.nodup, fun r => ?_, fun a ha => ?_, fun a ha => ?_⟩,
    ⟨h.opened.uvhead, h.opened.openupval, h.opened.nodup, h.opened.black⟩, fun hne r c hc => ?_,
    fun hp => ?_⟩
  · rcases ho with ho | ho | ho | ho | ⟨u', hu', rfl⟩ | ho
    · exact Or.inl ho
    · exact Or.inr (Or.inl ho)
    · exact Or.inr (Or.inr (Or.inl ho))
    · exact Or.inr (Or.inr (Or.inr (Or.inl ho)))
    · exact Or.inr (Or.inr (Or.inr (Or.inr (Or.inl ⟨u', by rw [htm]; exact List.mem_cons_of_mem _ hu', rfl⟩))))
    · exact Or.inr (Or.inr (Or.inr (Or.inr (Or.inr ho))))
  · rw [hobjects.mem_iff]
    exact h.listed.mem r
  · rcases List.mem_cons.mp (hperm.mem_iff.mp ha) with heq | ha
    · cases heq
    · exact h.listed.string a ha
  · rcases List.mem_cons.mp (hperm.mem_iff.mp ha) with heq | ha
    · cases heq
    · exact h.listed.closed a ha
  · rcases h.swept hne r c hc with hwhite | hu | ⟨u', hu', rfl⟩
    · exact Or.inl hwhite
    · exact absurd hu (Swept.not_unswept hns)
    · rw [htm] at hu'
      rcases List.mem_cons.mp hu' with rfl | hu'
      · have hc : s.marked (.udata u') = some c := hc
        rw [hcolour] at hc
        exact Or.inl (Option.some.inj hc).symm
      · exact Or.inr (Or.inr ⟨u', hu', rfl⟩)
  · have hp : s.gcstate = .GCSpropagate := hp
    rw [hstate] at hp
    cases hp

/-- The first lines of `GCTM`. -/
def returnudata (u : Nat) (tmudata : List Nat) (s : State) : State :=
  (linkudata u { s with tmudata := tmudata }).makewhite (.udata u)

theorem returnudata_spec {u : Nat} {tmudata : List Nat} (h : Inv s) (hstate : s.gcstate = .GCSfinalize)
    (htm : s.tmudata = u :: tmudata) :
    Inv (returnudata u tmudata s) ∧ Safe (returnudata u tmudata s) (.udata u) ∧
      ∃ rootgc sweepgc, returnudata u tmudata s = { s.makewhite (.udata u) with
        tmudata := tmudata, rootgc := rootgc, sweepgc := sweepgc } := by
  have hu : u ∈ s.tmudata := by rw [htm]; exact List.mem_cons_self
  have hsafe := h.kept.root (.udata u) (Or.inr (Or.inr (Or.inr (Or.inr (Or.inl ⟨u, hu, rfl⟩)))))
  have hwhite := h.makewhite (by rw [hstate]; simp) (h.udata_survives hu)
  obtain ⟨rootgc, sweepgc, heq, hperm, -⟩ := @linkudata_spec { s with tmudata := tmudata } u
    h.listed.nodup_roots h.mainthread_mem
  have hreturn : returnudata u tmudata s = { s.makewhite (.udata u) with
      tmudata := tmudata, rootgc := rootgc, sweepgc := sweepgc } := by
    unfold returnudata
    rw [heq]
    rfl
  have hcolour : (s.makewhite (.udata u)).marked (.udata u) = some (.white s.currentwhite) := by
    obtain ⟨c, hc⟩ := Option.ne_none_iff_exists'.mp hsafe.1
    unfold State.makewhite
    rw [marked_recolour_self, hc]
    rfl
  refine ⟨?_, ?_, rootgc, sweepgc, hreturn⟩
  · rw [hreturn]
    exact relink_inv hwhite hstate htm hcolour hperm
  · rw [hreturn]
    refine ⟨by rw [hcolour]; simp, Or.inl (State.isdead_eq_false.mpr ?_)⟩
    show (s.makewhite (.udata u)).marked (.udata u) ≠ some (.white s.currentwhite.other)
    rw [hcolour]
    simpa using (White.other_ne s.currentwhite).symm

theorem GCTM_eq {u : Nat} {tmudata : List Nat} (htm : s.tmudata = u :: tmudata) :
    GCTM s =
      let s := returnudata u tmudata s
      match fasttm s (s.udata u).metatable s.tm_gc with
      | .nil => s
      | tm =>
        let top := (s.thread s.L).top
        settop s.L (top + 2) (setstack s.L (top + 1) (.udata u) (setstack s.L top tm s)) := by
  unfold GCTM
  rw [htm]
  rfl

theorem GCTM_inv (h : Inv s) (hstate : s.gcstate = .GCSfinalize) (htm : s.tmudata ≠ []) :
    Inv (GCTM s) := by
  obtain ⟨u, tmudata, htm⟩ := List.exists_cons_of_ne_nil htm
  rw [GCTM_eq htm]
  obtain ⟨hinv, hu, -⟩ := returnudata_spec h hstate htm
  generalize returnudata u tmudata s = s₁ at hinv hu
  have hmt (m : Nat) (hm : m ∈ (s₁.udata u).metatable) : Safe s₁ (.table m) :=
    hinv.kept.refs _ hu _ (Udata.mem_refs.mpr (Or.inl ⟨m, hm, rfl⟩))
  have htm (o : Ref) (ho : o ∈ (fasttm s₁ (s₁.udata u).metatable s₁.tm_gc).ref) : Safe s₁ o :=
    hinv.kept.fasttm hmt ho
  dsimp only
  split
  · exact hinv
  · refine settop_inv (setstack_inv (setstack_inv hinv htm) fun o ho => ?_)
    obtain rfl := Option.mem_some.mp ho
    exact hu

/-! ## One step of the collector -/

theorem pause_inv (h : Inv s) (hstate : s.gcstate = .GCSfinalize) :
    Inv { s with gcstate := .GCSpause } := by
  refine h.setstate (by rw [hstate]; simp) (by simp) fun r _ hu => ?_
  exact absurd hu (Swept.not_unswept (by simp [State.Sweeping, hstate]))

theorem singlestep_inv (h : Inv s) : Inv (singlestep s) := by
  unfold singlestep
  cases hstate : s.gcstate with
  | GCSpause => exact markroot_inv h (Or.inl hstate)
  | GCSpropagate =>
    dsimp only
    split
    · exact atomic_inv h hstate
    · exact propagatemark_inv h hstate
  | GCSsweepstring => exact sweepstring_inv h hstate
  | GCSsweep => exact sweep_inv h hstate
  | GCSfinalize =>
    dsimp only
    split
    · exact pause_inv h hstate
    · rename_i htm
      exact GCTM_inv h hstate (by simpa using htm)

/-! ## One step of the program or of the collector -/

theorem safe_of_white (hr : s.marked r = some (.white s.currentwhite)) : Safe s r := by
  refine ⟨by rw [hr]; simp, Or.inl (State.isdead_eq_false.mpr ?_)⟩
  rw [hr]
  simpa using (White.other_ne s.currentwhite).symm

theorem safe_luaC_link (o : Ref) (s : State) : Safe (luaC_link o s) o := by
  obtain ⟨rootgc, sweepgc, heq, -⟩ := linkroot_spec o s
  refine safe_of_white ?_
  have hcurrent : (luaC_link o s).currentwhite = s.currentwhite := by
    unfold luaC_link
    rw [heq]
  rw [hcurrent]
  exact Function.update_self ..

theorem safe_luaS_newudata (u env : Nat) (s : State) : Safe (luaS_newudata u env s) (.udata u) := by
  refine safe_of_white ?_
  unfold luaS_newudata linkudata
  dsimp only
  split <;> exact Function.update_self ..

theorem safe_foundstr {a : Nat} (ha : s.marked (.string a) ≠ none) :
    Safe (foundstr a s) (.string a) := by
  unfold foundstr
  split
  · rename_i hdead
    rw [recolour_changewhite hdead]
    refine safe_of_white ?_
    obtain ⟨c, hc⟩ := Option.ne_none_iff_exists'.mp ha
    unfold State.makewhite
    rw [marked_recolour_self, hc]
    rfl
  · rename_i hdead
    exact ⟨ha, Or.inl (Bool.eq_false_iff.mpr hdead)⟩

/-- What is kept can be put on a stack. -/
theorem Inv.push {t slot : Nat} (h : Inv s) (hv : v.ref = some o) (ho : Safe s o) :
    Inv (setstack t slot v s) := by
  refine setstack_inv h fun x hx => ?_
  rw [hv] at hx
  exact Option.mem_some.mp hx ▸ ho

theorem step_inv {e : Event} (h : Inv s) (hstep : Step s e s') : Inv s' := by
  cases hstep with
  | singlestep _ => exact singlestep_inv h
  | finalize _ _ => exact singlestep_inv h
  | resetsweep _ => exact resetsweep_inv h
  | markroot hstate => exact markroot_inv h (Or.inr hstate)
  | newlstr ha hc =>
    exact (newlstr_inv h ha hc).push rfl (safe_of_white (Function.update_self ..))
  | foundstr ha => exact (foundstr_inv h).push rfl (safe_foundstr ha)
  | luaS_fix ha => exact luaS_fix_inv h (h.safe ha)
  | luaS_resize hstate hperm => exact luaS_resize_inv h hstate hperm
  | luaS_newudata hu henv =>
    exact (luaS_newudata_inv h hu (h.safe henv)).push rfl (safe_luaS_newudata ..)
  | luaH_new hh => exact (luaH_new_inv h hh).push rfl (safe_luaC_link ..)
  | @newCclosure f env slot upvalue hf henv hv =>
    refine (newclosure_inv h hf fun o ho => ?_).push rfl (safe_luaC_link ..)
    rcases List.mem_cons.mp ho with rfl | ho
    · exact h.safe henv
    · obtain ⟨v, hmem, hvo⟩ := List.mem_filterMap.mp ho
      exact h.held (hv v hmem) o hvo
  | @newLclosure f env p slot upvals hf henv hp hv =>
    refine (newclosure_inv h hf fun o ho => ?_).push rfl (safe_luaC_link ..)
    rcases List.mem_cons.mp ho with rfl | ho
    · exact h.safe henv
    · rcases List.mem_cons.mp ho with rfl | ho
      · exact h.safe hp
      · obtain ⟨a, ha, rfl⟩ := List.mem_map.mp ho
        exact ⟨(hv a ha).1, Or.inl (hv a ha).2⟩
  | luaF_newupval ha => exact luaF_newupval_inv h ha
  | newproto hf hp =>
    exact (newproto_inv h hf fun o ho => h.safe (hp o ho)).push rfl (safe_luaC_link ..)
  | luaE_newthread ht => exact (luaE_newthread_inv h ht).push rfl (safe_luaC_link ..)
  | luaF_findupval ht hnew => exact luaF_findupval_inv h (h.safe ht) hnew
  | luaF_close ht => exact luaF_close_inv h (h.safe ht).1
  | setstack ht hv => exact setstack_inv h (h.held hv)
  | settop ht => exact settop_inv h
  | truncate ht => exact truncate_inv h
  | switch ht => exact switch_inv h ht
  | setarray hh hv => exact setarray_inv h hv
  | setnode hh hn hdead hk hv => exact setnode_inv h hn hk hv
  | newkey hh hk => exact newkey_inv h hk
  | rehash hh ht => exact rehash_inv h ht
  | setmetatable hh hm => exact setmetatable_inv h hm
  | setudatamt hu hm => exact setudatamt_inv h hm
  | setmt hm => exact setmt_inv h hm
  | setudataenv hu henv => exact setudataenv_inv h henv
  | setfenv hf henv => exact setfenv_inv h henv
  | setthreadenv ht henv => exact setthreadenv_inv h henv
  | setCupvalue hf hv => exact setCupvalue_inv h hv
  | op_setupval ha hv => exact setuv_inv h hv fun hblack => hblack
  | lua_setupvalue hf ha hv hblack => exact setuv_inv h hv hblack
  | setproto hf ho hp => exact setproto_inv h ho hp

end Luaxx.Collector
