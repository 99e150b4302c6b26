import Luaxx.Collector.Program

/-!
# New objects

A new object is white, and is linked where the sweep finds it in a later cycle at the latest. Nothing
that is kept refers to an address that is free, so its first references are those that the program
stores.
-/

namespace Luaxx.Collector

open Luaxx.Gc (White GCState)

variable {s s' : State} {o p r : Ref} {v : Val}

structure Makes (o : Ref) (s s' : State) : Prop where
  eq : s' = { s with
    marked := Function.update s.marked o (some (.white s.currentwhite))
    str := s'.str, udata := s'.udata, table := s'.table, function := s'.function
    thread := s'.thread, proto := s'.proto, upval := s'.upval
    strt := s'.strt, rootgc := s'.rootgc, sweepgc := s'.sweepgc, uvhead := s'.uvhead }
  free : s.marked o = none
  refs : ∀ r, s.marked r ≠ none → s'.refs r = s.refs r
  table : ∀ h, s.marked (.table h) ≠ none → s'.table h = s.table h
  parts : ∀ x ∈ s'.refs o, Safe s x
  perm : s'.objects.Perm (o :: s.objects)
  string : ∀ a, .string a ∉ s'.rootgc ++ s'.sweepgc
  closed : ∀ a, .upval a ∈ s'.rootgc ++ s'.sweepgc → ∃ v, s'.upval a = .closed v
  uvhead : s.uvhead ⊆ s'.uvhead
  opened : Opened s'
  unswept : ∀ r, s.marked r ≠ none → Unswept s r → Unswept s' r

namespace Makes

theorem marked_of_ne (h : Makes o s s') (hr : r ≠ o) : s'.marked r = s.marked r := by
  rw [h.eq]
  exact Function.update_of_ne hr ..

theorem marked_self (h : Makes o s s') : s'.marked o = some (.white s.currentwhite) := by
  rw [h.eq]
  exact Function.update_self ..

theorem ne (h : Makes o s s') (hr : s.marked r ≠ none) : r ≠ o := by
  rintro rfl
  exact hr h.free

theorem safe (h : Makes o s s') : Safe s' r ↔ r = o ∨ Safe s r := by
  have hcurrent : s'.currentwhite = s.currentwhite := by rw [h.eq]
  have hfixed : s'.fixed = s.fixed := by rw [h.eq]
  unfold Safe State.isdead
  rw [hcurrent, hfixed]
  by_cases hr : r = o
  · subst hr
    rw [h.marked_self]
    refine iff_of_true ⟨by simp, Or.inl ?_⟩ (Or.inl rfl)
    simpa using (White.other_ne _).symm
  · rw [h.marked_of_ne hr]
    simp [hr]

theorem strong (h : Makes o s s') (hr : s.marked r ≠ none) : s'.strong r = s.strong r := by
  have hweak : s'.weak = s.weak := by rw [h.eq]
  cases r with
  | table t =>
    show (s'.table t).strong (decide (t ∈ s'.weak)) = _
    rw [h.table t hr, hweak]
    rfl
  | string a => exact h.refs (.string a) hr
  | udata u => exact h.refs (.udata u) hr
  | function f => exact h.refs (.function f) hr
  | thread t => exact h.refs (.thread t) hr
  | proto f => exact h.refs (.proto f) hr
  | upval a => exact h.refs (.upval a) hr

theorem deferred (h : Makes o s s') (hr : Deferred s r) : Deferred s' r := by
  have hagain : s'.grayagain = s.grayagain := by rw [h.eq]
  have hweak : s'.weak = s.weak := by rw [h.eq]
  have htm : s'.tmudata = s.tmudata := by rw [h.eq]
  unfold Deferred
  rw [hagain, hweak, htm]
  refine hr.imp_right (Or.imp_right (Or.imp_left ?_))
  rintro ⟨a, ha, rfl⟩
  exact ⟨a, h.uvhead ha, rfl⟩

theorem kept (h : Makes o s s') (hs : Kept s) : Kept s' := by
  refine ⟨fun x hx => ?_, fun x hx y hy => ?_, ?_⟩
  · rw [h.eq] at hx
    exact h.safe.mpr (Or.inr (hs.root x hx))
  · rcases h.safe.mp hx with rfl | hx
    · exact h.safe.mpr (Or.inr (h.parts y hy))
    · rw [h.refs x hx.1] at hy
      exact h.safe.mpr (Or.inr (hs.refs x hx y hy))
  · rw [h.eq]
    exact hs.fixed

theorem listed (h : Makes o s s') (hs : Listed s) : Listed s' := by
  refine ⟨?_, fun r => ?_, h.string, h.closed⟩
  · rw [h.perm.nodup_iff, List.nodup_cons]
    exact ⟨fun ho => (hs.mem o).mp ho h.free, hs.nodup⟩
  · rw [h.perm.mem_iff, List.mem_cons, hs.mem]
    by_cases hr : r = o
    · subst hr
      simp [h.marked_self]
    · simp [hr, h.marked_of_ne hr]

theorem linked (h : Makes o s s') (hs : Linked s) : Linked s' := by
  have hgray : s'.gray = s.gray := by rw [h.eq]
  have hgclist : s'.gclist = s.gclist := by rw [h.eq]; rfl
  have hsame {r : Ref} {c : Colour} (hc : ∀ w, c ≠ .white w) (hr : s'.marked r = some c) :
      s.marked r = some c := by
    by_cases hro : r = o
    · subst hro
      rw [h.marked_self] at hr
      exact absurd (Option.some.inj hr).symm (hc _)
    · rwa [h.marked_of_ne hro] at hr
  refine ⟨fun r hr => ?_, fun r hr => ?_, hgclist ▸ hs.nodup, fun t ht => ?_⟩
  · rw [hgray]
    exact (hs.gray r (hsame (by simp) hr)).imp_right (Or.imp_right h.deferred)
  · rw [hgclist] at hr
    obtain ⟨hmarked, hlinked⟩ := hs.listed r hr
    rw [h.marked_of_ne (h.ne (by simp [hmarked]))]
    exact ⟨hmarked, hlinked⟩
  · exact hs.black t (hsame (by simp) ht)

theorem inv (h : Makes o s s') (hs : Inv s) : Inv s' where
  kept := h.kept hs.kept
  listed := h.listed hs.listed
  opened := h.opened
  swept hstate r c hc := by
    have hcurrent : s'.currentwhite = s.currentwhite := by rw [h.eq]
    have htm : s'.tmudata = s.tmudata := by rw [h.eq]
    have hstate : s.gcstate ≠ .GCSpropagate := by rwa [h.eq] at hstate
    rw [hcurrent, htm]
    by_cases hr : r = o
    · subst hr
      rw [h.marked_self] at hc
      exact Or.inl (Option.some.inj hc).symm
    · rw [h.marked_of_ne hr] at hc
      exact (hs.swept hstate r c hc).imp_right (Or.imp_left (h.unswept r (by simp [hc])))
  propagating hstate := by
    have hstate : s.gcstate = .GCSpropagate := by rwa [h.eq] at hstate
    have hp := hs.propagating hstate
    have hgray : s'.gray = s.gray := by rw [h.eq]
    have hwhite {r : Ref} (hr : r ≠ o) : s'.iswhite r = s.iswhite r := iswhite_congr (h.marked_of_ne hr)
    have hblack {r : Ref} (hr : s'.marked r = some .black) : s.marked r = some .black := by
      by_cases hro : r = o
      · subst hro
        rw [h.marked_self] at hr
        cases hr
      · rwa [h.marked_of_ne hro] at hr
    -- what a black object must have marked is there already
    have hnew {r x : Ref} (hr : s.marked r = some .black) (hx : x ∈ s.strong r) : x ≠ o := by
      have hsafe : Safe s r := ⟨by simp [hr], Or.inl ((hs.ground hstate).dead r)⟩
      refine h.ne ?_
      cases r with
      | table t => exact hp.keyed t hr x (Table.strong_subset _ _ hx)
      | string a => exact (hs.kept.refs _ hsafe x hx).1
      | udata u => exact (hs.kept.refs _ hsafe x hx).1
      | function f => exact (hs.kept.refs _ hsafe x hx).1
      | thread t => exact (hs.kept.refs _ hsafe x hx).1
      | proto f => exact (hs.kept.refs _ hsafe x hx).1
      | upval a => exact (hs.kept.refs _ hsafe x hx).1
    refine ⟨fun r hr => ?_, h.linked hp.linked, fun t ht x hx => ?_, fun r w hw => ?_, ?_, ?_⟩
    · rcases hr with hr | hr
      · exact (h.linked hp.linked).strong_of_gray hr
      · have hr := hblack hr
        rw [hgray]
        refine (hp.tri r (Or.inr hr)).imp_right (Or.imp h.deferred fun hc x hx => ?_)
        rw [h.strong (by simp [hr])] at hx
        rw [hwhite (hnew hr hx)]
        exact hc x hx
    · have ht := hblack ht
      rw [h.table t (by simp [ht])] at hx
      have hx := hp.keyed t ht x hx
      rwa [h.marked_of_ne (h.ne hx)]
    · have hcurrent : s'.currentwhite = s.currentwhite := by rw [h.eq]
      rw [hcurrent]
      by_cases hr : r = o
      · subst hr
        rw [h.marked_self] at hw
        exact (Colour.white.inj (Option.some.inj hw)).symm
      · rw [h.marked_of_ne hr] at hw
        exact hp.white r w hw
    · have heq : s'.mainthread = s.mainthread := by rw [h.eq]
      rw [heq, hwhite (h.ne (hs.kept.root _ (Or.inl rfl)).1)]
      exact hp.mainthread
    · have heq : s'.registry = s.registry := by rw [h.eq]
      rw [heq, hwhite (h.ne (hs.kept.root _ (Or.inr (Or.inl rfl))).1)]
      exact hp.registry

end Makes

/-! ## Objects in the list of all objects -/

/-- The contents of an object that is not there yet are set. -/
structure Contents (o : Ref) (s s' : State) : Prop where
  eq : s' = { s with
    udata := s'.udata, table := s'.table, function := s'.function, thread := s'.thread
    proto := s'.proto, upval := s'.upval }
  refs : ∀ r, s.marked r ≠ none → s'.refs r = s.refs r
  table : ∀ h, s.marked (.table h) ≠ none → s'.table h = s.table h
  upval : ∀ a, s.marked (.upval a) ≠ none → s'.upval a = s.upval a
  openupval : ∀ t, s.marked (.thread t) ≠ none → (s'.thread t).openupval = (s.thread t).openupval
  /-- A new upvalue is closed, and a new thread has no upvalues. -/
  closed : ∀ a, o = .upval a → ∃ v, s'.upval a = .closed v
  unused : ∀ t, o = .thread t → (s'.thread t).openupval = []

theorem Listed.mem_uvhead (h : Listed s) {a : Nat} (ha : a ∈ s.uvhead) :
    s.marked (.upval a) ≠ none := by
  refine (h.mem _).mp ?_
  simp [State.objects, ha]

theorem Listed.mem_roots (h : Listed s) (hr : r ∈ s.rootgc ++ s.sweepgc) : s.marked r ≠ none := by
  refine (h.mem _).mp ?_
  simp only [State.objects, List.mem_append] at hr ⊢
  tauto

theorem Contents.makes {rootgc sweepgc : List Ref} (h : Contents o s s') (hs : Inv s)
    (ho : s.marked o = none) (hstring : ∀ a, o ≠ .string a)
    (hperm : (rootgc ++ sweepgc).Perm (o :: (s.rootgc ++ s.sweepgc)))
    (hsub : s.sweepgc ⊆ sweepgc) (hparts : ∀ x ∈ s'.refs o, Safe s x) :
    Makes o s { s' with
      marked := Function.update s.marked o (some (.white s.currentwhite))
      rootgc := rootgc, sweepgc := sweepgc } where
  eq := by rw [h.eq]
  free := ho
  refs r hr := by
    rw [← h.refs r hr]
    cases r <;> rfl
  table := h.table
  parts x hx := hparts x (by cases o <;> exact hx)
  perm := by
    have hobjects : State.objects { s' with
        marked := Function.update s.marked o (some (.white s.currentwhite))
        rootgc := rootgc, sweepgc := sweepgc } = s.strt.flatten.map .string ++ rootgc ++ sweepgc ++
          s.tmudata.map .udata ++ s.uvhead.map .upval := by
      rw [h.eq]
      rfl
    rw [hobjects, List.perm_iff_count]
    intro r
    have hcount := hperm.count_eq r
    simp only [State.objects, List.count_append, List.count_cons] at hcount ⊢
    omega
  string a ha := by
    rcases List.mem_cons.mp (hperm.mem_iff.mp ha) with heq | ha
    · exact hstring a heq.symm
    · exact hs.listed.string a ha
  closed a ha := by
    rcases List.mem_cons.mp (hperm.mem_iff.mp ha) with heq | ha
    · exact h.closed a heq.symm
    · obtain ⟨v, hv⟩ := hs.listed.closed a ha
      exact ⟨v, (h.upval a (hs.listed.mem_roots ha)).trans hv⟩
  uvhead := by
    show s.uvhead ⊆ s'.uvhead
    rw [h.eq]
    exact List.Subset.refl _
  opened := by
    have huvhead : s'.uvhead = s.uvhead := by rw [h.eq]
    have hmarked {r : Ref} (hr : Function.update s.marked o (some (.white s.currentwhite)) r ≠ none) :
        r = o ∨ s.marked r ≠ none := by
      by_cases hro : r = o
      · exact Or.inl hro
      · rw [Function.update_of_ne hro] at hr
        exact Or.inr hr
    have hsome {r : Ref} (hr : s.marked r ≠ none) :
        Function.update s.marked o (some (.white s.currentwhite)) r = s.marked r :=
      Function.update_of_ne (fun heq => hr (by rw [heq]; exact ho)) ..
    refine ⟨fun a ha => ?_, fun t ht a ha => ?_, fun t ht => ?_, fun a ha => ?_⟩
    · have ha : a ∈ s.uvhead := huvhead ▸ ha
      obtain ⟨t, slot, hslot, ht, hmem⟩ := hs.opened.uvhead a ha
      refine ⟨t, slot, (h.upval a (hs.listed.mem_uvhead ha)).trans hslot, ?_, ?_⟩
      · show Function.update s.marked o _ _ ≠ none
        rw [hsome ht]
        exact ht
      · show a ∈ (s'.thread t).openupval
        rw [h.openupval t ht]
        exact hmem
    · have ha : a ∈ (s'.thread t).openupval := ha
      rcases hmarked ht with heq | ht
      · rw [h.unused t heq.symm] at ha
        cases ha
      · rw [h.openupval t ht] at ha
        obtain ⟨hmem, slot, hslot⟩ := hs.opened.openupval t ht a ha
        refine ⟨?_, slot, (h.upval a (hs.listed.mem_uvhead hmem)).trans hslot⟩
        show a ∈ s'.uvhead
        rw [huvhead]
        exact hmem
    · show (s'.thread t).openupval.Nodup
      rcases hmarked ht with heq | ht
      · rw [h.unused t heq.symm]
        exact List.nodup_nil
      · rw [h.openupval t ht]
        exact hs.opened.nodup t ht
    · have ha : a ∈ s.uvhead := huvhead ▸ ha
      show Function.update s.marked o _ _ ≠ _
      rw [hsome (hs.listed.mem_uvhead ha)]
      exact hs.opened.black a ha
  unswept r hr hu := by
    have hsweeping : s'.Sweeping ↔ s.Sweeping := by rw [h.eq]; exact Iff.rfl
    cases r with
    | string a => rw [h.eq]; exact hu
    | upval a =>
      refine ⟨hsweeping.mpr hu.1, hu.2.imp (fun hmem => hsub hmem) ?_⟩
      rintro ⟨t, slot, hslot, hmem⟩
      exact ⟨t, slot, (h.upval a hr).trans hslot, hsub hmem⟩
    | udata | table | function | thread | proto => exact ⟨hsweeping.mpr hu.1, hsub hu.2⟩

theorem Contents.link (h : Contents o s s') (hs : Inv s) (ho : s.marked o = none)
    (hstring : ∀ a, o ≠ .string a) (hparts : ∀ x ∈ s'.refs o, Safe s x) : Inv (luaC_link o s') := by
  obtain ⟨rootgc, sweepgc, heq, hroots, hsub⟩ := linkroot_spec o s'
  have hrootgc : s'.rootgc = s.rootgc := by rw [h.eq]
  have hsweepgc : s'.sweepgc = s.sweepgc := by rw [h.eq]
  have hmarked : s'.marked = s.marked := by rw [h.eq]
  have hcurrent : s'.currentwhite = s.currentwhite := by rw [h.eq]
  rw [hrootgc, hsweepgc] at hroots
  rw [hsweepgc] at hsub
  have hmakes := h.makes hs ho hstring (List.Perm.of_eq hroots) hsub hparts
  have hlink : luaC_link o s' = { s' with
      marked := Function.update s'.marked o (some (.white s'.currentwhite))
      rootgc := rootgc, sweepgc := sweepgc } := by
    unfold luaC_link
    rw [heq]
  rw [hlink]
  rw [← hmarked, ← hcurrent] at hmakes
  exact hmakes.inv hs

/-! ## Each kind of object -/

theorem Contents.setTable {h : Nat} {t : Table} (hh : s.marked (.table h) = none) :
    Contents (.table h) s (s.setTable h t) where
  eq := rfl
  refs r hr := by
    cases r with
    | table h' =>
      have hne : h' ≠ h := fun heq => hr (by rw [heq]; exact hh)
      exact congrArg Table.refs (Function.update_of_ne hne ..)
    | string | udata | function | thread | proto | upval => rfl
  table h' hr := Function.update_of_ne (fun heq => hr (by rw [heq]; exact hh)) ..
  upval _ _ := rfl
  openupval _ _ := rfl
  closed := by simp
  unused := by simp

theorem Contents.setUdata {u : Nat} {x : Udata} (hu : s.marked (.udata u) = none) :
    Contents (.udata u) s (s.setUdata u x) where
  eq := rfl
  refs r hr := by
    cases r with
    | udata u' =>
      have hne : u' ≠ u := fun heq => hr (by rw [heq]; exact hu)
      exact congrArg Udata.refs (Function.update_of_ne hne ..)
    | string | table | function | thread | proto | upval => rfl
  table _ _ := rfl
  upval _ _ := rfl
  openupval _ _ := rfl
  closed := by simp
  unused := by simp

theorem Contents.setFunction {f : Nat} {cl : Closure} (hf : s.marked (.function f) = none) :
    Contents (.function f) s (s.setFunction f cl) where
  eq := rfl
  refs r hr := by
    cases r with
    | function f' =>
      have hne : f' ≠ f := fun heq => hr (by rw [heq]; exact hf)
      exact congrArg Closure.refs (Function.update_of_ne hne ..)
    | string | udata | table | thread | proto | upval => rfl
  table _ _ := rfl
  upval _ _ := rfl
  openupval _ _ := rfl
  closed := by simp
  unused := by simp

theorem Contents.setProto {f : Nat} {p : Proto} (hf : s.marked (.proto f) = none) :
    Contents (.proto f) s (s.setProto f p) where
  eq := rfl
  refs r hr := by
    cases r with
    | proto f' =>
      have hne : f' ≠ f := fun heq => hr (by rw [heq]; exact hf)
      exact congrArg Proto.refs (Function.update_of_ne hne ..)
    | string | udata | table | thread | function | upval => rfl
  table _ _ := rfl
  upval _ _ := rfl
  openupval _ _ := rfl
  closed := by simp
  unused := by simp

theorem Contents.setUpval {a : Nat} {v : Val} (ha : s.marked (.upval a) = none) :
    Contents (.upval a) s (s.setUpval a (.closed v)) := by
  have hsame {a' : Nat} (hr : s.marked (.upval a') ≠ none) :
      (s.setUpval a (.closed v)).upval a' = s.upval a' :=
    Function.update_of_ne (fun heq => hr (by rw [heq]; exact ha)) ..
  refine ⟨rfl, fun r hr => ?_, fun _ _ => rfl, fun a' => hsame, fun _ _ => rfl, fun a' ha' => ?_, by simp⟩
  · cases r with
    | upval a' =>
      exact congrArg (fun v : Val => v.ref.toList) (State.upvalue_congr (hsame hr) fun _ => rfl)
    | string | udata | table | thread | function | proto => rfl
  · obtain rfl := Ref.upval.inj ha'
    exact ⟨v, Function.update_self ..⟩

/-- No upvalue is open in a thread that is not there. -/
theorem Contents.setThread {t : Nat} {th : Thread} (hs : Inv s) (ht : s.marked (.thread t) = none)
    (hopen : th.openupval = []) : Contents (.thread t) s (s.setThread t th) := by
  have hsame {t' : Nat} (hr : s.marked (.thread t') ≠ none) :
      (s.setThread t th).thread t' = s.thread t' :=
    Function.update_of_ne (fun heq => hr (by rw [heq]; exact ht)) ..
  refine ⟨rfl, fun r hr => ?_, fun _ _ => rfl, fun _ _ => rfl, fun t' hr => by rw [hsame hr], by simp,
    fun t' ht' => ?_⟩
  · cases r with
    | thread t' => exact congrArg Thread.refs (hsame hr)
    | upval a =>
      refine congrArg (fun v : Val => v.ref.toList) ?_
      have hupval : (s.setThread t th).upval a = s.upval a := rfl
      cases hu : s.upval a with
      | closed v => rw [State.upvalue_closed (hupval.trans hu), State.upvalue_closed hu]
      | stack t' slot =>
        have ha := hs.listed.openListed a t' slot hr hu
        obtain ⟨t'', slot', hslot, ht'', -⟩ := hs.opened.uvhead a ha
        obtain ⟨rfl, rfl⟩ := UpVal.stack.inj (hu.symm.trans hslot)
        rw [State.upvalue_stack (hupval.trans hu), State.upvalue_stack hu, hsame ht'']
    | string | udata | table | function | proto => rfl
  · obtain rfl := Ref.thread.inj ht'
    show ((s.setThread t th).thread t).openupval = []
    rw [← hopen]
    exact congrArg Thread.openupval (Function.update_self ..)

theorem luaH_new_inv {h : Nat} (hs : Inv s) (hh : s.marked (.table h) = none) :
    Inv (luaH_new h s) := by
  refine (Contents.setTable hh).link hs hh (by simp) fun x hx => ?_
  have hself : (s.setTable h ⟨none, [], [], false, false⟩).table h = ⟨none, [], [], false, false⟩ :=
    Function.update_self ..
  have hx : x ∈ ((s.setTable h ⟨none, [], [], false, false⟩).table h).refs := hx
  rw [hself] at hx
  cases hx

theorem newclosure_inv {f : Nat} {cl : Closure} (hs : Inv s) (hf : s.marked (.function f) = none)
    (hcl : ∀ o ∈ cl.refs, Safe s o) : Inv (newclosure f cl s) := by
  refine (Contents.setFunction hf).link hs hf (by simp) fun x hx => hcl x ?_
  have hself : (s.setFunction f cl).refs (.function f) = cl.refs :=
    congrArg Closure.refs (Function.update_self ..)
  exact hself ▸ hx

theorem luaF_newupval_inv {a : Nat} (hs : Inv s) (ha : s.marked (.upval a) = none) :
    Inv (luaF_newupval a s) := by
  refine (Contents.setUpval ha).link hs ha (by simp) fun x hx => ?_
  have hself : (s.setUpval a (.closed .nil)).upval a = .closed .nil := Function.update_self ..
  have hx : x ∈ ((s.setUpval a (.closed .nil)).upvalue a).ref.toList := hx
  rw [State.upvalue_closed hself] at hx
  cases hx

theorem newproto_inv {f : Nat} {p : Proto} (hs : Inv s) (hf : s.marked (.proto f) = none)
    (hp : ∀ o ∈ p.refs, Safe s o) : Inv (newproto f p s) := by
  refine (Contents.setProto hf).link hs hf (by simp) fun x hx => hp x ?_
  have hself : (s.setProto f p).refs (.proto f) = p.refs := congrArg Proto.refs (Function.update_self ..)
  exact hself ▸ hx

theorem luaE_newthread_inv {t : Nat} (hs : Inv s) (ht : s.marked (.thread t) = none) :
    Inv (luaE_newthread t s) := by
  refine (Contents.setThread hs ht rfl).link hs ht (by simp) fun x hx => ?_
  have hL : Safe s (.thread s.L) := hs.kept.root _ (Or.inr (Or.inr (Or.inl rfl)))
  refine hs.kept.refs _ hL x ?_
  have hself : (s.setThread t ⟨(s.thread s.L).gt, [.nil], 1, []⟩).refs (.thread t) =
      Thread.refs ⟨(s.thread s.L).gt, [.nil], 1, []⟩ := congrArg Thread.refs (Function.update_self ..)
  rw [hself] at hx
  exact List.mem_cons.mpr (Or.inl (List.mem_singleton.mp hx))

/-! ## Userdata -/

theorem insertafter_of_not_mem {m o : Ref} {l : List Ref} (hm : m ∉ l) : insertafter m o l = l := by
  induction l with
  | nil => rfl
  | cons x l ih =>
    rw [insertafter, if_neg fun heq => hm (by simp [heq]), ih fun hmem => hm (List.mem_cons_of_mem _ hmem)]

theorem insertafter_perm {m o : Ref} {l : List Ref} (hm : m ∈ l) :
    (insertafter m o l).Perm (o :: l) := by
  induction l with
  | nil => cases hm
  | cons x l ih =>
    rw [insertafter]
    split
    · exact List.Perm.swap ..
    · rename_i hne
      have hm := (List.mem_cons.mp hm).resolve_left fun heq => hne heq.symm
      exact ((ih hm).cons x).trans (List.Perm.swap ..)

theorem subset_insertafter {m o : Ref} {l : List Ref} : l ⊆ insertafter m o l := by
  by_cases hm : m ∈ l
  · exact fun x hx => (insertafter_perm hm).mem_iff.mpr (List.mem_cons_of_mem _ hx)
  · rw [insertafter_of_not_mem hm]
    exact List.Subset.refl _

/-- A userdata is linked in one of the two parts of the list. -/
theorem linkudata_spec (u : Nat) (hnodup : (s.rootgc ++ s.sweepgc).Nodup)
    (hmain : .thread s.mainthread ∈ s.rootgc ++ s.sweepgc) : ∃ rootgc sweepgc,
      linkudata u s = { s with rootgc := rootgc, sweepgc := sweepgc } ∧
        (rootgc ++ sweepgc).Perm (.udata u :: (s.rootgc ++ s.sweepgc)) ∧ s.sweepgc ⊆ sweepgc := by
  unfold linkudata
  dsimp only
  split
  · exact ⟨_, _, rfl, List.perm_middle, List.subset_cons_self ..⟩
  · refine ⟨_, _, rfl, ?_, subset_insertafter⟩
    rcases List.mem_append.mp hmain with hroot | hsweep
    · have hnot : Ref.thread s.mainthread ∉ s.sweepgc := fun hmem =>
        List.disjoint_of_nodup_append hnodup hroot hmem
      rw [insertafter_of_not_mem hnot]
      exact (insertafter_perm hroot).append_right _
    · have hnot : Ref.thread s.mainthread ∉ s.rootgc := fun hmem =>
        List.disjoint_of_nodup_append hnodup hmem hsweep
      rw [insertafter_of_not_mem hnot]
      exact ((insertafter_perm hsweep).append_left _).trans List.perm_middle

theorem Listed.nodup_roots (h : Listed s) : (s.rootgc ++ s.sweepgc).Nodup := by
  refine h.nodup.sublist ?_
  unfold State.objects
  rw [List.append_assoc (s.strt.flatten.map Ref.string)]
  exact ((List.sublist_append_right ..).trans (List.sublist_append_left ..)).trans
    (List.sublist_append_left ..)

theorem Inv.mainthread_mem (h : Inv s) : .thread s.mainthread ∈ s.rootgc ++ s.sweepgc :=
  h.listed.mem_of_root (h.kept.root _ (Or.inl rfl)).1 (by simp) (by simp) (by simp)

theorem luaS_newudata_inv {u env : Nat} (hs : Inv s) (hu : s.marked (.udata u) = none)
    (henv : Safe s (.table env)) : Inv (luaS_newudata u env s) := by
  have hcontents := @Contents.setUdata s u ⟨none, env, false⟩ hu
  obtain ⟨rootgc, sweepgc, heq, hperm, hsub⟩ := @linkudata_spec
    (State.setUdata { s with marked := Function.update s.marked (.udata u) (some (.white s.currentwhite)) }
      u ⟨none, env, false⟩) u hs.listed.nodup_roots hs.mainthread_mem
  unfold luaS_newudata
  dsimp only
  rw [heq]
  refine (hcontents.makes hs hu (by simp) hperm hsub fun x hx => ?_).inv hs
  have hself : (s.setUdata u ⟨none, env, false⟩).refs (.udata u) = Udata.refs ⟨none, env, false⟩ :=
    congrArg Udata.refs (Function.update_self ..)
  rw [hself] at hx
  rw [List.mem_singleton.mp hx]
  exact henv

/-! ## Strings -/

theorem flatten_modify_perm {a chain : Nat} {strt : List (List Nat)} (h : chain < strt.length) :
    (strt.modify chain (a :: ·)).flatten.Perm (a :: strt.flatten) := by
  induction strt generalizing chain with
  | nil => cases h
  | cons l strt ih =>
    cases chain with
    | zero => exact List.Perm.refl _
    | succ chain =>
      show (l ++ (strt.modify chain (a :: ·)).flatten).Perm (a :: (l ++ strt.flatten))
      exact ((ih (Nat.lt_of_succ_lt_succ h)).append_left l).trans List.perm_middle

theorem getD_modify_subset {a chain i : Nat} (strt : List (List Nat)) :
    strt.getD i [] ⊆ (strt.modify chain (a :: ·)).getD i [] := by
  rw [List.getD_eq_getElem?_getD, List.getD_eq_getElem?_getD, List.getElem?_modify]
  cases strt[i]? with
  | none => exact List.nil_subset _
  | some l =>
    simp only [Option.getD_some]
    split
    · exact List.subset_cons_self ..
    · exact List.Subset.refl _

theorem newlstr_inv {a chain : Nat} {str : List UInt8} (hs : Inv s)
    (ha : s.marked (.string a) = none) (hchain : chain < s.strt.length) :
    Inv (newlstr a chain str s) := by
  have hfixed : Function.update s.fixed (.string a) false = s.fixed := by
    rw [Function.update_eq_self_iff]
    cases hf : s.fixed (.string a) with
    | false => rfl
    | true => exact absurd ha (hs.kept.root _ (Or.inr (Or.inr (Or.inr (Or.inr (Or.inr hf)))))).1
  have hother {r : Ref} (hr : r ≠ .string a) : (newlstr a chain str s).marked r = s.marked r :=
    Function.update_of_ne hr ..
  have hthread (t : Nat) : (newlstr a chain str s).marked (.thread t) = s.marked (.thread t) :=
    hother (by simp)
  have hmakes : Makes (.string a) s (newlstr a chain str s) := by
    refine ⟨by unfold newlstr; rw [hfixed], ha, fun r _ => by cases r <;> rfl, fun _ _ => rfl,
      fun _ hx => (List.not_mem_nil hx).elim, ?_, hs.listed.string, hs.listed.closed, List.Subset.refl _,
      ⟨fun b hb => ?_, fun t ht => ?_, fun t ht => ?_, fun b hb => ?_⟩, fun r _ hu => ?_⟩
    · have hperm : ((s.strt.modify chain (a :: ·)).flatten.map Ref.string).Perm
          (.string a :: s.strt.flatten.map .string) := (flatten_modify_perm hchain).map _
      exact (((hperm.append_right _).append_right _).append_right _).append_right _
    · obtain ⟨t, slot, hslot, ht, hmem⟩ := hs.opened.uvhead b hb
      exact ⟨t, slot, hslot, by rw [hthread]; exact ht, hmem⟩
    · exact hs.opened.openupval t (hthread t ▸ ht)
    · exact hs.opened.nodup t (hthread t ▸ ht)
    · rw [hother (by simp)]
      exact hs.opened.black b hb
    · cases r with
      | string b =>
        obtain ⟨hstate, i, hi, hmem⟩ := hu
        exact ⟨hstate, i, hi, getD_modify_subset _ hmem⟩
      | udata | table | function | thread | proto | upval => exact hu
  exact hmakes.inv hs

/-! ## Open upvalues -/

theorem findLoop_some {level new p : Nat} {l l' : List Nat} (h : findLoop s level new l = (some p, l')) :
    p ∈ l := by
  induction l generalizing l' with
  | nil => cases h
  | cons q l ih =>
    unfold findLoop at h
    split at h
    · split at h
      · cases h
        exact List.mem_cons_self
      · cases hfound : findLoop s level new l with
        | mk found rest =>
          rw [hfound] at h
          cases h
          exact List.mem_cons_of_mem _ (ih hfound)
    · cases h

theorem findLoop_none {level new : Nat} {l l' : List Nat} (h : findLoop s level new l = (none, l')) :
    l'.Perm (new :: l) := by
  induction l generalizing l' with
  | nil =>
    cases h
    exact List.Perm.refl _
  | cons q l ih =>
    unfold findLoop at h
    split at h
    · split at h
      · cases h
      · cases hfound : findLoop s level new l with
        | mk found rest =>
          rw [hfound] at h
          cases h
          exact ((ih hfound).cons q).trans (List.Perm.swap ..)
    · cases h
      exact List.Perm.refl _

/-- A new open upvalue is in the list of its thread. -/
def openup (t level new : Nat) (l : List Nat) (s : State) : State :=
  { (s.setThread t { s.thread t with openupval := l }).setUpval new (.stack t level) with
    marked := Function.update s.marked (.upval new) (some (.white s.currentwhite))
    uvhead := new :: s.uvhead }

theorem thread_openup (t level new : Nat) (l : List Nat) (s : State) (t' : Nat) :
    (openup t level new l s).thread t' =
      if t' = t then { s.thread t with openupval := l } else s.thread t' := Function.update_apply ..

theorem openup_makes {t level new : Nat} {l : List Nat} (hs : Inv s) (ht : Safe s (.thread t))
    (hnew : s.marked (.upval new) = none) (hl : l.Perm (new :: (s.thread t).openupval)) :
    Makes (.upval new) s (openup t level new l s) := by
  have hother {r : Ref} (hr : r ≠ .upval new) : (openup t level new l s).marked r = s.marked r :=
    Function.update_of_ne hr ..
  have hthread {t' : Nat} : (openup t level new l s).marked (.thread t') = s.marked (.thread t') :=
    hother (by simp)
  have hupval {a : Nat} (hne : a ≠ new) : (openup t level new l s).upval a = s.upval a :=
    Function.update_of_ne hne ..
  have hself : (openup t level new l s).upval new = .stack t level := Function.update_self ..
  have hstack (t' : Nat) : ((openup t level new l s).thread t').stack = (s.thread t').stack := by
    rw [thread_openup]
    split
    · rename_i heq
      rw [heq]
    · rfl
  have hopen (t' : Nat) : ((openup t level new l s).thread t').openupval =
      if t' = t then l else (s.thread t').openupval := by
    rw [thread_openup]
    split <;> rfl
  have hne {a : Nat} (ha : s.marked (.upval a) ≠ none) : a ≠ new := fun heq => ha (by rw [heq]; exact hnew)
  refine ⟨rfl, hnew, fun r hr => ?_, fun _ _ => rfl, fun x hx => ?_, ?_, hs.listed.string, fun a ha => ?_,
    List.subset_cons_self .., ⟨fun a ha => ?_, fun t' ht' a ha => ?_, fun t' ht' => ?_, fun a ha => ?_⟩,
    fun r hr hu => ?_⟩
  · cases r with
    | thread t' =>
      show ((openup t level new l s).thread t').refs = (s.thread t').refs
      rw [thread_openup]
      split
      · rename_i heq
        rw [heq]
        rfl
      · rfl
    | upval a =>
      exact congrArg (fun v : Val => v.ref.toList) (State.upvalue_congr (hupval (hne hr)) hstack)
    | string | udata | table | function | proto => rfl
  · have hx : x ∈ ((openup t level new l s).upvalue new).ref := Option.mem_toList.mp hx
    rw [State.upvalue_stack hself, hstack] at hx
    refine hs.kept.refs _ ht x (List.mem_cons_of_mem _ (List.mem_filterMap.mpr
      ⟨(s.thread t).stack.getD level .nil, ?_, hx⟩))
    rw [List.getD_eq_getElem?_getD] at hx ⊢
    cases hg : (s.thread t).stack[level]? with
    | none =>
      rw [hg] at hx
      cases hx
    | some w => exact List.mem_of_getElem? hg
  · show (_ ++ (new :: s.uvhead).map Ref.upval).Perm _
    rw [List.map_cons]
    exact List.perm_middle
  · obtain ⟨w, hw⟩ := hs.listed.closed a ha
    exact ⟨w, (hupval (hne (hs.listed.mem_roots ha))).trans hw⟩
  · rcases List.mem_cons.mp ha with rfl | ha
    · refine ⟨t, level, hself, hthread ▸ ht.1, ?_⟩
      rw [hopen, if_pos rfl]
      exact hl.mem_iff.mpr List.mem_cons_self
    · obtain ⟨t', slot, hslot, ht', hmem⟩ := hs.opened.uvhead a ha
      refine ⟨t', slot, (hupval (hne (hs.listed.mem_uvhead ha))).trans hslot, hthread ▸ ht', ?_⟩
      rw [hopen]
      split
      · rename_i heq
        subst heq
        exact hl.mem_iff.mpr (List.mem_cons_of_mem _ hmem)
      · exact hmem
  · rw [hthread] at ht'
    rw [hopen] at ha
    split at ha
    · rename_i heq
      subst heq
      rcases List.mem_cons.mp (hl.mem_iff.mp ha) with rfl | ha
      · exact ⟨List.mem_cons_self, level, hself⟩
      · obtain ⟨hmem, slot, hslot⟩ := hs.opened.openupval t' ht' a ha
        exact ⟨List.mem_cons_of_mem _ hmem, slot,
          (hupval (hne (hs.listed.mem_uvhead hmem))).trans hslot⟩
    · obtain ⟨hmem, slot, hslot⟩ := hs.opened.openupval t' ht' a ha
      exact ⟨List.mem_cons_of_mem _ hmem, slot, (hupval (hne (hs.listed.mem_uvhead hmem))).trans hslot⟩
  · rw [hthread] at ht'
    rw [hopen]
    split
    · rename_i heq
      subst heq
      rw [hl.nodup_iff, List.nodup_cons]
      refine ⟨fun hmem => ?_, hs.opened.nodup t' ht'⟩
      exact hne (hs.listed.mem_uvhead (hs.opened.openupval t' ht' new hmem).1) rfl
    · exact hs.opened.nodup t' ht'
  · rcases List.mem_cons.mp ha with rfl | ha
    · have hwhite : (openup t level a l s).marked (.upval a) = some (.white s.currentwhite) :=
        Function.update_self ..
      rw [hwhite]
      simp
    · rw [hother (by simpa using hne (hs.listed.mem_uvhead ha))]
      exact hs.opened.black a ha
  · cases r with
    | upval a =>
      refine ⟨hu.1, hu.2.imp id ?_⟩
      rintro ⟨t', slot, hslot, hmem⟩
      exact ⟨t', slot, (hupval (hne hr)).trans hslot, hmem⟩
    | string | udata | table | function | thread | proto => exact hu

/-! ## Objects that are found again -/

theorem recolour_changewhite (hr : s.isdead r = true) :
    s.recolour r Colour.changewhite = s.makewhite r := by
  rw [State.isdead_iff] at hr
  unfold State.makewhite State.recolour
  rw [hr]
  simp [Colour.changewhite, White.other_other]

/-- A dead object is found in the sweep phase, and is not dead any more. -/
theorem Inv.resurrect (hs : Inv s) (hrefs : ∀ o ∈ s.refs r, Safe s o) :
    Inv (if s.isdead r then s.recolour r Colour.changewhite else s) := by
  split
  · rename_i hdead
    rw [recolour_changewhite hdead]
    refine hs.rewhite (fun hstate => ?_) (Or.inr hrefs)
    rw [(hs.ground hstate).dead] at hdead
    cases hdead
  · exact hs

theorem foundstr_inv {a : Nat} (hs : Inv s) : Inv (foundstr a s) :=
  hs.resurrect fun _ ho => (List.not_mem_nil ho).elim

theorem luaF_findupval_inv {t level new : Nat} (hs : Inv s) (ht : Safe s (.thread t))
    (hnew : s.marked (.upval new) = none) : Inv (luaF_findupval t level new s) := by
  unfold luaF_findupval
  cases hfound : findLoop s level new (s.thread t).openupval with
  | mk found l =>
    cases found with
    | none => exact (openup_makes hs ht hnew (findLoop_none hfound)).inv hs
    | some p =>
      obtain ⟨-, slot, hslot⟩ := hs.opened.openupval t ht.1 p (findLoop_some hfound)
      refine hs.resurrect fun o ho => hs.kept.refs _ ht o ?_
      have ho : o ∈ (s.upvalue p).ref := Option.mem_toList.mp ho
      rw [State.upvalue_stack hslot, List.getD_eq_getElem?_getD] at ho
      cases hg : (s.thread t).stack[slot]? with
      | none =>
        rw [hg] at ho
        cases ho
      | some w =>
        rw [hg] at ho
        exact List.mem_cons_of_mem _ (List.mem_filterMap.mpr ⟨w, List.mem_of_getElem? hg, ho⟩)

/-- A string that is fixed is never freed. -/
theorem luaS_fix_inv {a : Nat} (hs : Inv s) (ha : Safe s (.string a)) : Inv (luaS_fix a s) := by
  have hfixed {r : Ref} : (luaS_fix a s).fixed r = true ↔ r = .string a ∨ s.fixed r = true := by
    show Function.update s.fixed (.string a) true r = true ↔ _
    rw [Function.update_apply]
    split <;> simp [*]
  have hsafe {r : Ref} : Safe (luaS_fix a s) r ↔ Safe s r := by
    unfold Safe
    rw [hfixed]
    constructor
    · rintro ⟨hr, hd | rfl | hf⟩
      · exact ⟨hr, Or.inl hd⟩
      · exact ha
      · exact ⟨hr, Or.inr hf⟩
    · rintro ⟨hr, hd | hf⟩
      · exact ⟨hr, Or.inl hd⟩
      · exact ⟨hr, Or.inr (Or.inr hf)⟩
  refine ⟨⟨fun o ho => hsafe.mpr ?_, fun o ho o' ho' =>
    hsafe.mpr (hs.kept.refs o (hsafe.mp ho) o' (by cases o <;> exact ho')), fun o ho => ?_⟩,
    ⟨hs.listed.nodup, hs.listed.mem, hs.listed.string, hs.listed.closed⟩,
    ⟨hs.opened.uvhead, hs.opened.openupval, hs.opened.nodup, hs.opened.black⟩, fun hne r c hc => ?_,
    fun hstate => ?_⟩
  · rcases ho with ho | ho | ho | ho | ho | ho
    · exact hs.kept.root o (Or.inl ho)
    · exact hs.kept.root o (Or.inr (Or.inl ho))
    · exact hs.kept.root o (Or.inr (Or.inr (Or.inl ho)))
    · exact hs.kept.root o (Or.inr (Or.inr (Or.inr (Or.inl ho))))
    · exact hs.kept.root o (Or.inr (Or.inr (Or.inr (Or.inr (Or.inl ho)))))
    · rcases hfixed.mp ho with rfl | hf
      · exact ha
      · exact hs.kept.root o (Or.inr (Or.inr (Or.inr (Or.inr (Or.inr hf)))))
  · rcases hfixed.mp ho with rfl | hf
    · exact Or.inl ⟨a, rfl⟩
    · exact hs.kept.fixed o hf
  · exact (hs.swept hne r c hc).imp_right (Or.imp_left fun hu => by cases r <;> exact hu)
  · have hp := hs.propagating hstate
    exact ⟨fun r hr => (hp.tri r hr).imp_right (Or.imp_right fun hc o ho =>
        hc o (by cases r <;> exact ho)),
      ⟨hp.linked.gray, hp.linked.listed, hp.linked.nodup, hp.linked.black⟩, hp.keyed, hp.white,
      hp.mainthread, hp.registry⟩

/-- The chains of the string table are made anew, which is not done while they are swept. -/
theorem luaS_resize_inv {strt : List (List Nat)} (hs : Inv s) (hstate : s.gcstate ≠ .GCSsweepstring)
    (hperm : strt.flatten.Perm s.strt.flatten) : Inv { s with strt := strt } := by
  have hobjects : (State.objects { s with strt := strt }).Perm s.objects :=
    ((((hperm.map Ref.string).append_right _).append_right _).append_right _).append_right _
  refine ⟨⟨hs.kept.root, fun o ho o' ho' => hs.kept.refs o ho o' (by cases o <;> exact ho'),
    hs.kept.fixed⟩, ⟨hobjects.nodup_iff.mpr hs.listed.nodup, fun r => ?_, hs.listed.string,
    hs.listed.closed⟩, ⟨hs.opened.uvhead, hs.opened.openupval, hs.opened.nodup, hs.opened.black⟩,
    fun hne r c hc => ?_, fun hstate => ?_⟩
  · rw [hobjects.mem_iff]
    exact hs.listed.mem r
  · refine (hs.swept hne r c hc).imp_right (Or.imp_left fun hu => ?_)
    cases r with
    | string a => exact absurd hu.1 hstate
    | udata | table | function | thread | proto | upval => exact hu
  · have hp := hs.propagating hstate
    exact ⟨fun r hr => (hp.tri r hr).imp_right (Or.imp_right fun hc o ho =>
        hc o (by cases r <;> exact ho)),
      ⟨hp.linked.gray, hp.linked.listed, hp.linked.nodup, hp.linked.black⟩, hp.keyed, hp.white,
      hp.mainthread, hp.registry⟩

end Luaxx.Collector
