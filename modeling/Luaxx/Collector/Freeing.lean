import Luaxx.Collector.Cycle

/-!
# What is freed, and what is closed

A dead object leaves its list and is freed. Open upvalues are closed when their stack slots go, and
the dead ones among them are freed.
-/

namespace Luaxx.Collector

open Luaxx.Gc (White GCState)

variable {s s' : State} {o r : Ref}

/-! ## Freeing -/

theorem safe_of_survives (hr : s.marked r ≠ none) (h : survives s r = true) : Safe s r := by
  refine ⟨hr, ?_⟩
  unfold survives at h
  cases hd : s.isdead r with
  | false => exact Or.inl rfl
  | true => simpa [hd] using h

theorem not_safe_of_survives (h : survives s r = false) : ¬ Safe s r := by
  rintro ⟨-, hsafe⟩
  unfold survives at h
  rcases hsafe with hd | hf
  · simp [hd] at h
  · simp [hf] at h

theorem marked_freemem_of_ne (h : r ≠ o) : (freemem o s).marked r = s.marked r :=
  Function.update_of_ne h ..

structure Frees (r : Ref) (s s' : State) : Prop where
  eq : s' = { s with
    marked := Function.update s.marked r none, thread := s'.thread, strt := s'.strt,
    sweepgc := s'.sweepgc, uvhead := s'.uvhead }
  refs : ∀ x, s'.refs x = s.refs x
  perm : s.objects.Perm (r :: s'.objects)
  sweepgc : s'.sweepgc ⊆ s.sweepgc
  opened : Opened s'
  dead : ¬ Safe s r
  unswept : ∀ x, x ≠ r → s.marked x ≠ none → Unswept s x → Unswept s' x

theorem Frees.inv (h : Frees r s s') (hs : Inv s) (hstate : s.gcstate ≠ .GCSpropagate) : Inv s' := by
  have hmarked : s'.marked = Function.update s.marked r none := by rw [h.eq]
  have hself : s'.marked r = none := by rw [hmarked, Function.update_self]
  have hsame {x : Ref} (hx : x ≠ r) : s'.marked x = s.marked x := by
    rw [hmarked, Function.update_of_ne hx]
  have hcurrent : s'.currentwhite = s.currentwhite := by rw [h.eq]
  have hfixed : s'.fixed = s.fixed := by rw [h.eq]
  have hsafe (x : Ref) : Safe s' x ↔ Safe s x := by
    by_cases hx : x = r
    · subst hx
      exact iff_of_false (fun hsafe => hsafe.1 hself) h.dead
    · unfold Safe State.isdead
      rw [hsame hx, hcurrent, hfixed]
  have hroots : s'.rootgc ++ s'.sweepgc ⊆ s.rootgc ++ s.sweepgc := by
    have hrootgc : s'.rootgc = s.rootgc := by rw [h.eq]
    rw [hrootgc]
    exact append_subset_append (List.Subset.refl _) h.sweepgc
  have hnodup := List.nodup_cons.mp (h.perm.nodup_iff.mp hs.listed.nodup)
  refine ⟨⟨fun o ho => ?_, fun o ho o' ho' => ?_, ?_⟩, ⟨hnodup.2, fun x => ?_, fun a ha => ?_,
    fun a ha => ?_⟩, h.opened, fun hne x c hc => ?_, fun hp => ?_⟩
  · refine (hsafe o).mpr (hs.kept.root o ?_)
    rw [h.eq] at ho
    exact ho
  · rw [h.refs] at ho'
    exact (hsafe o').mpr (hs.kept.refs o ((hsafe o).mp ho) o' ho')
  · rw [h.eq]
    exact hs.kept.fixed
  · by_cases hx : x = r
    · subst hx
      exact iff_of_false hnodup.1 (fun hne => hne hself)
    · rw [hsame hx, ← hs.listed.mem, h.perm.mem_iff, List.mem_cons]
      simp [hx]
  · exact hs.listed.string a (hroots ha)
  · have hupval : s'.upval = s.upval := by rw [h.eq]
    rw [hupval]
    exact hs.listed.closed a (hroots ha)
  · have hx : x ≠ r := by
      rintro rfl
      rw [hself] at hc
      cases hc
    rw [hsame hx] at hc
    have htm : s'.tmudata = s.tmudata := by rw [h.eq]
    rw [hcurrent, htm]
    exact (hs.swept hstate x c hc).imp_right (Or.imp_left (h.unswept x hx (by rw [hc]; simp)))
  · rw [h.eq] at hp
    exact absurd hp hstate

/-- An object gets the current white. If it was dead, what it refers to must not be. -/
theorem Inv.rewhite (h : Inv s) (hstate : s.gcstate ≠ .GCSpropagate)
    (hr : survives s r = true ∨ ∀ o ∈ s.refs r, Safe s o) : Inv (s.makewhite r) := by
  have hsame {x : Ref} (hx : x ≠ r) : (s.makewhite r).marked x = s.marked x :=
    marked_recolour_of_ne hx
  have hnone (x : Ref) : (s.makewhite r).marked x ≠ none ↔ s.marked x ≠ none := by
    by_cases hx : x = r
    · subst hx
      unfold State.makewhite
      rw [marked_recolour_self]
      simp
    · rw [hsame hx]
  have hself (hr : s.marked r ≠ none) : (s.makewhite r).marked r = some (.white s.currentwhite) := by
    obtain ⟨c, hc⟩ := Option.ne_none_iff_exists'.mp hr
    unfold State.makewhite
    rw [marked_recolour_self, hc]
    rfl
  have hold {x : Ref} (hx : x ≠ r) : Safe (s.makewhite r) x ↔ Safe s x := by
    unfold Safe State.isdead
    rw [hsame hx]
    exact Iff.rfl
  have hsafe {x : Ref} (hx : Safe s x) : Safe (s.makewhite r) x := by
    by_cases hxr : x = r
    · subst hxr
      refine ⟨(hnone x).mpr hx.1, Or.inl ?_⟩
      rw [State.isdead_eq_false, hself hx.1]
      intro hw
      exact White.other_ne _ (Colour.white.inj (Option.some.inj hw)).symm
    · exact (hold hxr).mpr hx
  have hrefs {x y : Ref} (hx : Safe (s.makewhite r) x) (hy : y ∈ s.refs x) : Safe s y := by
    by_cases hxr : x = r
    · subst hxr
      rcases hr with hr | hr
      · exact h.kept.refs x (safe_of_survives ((hnone x).mp hx.1) hr) y hy
      · exact hr y hy
    · exact h.kept.refs x ((hold hxr).mp hx) y hy
  refine ⟨⟨fun o ho => hsafe (h.kept.root o ho), fun o ho o' ho' =>
    hsafe (hrefs ho (by cases o <;> exact ho')), h.kept.fixed⟩,
    ⟨h.listed.nodup, fun x => ?_, h.listed.string, h.listed.closed⟩,
    ⟨fun a ha => ?_, fun t ht => ?_, fun t ht => ?_, fun a ha hblack => ?_⟩, fun _ x c hc => ?_,
    fun hp => absurd hp hstate⟩
  · rw [hnone]
    exact h.listed.mem x
  · obtain ⟨t, slot, hslot, ht, hmem⟩ := h.opened.uvhead a ha
    exact ⟨t, slot, hslot, (hnone _).mpr ht, hmem⟩
  · exact h.opened.openupval t ((hnone _).mp ht)
  · exact h.opened.nodup t ((hnone _).mp ht)
  · by_cases hx : Ref.upval a = r
    · subst hx
      by_cases hmarked : s.marked (.upval a) = none
      · exact (hnone (.upval a)).mp (by rw [hblack]; simp) hmarked
      · rw [hself hmarked] at hblack
        cases hblack
    · rw [hsame hx] at hblack
      exact h.opened.black a ha hblack
  · by_cases hx : x = r
    · subst hx
      left
      by_cases hmarked : s.marked x = none
      · exact absurd hmarked ((hnone x).mp (by rw [hc]; simp))
      · rw [hself hmarked] at hc
        exact (Option.some.inj hc).symm
    · rw [hsame hx] at hc
      refine (h.swept hstate x c hc).imp_right (Or.imp_left fun hu => ?_)
      cases x <;> exact hu

theorem Inv.makewhite (h : Inv s) (hstate : s.gcstate ≠ .GCSpropagate) (hr : survives s r = true) :
    Inv (s.makewhite r) := h.rewhite hstate (Or.inl hr)

/-! ## Open upvalues -/

theorem Opened.mem_uvhead (h : Opened s) {t a : Nat} {rest : List Nat}
    (ht : s.marked (.thread t) ≠ none) (hl : (s.thread t).openupval = rest) (ha : a ∈ rest) :
    a ∈ s.uvhead ∧ ∃ slot, s.upval a = .stack t slot := by
  subst hl
  exact h.openupval t ht a ha

/-- An upvalue is taken out of the list of its thread and out of that of all open ones. -/
def detach (t a : Nat) (l : List Nat) (s : State) : State :=
  unlinkupval a (s.setThread t { s.thread t with openupval := l })

theorem thread_detach (t a : Nat) (l : List Nat) (s : State) (t' : Nat) :
    (detach t a l s).thread t' =
      if t' = t then { s.thread t with openupval := l } else s.thread t' :=
  Function.update_apply ..

theorem stack_detach (t a : Nat) (l : List Nat) (s : State) (t' : Nat) :
    ((detach t a l s).thread t').stack = (s.thread t').stack := by
  rw [thread_detach]
  split
  · subst t'
    rfl
  · rfl

theorem upvalue_detach (t a : Nat) (l : List Nat) (s : State) (b : Nat) :
    (detach t a l s).upvalue b = s.upvalue b :=
  State.upvalue_congr rfl (stack_detach t a l s)

theorem refs_detach (t a : Nat) (l : List Nat) (s : State) (x : Ref) :
    (detach t a l s).refs x = s.refs x := by
  have hgt (t' : Nat) : ((detach t a l s).thread t').gt = (s.thread t').gt := by
    rw [thread_detach]
    split
    · subst t'
      rfl
    · rfl
  cases x with
  | thread t' =>
    show Thread.refs _ = _
    unfold Thread.refs
    rw [hgt, stack_detach]
    rfl
  | upval b =>
    show ((detach t a l s).upvalue b).ref.toList = (s.upvalue b).ref.toList
    rw [upvalue_detach]
  | string | udata | table | function | proto => rfl

theorem openupval_detach (t a : Nat) (l : List Nat) (s : State) (t' : Nat) :
    ((detach t a l s).thread t').openupval = if t' = t then l else (s.thread t').openupval := by
  rw [thread_detach]
  split <;> rfl

/-- What remains are the open upvalues but `a`. -/
theorem opened_detach (h : Opened s) (hnodup : s.uvhead.Nodup) {t a : Nat} {l l' : List Nat}
    (ht : s.marked (.thread t) ≠ none) (hl : (s.thread t).openupval = l ++ a :: l') :
    (∀ b ∈ (detach t a (l ++ l') s).uvhead, ∃ t' slot, s.upval b = .stack t' slot ∧
      s.marked (.thread t') ≠ none ∧ b ∈ ((detach t a (l ++ l') s).thread t').openupval) ∧
    (∀ t', s.marked (.thread t') ≠ none → ∀ b ∈ ((detach t a (l ++ l') s).thread t').openupval,
      b ∈ (detach t a (l ++ l') s).uvhead ∧ ∃ slot, s.upval b = .stack t' slot) ∧
    (∀ t', s.marked (.thread t') ≠ none → ((detach t a (l ++ l') s).thread t').openupval.Nodup) ∧
    (∀ b ∈ (detach t a (l ++ l') s).uvhead, b ∈ s.uvhead ∧ b ≠ a) ∧ a ∈ s.uvhead := by
  have hmid (b : Nat) : b ∈ l ++ a :: l' ↔ b = a ∨ b ∈ l ++ l' := by
    rw [List.perm_middle.mem_iff, List.mem_cons]
  have hn : (a :: (l ++ l')).Nodup := by
    rw [← List.perm_middle.nodup_iff, ← hl]
    exact h.nodup t ht
  have ha := h.openupval t ht a (by rw [hl]; simp)
  have huvhead (b : Nat) : b ∈ (detach t a (l ++ l') s).uvhead ↔ b ∈ s.uvhead ∧ b ≠ a := by
    show b ∈ s.uvhead.erase a ↔ _
    rw [hnodup.mem_erase_iff, and_comm]
  refine ⟨fun b hb => ?_, fun t' ht' b hb => ?_, fun t' ht' => ?_, fun b hb => (huvhead b).mp hb, ha.1⟩
  · obtain ⟨hb, hba⟩ := (huvhead b).mp hb
    obtain ⟨t', slot, hslot, ht', hmem⟩ := h.uvhead b hb
    refine ⟨t', slot, hslot, ht', ?_⟩
    rw [openupval_detach]
    split
    · subst t'
      rw [hl, hmid] at hmem
      exact hmem.resolve_left hba
    · exact hmem
  · rw [openupval_detach] at hb
    split at hb
    · subst t'
      have hb' := h.openupval t ht b (by rw [hl, hmid]; exact Or.inr hb)
      refine ⟨(huvhead b).mpr ⟨hb'.1, ?_⟩, hb'.2⟩
      rintro rfl
      exact (List.nodup_cons.mp hn).1 hb
    · rename_i hne
      have hb' := h.openupval t' ht' b hb
      refine ⟨(huvhead b).mpr ⟨hb'.1, ?_⟩, hb'.2⟩
      rintro rfl
      obtain ⟨slot, hslot⟩ := ha.2
      obtain ⟨slot', hslot'⟩ := hb'.2
      rw [hslot] at hslot'
      injection hslot' with heq
      exact hne heq.symm
  · rw [openupval_detach]
    split
    · exact (List.nodup_cons.mp hn).2
    · exact h.nodup t' ht'

theorem Listed.nodup_uvhead (h : Listed s) : s.uvhead.Nodup := by
  have hn := h.nodup
  unfold State.objects at hn
  exact (List.nodup_append.mp hn).2.1.of_map _

theorem objects_detach (t a : Nat) (l : List Nat) (ha : a ∈ s.uvhead) :
    s.objects.Perm (.upval a :: (detach t a l s).objects) := by
  have hperm : (s.uvhead.map Ref.upval).Perm (.upval a :: (s.uvhead.erase a).map .upval) :=
    (List.perm_cons_erase ha).map _
  have heq : (detach t a l s).objects = s.strt.flatten.map .string ++ s.rootgc ++ s.sweepgc ++
      s.tmudata.map .udata ++ (s.uvhead.erase a).map .upval := rfl
  rw [heq]
  unfold State.objects
  exact (List.Perm.append_left _ hperm).trans List.perm_middle

/-- A dead open upvalue is freed. -/
theorem freeupval_inv {t a : Nat} {l l' : List Nat} (h : Inv s) (hstate : s.gcstate ≠ .GCSpropagate)
    (ht : s.marked (.thread t) ≠ none) (hl : (s.thread t).openupval = l ++ a :: l')
    (hdead : survives s (.upval a) = false) :
    Inv (luaF_freeupval a (s.setThread t { s.thread t with openupval := l ++ l' })) := by
  obtain ⟨huvhead, hopen, hnodup, hsub, ha⟩ := opened_detach h.opened h.listed.nodup_uvhead ht hl
  obtain ⟨slot, hslot⟩ := (h.opened.openupval t ht a (by rw [hl]; simp)).2
  have heq : luaF_freeupval a (s.setThread t { s.thread t with openupval := l ++ l' }) =
      freemem (.upval a) (detach t a (l ++ l') s) := by
    unfold luaF_freeupval
    have hslot' : (s.setThread t { s.thread t with openupval := l ++ l' }).upval a = .stack t slot :=
      hslot
    rw [hslot']
    rfl
  have hthread (t' : Nat) : (freemem (.upval a) (detach t a (l ++ l') s)).marked (.thread t') =
      s.marked (.thread t') := marked_freemem_of_ne (by simp)
  have hfrees : Frees (.upval a) s (freemem (.upval a) (detach t a (l ++ l') s)) := by
    refine ⟨rfl, fun x => ?_, objects_detach t a (l ++ l') ha, List.Subset.refl _, ⟨?_, ?_, ?_,
      fun b hb hblack => ?_⟩, not_safe_of_survives hdead, fun x _ _ hx => ?_⟩
    · rw [← refs_detach t a (l ++ l') s x]
      cases x <;> rfl
    · intro b hb
      obtain ⟨t', slot', hslot', ht', hmem⟩ := huvhead b hb
      exact ⟨t', slot', hslot', by rw [hthread]; exact ht', hmem⟩
    · intro t' ht'
      rw [hthread] at ht'
      exact hopen t' ht'
    · intro t' ht'
      rw [hthread] at ht'
      exact hnodup t' ht'
    · obtain ⟨hb, hba⟩ := hsub b hb
      have hsame : (freemem (.upval a) (detach t a (l ++ l') s)).marked (.upval b) =
          s.marked (.upval b) := marked_freemem_of_ne (by simpa using hba)
      rw [hsame] at hblack
      exact h.opened.black b hb hblack
    · cases x <;> exact hx
  rw [heq]
  exact hfrees.inv h hstate

/-! ## Closing -/

theorem linkroot_spec (o : Ref) (s : State) : ∃ rootgc sweepgc,
    linkroot o s = { s with rootgc := rootgc, sweepgc := sweepgc } ∧
      rootgc ++ sweepgc = o :: (s.rootgc ++ s.sweepgc) ∧ s.sweepgc ⊆ sweepgc := by
  unfold linkroot
  split
  · rename_i hroot
    exact ⟨s.rootgc, o :: s.sweepgc, rfl, by rw [hroot]; rfl, List.subset_cons_self ..⟩
  · exact ⟨o :: s.rootgc, s.sweepgc, rfl, rfl, List.Subset.refl _⟩

/-- What closing an upvalue does, but for its colour. -/
structure Closes (t a : Nat) (l : List Nat) (s s' : State) : Prop where
  eq : s' = { s with
    thread := s'.thread, upval := Function.update s.upval a (.closed (s.upvalue a)),
    uvhead := s.uvhead.erase a, rootgc := s'.rootgc, sweepgc := s'.sweepgc }
  openupval : ∀ t', (s'.thread t').openupval = if t' = t then l else (s.thread t').openupval
  refs : ∀ x, s'.refs x = s.refs x
  roots : s'.rootgc ++ s'.sweepgc = .upval a :: (s.rootgc ++ s.sweepgc)
  sweepgc : s.sweepgc ⊆ s'.sweepgc

/-- An upvalue is detached, closed and linked. -/
def close (t a : Nat) (l : List Nat) (s : State) : State :=
  linkroot (.upval a) ((detach t a l s).setUpval a (.closed ((detach t a l s).upvalue a)))

theorem close_closes (t a : Nat) (l : List Nat) (s : State) : Closes t a l s (close t a l s) := by
  obtain ⟨rootgc, sweepgc, heq, hroots, hsweepgc⟩ := linkroot_spec (.upval a)
    ((detach t a l s).setUpval a (.closed ((detach t a l s).upvalue a)))
  have hclose : close t a l s = { (detach t a l s).setUpval a (.closed (s.upvalue a)) with
      rootgc := rootgc, sweepgc := sweepgc } := by
    unfold close
    rw [heq, upvalue_detach]
  rw [hclose]
  refine ⟨rfl, openupval_detach t a l s, fun x => ?_, hroots, hsweepgc⟩
  rw [← refs_detach t a l s x]
  cases x with
  | upval b =>
    refine congrArg (fun v : Val => v.ref.toList) ?_
    by_cases hb : b = a
    · subst hb
      rw [upvalue_detach]
      exact State.upvalue_closed (Function.update_self ..)
    · exact State.upvalue_congr (Function.update_of_ne hb ..) fun _ => rfl
  | string | udata | table | function | thread | proto => rfl

namespace Closes

variable {t a : Nat} {l : List Nat}

theorem strong (h : Closes t a l s s') (x : Ref) : s'.strong x = s.strong x := by
  cases x with
  | table h' => rw [h.eq]; rfl
  | string a => exact h.refs (.string a)
  | udata u => exact h.refs (.udata u)
  | function f => exact h.refs (.function f)
  | thread t => exact h.refs (.thread t)
  | proto f => exact h.refs (.proto f)
  | upval a => exact h.refs (.upval a)

theorem marked (h : Closes t a l s s') : s'.marked = s.marked := by rw [h.eq]

theorem upval_of_ne (h : Closes t a l s s') {b : Nat} (hb : b ≠ a) : s'.upval b = s.upval b := by
  rw [h.eq]
  exact Function.update_of_ne hb ..

theorem upval_self (h : Closes t a l s s') : s'.upval a = .closed (s.upvalue a) := by
  rw [h.eq]
  exact Function.update_self ..

theorem objects (h : Closes t a l s s') (ha : a ∈ s.uvhead) : s'.objects.Perm s.objects := by
  have hobjects : s'.objects = s.strt.flatten.map .string ++ s'.rootgc ++ s'.sweepgc ++
      s.tmudata.map .udata ++ (s.uvhead.erase a).map .upval := by
    unfold State.objects
    rw [h.eq]
  have hperm : (s.uvhead.map Ref.upval).Perm (.upval a :: (s.uvhead.erase a).map .upval) :=
    (List.perm_cons_erase ha).map _
  rw [hobjects, List.append_assoc (s.strt.flatten.map Ref.string), h.roots, List.perm_iff_count]
  intro r
  have hcount := hperm.count_eq r
  simp only [State.objects, List.count_append, List.count_cons] at hcount ⊢
  omega

theorem kept (h : Closes t a l s s') (hs : Kept s) : Kept s' := by
  have hsafe (x : Ref) : Safe s' x ↔ Safe s x := by
    rw [h.eq]
    exact Iff.rfl
  refine ⟨fun o ho => ?_, fun o ho o' ho' => ?_, ?_⟩
  · rw [h.eq] at ho
    exact (hsafe o).mpr (hs.root o ho)
  · rw [h.refs] at ho'
    exact (hsafe o').mpr (hs.refs o ((hsafe o).mp ho) o' ho')
  · rw [h.eq]
    exact hs.fixed

theorem listed (h : Closes t a l s s') (hs : Listed s) (ha : a ∈ s.uvhead) : Listed s' := by
  have hperm := h.objects ha
  refine ⟨hperm.nodup_iff.mpr hs.nodup, fun x => ?_, fun b hb => ?_, fun b hb => ?_⟩
  · rw [h.marked, hperm.mem_iff]
    exact hs.mem x
  · rw [h.roots] at hb
    rcases List.mem_cons.mp hb with heq | hb
    · cases heq
    · exact hs.string b hb
  · by_cases hba : b = a
    · exact ⟨_, hba ▸ h.upval_self⟩
    · rw [h.roots] at hb
      rw [h.upval_of_ne hba]
      exact hs.closed b ((List.mem_cons.mp hb).resolve_left (by simpa using hba))

theorem opened (h : Closes t a l s s') (hs : Opened s) (hlisted : Listed s)
    (ht : s.marked (.thread t) ≠ none) (hl : (s.thread t).openupval = a :: l) : Opened s' := by
  obtain ⟨huvhead, hopen, hnodup, hsub, -⟩ :=
    @opened_detach _ hs hlisted.nodup_uvhead t a [] l ht hl
  have heq : s'.uvhead = (detach t a l s).uvhead := by rw [h.eq]; rfl
  have hopenupval (t' : Nat) :
      (s'.thread t').openupval = ((detach t a l s).thread t').openupval := by
    rw [h.openupval, openupval_detach]
  refine ⟨fun b hb => ?_, fun t' ht' b hb => ?_, fun t' ht' => ?_, fun b hb => ?_⟩
  · rw [heq] at hb
    obtain ⟨t', slot, hslot, ht', hmem⟩ := huvhead b hb
    rw [h.upval_of_ne (hsub b hb).2, h.marked]
    exact ⟨t', slot, hslot, ht', by rw [hopenupval]; exact hmem⟩
  · rw [hopenupval] at hb
    rw [h.marked] at ht'
    obtain ⟨hmem, hslot⟩ := hopen t' ht' b hb
    rw [heq, h.upval_of_ne (hsub b hmem).2]
    exact ⟨hmem, hslot⟩
  · rw [h.marked] at ht'
    rw [hopenupval]
    exact hnodup t' ht'
  · rw [heq] at hb
    rw [h.marked]
    exact hs.black b (hsub b hb).1

end Closes

/-- Outside of the mark phase the upvalue has the current white by now. -/
theorem Closes.inv {t a : Nat} {l : List Nat} (h : Closes t a l s s') (hs : Inv s)
    (hstate : s.gcstate ≠ .GCSpropagate) (ht : s.marked (.thread t) ≠ none)
    (hl : (s.thread t).openupval = a :: l)
    (hcolour : s.marked (.upval a) = some (.white s.currentwhite)) : Inv s' := by
  have ha : a ∈ s.uvhead := (hs.opened.openupval t ht a (by rw [hl]; simp)).1
  have hcurrent : s'.currentwhite = s.currentwhite := by rw [h.eq]
  have htm : s'.tmudata = s.tmudata := by rw [h.eq]
  refine ⟨h.kept hs.kept, h.listed hs.listed ha, h.opened hs.opened hs.listed ht hl,
    fun _ x c hc => ?_, fun hp => ?_⟩
  · rw [h.marked] at hc
    rw [hcurrent, htm]
    by_cases hx : x = .upval a
    · subst hx
      rw [hcolour] at hc
      exact Or.inl (Option.some.inj hc).symm
    · refine (hs.swept hstate x c hc).imp_right (Or.imp_left fun hu => ?_)
      have hsweeping : s'.Sweeping ↔ s.Sweeping := by rw [h.eq]; exact Iff.rfl
      cases x with
      | string b => rw [h.eq]; exact hu
      | upval b =>
        refine ⟨hsweeping.mpr hu.1, ?_⟩
        rw [h.upval_of_ne (by simpa using hx)]
        rcases hu.2 with hmem | ⟨t', slot, hslot, hmem⟩
        · exact Or.inl (h.sweepgc hmem)
        · exact Or.inr ⟨t', slot, hslot, h.sweepgc hmem⟩
      | udata | table | function | thread | proto => exact ⟨hsweeping.mpr hu.1, h.sweepgc hu.2⟩
  · rw [h.eq] at hp
    exact absurd hp hstate

theorem luaC_barrier_some {p : Ref} {v : Val} (hv : v.ref = some o) :
    luaC_barrier p v s = luaC_objbarrier p o s := by
  unfold luaC_barrier
  rw [hv]

theorem luaC_barrier_none {p : Ref} {v : Val} (hv : v.ref = none) : luaC_barrier p v s = s := by
  unfold luaC_barrier
  rw [hv]

/-- In the mark phase the barrier marks what the black object refers to. -/
theorem luaC_barrier_marks {p : Ref} {v : Val} (hstate : s.gcstate = .GCSpropagate)
    (hp : s.marked p = some .black) : Marks s (luaC_barrier p v s) ∧
      ∀ o ∈ v.ref, (luaC_barrier p v s).iswhite o = false := by
  cases hv : v.ref with
  | none =>
    rw [luaC_barrier_none hv]
    exact ⟨Marks.refl s, by simp⟩
  | some o =>
    rw [luaC_barrier_some hv]
    unfold luaC_objbarrier luaC_barrierf
    rw [if_pos hstate]
    have hblack : s.isblack p = true := State.isblack_iff.mpr hp
    cases ho : s.iswhite o with
    | true =>
      simp only [hblack, Bool.and_self, if_true]
      refine ⟨(Marks.reallymarkobject ho).1, fun o' ho' => ?_⟩
      obtain rfl := Option.mem_some.mp ho'
      exact (Marks.reallymarkobject ho).2
    | false =>
      simp only [Bool.false_and, Bool.false_eq_true, if_false]
      refine ⟨Marks.refl s, fun o' ho' => ?_⟩
      obtain rfl := Option.mem_some.mp ho'
      exact ho

/-- In the mark phase all is well but for one object, which is not clean. -/
structure PropagatingBut (o : Ref) (s : State) : Prop where
  tri : Tri (fun r => Deferred s r ∨ r = o) s
  linked : Linked s
  keyed : Keyed s
  white : ∀ r w, s.marked r = some (.white w) → w = s.currentwhite
  mainthread : s.iswhite (.thread s.mainthread) = false
  registry : s.iswhite (.table s.registry) = false

theorem PropagatingBut.marks (h : PropagatingBut o s) (hmarks : Marks s s') (hopen : OpenListed s)
    (hclean : s'.IsMarked o → o ∈ s'.gray ∨ Deferred s' o ∨ Clean s' o) : Propagating s' := by
  have hcurrent : s'.currentwhite = s.currentwhite := by rw [hmarks.eq]
  have hmain : s'.mainthread = s.mainthread := by rw [hmarks.eq]
  have hregistry : s'.registry = s.registry := by rw [hmarks.eq]
  refine ⟨fun r hr => ?_, hmarks.linked h.linked hopen, hmarks.keyed h.keyed, fun r w hw => ?_, ?_, ?_⟩
  · rcases hmarks.tri h.tri r hr with hgray | (hdef | rfl) | hc
    · exact Or.inl hgray
    · exact Or.inr (Or.inl (hmarks.deferred.mpr hdef))
    · exact hclean hr
    · exact Or.inr (Or.inr hc)
  · rw [hcurrent]
    exact h.white r w (hmarks.white r (State.iswhite_iff.mpr ⟨w, hw⟩) ▸ hw)
  · rw [hmain]
    exact hmarks.nonwhite h.mainthread
  · rw [hregistry]
    exact hmarks.nonwhite h.registry

/-- The upvalue is closed in the mark phase, and gray no longer. -/
theorem Closes.propagatingBut {t a : Nat} {l : List Nat} {f : Colour → Colour} (hf : Repaints f)
    (h : Closes t a l s s') (hs : Inv s) (hstate : s.gcstate = .GCSpropagate)
    (ht : s.marked (.thread t) ≠ none) (hl : (s.thread t).openupval = a :: l)
    (hself : (s'.recolour (.upval a) f).marked (.upval a) ≠ some .gray) :
    Ground (s'.recolour (.upval a) f) ∧
      PropagatingBut (.upval a) (s'.recolour (.upval a) f) := by
  have ha : a ∈ s.uvhead := (hs.opened.openupval t ht a (by rw [hl]; simp)).1
  have hp := hs.propagating hstate
  have hg : Ground s' := by
    refine ⟨h.kept hs.kept, h.listed hs.listed ha, h.opened hs.opened hs.listed ht hl, fun x => ?_⟩
    have hdead : s'.isdead x = s.isdead x := by rw [h.eq]; rfl
    rw [hdead]
    exact (hs.ground hstate).dead x
  have hgrows : Grows s' (s'.recolour (.upval a) f) := hf.grows fun b t' slot hb hslot => by
    cases hb
    rw [h.upval_self] at hslot
    cases hslot
  have hsame {x : Ref} (hx : x ≠ .upval a) :
      (s'.recolour (.upval a) f).marked x = s.marked x := by
    rw [marked_recolour_of_ne hx, h.marked]
  have hwhite (x : Ref) : (s'.recolour (.upval a) f).iswhite x = s.iswhite x := by
    rw [hf.iswhite]
    exact iswhite_congr (by rw [h.marked])
  have hgray : s'.gray = s.gray := by rw [h.eq]
  have huvhead (b : Nat) : b ∈ s'.uvhead ↔ b ∈ s.uvhead ∧ b ≠ a := by
    have heq : s'.uvhead = s.uvhead.erase a := by rw [h.eq]
    rw [heq, hs.listed.nodup_uvhead.mem_erase_iff, and_comm]
  have hdeferred (x : Ref) (hx : x ≠ .upval a) (hd : Deferred s x) :
      Deferred (s'.recolour (.upval a) f) x := by
    show Deferred s' x
    rcases hd with hagain | hweak | ⟨b, hb, rfl⟩ | htm
    · exact Or.inl (by rw [h.eq]; exact hagain)
    · exact Or.inr (Or.inl (by rw [h.eq]; exact hweak))
    · exact Or.inr (Or.inr (Or.inl ⟨b, (huvhead b).mpr ⟨hb, by simpa using hx⟩, rfl⟩))
    · exact Or.inr (Or.inr (Or.inr (by rw [h.eq]; exact htm)))
  have hgclist : s'.gclist = s.gclist := by rw [h.eq]; rfl
  have hkeyed : Keyed (s'.recolour (.upval a) f) := by
    intro t' ht' x hx
    rw [ne_eq, hgrows.none, h.marked]
    rw [hsame (by simp)] at ht'
    have htable : (s'.recolour (.upval a) f).table = s.table := by rw [h.eq]; rfl
    exact hp.keyed t' ht' x (htable ▸ hx)
  refine ⟨hgrows.ground hg, fun x hx => ?_, ⟨fun x hx => ?_, fun x hx => ?_, ?_, fun t' => ?_⟩,
    hkeyed, fun x w hw => ?_, ?_, ?_⟩
  · by_cases hxa : x = .upval a
    · exact Or.inr (Or.inl (Or.inr hxa))
    · have hx' : s.IsMarked x := by
        unfold State.IsMarked at hx ⊢
        rwa [hsame hxa] at hx
      rcases hp.tri x hx' with hmem | hd | hclean
      · exact Or.inl (by show x ∈ s'.gray; rw [hgray]; exact hmem)
      · exact Or.inr (Or.inl (Or.inl (hdeferred x hxa hd)))
      · refine Or.inr (Or.inr fun o ho => ?_)
        rw [hwhite]
        refine hclean o ?_
        rw [← h.strong]
        cases x <;> exact ho
  · have hxa : x ≠ .upval a := by
      rintro rfl
      exact hself hx
    rw [hsame hxa] at hx
    refine (hp.linked.gray x hx).imp_right (Or.imp (fun hmem => ?_) (hdeferred x hxa))
    show x ∈ s'.gray
    rw [hgray]
    exact hmem
  · have hlisted := hp.linked.listed x (hgclist ▸ hx)
    have hxa : x ≠ .upval a := by
      rintro rfl
      cases hlisted.2
    rw [hsame hxa]
    exact hlisted
  · show s'.gclist.Nodup
    rw [hgclist]
    exact hp.linked.nodup
  · rw [hsame (by simp)]
    exact hp.linked.black t'
  · have hx := hf.marked_of_white (State.iswhite_iff.mpr ⟨w, hw⟩)
    rw [hx, h.marked] at hw
    show w = s'.currentwhite
    rw [h.eq]
    exact hp.white x w hw
  · rw [hwhite]
    show s.iswhite (.thread s'.mainthread) = false
    rw [h.eq]
    exact hp.mainthread
  · rw [hwhite]
    show s.iswhite (.table s'.registry) = false
    rw [h.eq]
    exact hp.registry

theorem repaints_id : Repaints id := ⟨fun _ => rfl, Or.inl rfl, Or.inr rfl⟩

theorem close_makewhite (t a : Nat) (l : List Nat) (s : State) (r : Ref) :
    close t a l (s.makewhite r) = (close t a l s).makewhite r := by
  unfold close linkroot
  show (if s.rootgc = [] then _ else _) = State.makewhite (if s.rootgc = [] then _ else _) r
  split <;> rfl

theorem closeone_inv {t a : Nat} {rest : List Nat} (h : Inv s) (ht : s.marked (.thread t) ≠ none)
    (hl : (s.thread t).openupval = a :: rest) : Inv (closeone t a rest s) := by
  have ha : a ∈ s.uvhead := (h.opened.openupval t ht a (by rw [hl]; simp)).1
  have hsome : s.marked (.upval a) ≠ none := by
    refine (h.listed.mem _).mp ?_
    unfold State.objects
    simp [ha]
  unfold closeone
  dsimp only
  split
  · -- a dead upvalue is freed
    rename_i hdead
    have hdead : s.isdead (.upval a) = true := hdead
    have hstate : s.gcstate ≠ .GCSpropagate := by
      intro hstate
      rw [(h.ground hstate).dead] at hdead
      cases hdead
    have hfixed : s.fixed (.upval a) = false := by
      cases hf : s.fixed (.upval a) with
      | false => rfl
      | true => rcases h.kept.fixed _ hf with ⟨b, hb⟩ | hb <;> cases hb
    exact @freeupval_inv _ t a [] rest h hstate ht hl (by simp [survives, hdead, hfixed])
  · rename_i hdead
    have hdead : s.isdead (.upval a) = false := Bool.eq_false_iff.mpr hdead
    have hclose := close_closes t a rest s
    show Inv (luaC_linkupval a ((detach t a rest s).setUpval a (.closed ((detach t a rest s).upvalue a))))
    unfold luaC_linkupval
    dsimp only
    show Inv (if (close t a rest s).isgray (.upval a) then _ else close t a rest s)
    have hgray : (close t a rest s).isgray (.upval a) = s.isgray (.upval a) := by
      unfold State.isgray
      rw [hclose.marked]
    have hgcstate : (close t a rest s).gcstate = s.gcstate := by rw [hclose.eq]
    rw [hgray]
    split
    · rename_i hcolour
      rw [State.isgray_iff] at hcolour
      show Inv (if (close t a rest s).gcstate = .GCSpropagate then
        luaC_barrier (.upval a) ((close t a rest s).upvalue a)
          ((close t a rest s).recolour (.upval a) Colour.gray2black) else
        (close t a rest s).makewhite (.upval a))
      rw [hgcstate]
      split
      · -- a marked upvalue becomes black, and its value is marked
        rename_i hstate
        generalize close t a rest s = s' at hclose hgcstate
        have hself : (s'.recolour (.upval a) Colour.gray2black).marked (.upval a) = some .black := by
          rw [marked_recolour_self, hclose.marked, hcolour]
          rfl
        obtain ⟨hg, hp⟩ := hclose.propagatingBut repaints_gray2black h hstate ht hl
          (by rw [hself]; simp)
        have hstate' : (s'.recolour (.upval a) Colour.gray2black).gcstate = .GCSpropagate :=
          hgcstate.trans hstate
        obtain ⟨hmarks, hmarked⟩ := @luaC_barrier_marks _ _ (s'.upvalue a) hstate' hself
        refine (hmarks.grows.ground hg).inv (by rw [hmarks.eq]; exact hstate')
          (hp.marks hmarks hg.listed.openListed fun _ => Or.inr (Or.inr fun o ho => ?_))
        rw [hmarks.strong] at ho
        exact hmarked o (Option.mem_toList.mp ho)
      · -- the sweep will not come to it
        rename_i hstate
        rw [← close_makewhite]
        have hmw := h.makewhite (r := .upval a) hstate (by simp [survives, hdead])
        refine (close_closes t a rest (s.makewhite (.upval a))).inv hmw hstate ?_ hl ?_
        · have hsame : (s.makewhite (.upval a)).marked (.thread t) = s.marked (.thread t) :=
            marked_recolour_of_ne (by simp)
          rwa [hsame]
        · unfold State.makewhite
          rw [marked_recolour_self, hcolour]
          rfl
    · -- a white one stays white
      rename_i hcolour
      have hwhite : s.marked (.upval a) = some (.white s.currentwhite) := by
        cases hc : s.marked (.upval a) with
        | none => exact absurd hc hsome
        | some c =>
          cases c with
          | gray => exact absurd (State.isgray_iff.mpr hc) hcolour
          | black => exact absurd hc (h.opened.black a ha)
          | white w =>
            have hd := State.isdead_eq_false.mp hdead
            rw [hc] at hd
            cases w <;> cases hcur : s.currentwhite <;> simp_all [White.other]
      generalize close t a rest s = s' at hclose hgcstate
      by_cases hstate : s.gcstate = .GCSpropagate
      · obtain ⟨hg, hp⟩ := hclose.propagatingBut repaints_id h hstate ht hl
          (by rw [recolour_id, hclose.marked, hwhite]; simp)
        rw [recolour_id] at hg hp
        refine hg.inv (hgcstate.trans hstate) (hp.marks (Marks.refl _) hg.listed.openListed fun hm => ?_)
        unfold State.IsMarked at hm
        rw [hclose.marked, hwhite] at hm
        simp at hm
      · exact hclose.inv h hstate ht hl hwhite

/-- What closing an upvalue, or freeing a dead one, leaves alone. -/
structure ClosedOne (t : Nat) (rest : List Nat) (s s' : State) : Prop where
  openupval : ∀ t', (s'.thread t').openupval = if t' = t then rest else (s.thread t').openupval
  gcstate : s'.gcstate = s.gcstate
  none : ∀ r, (∀ b, r ≠ .upval b) → (s'.marked r = none ↔ s.marked r = none)
  same : s.gcstate ≠ .GCSpropagate → ∀ r, (∀ b, r ≠ .upval b) → s'.marked r = s.marked r
  currentwhite : s'.currentwhite = s.currentwhite
  fixed : s'.fixed = s.fixed
  strt : s'.strt = s.strt
  rootgc : s.rootgc ⊆ s'.rootgc
  sweepgc : s.sweepgc ⊆ s'.sweepgc

theorem openupval_setThread (t : Nat) (l : List Nat) (s : State) (t' : Nat) :
    ((s.setThread t { s.thread t with openupval := l }).thread t').openupval =
      if t' = t then l else (s.thread t').openupval := by
  have h : (s.setThread t { s.thread t with openupval := l }).thread t' =
      if t' = t then { s.thread t with openupval := l } else s.thread t' := Function.update_apply ..
  rw [h]
  split <;> rfl

theorem linkroot_subset (o : Ref) (s : State) :
    s.rootgc ⊆ (linkroot o s).rootgc ∧ s.sweepgc ⊆ (linkroot o s).sweepgc := by
  unfold linkroot
  split
  · exact ⟨List.Subset.refl _, List.subset_cons_self ..⟩
  · exact ⟨List.subset_cons_self .., List.Subset.refl _⟩

theorem closeone_frame (t a : Nat) (rest : List Nat) (s : State) :
    ClosedOne t rest s (closeone t a rest s) := by
  unfold closeone
  dsimp only
  split
  · unfold luaF_freeupval
    dsimp only
    have hmarked (s' : State) (hs' : s'.marked = s.marked) (r : Ref) (hr : ∀ b, r ≠ .upval b) :
        (freemem (.upval a) s').marked r = s.marked r := by
      rw [marked_freemem_of_ne (hr a), hs']
    split
    · have hsame := hmarked
        (unlinkupval a (s.setThread t { s.thread t with openupval := rest })) rfl
      exact ⟨openupval_setThread t rest s, rfl, fun r hr => by rw [hsame r hr], fun _ => hsame, rfl, rfl,
        rfl, List.Subset.refl _, List.Subset.refl _⟩
    · have hsame := hmarked (s.setThread t { s.thread t with openupval := rest }) rfl
      exact ⟨openupval_setThread t rest s, rfl, fun r hr => by rw [hsame r hr], fun _ => hsame, rfl, rfl,
        rfl, List.Subset.refl _, List.Subset.refl _⟩
  · have hclose := close_closes t a rest s
    have hroot : s.rootgc ⊆ (close t a rest s).rootgc := (linkroot_subset (.upval a)
      ((detach t a rest s).setUpval a (.closed ((detach t a rest s).upvalue a)))).1
    show ClosedOne t rest s
      (luaC_linkupval a ((detach t a rest s).setUpval a (.closed ((detach t a rest s).upvalue a))))
    unfold luaC_linkupval
    dsimp only
    show ClosedOne t rest s (if (close t a rest s).isgray (.upval a) then
      if (close t a rest s).gcstate = .GCSpropagate then
        luaC_barrier (.upval a) ((close t a rest s).upvalue a)
          ((close t a rest s).recolour (.upval a) Colour.gray2black)
      else (close t a rest s).makewhite (.upval a) else close t a rest s)
    generalize close t a rest s = s' at hclose hroot
    have hgcstate : s'.gcstate = s.gcstate := by rw [hclose.eq]
    have hbase : ClosedOne t rest s s' :=
      ⟨hclose.openupval, hgcstate, fun r _ => by rw [hclose.marked], fun _ r _ => by rw [hclose.marked],
        by rw [hclose.eq], by rw [hclose.eq], by rw [hclose.eq], hroot, hclose.sweepgc⟩
    split
    · rename_i hgray
      rw [State.isgray_iff] at hgray
      split
      · rename_i hstate
        have hself : (s'.recolour (.upval a) Colour.gray2black).marked (.upval a) = some .black := by
          rw [marked_recolour_self, hgray]
          rfl
        obtain ⟨hmarks, -⟩ :=
          @luaC_barrier_marks (s'.recolour (.upval a) Colour.gray2black) _ (s'.upvalue a) hstate hself
        have hgrows := hmarks.grows
        refine ⟨fun t' => ?_, ?_, fun r hr => ?_, fun hne => absurd (hgcstate.symm.trans hstate) hne,
          ?_, ?_, ?_, ?_, ?_⟩
        · rw [hmarks.thread]
          exact hclose.openupval t'
        · rw [hmarks.eq]
          exact hgcstate
        · rw [hgrows.none, marked_recolour_of_ne (hr a), hclose.marked]
        all_goals rw [hmarks.eq]
        · exact hbase.currentwhite
        · exact hbase.fixed
        · exact hbase.strt
        · exact hroot
        · exact hclose.sweepgc
      · have hsame (r : Ref) (hr : ∀ b, r ≠ .upval b) :
            (s'.makewhite (.upval a)).marked r = s.marked r :=
          (marked_recolour_of_ne (hr a)).trans (by rw [hclose.marked])
        exact ⟨hclose.openupval, hgcstate, fun r hr => by rw [hsame r hr], fun _ => hsame,
          hbase.currentwhite, hbase.fixed, hbase.strt, hroot, hclose.sweepgc⟩
    · exact hbase

theorem closeLoop_inv {t level : Nat} {l : List Nat} (h : Inv s) (ht : s.marked (.thread t) ≠ none)
    (hl : (s.thread t).openupval = l) : Inv (closeLoop t level l s) := by
  induction l generalizing s with
  | nil => exact h
  | cons a rest ih =>
    unfold closeLoop
    split
    · have hframe := closeone_frame t a rest s
      refine ih (closeone_inv h ht hl) ((not_congr (hframe.none _ (by simp))).mpr ht) ?_
      rw [hframe.openupval, if_pos rfl]
    · exact h

theorem luaF_close_inv {t level : Nat} (h : Inv s) (ht : s.marked (.thread t) ≠ none) :
    Inv (luaF_close t level s) := closeLoop_inv h ht rfl

end Luaxx.Collector
