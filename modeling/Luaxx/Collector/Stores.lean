import Luaxx.Collector.Sweeping
import Luaxx.Collector.Mutator

/-!
# Stores and barriers

A store can make a black object refer to a white one. The object then owes its barrier, which marks
the white one or makes the black one gray again.
-/

namespace Luaxx.Collector

open Luaxx.Gc (White GCState)

variable {s s' : State} {o p r : Ref}

/-! ## Stores -/

/-- The contents of objects change. What is new among their references is in `X`, and `E` relates an
object to the references that it must have marked. -/
structure Stores (X : Ref → Prop) (E : Ref → Ref → Prop) (s s' : State) : Prop where
  eq : s' = { s with
    udata := s'.udata, table := s'.table, function := s'.function, thread := s'.thread,
    proto := s'.proto, upval := s'.upval }
  refs : ∀ r, ∀ o ∈ s'.refs r, o ∈ s.refs r ∨ X o
  strong : ∀ r, (∀ h ∈ s.weak, r ≠ .table h) → ∀ o ∈ s'.strong r, o ∈ s.strong r ∨ E r o
  new : ∀ r o, E r o → X o
  openupval : ∀ t, (s'.thread t).openupval = (s.thread t).openupval
  stack : ∀ a t slot, s'.upval a = .stack t slot ↔ s.upval a = .stack t slot

namespace Stores

variable {X : Ref → Prop} {E : Ref → Ref → Prop}

theorem marked (h : Stores X E s s') : s'.marked = s.marked := by rw [h.eq]

theorem safe (h : Stores X E s s') : Safe s' r ↔ Safe s r := by
  rw [h.eq]
  exact Iff.rfl

theorem iswhite (h : Stores X E s s') : s'.iswhite r = s.iswhite r := by
  rw [h.eq]
  rfl

theorem gcstate (h : Stores X E s s') : s'.gcstate = s.gcstate := by rw [h.eq]

theorem weak (h : Stores X E s s') : s'.weak = s.weak := by rw [h.eq]

theorem deferred (h : Stores X E s s') : Deferred s' r ↔ Deferred s r := by
  rw [h.eq]
  exact Iff.rfl

theorem kept (h : Stores X E s s') (hs : Kept s) (hX : ∀ o, X o → Safe s o) : Kept s' := by
  refine ⟨fun o ho => ?_, fun o ho o' ho' => ?_, ?_⟩
  · rw [h.eq] at ho
    exact h.safe.mpr (hs.root o ho)
  · rcases h.refs o o' ho' with hold | hnew
    · exact h.safe.mpr (hs.refs o (h.safe.mp ho) o' hold)
    · exact h.safe.mpr (hX o' hnew)
  · rw [h.eq]
    exact hs.fixed

theorem listed (h : Stores X E s s') (hs : Listed s) : Listed s' := by
  have hobjects : s'.objects = s.objects := by rw [h.eq]; rfl
  have hroots : s'.rootgc ++ s'.sweepgc = s.rootgc ++ s.sweepgc := by rw [h.eq]
  refine ⟨hobjects ▸ hs.nodup, fun r => ?_, fun a ha => ?_, fun a ha => ?_⟩
  · rw [hobjects, h.marked]
    exact hs.mem r
  · exact hs.string a (hroots ▸ ha)
  · obtain ⟨v, hv⟩ := hs.closed a (hroots ▸ ha)
    cases hu : s'.upval a with
    | closed v' => exact ⟨v', rfl⟩
    | stack t slot =>
      rw [(h.stack a t slot).mp hu] at hv
      cases hv

theorem opened (h : Stores X E s s') (hs : Opened s) : Opened s' := by
  have huvhead : s'.uvhead = s.uvhead := by rw [h.eq]
  refine ⟨fun a ha => ?_, fun t ht a ha => ?_, fun t ht => ?_, fun a ha => ?_⟩
  · obtain ⟨t, slot, hslot, ht, hmem⟩ := hs.uvhead a (huvhead ▸ ha)
    exact ⟨t, slot, (h.stack a t slot).mpr hslot, h.marked ▸ ht, (h.openupval t).symm ▸ hmem⟩
  · obtain ⟨hmem, slot, hslot⟩ := hs.openupval t (h.marked ▸ ht) a (h.openupval t ▸ ha)
    exact ⟨huvhead.symm ▸ hmem, slot, (h.stack a t slot).mpr hslot⟩
  · rw [h.openupval]
    exact hs.nodup t (h.marked ▸ ht)
  · rw [h.marked]
    exact hs.black a (huvhead ▸ ha)

theorem unswept (h : Stores X E s s') (hr : Unswept s r) : Unswept s' r := by
  cases r with
  | string a => rw [h.eq]; exact hr
  | upval a =>
    refine ⟨by rw [h.eq]; exact hr.1, hr.2.imp (fun hmem => by rw [h.eq]; exact hmem) ?_⟩
    rintro ⟨t, slot, hslot, hmem⟩
    exact ⟨t, slot, (h.stack a t slot).mpr hslot, by rw [h.eq]; exact hmem⟩
  | udata | table | function | thread | proto => rw [h.eq]; exact hr

theorem swept (h : Stores X E s s') (hs : Swept s) : Swept s' := by
  intro r c hc
  have hcurrent : s'.currentwhite = s.currentwhite := by rw [h.eq]
  have htm : s'.tmudata = s.tmudata := by rw [h.eq]
  rw [hcurrent, htm]
  exact (hs r c (h.marked ▸ hc)).imp_right (Or.imp_left h.unswept)

theorem linked (h : Stores X E s s') (hs : Linked s) : Linked s' := by
  rw [h.eq]
  exact ⟨hs.gray, hs.listed, hs.nodup, hs.black⟩

/-- A marked object that is not to be traversed has marked what it refers to, but for what `E` says. -/
theorem tri (h : Stores X E s s') (hs : Tri (Deferred s) s) (hr : s'.IsMarked r) :
    r ∈ s'.gray ∨ Deferred s' r ∨ ∀ o ∈ s'.strong r, s'.iswhite o = false ∨ E r o := by
  have hgray : s'.gray = s.gray := by rw [h.eq]
  by_cases hweak : ∃ h ∈ s.weak, r = .table h
  · exact Or.inr (Or.inl (h.deferred.mpr (Or.inr (Or.inl hweak))))
  · unfold State.IsMarked at hr
    rw [h.marked] at hr
    refine (hs r hr).imp (fun hmem => hgray.symm ▸ hmem) (Or.imp h.deferred.mpr fun hc o ho => ?_)
    push Not at hweak
    rw [h.iswhite]
    exact (h.strong r hweak o ho).imp_left (hc o)

theorem keyed (h : Stores X E s s') (hs : Keyed s) (hlinked : Linked s) (hX : ∀ o, X o → Safe s o) :
    Keyed s' := by
  intro t ht o ho
  rw [h.marked] at ht ⊢
  have hweak : t ∉ s.weak := by
    intro hmem
    have hgray := (hlinked.listed (.table t)
      (List.mem_append_right _ (List.mem_map_of_mem hmem))).1
    rw [ht] at hgray
    cases hgray
  have hstrong := h.strong (.table t) (fun t' ht' heq => hweak (Ref.table.inj heq ▸ ht')) o
  rcases hstrong (by simpa [State.strong, h.weak, hweak] using ho) with hold | hnew
  · exact hs t ht o (by simpa [State.strong, hweak] using hold)
  · exact (hX o (h.new _ o hnew)).1

theorem propagating (h : Stores X E s s') (hs : Propagating s) :
    s'.iswhite (.thread s'.mainthread) = false ∧ s'.iswhite (.table s'.registry) = false ∧
      ∀ r w, s'.marked r = some (.white w) → w = s'.currentwhite := by
  rw [h.eq]
  exact ⟨hs.mainthread, hs.registry, hs.white⟩

end Stores

theorem Linked.strong_of_gray (h : Linked s) (hr : s.marked r = some .gray) :
    r ∈ s.gray ∨ Deferred s r ∨ Clean s r := by
  rcases h.gray r hr with ⟨a, rfl⟩ | hmem | hdef
  · exact Or.inr (Or.inr (by simp [Clean, State.strong, State.refs]))
  · exact Or.inl hmem
  · exact Or.inr (Or.inl hdef)

/-- A store that needs no barrier. -/
theorem Stores.inv {X : Ref → Prop} {E : Ref → Ref → Prop} (h : Stores X E s s') (hs : Inv s)
    (hX : ∀ o, X o → Safe s o)
    (hE : s.gcstate = .GCSpropagate → ∀ r o, E r o → s.isblack r = true → s.iswhite o = false) :
    Inv s' where
  kept := h.kept hs.kept hX
  listed := h.listed hs.listed
  opened := h.opened hs.opened
  swept hne := h.swept (hs.swept (h.gcstate ▸ hne))
  propagating hstate := by
    have hstate := h.gcstate ▸ hstate
    have hp := hs.propagating hstate
    obtain ⟨hmain, hregistry, hwhite⟩ := h.propagating hp
    refine ⟨fun r hr => ?_, h.linked hp.linked, h.keyed hp.keyed hp.linked hX, hwhite, hmain, hregistry⟩
    rcases hr with hgray | hblack
    · exact (h.linked hp.linked).strong_of_gray hgray
    · refine (h.tri hp.tri (Or.inr hblack)).imp_right (Or.imp_right fun hc o ho => ?_)
      refine (hc o ho).elim id fun hpair => ?_
      rw [h.iswhite]
      exact hE hstate r o hpair (State.isblack_iff.mpr (h.marked ▸ hblack))

/-! ## Barriers -/

/-- The invariant, but that `p` may be black and refer to `o`, which is white. -/
structure Owes (p o : Ref) (s : State) : Prop where
  kept : Kept s
  listed : Listed s
  opened : Opened s
  swept : s.gcstate ≠ .GCSpropagate → Swept s
  propagating : s.gcstate = .GCSpropagate → PropagatingBut p s
  black : s.gcstate = .GCSpropagate → s.isblack p = true →
    Deferred s p ∨ ∀ x ∈ s.strong p, s.iswhite x = false ∨ x = o

theorem Stores.owes {X : Ref → Prop} {E : Ref → Ref → Prop} (h : Stores X E s s') (hs : Inv s)
    (hX : ∀ o, X o → Safe s o) (hE : ∀ r x, E r x → r = p ∧ x = o) : Owes p o s' where
  kept := h.kept hs.kept hX
  listed := h.listed hs.listed
  opened := h.opened hs.opened
  swept hne := h.swept (hs.swept (h.gcstate ▸ hne))
  propagating hstate := by
    have hp := hs.propagating (h.gcstate ▸ hstate)
    obtain ⟨hmain, hregistry, hwhite⟩ := h.propagating hp
    refine ⟨fun r hr => ?_, h.linked hp.linked, h.keyed hp.keyed hp.linked hX, hwhite, hmain, hregistry⟩
    by_cases hrp : r = p
    · exact Or.inr (Or.inl (Or.inr hrp))
    · refine (h.tri hp.tri hr).imp_right (Or.imp Or.inl fun hc o ho => ?_)
      exact (hc o ho).elim id fun hpair => absurd (hE r o hpair).1 hrp
  black hstate hblack := by
    have hp := hs.propagating (h.gcstate ▸ hstate)
    rcases h.tri hp.tri (Or.inr (State.isblack_iff.mp hblack)) with hgray | hdef | hc
    · -- what is in the list is gray
      have hgray := ((h.linked hp.linked).listed p (List.mem_append_left _
        (List.mem_append_left _ hgray))).1
      rw [State.isblack_iff.mp hblack] at hgray
      cases hgray
    · exact Or.inl hdef
    · exact Or.inr fun x hx => (hc x hx).imp_right fun hpair => (hE p x hpair).2

namespace Owes

theorem ground (h : Owes p o s) (hstate : s.gcstate = .GCSpropagate) : Ground s := by
  refine ⟨h.kept, h.listed, h.opened, fun r => State.isdead_eq_false.mpr fun hr => ?_⟩
  exact White.other_ne _ ((h.propagating hstate).white r _ hr)

/-- Nothing is owed where the object is not black or the other one is not white. -/
theorem inv (h : Owes p o s)
    (hpo : s.gcstate = .GCSpropagate → s.isblack p = true → s.iswhite o = false) : Inv s where
  kept := h.kept
  listed := h.listed
  opened := h.opened
  swept := h.swept
  propagating hstate := by
    have hp := h.propagating hstate
    refine ⟨fun r hr => ?_, hp.linked, hp.keyed, hp.white, hp.mainthread, hp.registry⟩
    rcases hr with hgray | hblack
    · exact hp.linked.strong_of_gray hgray
    · rcases hp.tri r (Or.inr hblack) with hmem | (hdef | rfl) | hc
      · exact Or.inl hmem
      · exact Or.inr (Or.inl hdef)
      · have hblack := State.isblack_iff.mpr hblack
        refine Or.inr ((h.black hstate hblack).imp_right fun hc x hx => ?_)
        exact (hc x hx).elim id fun heq => heq ▸ hpo hstate hblack
      · exact Or.inr (Or.inr hc)

/-- The barrier of an object that is black if the one that owes it is. -/
theorem objbarrier {q : Ref} (h : Owes p o s)
    (hq : s.gcstate = .GCSpropagate → s.isblack p = true → s.isblack q = true) :
    Inv (luaC_objbarrier q o s) := by
  unfold luaC_objbarrier luaC_barrierf
  by_cases hc : (s.iswhite o && s.isblack q) = true
  · rw [if_pos hc]
    obtain ⟨ho, hblack⟩ := (Bool.and_eq_true _ _).mp hc
    by_cases hstate : s.gcstate = .GCSpropagate
    · rw [if_pos hstate]
      obtain ⟨hmarks, hwhite⟩ := Marks.reallymarkobject ho
      have hg := h.ground hstate
      have hstate' : (reallymarkobject o s).gcstate = .GCSpropagate := by rw [hmarks.eq, hstate]
      have hp := h.propagating hstate
      refine (hmarks.grows.ground hg).inv hstate'
        (hp.marks hmarks hg.listed.openListed fun hmarked => ?_)
      by_cases howed : s.isblack p = true
      · refine Or.inr ((h.black hstate howed).imp hmarks.deferred.mpr fun hc x hx => ?_)
        rw [hmarks.strong] at hx
        rcases hc x hx with hx | rfl
        · exact hmarks.nonwhite hx
        · exact hwhite
      · have hinv := (h.inv fun _ hblack => absurd hblack howed).propagating hstate
        exact (hmarks.tri hinv.tri p hmarked).imp_right (Or.imp_left hmarks.deferred.mpr)
    · rw [if_neg hstate]
      refine (h.inv fun hp => absurd hp hstate).makewhite hstate ?_
      have hdead : s.isdead q = false := by
        rw [State.isdead_eq_false, State.isblack_iff.mp hblack]
        simp
      simp [survives, hdead]
  · rw [if_neg hc]
    refine h.inv fun hstate hblack => ?_
    cases ho : s.iswhite o with
    | false => rfl
    | true => simp [ho, hq hstate hblack] at hc

/-- The table becomes gray again, and is traversed once more in the atomic step. -/
theorem barrierback {t : Nat} (h : Owes (.table t) o s) (hblack : s.marked (.table t) = some .black) :
    Inv (luaC_barrierback t s) := by
  have hself : (luaC_barrierback t s).marked (.table t) = some .gray := by
    show (s.recolour (.table t) Colour.black2gray).marked (.table t) = _
    rw [marked_recolour_self, hblack]
    rfl
  have hsame {r : Ref} (hr : r ≠ .table t) : (luaC_barrierback t s).marked r = s.marked r :=
    marked_recolour_of_ne hr
  have hnone {r : Ref} : (luaC_barrierback t s).marked r ≠ none ↔ s.marked r ≠ none := by
    by_cases hr : r = .table t
    · simp [hr, hself, hblack]
    · rw [hsame hr]
  have hsafe {r : Ref} : Safe (luaC_barrierback t s) r ↔ Safe s r := by
    unfold Safe State.isdead
    by_cases hr : r = .table t
    · simp [hr, hself, hblack]
    · rw [hsame hr]
      exact Iff.rfl
  have hmarked {r : Ref} : (luaC_barrierback t s).IsMarked r ↔ s.IsMarked r :=
    repaints_black2gray.isMarked
  have hwhite {r : Ref} : (luaC_barrierback t s).iswhite r = s.iswhite r := repaints_black2gray.iswhite
  refine ⟨⟨fun o ho => hsafe.mpr (h.kept.root o ho), fun o ho o' ho' =>
    hsafe.mpr (h.kept.refs o (hsafe.mp ho) o' (by cases o <;> exact ho')), h.kept.fixed⟩,
    ⟨h.listed.nodup, fun r => (h.listed.mem r).trans hnone.symm, h.listed.string, h.listed.closed⟩,
    ⟨fun a ha => ?_, fun t ht => h.opened.openupval t (hnone.mp ht),
      fun t ht => h.opened.nodup t (hnone.mp ht), fun a ha => ?_⟩, fun hne r c hc => ?_, fun hstate => ?_⟩
  · obtain ⟨t', slot, hslot, ht', hmem⟩ := h.opened.uvhead a ha
    exact ⟨t', slot, hslot, hnone.mpr ht', hmem⟩
  · rw [hsame (by simp)]
    exact h.opened.black a ha
  · by_cases hr : r = .table t
    · subst hr
      refine Or.inr ?_
      exact (h.swept hne _ _ hblack).resolve_left (by simp)
    · rw [hsame hr] at hc
      exact (h.swept hne r c hc).imp_right (Or.imp_left fun hu => by cases r <;> exact hu)
  · have hp := h.propagating hstate
    have hlisted (r : Ref) (hr : r ∈ s.gclist) : r ≠ .table t := by
      rintro rfl
      have hgray := (hp.linked.listed _ hr).1
      rw [hblack] at hgray
      cases hgray
    have hdef {r : Ref} (hr : Deferred s r) : Deferred (luaC_barrierback t s) r :=
      hr.imp_left (List.mem_cons_of_mem _)
    have hperm : (luaC_barrierback t s).gclist.Perm (.table t :: s.gclist) := by
      show (s.gray ++ Ref.table t :: s.grayagain ++ s.weak.map Ref.table).Perm
        (Ref.table t :: (s.gray ++ s.grayagain ++ s.weak.map Ref.table))
      rw [← List.cons_append]
      exact List.perm_middle.append_right _
    have hkeyed : Keyed (luaC_barrierback t s) := by
      intro t' ht' x hx
      have hne : Ref.table t' ≠ .table t := by
        intro heq
        rw [heq, hself] at ht'
        cases ht'
      exact hnone.mpr (hp.keyed t' (hsame hne ▸ ht') x hx)
    refine ⟨fun r hr => ?_, ⟨fun r hr => ?_, fun r hr => ?_, ?_, fun t' => ?_⟩, hkeyed, fun r w hw => ?_,
      hwhite.trans hp.mainthread, hwhite.trans hp.registry⟩
    · rcases hp.tri r (hmarked.mp hr) with hmem | (hd | rfl) | hc
      · exact Or.inl hmem
      · exact Or.inr (Or.inl (hdef hd))
      · exact Or.inr (Or.inl (Or.inl List.mem_cons_self))
      · refine Or.inr (Or.inr fun x hx => hwhite.trans (hc x ?_))
        cases r <;> exact hx
    · by_cases hrt : r = .table t
      · exact Or.inr (Or.inr (Or.inl (hrt ▸ List.mem_cons_self)))
      · rw [hsame hrt] at hr
        exact (hp.linked.gray r hr).imp_right (Or.imp_right hdef)
    · rcases List.mem_cons.mp (hperm.mem_iff.mp hr) with rfl | hr
      · exact ⟨hself, rfl⟩
      · rw [hsame (hlisted r hr)]
        exact hp.linked.listed r hr
    · rw [hperm.nodup_iff, List.nodup_cons]
      exact ⟨fun hr => hlisted _ hr rfl, hp.linked.nodup⟩
    · rw [hsame (by simp)]
      exact hp.linked.black t'
    · have hr : r ≠ .table t := by
        rintro rfl
        rw [hself] at hw
        cases hw
      exact hp.white r w (hsame hr ▸ hw)

theorem objbarriert {t : Nat} (h : Owes (.table t) o s) : Inv (luaC_objbarriert t o s) := by
  unfold luaC_objbarriert
  by_cases hc : (s.iswhite o && s.isblack (.table t)) = true
  · rw [if_pos hc]
    exact h.barrierback (State.isblack_iff.mp ((Bool.and_eq_true _ _).mp hc).2)
  · rw [if_neg hc]
    refine h.inv fun hstate hblack => ?_
    cases ho : s.iswhite o with
    | false => rfl
    | true => simp [ho, hblack] at hc

end Owes

theorem Inv.owes (h : Inv s) (p o : Ref) : Owes p o s where
  kept := h.kept
  listed := h.listed
  opened := h.opened
  swept := h.swept
  propagating hstate := by
    have hp := h.propagating hstate
    exact ⟨hp.tri.mono fun _ _ hd => Or.inl (Or.inl hd), hp.linked, hp.keyed, hp.white, hp.mainthread,
      hp.registry⟩
  black hstate hblack := by
    have hp := h.propagating hstate
    rcases hp.tri p (Or.inr (State.isblack_iff.mp hblack)) with hgray | hdef | hc
    · have hgray := (hp.linked.listed p (List.mem_append_left _ (List.mem_append_left _ hgray))).1
      rw [State.isblack_iff.mp hblack] at hgray
      cases hgray
    · exact Or.inl hdef
    · exact Or.inr fun x hx => Or.inl (hc x hx)

/-! ## Stores of each kind -/

/-- A store in an object that is no table. -/
theorem Stores.of_refs {X : Ref → Prop} {E : Ref → Ref → Prop}
    (heq : s' = { s with
      udata := s'.udata, function := s'.function, thread := s'.thread, proto := s'.proto,
      upval := s'.upval })
    (hrefs : ∀ r, ∀ o ∈ s'.refs r, o ∈ s.refs r ∨ E r o) (hE : ∀ r o, E r o → X o)
    (hopen : ∀ t, (s'.thread t).openupval = (s.thread t).openupval)
    (hstack : ∀ a t slot, s'.upval a = .stack t slot ↔ s.upval a = .stack t slot) :
    Stores X E s s' := by
  refine ⟨by rw [heq], fun r o ho => (hrefs r o ho).imp_right (hE r o), fun r _ o ho => ?_, hE, hopen,
    hstack⟩
  cases r with
  | table h =>
    rw [heq] at ho
    exact Or.inl ho
  | string a => exact hrefs (.string a) o ho
  | udata u => exact hrefs (.udata u) o ho
  | function f => exact hrefs (.function f) o ho
  | thread t => exact hrefs (.thread t) o ho
  | proto f => exact hrefs (.proto f) o ho
  | upval a => exact hrefs (.upval a) o ho

variable {X : Ref → Prop}

theorem Stores.setFunction {f : Nat} {cl : Closure}
    (h : ∀ o ∈ cl.refs, o ∈ (s.function f).refs ∨ X o) :
    Stores X (fun r o => r = .function f ∧ X o) s (s.setFunction f cl) := by
  refine Stores.of_refs rfl (fun r o ho => ?_) (fun _ _ => And.right) (fun _ => rfl) fun _ _ _ => Iff.rfl
  by_cases hr : r = .function f
  · subst hr
    have hself : (s.setFunction f cl).refs (.function f) = cl.refs :=
      congrArg Closure.refs (Function.update_self ..)
    exact (h o (hself ▸ ho)).imp_right fun hX => ⟨rfl, hX⟩
  · refine Or.inl ?_
    cases r with
    | function f' =>
      have hsame : (s.setFunction f cl).refs (.function f') = s.refs (.function f') :=
        congrArg Closure.refs (Function.update_of_ne (by simpa using hr) ..)
      exact hsame ▸ ho
    | string | udata | table | thread | proto | upval => exact ho

theorem Stores.setUdata {u : Nat} {x : Udata} (h : ∀ o ∈ x.refs, o ∈ (s.udata u).refs ∨ X o) :
    Stores X (fun r o => r = .udata u ∧ X o) s (s.setUdata u x) := by
  refine Stores.of_refs rfl (fun r o ho => ?_) (fun _ _ => And.right) (fun _ => rfl) fun _ _ _ => Iff.rfl
  by_cases hr : r = .udata u
  · subst hr
    have hself : (s.setUdata u x).refs (.udata u) = x.refs :=
      congrArg Udata.refs (Function.update_self ..)
    exact (h o (hself ▸ ho)).imp_right fun hX => ⟨rfl, hX⟩
  · refine Or.inl ?_
    cases r with
    | udata u' =>
      have hsame : (s.setUdata u x).refs (.udata u') = s.refs (.udata u') :=
        congrArg Udata.refs (Function.update_of_ne (by simpa using hr) ..)
      exact hsame ▸ ho
    | string | function | table | thread | proto | upval => exact ho

theorem Stores.setProto {f : Nat} {p : Proto} (h : ∀ o ∈ p.refs, o ∈ (s.proto f).refs ∨ X o) :
    Stores X (fun r o => r = .proto f ∧ X o) s (s.setProto f p) := by
  refine Stores.of_refs rfl (fun r o ho => ?_) (fun _ _ => And.right) (fun _ => rfl) fun _ _ _ => Iff.rfl
  by_cases hr : r = .proto f
  · subst hr
    have hself : (s.setProto f p).refs (.proto f) = p.refs :=
      congrArg Proto.refs (Function.update_self ..)
    exact (h o (hself ▸ ho)).imp_right fun hX => ⟨rfl, hX⟩
  · refine Or.inl ?_
    cases r with
    | proto f' =>
      have hsame : (s.setProto f p).refs (.proto f') = s.refs (.proto f') :=
        congrArg Proto.refs (Function.update_of_ne (by simpa using hr) ..)
      exact hsame ▸ ho
    | string | function | table | thread | udata | upval => exact ho

/-- A closed upvalue gets a value. -/
theorem Stores.setUpval {a : Nat} {v₀ v : Val} (ha : s.upval a = .closed v₀)
    (h : ∀ o ∈ v.ref, X o) :
    Stores X (fun r o => r = .upval a ∧ X o) s (s.setUpval a (.closed v)) := by
  have hother {a' : Nat} (hne : a' ≠ a) : (s.setUpval a (.closed v)).upval a' = s.upval a' :=
    Function.update_of_ne hne ..
  have hself : (s.setUpval a (.closed v)).upval a = .closed v := Function.update_self ..
  refine Stores.of_refs rfl (fun r o ho => ?_) (fun _ _ => And.right) (fun _ => rfl)
    fun a' t slot => ?_
  · cases r with
    | upval a' =>
      have ho : o ∈ ((s.setUpval a (.closed v)).upvalue a').ref.toList := ho
      by_cases hne : a' = a
      · subst hne
        rw [State.upvalue_closed hself] at ho
        exact Or.inr ⟨rfl, h o (Option.mem_toList.mp ho)⟩
      · rw [State.upvalue_congr (hother hne) fun _ => rfl] at ho
        exact Or.inl ho
    | string | function | table | thread | udata | proto => exact Or.inl ho
  · by_cases hne : a' = a
    · subst hne
      rw [hself, ha]
      simp
    · rw [hother hne]

/-- A store in a thread is one in its open upvalues as well. -/
theorem Stores.setThread {t : Nat} {th : Thread} (hopen : th.openupval = (s.thread t).openupval)
    (h : ∀ o ∈ th.refs, o ∈ (s.thread t).refs ∨ X o)
    (hslot : ∀ slot, ∀ o ∈ (th.stack.getD slot .nil).ref,
      o ∈ ((s.thread t).stack.getD slot .nil).ref ∨ X o) :
    Stores X (fun r o => (r = .thread t ∨ ∃ a slot, r = .upval a ∧ s.upval a = .stack t slot) ∧ X o)
      s (s.setThread t th) := by
  have hother {t' : Nat} (hne : t' ≠ t) : (s.setThread t th).thread t' = s.thread t' :=
    Function.update_of_ne hne ..
  have hself : (s.setThread t th).thread t = th := Function.update_self ..
  refine Stores.of_refs rfl (fun r o ho => ?_) (fun _ _ => And.right) (fun t' => ?_)
    fun _ _ _ => Iff.rfl
  · cases r with
    | thread t' =>
      have ho : o ∈ ((s.setThread t th).thread t').refs := ho
      by_cases hne : t' = t
      · subst hne
        rw [hself] at ho
        exact (h o ho).imp_right fun hX => ⟨Or.inl rfl, hX⟩
      · rw [hother hne] at ho
        exact Or.inl ho
    | upval a =>
      have ho : o ∈ ((s.setThread t th).upvalue a).ref := Option.mem_toList.mp ho
      have hupval : (s.setThread t th).upval a = s.upval a := rfl
      show o ∈ (s.upvalue a).ref.toList ∨ _
      cases hu : s.upval a with
      | closed v =>
        rw [State.upvalue_closed (hupval.trans hu)] at ho
        rw [State.upvalue_closed hu]
        exact Or.inl (Option.mem_toList.mpr ho)
      | stack t' slot =>
        rw [State.upvalue_stack (hupval.trans hu)] at ho
        rw [State.upvalue_stack hu]
        by_cases hne : t' = t
        · subst hne
          rw [hself] at ho
          exact (hslot slot o ho).imp Option.mem_toList.mpr fun hX => ⟨Or.inr ⟨a, slot, rfl, hu⟩, hX⟩
        · rw [hother hne] at ho
          exact Or.inl (Option.mem_toList.mpr ho)
    | string | function | table | udata | proto => exact Or.inl ho
  · by_cases hne : t' = t
    · subst hne
      rw [hself, hopen]
    · rw [hother hne]

/-- A store in a table, which is not weak where `E` matters. -/
theorem Stores.setTable {h : Nat} {t : Table} {v : Option Ref}
    (hrefs : ∀ o ∈ t.refs, o ∈ (s.table h).refs ∨ X o)
    (hstrong : ∀ o ∈ t.strong false, o ∈ (s.table h).strong false ∨ o ∈ v) (hv : ∀ o ∈ v, X o) :
    Stores X (fun r o => r = .table h ∧ o ∈ v) s (s.setTable h t) := by
  have hother {h' : Nat} (hne : h' ≠ h) : (s.setTable h t).table h' = s.table h' :=
    Function.update_of_ne hne ..
  have hself : (s.setTable h t).table h = t := Function.update_self ..
  refine ⟨rfl, fun r o ho => ?_, fun r hweak o ho => ?_, fun _ o hE => hv o hE.2, fun _ => rfl,
    fun _ _ _ => Iff.rfl⟩
  · cases r with
    | table h' =>
      have ho : o ∈ ((s.setTable h t).table h').refs := ho
      by_cases hne : h' = h
      · subst hne
        rw [hself] at ho
        exact hrefs o ho
      · rw [hother hne] at ho
        exact Or.inl ho
    | string | function | thread | udata | proto | upval => exact Or.inl ho
  · cases r with
    | table h' =>
      have hnot : h' ∉ s.weak := fun hmem => hweak h' hmem rfl
      have ho : o ∈ ((s.setTable h t).table h').strong (decide (h' ∈ s.weak)) := ho
      show o ∈ (s.table h').strong (decide (h' ∈ s.weak)) ∨ _
      rw [decide_eq_false hnot] at ho ⊢
      by_cases hne : h' = h
      · subst hne
        rw [hself] at ho
        exact (hstrong o ho).imp_right fun hv => ⟨rfl, hv⟩
      · rw [hother hne] at ho
        exact Or.inl ho
    | string | function | thread | udata | proto | upval => exact Or.inl ho

end Luaxx.Collector
