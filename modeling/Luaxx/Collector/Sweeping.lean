import Luaxx.Collector.Freeing

/-!
# The sweep

The sweep frees what is dead, and gives everything else the current white. Behind it all is white;
what is in front of it is still unswept.
-/

namespace Luaxx.Collector

open Luaxx.Gc (White GCState)

variable {s s' : State} {o r : Ref}

theorem marked_makewhite (hr : s.marked r ≠ none) :
    (s.makewhite r).marked r = some (.white s.currentwhite) := by
  obtain ⟨c, hc⟩ := Option.ne_none_iff_exists'.mp hr
  unfold State.makewhite
  rw [marked_recolour_self, hc]
  rfl

/-! ## The open upvalues of a thread -/

/-- What the sweep of open upvalues leaves alone. -/
structure SweepsOpen (s s' : State) : Prop where
  gcstate : s'.gcstate = s.gcstate
  currentwhite : s'.currentwhite = s.currentwhite
  sweepgc : s'.sweepgc = s.sweepgc
  same : ∀ r, (∀ b, r ≠ .upval b) → s'.marked r = s.marked r

theorem sweepopenLoop_spec {t : Nat} {kept l : List Nat} (h : Inv s)
    (hstate : s.gcstate ≠ .GCSpropagate) (ht : s.marked (.thread t) ≠ none)
    (hl : (s.thread t).openupval = kept ++ l)
    (hkept : ∀ a ∈ kept, s.marked (.upval a) = some (.white s.currentwhite)) :
    Inv (sweepopenLoop t kept l s) ∧ SweepsOpen s (sweepopenLoop t kept l s) ∧
      ∀ a ∈ ((sweepopenLoop t kept l s).thread t).openupval,
        (sweepopenLoop t kept l s).marked (.upval a) = some (.white s.currentwhite) := by
  induction l generalizing s kept with
  | nil =>
    rw [List.append_nil] at hl
    exact ⟨h, ⟨rfl, rfl, rfl, fun _ _ => rfl⟩, fun a ha => hkept a (hl ▸ ha)⟩
  | cons a l ih =>
    have hnodup := h.opened.nodup t ht
    rw [hl] at hnodup
    have hsome : s.marked (.upval a) ≠ none := by
      refine (h.listed.mem _).mp ?_
      have ha := (h.opened.openupval t ht a (by rw [hl]; simp)).1
      unfold State.objects
      simp [ha]
    unfold sweepopenLoop
    split
    · rename_i hsurvives
      have hsame {r : Ref} (hr : r ≠ .upval a) : (s.makewhite (.upval a)).marked r = s.marked r :=
        marked_recolour_of_ne hr
      obtain ⟨hinv, hframe, hwhite⟩ := @ih (s.makewhite (.upval a)) (kept ++ [a])
        (h.makewhite hstate hsurvives) hstate (by rwa [hsame (by simp)])
        (by rw [List.append_assoc]; exact hl) fun b hb => by
          by_cases hba : b = a
          · rw [hba]
            exact marked_makewhite hsome
          · rw [hsame (by simpa using hba)]
            exact hkept b ((List.mem_append.mp hb).resolve_right (by simpa using hba))
      exact ⟨hinv, ⟨hframe.gcstate, hframe.currentwhite, hframe.sweepgc,
        fun r hr => (hframe.same r hr).trans (hsame (hr a))⟩, hwhite⟩
    · rename_i hsurvives
      have hsurvives : survives s (.upval a) = false := Bool.eq_false_iff.mpr hsurvives
      obtain ⟨slot, hslot⟩ := (h.opened.openupval t ht a (by rw [hl]; simp)).2
      have hfree := freeupval_inv h hstate ht hl hsurvives
      have heq : luaF_freeupval a (s.setThread t { s.thread t with openupval := kept ++ l }) =
          freemem (.upval a) (detach t a (kept ++ l) s) := by
        unfold luaF_freeupval
        have hslot' : (s.setThread t { s.thread t with openupval := kept ++ l }).upval a =
            .stack t slot := hslot
        rw [hslot']
        rfl
      show Inv (sweepopenLoop t kept l
        (luaF_freeupval a (s.setThread t { s.thread t with openupval := kept ++ l }))) ∧
        SweepsOpen s (sweepopenLoop t kept l
          (luaF_freeupval a (s.setThread t { s.thread t with openupval := kept ++ l }))) ∧ _
      dsimp only [freeobj]
      rw [heq] at hfree ⊢
      have hsame {r : Ref} (hr : r ≠ .upval a) :
          (freemem (.upval a) (detach t a (kept ++ l) s)).marked r = s.marked r :=
        marked_freemem_of_ne hr
      obtain ⟨hinv, hframe, hwhite⟩ := @ih (freemem (.upval a) (detach t a (kept ++ l) s)) kept hfree
        hstate (by rwa [hsame (by simp)]) (by
          show ((detach t a (kept ++ l) s).thread t).openupval = _
          rw [openupval_detach, if_pos rfl]) fun b hb => by
          have hba : b ≠ a := by
            rintro rfl
            exact (List.nodup_append.mp hnodup).2.2 b hb b (List.mem_cons_self ..) rfl
          rw [hsame (by simpa using hba)]
          exact hkept b hb
      exact ⟨hinv, ⟨hframe.gcstate, hframe.currentwhite, hframe.sweepgc,
        fun r hr => (hframe.same r hr).trans (hsame (hr a))⟩, hwhite⟩

/-! ## Freeing an object of the list -/

/-- An object is taken out of what is still to be swept. -/
def dropgc (r : Ref) (s : State) : State := { s with sweepgc := s.sweepgc.erase r }

theorem Inv.free (h : Inv s) (hstate : s.gcstate ≠ .GCSpropagate) (hr : r ∈ s.sweepgc)
    (hsurvives : survives s r = false) (hthread : ∀ t, r = .thread t → (s.thread t).openupval = []) :
    Inv (freemem r (dropgc r s)) := by
  have hperm := List.perm_cons_erase hr
  have hblack (x : Ref) (c : Colour) (hx : (freemem r (dropgc r s)).marked x = some c) :
      s.marked x = some c := by
    by_cases hxr : x = r
    · subst hxr
      have hself : (freemem x (dropgc x s)).marked x = none := Function.update_self ..
      rw [hself] at hx
      cases hx
    · rwa [marked_freemem_of_ne hxr] at hx
  have hopen (t : Nat) (ht : (freemem r (dropgc r s)).marked (.thread t) ≠ none) :
      s.marked (.thread t) ≠ none := by
    obtain ⟨c, hc⟩ := Option.ne_none_iff_exists'.mp ht
    rw [hblack _ c hc]
    simp
  have hne (t b : Nat) (hb : b ∈ (s.thread t).openupval) : Ref.thread t ≠ r := by
    intro heq
    rw [hthread t heq.symm] at hb
    cases hb
  have hfrees : Frees r s (freemem r (dropgc r s)) := by
    refine ⟨rfl, fun x => by cases x <;> rfl, ?_, List.erase_subset .., ⟨fun b hb => ?_,
      fun t ht => h.opened.openupval t (hopen t ht), fun t ht => h.opened.nodup t (hopen t ht),
      fun b hb hc => h.opened.black b hb (hblack _ _ hc)⟩, not_safe_of_survives hsurvives,
      fun x hx hsome hu => ?_⟩
    · show s.objects.Perm (r :: (dropgc r s).objects)
      rw [List.perm_iff_count]
      intro x
      have hcount := hperm.count_eq x
      have hsweepgc : (dropgc r s).sweepgc = s.sweepgc.erase r := rfl
      have hobjects : (dropgc r s).objects = s.strt.flatten.map .string ++ s.rootgc ++
          s.sweepgc.erase r ++ s.tmudata.map .udata ++ s.uvhead.map .upval := rfl
      rw [hobjects]
      simp only [State.objects, List.count_append, List.count_cons] at hcount ⊢
      omega
    · obtain ⟨t, slot, hslot, ht, hmem⟩ := h.opened.uvhead b hb
      exact ⟨t, slot, hslot, by rwa [marked_freemem_of_ne (hne t b hmem)], hmem⟩
    · have hmem {y : Ref} (hy : y ≠ r) (hmem : y ∈ s.sweepgc) : y ∈ s.sweepgc.erase r :=
        (List.mem_erase_of_ne hy).mpr hmem
      cases x with
      | string a => exact hu
      | upval b =>
        refine ⟨hu.1, ?_⟩
        rcases hu.2 with hb | ⟨t, slot, hslot, ht⟩
        · exact Or.inl (hmem hx hb)
        · have huv := h.listed.openListed b t slot hsome hslot
          obtain ⟨t', slot', hslot', -, hb⟩ := h.opened.uvhead b huv
          rw [hslot] at hslot'
          injection hslot' with heq
          subst heq
          exact Or.inr ⟨t, slot, hslot, hmem (hne t b hb) ht⟩
      | udata | table | function | thread | proto => exact ⟨hu.1, hmem hx hu.2⟩
  exact hfrees.inv h hstate

/-! ## The upvalues of a dead thread -/

theorem linkroot_dropgc (h : o ≠ r) : linkroot o (dropgc r s) = dropgc r (linkroot o s) := by
  have herase : (o :: s.sweepgc).erase r = o :: s.sweepgc.erase r :=
    List.erase_cons_tail (by simpa using h)
  unfold linkroot
  by_cases hroot : s.rootgc = []
  · have hroot' : (dropgc r s).rootgc = [] := hroot
    rw [if_pos hroot, if_pos hroot']
    unfold dropgc
    simp only [herase]
  · have hroot' : (dropgc r s).rootgc ≠ [] := hroot
    rw [if_neg hroot, if_neg hroot']
    rfl

theorem closeone_dropgc (t a : Nat) (rest : List Nat) (hr : r ≠ .upval a)
    (hstate : s.gcstate ≠ .GCSpropagate) :
    closeone t a rest (dropgc r s) = dropgc r (closeone t a rest s) := by
  unfold closeone
  dsimp only
  have hdead : ((dropgc r s).setThread t { (dropgc r s).thread t with openupval := rest }).isdead
      (.upval a) = (s.setThread t { s.thread t with openupval := rest }).isdead (.upval a) := rfl
  rw [hdead]
  split
  · unfold luaF_freeupval
    have hupval : ((dropgc r s).setThread t { (dropgc r s).thread t with openupval := rest }).upval a =
        (s.setThread t { s.thread t with openupval := rest }).upval a := rfl
    rw [hupval]
    cases (s.setThread t { s.thread t with openupval := rest }).upval a <;> rfl
  · show luaC_linkupval a (dropgc r ((detach t a rest s).setUpval a
      (.closed ((detach t a rest s).upvalue a)))) = dropgc r (luaC_linkupval a
      ((detach t a rest s).setUpval a (.closed ((detach t a rest s).upvalue a))))
    generalize hs' : (detach t a rest s).setUpval a (.closed ((detach t a rest s).upvalue a)) = s'
    have hgc : (linkroot (.upval a) s').gcstate ≠ .GCSpropagate := by
      obtain ⟨rootgc, sweepgc, heq, -⟩ := linkroot_spec (.upval a) s'
      rw [heq, ← hs']
      exact hstate
    unfold luaC_linkupval
    rw [linkroot_dropgc hr.symm]
    generalize linkroot (.upval a) s' = s'' at hgc
    have hgc' : (dropgc r s'').gcstate ≠ .GCSpropagate := hgc
    dsimp only
    rw [if_neg hgc, if_neg hgc']
    have hgray : (dropgc r s'').isgray (.upval a) = s''.isgray (.upval a) := rfl
    rw [hgray]
    split <;> rfl

theorem closeLoop_dropgc (t level : Nat) (l : List Nat) (hr : ∀ a, r ≠ .upval a)
    (hstate : s.gcstate ≠ .GCSpropagate) :
    closeLoop t level l (dropgc r s) = dropgc r (closeLoop t level l s) := by
  induction l generalizing s with
  | nil => rfl
  | cons a rest ih =>
    unfold closeLoop
    have hlevel : (dropgc r s).level a = s.level a := rfl
    rw [hlevel]
    split
    · rw [closeone_dropgc t a rest (hr a) hstate]
      exact ih (by rw [(closeone_frame t a rest s).gcstate]; exact hstate)
    · rfl

/-- Closing all open upvalues of a thread. -/
theorem closeLoop_all {t : Nat} {l : List Nat} (hl : (s.thread t).openupval = l)
    (hstate : s.gcstate ≠ .GCSpropagate) :
    ((closeLoop t 0 l s).thread t).openupval = [] ∧
      s.sweepgc ⊆ (closeLoop t 0 l s).sweepgc ∧ (closeLoop t 0 l s).gcstate = s.gcstate ∧
      (closeLoop t 0 l s).currentwhite = s.currentwhite ∧ (closeLoop t 0 l s).fixed = s.fixed ∧
      ∀ r, (∀ a, r ≠ .upval a) → (closeLoop t 0 l s).marked r = s.marked r := by
  induction l generalizing s with
  | nil => exact ⟨hl, List.Subset.refl _, rfl, rfl, rfl, fun _ _ => rfl⟩
  | cons a rest ih =>
    have hframe := closeone_frame t a rest s
    have heq : closeLoop t 0 (a :: rest) s = closeLoop t 0 rest (closeone t a rest s) := by
      rw [closeLoop]
      exact if_pos (Nat.zero_le _)
    rw [heq]
    obtain ⟨h₁, h₂, h₃, h₄, h₅, h₆⟩ := @ih (closeone t a rest s)
      (by rw [hframe.openupval, if_pos rfl]) (by rw [hframe.gcstate]; exact hstate)
    exact ⟨h₁, List.Subset.trans hframe.sweepgc h₂, h₃.trans hframe.gcstate,
      h₄.trans hframe.currentwhite, h₅.trans hframe.fixed,
      fun r hr => (h₆ r hr).trans (hframe.same hstate r hr)⟩

theorem freeobj_inv (h : Inv s) (hstate : s.gcstate ≠ .GCSpropagate) (hr : r ∈ s.sweepgc)
    (hsurvives : survives s r = false) : Inv (freeobj r (dropgc r s)) := by
  cases r with
  | upval a =>
    obtain ⟨v, hv⟩ := h.listed.closed a (List.mem_append_right _ hr)
    have heq : freeobj (.upval a) (dropgc (.upval a) s) = freemem (.upval a) (dropgc (.upval a) s) := by
      have hv' : (dropgc (.upval a) s).upval a = .closed v := hv
      show luaF_freeupval a _ = _
      unfold luaF_freeupval
      rw [hv']
    rw [heq]
    exact h.free hstate hr hsurvives (by simp)
  | thread t =>
    have hsome : s.marked (.thread t) ≠ none := by
      refine (h.listed.mem _).mp ?_
      unfold State.objects
      simp [hr]
    obtain ⟨hopen, hsweepgc, hgc, hcurrent, hfixed, hmarked⟩ :=
      closeLoop_all (rfl : (s.thread t).openupval = _) hstate
    have hclose : luaF_close t 0 (dropgc (.thread t) s) = dropgc (.thread t) (luaF_close t 0 s) :=
      closeLoop_dropgc t 0 _ (by simp) hstate
    have heq : freeobj (.thread t) (dropgc (.thread t) s) =
        freemem (.thread t) (luaF_close t 0 (dropgc (.thread t) s)) := rfl
    rw [heq, hclose]
    have hstate' : (luaF_close t 0 s).gcstate ≠ .GCSpropagate := fun hp => hstate (hgc.symm.trans hp)
    refine (luaF_close_inv h hsome).free hstate' (hsweepgc hr) ?_ fun t' ht' => ?_
    · unfold survives State.isdead luaF_close
      rw [hmarked _ (by simp), hcurrent, hfixed]
      exact hsurvives
    · cases ht'
      exact hopen
  | string | udata | table | function | proto => exact h.free hstate hr hsurvives (by simp)

/-! ## One object -/

/-- The sweep goes on behind an object that has the current white. -/
theorem advance_inv {rest : List Ref} (h : Inv s) (hstate : s.gcstate ≠ .GCSpropagate)
    (hsweepgc : s.sweepgc = r :: rest) (hr : s.marked r = some (.white s.currentwhite))
    (hopen : ∀ t, r = .thread t → ∀ a ∈ (s.thread t).openupval,
      s.marked (.upval a) = some (.white s.currentwhite)) :
    Inv { s with rootgc := s.rootgc ++ [r], sweepgc := rest } := by
  have hroots : s.rootgc ++ [r] ++ rest = s.rootgc ++ s.sweepgc := by
    rw [hsweepgc, List.append_assoc]
    rfl
  have hobjects : State.objects { s with rootgc := s.rootgc ++ [r], sweepgc := rest } =
      s.objects := by
    unfold State.objects
    dsimp only
    rw [hsweepgc]
    simp
  refine ⟨⟨h.kept.root, fun o ho o' ho' => h.kept.refs o ho o' (by cases o <;> exact ho'),
    h.kept.fixed⟩, ⟨hobjects ▸ h.listed.nodup, fun x => hobjects ▸ h.listed.mem x, fun a ha => ?_,
    fun a ha => ?_⟩, ⟨h.opened.uvhead, h.opened.openupval, h.opened.nodup, h.opened.black⟩,
    fun _ x c hc => ?_, fun hp => absurd hp hstate⟩
  · exact h.listed.string a (hroots ▸ ha)
  · exact h.listed.closed a (hroots ▸ ha)
  · have hc : s.marked x = some c := hc
    show c = .white s.currentwhite ∨ _
    rcases h.swept hstate x c hc with hwhite | hu | htm
    · exact Or.inl hwhite
    · have hself (hx : x = r) : c = .white s.currentwhite := by
        rw [hx, hr] at hc
        exact (Option.some.inj hc).symm
      have hrest {y : Ref} (hy : y ≠ r) (hmem : y ∈ s.sweepgc) : y ∈ rest := by
        rw [hsweepgc] at hmem
        exact (List.mem_cons.mp hmem).resolve_left hy
      by_cases hx : x = r
      · exact Or.inl (hself hx)
      · cases x with
        | string a => exact Or.inr (Or.inl hu)
        | upval b =>
          rcases hu.2 with hb | ⟨t, slot, hslot, ht⟩
          · exact Or.inr (Or.inl ⟨hu.1, Or.inl (hrest hx hb)⟩)
          · by_cases htr : Ref.thread t = r
            · have huv := h.listed.openListed b t slot (by rw [hc]; simp) hslot
              obtain ⟨t', slot', hslot', -, hb⟩ := h.opened.uvhead b huv
              rw [hslot] at hslot'
              injection hslot' with heq
              subst heq
              have hwhite := hopen t htr.symm b hb
              rw [hc] at hwhite
              exact Or.inl (Option.some.inj hwhite)
            · exact Or.inr (Or.inl ⟨hu.1, Or.inr ⟨t, slot, hslot, hrest htr ht⟩⟩)
        | udata | table | function | thread | proto =>
          exact Or.inr (Or.inl ⟨hu.1, hrest hx hu.2⟩)
    · exact Or.inr (Or.inr htm)

/-- The open upvalues of a thread are swept before the thread. -/
def sweepcurr (curr : Ref) (s : State) : State :=
  match curr with
  | .thread t => sweepopen t s
  | _ => s

theorem sweepcurr_spec (h : Inv s) (hstate : s.gcstate ≠ .GCSpropagate) (hr : s.marked r ≠ none) :
    Inv (sweepcurr r s) ∧ SweepsOpen s (sweepcurr r s) ∧
      ∀ t, r = .thread t → ∀ a ∈ ((sweepcurr r s).thread t).openupval,
        (sweepcurr r s).marked (.upval a) = some (.white s.currentwhite) := by
  cases r with
  | thread t =>
    obtain ⟨hinv, hframe, hwhite⟩ := @sweepopenLoop_spec s t [] _ h hstate hr rfl (by simp)
    refine ⟨hinv, hframe, fun t' ht' => ?_⟩
    cases ht'
    exact hwhite
  | string | udata | table | function | proto | upval =>
    exact ⟨h, ⟨rfl, rfl, rfl, fun _ _ => rfl⟩, by simp⟩

theorem sweepone_eq {rest : List Ref} (hsweepgc : s.sweepgc = r :: rest)
    (hframe : SweepsOpen s (sweepcurr r s)) : sweepone s =
      if survives (sweepcurr r s) r then
        { (sweepcurr r s).makewhite r with
          rootgc := ((sweepcurr r s).makewhite r).rootgc ++ [r], sweepgc := rest }
      else freeobj r (dropgc r (sweepcurr r s)) := by
  have hdrop : dropgc r (sweepcurr r s) = { sweepcurr r s with sweepgc := rest } := by
    unfold dropgc
    rw [hframe.sweepgc, hsweepgc, List.erase_cons_head]
  rw [hdrop]
  unfold sweepone
  rw [hsweepgc]
  rfl

theorem sweepone_inv (h : Inv s) (hstate : s.gcstate ≠ .GCSpropagate) : Inv (sweepone s) := by
  cases hsweepgc : s.sweepgc with
  | nil =>
    unfold sweepone
    rw [hsweepgc]
    exact h
  | cons r rest =>
    have hmem : r ∈ s.sweepgc := by rw [hsweepgc]; exact List.mem_cons_self ..
    have hsome : s.marked r ≠ none := by
      refine (h.listed.mem _).mp ?_
      unfold State.objects
      simp [hmem]
    obtain ⟨hinv, hframe, hwhite⟩ := sweepcurr_spec h hstate hsome
    rw [sweepone_eq hsweepgc hframe]
    have hsweepgc' : (sweepcurr r s).sweepgc = r :: rest := hframe.sweepgc.trans hsweepgc
    have hstate' : (sweepcurr r s).gcstate ≠ .GCSpropagate := by rw [hframe.gcstate]; exact hstate
    have hcurrent := hframe.currentwhite
    have hsome' : (sweepcurr r s).marked r ≠ none :=
      (hinv.listed.mem _).mp (by unfold State.objects; simp [hsweepgc'])
    generalize sweepcurr r s = s' at *
    split
    · rename_i hsurvives
      refine advance_inv (hinv.makewhite hstate' hsurvives) hstate' hsweepgc' (marked_makewhite hsome')
        fun t ht a ha => ?_
      have hsame : (s'.makewhite r).marked (.upval a) = s'.marked (.upval a) :=
        marked_recolour_of_ne (by rw [ht]; simp)
      rw [hsame, show (s'.makewhite r).currentwhite = s.currentwhite from hcurrent]
      exact hwhite t ht a ha
    · rename_i hsurvives
      exact freeobj_inv hinv hstate' (by rw [hsweepgc']; exact List.mem_cons_self ..)
        (Bool.eq_false_iff.mpr hsurvives)

theorem gcstate_closeLoop (t level : Nat) (l : List Nat) (s : State) :
    (closeLoop t level l s).gcstate = s.gcstate := by
  induction l generalizing s with
  | nil => rfl
  | cons a rest ih =>
    unfold closeLoop
    split
    · exact (ih _).trans (closeone_frame t a rest s).gcstate
    · rfl

theorem gcstate_freeobj (r : Ref) (s : State) : (freeobj r s).gcstate = s.gcstate := by
  cases r with
  | upval a =>
    show (luaF_freeupval a s).gcstate = _
    unfold luaF_freeupval
    cases s.upval a <;> rfl
  | thread t => exact gcstate_closeLoop t 0 _ s
  | string | udata | table | function | proto => rfl

theorem gcstate_sweepopenLoop (t : Nat) (kept l : List Nat) (s : State) :
    (sweepopenLoop t kept l s).gcstate = s.gcstate := by
  induction l generalizing s kept with
  | nil => rfl
  | cons a rest ih =>
    unfold sweepopenLoop
    split
    · exact ih ..
    · exact (ih ..).trans (gcstate_freeobj ..)

theorem gcstate_sweepone (s : State) : (sweepone s).gcstate = s.gcstate := by
  unfold sweepone
  cases s.sweepgc with
  | nil => rfl
  | cons curr rest =>
    have hcurr : (sweepcurr curr s).gcstate = s.gcstate := by
      cases curr with
      | thread t => exact gcstate_sweepopenLoop t [] _ s
      | string | udata | table | function | proto | upval => rfl
    show State.gcstate (if survives (sweepcurr curr s) curr then _ else _) = _
    split
    · exact hcurr
    · exact (gcstate_freeobj ..).trans hcurr

theorem sweeplist_inv (count : Nat) (h : Inv s) (hstate : s.gcstate = .GCSsweep) :
    Inv (sweeplist count s) ∧ (sweeplist count s).gcstate = .GCSsweep := by
  induction count generalizing s with
  | zero => exact ⟨h, hstate⟩
  | succ count ih =>
    unfold sweeplist
    split
    · exact ⟨h, hstate⟩
    · exact ih (sweepone_inv h (by rw [hstate]; simp)) ((gcstate_sweepone s).trans hstate)

/-- Once all is swept the phase may change. -/
theorem Inv.setstate {gcstate : GCState} (h : Inv s) (hstate : s.gcstate ≠ .GCSpropagate)
    (hgc : gcstate ≠ .GCSpropagate)
    (hunswept : ∀ r, s.marked r ≠ none → Unswept s r → Unswept { s with gcstate := gcstate } r) :
    Inv { s with gcstate := gcstate } where
  kept := ⟨h.kept.root, fun o ho o' ho' => h.kept.refs o ho o' (by cases o <;> exact ho'),
    h.kept.fixed⟩
  listed := ⟨h.listed.nodup, h.listed.mem, h.listed.string, h.listed.closed⟩
  opened := ⟨h.opened.uvhead, h.opened.openupval, h.opened.nodup, h.opened.black⟩
  swept _ r c hc := (h.swept hstate r c hc).imp_right
    (Or.imp_left (hunswept r (by rw [show s.marked r = some c from hc]; simp)))
  propagating hp := absurd hp hgc

theorem sweep_inv (h : Inv s) (hstate : s.gcstate = .GCSsweep) : Inv (sweep s) := by
  obtain ⟨hinv, hgc⟩ := sweeplist_inv GCSWEEPMAX h hstate
  unfold sweep
  dsimp only
  split
  · rename_i hempty
    have hempty := List.isEmpty_iff.mp hempty
    refine hinv.setstate (by rw [hgc]; simp) (by simp) fun r _ hu => ?_
    cases r with
    | string a =>
      rw [show _ = GCState.GCSsweepstring from hu.1] at hgc
      cases hgc
    | upval b =>
      rcases hu.2 with hb | ⟨t, slot, hslot, ht⟩
      · rw [hempty] at hb
        cases hb
      · rw [hempty] at ht
        cases ht
    | udata | table | function | thread | proto =>
      have hmem := hu.2
      rw [hempty] at hmem
      cases hmem
  · exact hinv

/-! ## The string table -/

theorem flatten_set_perm {strt : List (List Nat)} {i a : Nat} {kept rest : List Nat}
    (hi : strt.getD i [] = kept ++ a :: rest) :
    strt.flatten.Perm (a :: (strt.set i (kept ++ rest)).flatten) := by
  induction strt generalizing i with
  | nil => simp at hi
  | cons chain strt ih =>
    cases i with
    | zero =>
      have hchain : chain = kept ++ a :: rest := hi
      show (chain ++ strt.flatten).Perm (a :: (kept ++ rest ++ strt.flatten))
      rw [hchain]
      exact List.Perm.append_right _ List.perm_middle
    | succ i =>
      have hi : strt.getD i [] = kept ++ a :: rest := hi
      show (chain ++ strt.flatten).Perm (a :: (chain ++ (strt.set i (kept ++ rest)).flatten))
      exact (List.Perm.append_left chain (ih hi)).trans List.perm_middle

theorem getD_set_chain (strt : List (List Nat)) (i j : Nat) (chain : List Nat)
    (hi : i < strt.length) :
    (strt.set i chain).getD j [] = if i = j then chain else strt.getD j [] := by
  rw [List.getD_eq_getElem?_getD, List.getElem?_set]
  split
  · subst j
    simp
  · rw [List.getD_eq_getElem?_getD]

theorem lt_of_getD_ne_nil {strt : List (List Nat)} {i : Nat} (h : strt.getD i [] ≠ []) :
    i < strt.length := by
  by_contra hi
  rw [List.getD_eq_getElem?_getD, List.getElem?_eq_none (Nat.le_of_not_lt hi)] at h
  exact h rfl

theorem freestring_inv {i a : Nat} {kept rest : List Nat} (h : Inv s)
    (hstate : s.gcstate ≠ .GCSpropagate) (hl : s.strt.getD i [] = kept ++ a :: rest)
    (hsurvives : survives s (.string a) = false) :
    Inv (freemem (.string a) { s with strt := s.strt.set i (kept ++ rest) }) := by
  have hi := @lt_of_getD_ne_nil s.strt i (by rw [hl]; simp)
  have hmarked {r : Ref} (hr : r ≠ .string a) :
      (freemem (.string a) { s with strt := s.strt.set i (kept ++ rest) }).marked r = s.marked r :=
    marked_freemem_of_ne hr
  have hfrees : Frees (.string a) s
      (freemem (.string a) { s with strt := s.strt.set i (kept ++ rest) }) := by
    refine ⟨rfl, fun x => by cases x <;> rfl, ?_, List.Subset.refl _, ⟨fun b hb => ?_,
      fun t ht => h.opened.openupval t (by rwa [hmarked (by simp)] at ht),
      fun t ht => h.opened.nodup t (by rwa [hmarked (by simp)] at ht),
      fun b hb hc => h.opened.black b hb (by rwa [hmarked (by simp)] at hc)⟩,
      not_safe_of_survives hsurvives, fun x hx _ hu => ?_⟩
    · have hperm := (flatten_set_perm hl).map Ref.string
      rw [List.perm_iff_count] at hperm ⊢
      intro x
      have hcount := hperm x
      have hobjects : State.objects (freemem (.string a)
          { s with strt := s.strt.set i (kept ++ rest) }) =
          (s.strt.set i (kept ++ rest)).flatten.map .string ++ s.rootgc ++ s.sweepgc ++
            s.tmudata.map .udata ++ s.uvhead.map .upval := rfl
      rw [hobjects]
      simp only [State.objects, List.map_cons, List.count_append, List.count_cons] at hcount ⊢
      omega
    · obtain ⟨t, slot, hslot, ht, hmem⟩ := h.opened.uvhead b hb
      exact ⟨t, slot, hslot, by rwa [hmarked (by simp)], hmem⟩
    · cases x with
      | string b =>
        obtain ⟨hgc, j, hj, hb⟩ := hu
        refine ⟨hgc, j, hj, ?_⟩
        show b ∈ (s.strt.set i (kept ++ rest)).getD j []
        rw [getD_set_chain _ _ _ _ hi]
        split
        · subst j
          rw [hl, List.perm_middle.mem_iff] at hb
          exact (List.mem_cons.mp hb).resolve_left (by simpa using hx)
        · exact hb
      | udata | table | function | thread | proto | upval => exact hu
  exact hfrees.inv h hstate

/-- What the sweep of a chain leaves alone. -/
structure SweepsChain (s s' : State) : Prop where
  gcstate : s'.gcstate = s.gcstate
  currentwhite : s'.currentwhite = s.currentwhite
  sweepstrgc : s'.sweepstrgc = s.sweepstrgc
  length : s'.strt.length = s.strt.length

theorem sweepchain_spec {i : Nat} {kept l : List Nat} (h : Inv s)
    (hstate : s.gcstate ≠ .GCSpropagate) (hl : s.strt.getD i [] = kept ++ l)
    (hkept : ∀ a ∈ kept, s.marked (.string a) = some (.white s.currentwhite)) :
    Inv (sweepchain i kept l s) ∧ SweepsChain s (sweepchain i kept l s) ∧
      ∀ a ∈ (sweepchain i kept l s).strt.getD i [],
        (sweepchain i kept l s).marked (.string a) = some (.white s.currentwhite) := by
  induction l generalizing s kept with
  | nil =>
    rw [List.append_nil] at hl
    exact ⟨h, ⟨rfl, rfl, rfl, rfl⟩, fun a ha => hkept a (hl ▸ ha)⟩
  | cons a l ih =>
    have hi := @lt_of_getD_ne_nil s.strt i (by rw [hl]; simp)
    have hmem (b : Nat) (hb : b ∈ kept ++ a :: l) : Ref.string b ∈ s.objects := by
      have hflat : b ∈ s.strt.flatten := by
        refine List.mem_flatten.mpr ⟨s.strt.getD i [], ?_, hl ▸ hb⟩
        rw [List.getD_eq_getElem?_getD, List.getElem?_eq_getElem hi]
        exact List.getElem_mem hi
      unfold State.objects
      simp only [List.mem_append]
      exact Or.inl (Or.inl (Or.inl (Or.inl (List.mem_map_of_mem hflat))))
    have hsome : s.marked (.string a) ≠ none := (h.listed.mem _).mp (hmem a (by simp))
    have hnodup : (kept ++ a :: l).Nodup := by
      have hflat : s.strt.flatten.Nodup := by
        have hn := h.listed.nodup
        unfold State.objects at hn
        exact (List.Nodup.of_append_left (List.Nodup.of_append_left
          (List.Nodup.of_append_left (List.Nodup.of_append_left hn)))).of_map _
      rw [← hl, List.getD_eq_getElem?_getD, List.getElem?_eq_getElem hi]
      exact (List.nodup_flatten.mp hflat).1 _ (List.getElem_mem hi)
    unfold sweepchain
    split
    · rename_i hsurvives
      have hsame {r : Ref} (hr : r ≠ .string a) : (s.makewhite (.string a)).marked r = s.marked r :=
        marked_recolour_of_ne hr
      obtain ⟨hinv, hframe, hwhite⟩ := @ih (s.makewhite (.string a)) (kept ++ [a])
        (h.makewhite hstate hsurvives) hstate (by rw [List.append_assoc]; exact hl) fun b hb => by
          by_cases hba : b = a
          · rw [hba]
            exact marked_makewhite hsome
          · rw [hsame (by simpa using hba)]
            exact hkept b ((List.mem_append.mp hb).resolve_right (by simpa using hba))
      exact ⟨hinv, ⟨hframe.gcstate, hframe.currentwhite, hframe.sweepstrgc, hframe.length⟩, hwhite⟩
    · rename_i hsurvives
      have hfree := freestring_inv h hstate hl (Bool.eq_false_iff.mpr hsurvives)
      have hchain : (freemem (.string a) { s with strt := s.strt.set i (kept ++ l) }).strt.getD i [] =
          kept ++ l := by
        show (s.strt.set i (kept ++ l)).getD i [] = _
        rw [getD_set_chain _ _ _ _ hi, if_pos rfl]
      obtain ⟨hinv, hframe, hwhite⟩ := ih hfree hstate hchain fun b hb => by
        have hba : b ≠ a := by
          rintro rfl
          exact (List.nodup_append.mp hnodup).2.2 b hb b (List.mem_cons_self ..) rfl
        rw [marked_freemem_of_ne (by simpa using hba)]
        exact hkept b hb
      refine ⟨hinv, ⟨hframe.gcstate, hframe.currentwhite, hframe.sweepstrgc, ?_⟩, hwhite⟩
      exact hframe.length.trans (List.length_set ..)

theorem sweepstring_inv (h : Inv s) (hstate : s.gcstate = .GCSsweepstring) : Inv (sweepstring s) := by
  obtain ⟨hinv, hframe, hwhite⟩ := @sweepchain_spec s s.sweepstrgc [] (s.strt.getD s.sweepstrgc [])
    h (by rw [hstate]; simp) rfl (by simp)
  unfold sweepstring
  generalize sweepchain s.sweepstrgc [] (s.strt.getD s.sweepstrgc []) s = s₁ at hinv hframe hwhite
  have hgc : s₁.gcstate = .GCSsweepstring := hframe.gcstate.trans hstate
  -- the chain has been swept
  have hnext : Inv { s₁ with sweepstrgc := s₁.sweepstrgc + 1 } := by
    refine ⟨⟨hinv.kept.root, fun o ho o' ho' => hinv.kept.refs o ho o' (by cases o <;> exact ho'),
      hinv.kept.fixed⟩, ⟨hinv.listed.nodup, hinv.listed.mem, hinv.listed.string, hinv.listed.closed⟩,
      ⟨hinv.opened.uvhead, hinv.opened.openupval, hinv.opened.nodup, hinv.opened.black⟩,
      fun _ r c hc => ?_, fun hp => absurd (hgc.symm.trans hp) (by simp)⟩
    have hc : s₁.marked r = some c := hc
    rcases hinv.swept (by rw [hgc]; simp) r c hc with hwh | hu | htm
    · exact Or.inl hwh
    · cases r with
      | string a =>
        obtain ⟨-, j, hj, ha⟩ := hu
        by_cases hji : j = s₁.sweepstrgc
        · rw [hji, hframe.sweepstrgc] at ha
          have hw := hwhite a ha
          rw [hc] at hw
          left
          show c = .white s₁.currentwhite
          rw [hframe.currentwhite]
          exact Option.some.inj hw
        · refine Or.inr (Or.inl ⟨hgc, j, ?_, ha⟩)
          show s₁.sweepstrgc + 1 ≤ j
          omega
      | udata | table | function | thread | proto | upval => exact Or.inr (Or.inl hu)
    · exact Or.inr (Or.inr htm)
  dsimp only
  split
  · rename_i hlast
    refine hnext.setstate (by rw [show _ = GCState.GCSsweepstring from hgc]; simp) (by simp)
      fun r _ hu => ?_
    cases r with
    | string a =>
      obtain ⟨-, j, hj, ha⟩ := hu
      have hj' := @lt_of_getD_ne_nil s₁.strt j (List.ne_nil_of_mem ha)
      have hj : s₁.sweepstrgc + 1 ≤ j := hj
      omega
    | upval b => exact ⟨Or.inr rfl, hu.2⟩
    | udata | table | function | thread | proto => exact ⟨Or.inr rfl, hu.2⟩
  · exact hnext

end Luaxx.Collector
