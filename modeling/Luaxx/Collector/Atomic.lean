import Luaxx.Collector.Ground

/-!
# The atomic step

What was deferred is looked at again, until every marked object is clean. Then the weak tables are
cleared, and no marked object refers to a white one.
-/

namespace Luaxx.Collector

open Luaxx.Gc (White GCState)

variable {s s' : State} {o r : Ref} {P : Ref → Prop}

/-! ## Open upvalues -/

theorem Marks.upvalue (h : Marks s s') (a : Nat) : s'.upvalue a = s.upvalue a := by
  unfold State.upvalue
  rw [h.upval, h.thread]

theorem Marks.remarkupvals (s : State) : Marks s (remarkupvals s) := by
  refine Marks.foldl (fun s a => ?_) s.uvhead s
  split
  · exact Marks.markvalue ..
  · exact Marks.refl s

theorem iswhite_remarkupvals {a : Nat} (ha : a ∈ s.uvhead)
    (hgray : s.marked (.upval a) = some .gray) (ho : o ∈ (s.upvalue a).ref) :
    (remarkupvals s).iswhite o = false := by
  refine iswhite_foldl (fun s a => ?_) ha fun s' hs' => ?_
  · split
    · exact Marks.markvalue ..
    · exact Marks.refl s
  · have hgray' : s'.isgray (.upval a) = true := by
      rw [State.isgray_iff, hs'.kept _ (State.IsMarked.iswhite (Or.inl hgray)), hgray]
    rw [if_pos hgray', hs'.upvalue]
    exact iswhite_markvalue ho s'

/-- What is still deferred when the open upvalues have been remarked. -/
def DeferredAgain (s : State) (r : Ref) : Prop :=
  r ∈ s.grayagain ∨ (∃ h ∈ s.weak, r = .table h) ∨ ∃ u ∈ s.tmudata, r = .udata u

theorem tri_remarkupvals (hopened : Opened s) (htri : Tri (Deferred s) s) :
    Tri (DeferredAgain s) (remarkupvals s) := by
  have hmarks := Marks.remarkupvals s
  refine (hmarks.tri htri).mono fun r hr hdef => ?_
  rcases hdef with hagain | hweak | ⟨a, ha, rfl⟩ | htm
  · exact Or.inl (Or.inl hagain)
  · exact Or.inl (Or.inr (Or.inl hweak))
  · right
    cases hwhite : s.iswhite (.upval a) with
    | true => exact (hmarks.fresh _ hwhite hr.iswhite).2
    | false =>
      have hgray : s.marked (.upval a) = some .gray := by
        have hkept := hmarks.kept _ hwhite
        rcases hr with hgray | hblack
        · exact hkept.symm.trans hgray
        · exact absurd (hkept.symm.trans hblack) (hopened.black a ha)
      intro o ho
      rw [hmarks.strong] at ho
      exact iswhite_remarkupvals ha hgray (Option.mem_toList.mp ho)
  · exact Or.inl (Or.inr (Or.inr htm))

/-! ## The lists of what was deferred -/

/-- The weak tables are traversed again. -/
def regrayWeak (s : State) : State := { s with gray := s.weak.map .table, weak := [] }

def regrayAgain (s : State) : State := { s with gray := s.grayagain, grayagain := [] }

theorem grows_regrayWeak (s : State) : Grows s (regrayWeak s) where
  eq := rfl
  openupval _ := rfl
  refs r := by cases r <;> exact List.Subset.refl _
  none _ := Iff.rfl
  isMarked _ h := h
  white _ _ := rfl
  black _ _ _ _ h := h

theorem grows_regrayAgain (s : State) : Grows s (regrayAgain s) where
  eq := rfl
  openupval _ := rfl
  refs r := by cases r <;> exact List.Subset.refl _
  none _ := Iff.rfl
  isMarked _ h := h
  white _ _ := rfl
  black _ _ _ _ h := h

theorem Linked.regrayWeak (h : Linked s) (hgray : s.gray = []) : Linked (regrayWeak s) := by
  have hperm : (Collector.regrayWeak s).gclist.Perm s.gclist := by
    unfold State.gclist Collector.regrayWeak
    rw [hgray]
    simpa using List.perm_append_comm
  refine ⟨fun r hr => ?_, fun r hr => h.listed r (hperm.mem_iff.mp hr), hperm.nodup_iff.mpr h.nodup,
    h.black⟩
  rcases h.gray r hr with hstr | hmem | hagain | ⟨h', hh', rfl⟩ | hrest
  · exact Or.inl hstr
  · rw [hgray] at hmem
    cases hmem
  · exact Or.inr (Or.inr (Or.inl hagain))
  · exact Or.inr (Or.inl (List.mem_map_of_mem hh'))
  · exact Or.inr (Or.inr (Or.inr (Or.inr hrest)))

theorem Linked.regrayAgain (h : Linked s) (hgray : s.gray = []) : Linked (regrayAgain s) := by
  have heq : (Collector.regrayAgain s).gclist = s.gclist := by
    unfold State.gclist Collector.regrayAgain
    rw [hgray]
    simp
  refine ⟨fun r hr => ?_, fun r hr => h.listed r (heq ▸ hr), heq ▸ h.nodup, h.black⟩
  rcases h.gray r hr with hstr | hmem | hagain | hrest
  · exact Or.inl hstr
  · rw [hgray] at hmem
    cases hmem
  · exact Or.inr (Or.inl hagain)
  · exact Or.inr (Or.inr (Or.inr hrest))

theorem Tri.regrayWeak {Q : Ref → Prop} (h : Tri P s) (hgray : s.gray = [])
    (hPQ : ∀ r, P r → Q r ∨ ∃ h ∈ s.weak, r = .table h) : Tri Q (regrayWeak s) := by
  intro r hr
  have hweak (h' : Nat) (hh' : h' ∈ s.weak) : Ref.table h' ∈ (Collector.regrayWeak s).gray :=
    List.mem_map_of_mem hh'
  rcases h r hr with hmem | hP | hclean
  · rw [hgray] at hmem
    cases hmem
  · rcases hPQ r hP with hQ | ⟨h', hh', rfl⟩
    · exact Or.inr (Or.inl hQ)
    · exact Or.inl (hweak h' hh')
  · cases r with
    | table h' =>
      by_cases hh' : h' ∈ s.weak
      · exact Or.inl (hweak h' hh')
      · refine Or.inr (Or.inr fun o ho => hclean o ?_)
        simpa [State.strong, Collector.regrayWeak, hh'] using ho
    | string | udata | function | thread | proto | upval => exact Or.inr (Or.inr hclean)

theorem Tri.regrayAgain {Q : Ref → Prop} (h : Tri P s) (hgray : s.gray = [])
    (hPQ : ∀ r, P r → Q r ∨ r ∈ s.grayagain) : Tri Q (regrayAgain s) := by
  intro r hr
  rcases h r hr with hmem | hP | hclean
  · rw [hgray] at hmem
    cases hmem
  · rcases hPQ r hP with hQ | hagain
    · exact Or.inr (Or.inl hQ)
    · exact Or.inl hagain
  · refine Or.inr (Or.inr fun o ho => hclean o ?_)
    cases r <;> exact ho

/-! ## Userdata to be finalized -/

/-- A userdata is marked anew, whatever its colour. -/
def remark (u : Nat) (s : State) : State :=
  reallymarkobject (.udata u) (s.makewhite (.udata u))

theorem marktmu_eq (s : State) : marktmu s = s.tmudata.foldl (fun s u => remark u s) s := rfl

theorem remark_marks {u : Nat} (hu : s.marked (.udata u) ≠ none) :
    Marks (s.makewhite (.udata u)) (remark u s) ∧
      (remark u s).marked (.udata u) = some .black ∧ Clean (remark u s) (.udata u) := by
  have hself : (s.makewhite (.udata u)).marked (.udata u) = some (.white s.currentwhite) := by
    unfold State.makewhite
    rw [marked_recolour_self]
    obtain ⟨c, hc⟩ := Option.ne_none_iff_exists'.mp hu
    rw [hc]
    rfl
  have hwhite : (s.makewhite (.udata u)).iswhite (.udata u) = true :=
    State.iswhite_iff.mpr ⟨_, hself⟩
  obtain ⟨hmarks, hmarked⟩ := Marks.reallymarkobject hwhite
  have hfresh := hmarks.fresh _ hwhite hmarked
  exact ⟨hmarks, hfresh.1, hfresh.2⟩

theorem grows_remark {u : Nat} (hu : s.marked (.udata u) ≠ none) : Grows s (remark u s) := by
  obtain ⟨hmarks, hblack, -⟩ := remark_marks hu
  have hsame {r : Ref} (hr : r ≠ .udata u) : (s.makewhite (.udata u)).marked r = s.marked r :=
    marked_recolour_of_ne hr
  have hself : (remark u s).iswhite (.udata u) = false := State.IsMarked.iswhite (Or.inr hblack)
  have hgrows := hmarks.grows
  refine ⟨by rw [hmarks.eq]; rfl, hgrows.openupval, hgrows.refs, fun r => ?_, fun r hr => ?_,
    fun r hr => ?_, fun a t slot hslot hr => ?_⟩
  · by_cases hru : r = .udata u
    · subst hru
      rw [hblack]
      exact iff_of_false (by simp) hu
    · rw [hgrows.none, hsame hru]
  · by_cases hru : r = .udata u
    · subst hru
      exact Or.inr hblack
    · refine hmarks.isMarked ?_
      unfold State.IsMarked
      rw [hsame hru]
      exact hr
  · have hru : r ≠ .udata u := by
      rintro rfl
      rw [hself] at hr
      cases hr
    rw [hmarks.white r hr, hsame hru]
  · have h := hgrows.black a t slot hslot hr
    rwa [hsame (by simp)] at h

theorem Linked.remark {u : Nat} (h : Linked s) (hu : s.marked (.udata u) ≠ none)
    (hopen : OpenListed s) : Linked (remark u s) := by
  have hsame {r : Ref} (hr : r ≠ .udata u) : (s.makewhite (.udata u)).marked r = s.marked r :=
    marked_recolour_of_ne hr
  have hwhite : Linked (s.makewhite (.udata u)) := by
    refine ⟨fun r hr => ?_, fun r hr => ?_, h.nodup, fun t => ?_⟩
    · have hru : r ≠ .udata u := by
        rintro rfl
        unfold State.makewhite at hr
        rw [marked_recolour_self] at hr
        cases hc : s.marked (.udata u) <;> simp [hc] at hr
      rw [hsame hru] at hr
      exact h.gray r hr
    · have hlisted := h.listed r hr
      have hru : r ≠ .udata u := by
        rintro rfl
        cases hlisted.2
      rw [hsame hru]
      exact hlisted
    · rw [hsame (by simp)]
      exact h.black t
  refine (remark_marks hu).1.linked hwhite fun a t slot ha hslot => ?_
  rw [hsame (by simp)] at ha
  exact hopen a t slot ha hslot

theorem Tri.remark {u : Nat} (h : Tri P s) (hu : s.marked (.udata u) ≠ none) :
    Tri (fun r => P r ∧ r ≠ .udata u) (remark u s) := by
  obtain ⟨hmarks, hblack, hclean⟩ := remark_marks hu
  have hgrows := grows_remark hu
  intro r hr
  by_cases hru : r = .udata u
  · subst hru
    exact Or.inr (Or.inr hclean)
  · have hsame : (s.makewhite (.udata u)).marked r = s.marked r := marked_recolour_of_ne hru
    cases hwhite : (s.makewhite (.udata u)).iswhite r with
    | true =>
      have hfresh := hmarks.fresh r hwhite hr.iswhite
      cases r with
      | string a => exact Or.inr (Or.inr fun o ho => by cases ho)
      | udata u => exact Or.inr (Or.inr hfresh.2)
      | upval a => exact Or.inr (Or.inr hfresh.2)
      | table | function | thread | proto => exact Or.inl hfresh.2
    | false =>
      have hr' : s.IsMarked r := by
        unfold State.IsMarked at hr ⊢
        rwa [hmarks.kept r hwhite, hsame] at hr
      rcases h r hr' with hgray | hP | hc
      · exact Or.inl (hmarks.gray_subset hgray)
      · exact Or.inr (Or.inl ⟨hP, hru⟩)
      · refine Or.inr (Or.inr fun o ho => hgrows.nonwhite (hc o ?_))
        rw [hmarks.strong] at ho
        cases r <;> exact ho

theorem remarkLoop_spec (l : List Nat) (hl : ∀ u ∈ l, s.marked (.udata u) ≠ none) (h : Linked s)
    (hopen : OpenListed s) (htri : Tri (fun r => ∃ u ∈ l, r = .udata u) s) :
    let s' := l.foldl (fun s u => remark u s) s
    Grows s s' ∧ Linked s' ∧ Tri (fun _ => False) s' ∧ ∀ u ∈ l, s'.IsMarked (.udata u) := by
  induction l generalizing s with
  | nil => exact ⟨Grows.refl s, h, htri.mono fun r _ ⟨u, hu, _⟩ => (by cases hu), by simp⟩
  | cons u l ih =>
    have hu := hl u (List.mem_cons_self ..)
    have hgrows := grows_remark hu
    have htri' : Tri (fun r => ∃ u ∈ l, r = .udata u) (remark u s) := by
      refine (htri.remark hu).mono fun r _ hr => Or.inl ?_
      obtain ⟨⟨u', hu', rfl⟩, hne⟩ := hr
      rcases List.mem_cons.mp hu' with rfl | hu'
      · exact absurd rfl hne
      · exact ⟨u', hu', rfl⟩
    obtain ⟨hgrows', hlinked, hfalse, hmarked⟩ := ih
      (fun u' hu' => (not_congr (hgrows.none _)).mpr (hl u' (List.mem_cons_of_mem _ hu')))
      (h.remark hu hopen) (hgrows.openListed hopen) htri'
    refine ⟨hgrows.trans hgrows', hlinked, hfalse, fun u' hu' => ?_⟩
    rcases List.mem_cons.mp hu' with rfl | hu'
    · exact hgrows'.isMarked _ (Or.inr (remark_marks hu).2.1)
    · exact hmarked u' hu'

/-! ## The marking -/

theorem Marks.markmt (s : State) : Marks s (markmt s) := Marks.markobjects ..

/-- All is clean but the userdata that wait for their finalizers. -/
theorem atomicRemark_spec (hs : Ground s) (hp : Propagating s) :
    Grows s (atomicRemark s) ∧ Linked (atomicRemark s) ∧ (atomicRemark s).gray = [] ∧
      Tri (fun r => ∃ u ∈ s.tmudata, r = .udata u) (atomicRemark s) ∧
      (atomicRemark s).iswhite (.thread s.L) = false ∧
      ∀ mt ∈ s.mt.reduceOption, (atomicRemark s).iswhite (.table mt) = false := by
  -- the open upvalues
  let a₁ := remarkupvals s
  have hm₁ : Marks s a₁ := Marks.remarkupvals s
  have hg₁ := hm₁.grows.ground hs
  have hl₁ : Linked a₁ := hm₁.linked hp.linked hs.listed.openListed
  obtain ⟨hr₂, hempty₂⟩ := propagateall_spec hl₁ hg₁.listed.openListed hg₁.listed.allListed
  let a₂ := propagateall a₁
  have ht₂ : Tri (DeferredAgain s) a₂ := hr₂.tri _ (tri_remarkupvals hs.opened hp.tri)
  -- the weak tables, the running thread and the basic metatables
  let a₃ := regrayWeak a₂
  have hgrows₃ : Grows s a₃ := hm₁.grows.trans (hr₂.grows.trans (grows_regrayWeak a₂))
  have hg₃ := hgrows₃.ground hs
  have ht₃ : Tri (fun r => r ∈ s.grayagain ∨ ∃ u ∈ s.tmudata, r = .udata u) a₃ := by
    refine ht₂.regrayWeak hempty₂ fun r hr => ?_
    rcases hr with hagain | ⟨h, hh, rfl⟩ | htm
    · exact Or.inl (Or.inl hagain)
    · exact Or.inr ⟨h, hr₂.weak (hm₁.weak ▸ hh), rfl⟩
    · exact Or.inl (Or.inr htm)
  have hl₃ : Linked a₃ := hr₂.linked.regrayWeak hempty₂
  have hL : a₃.L = s.L := by rw [hgrows₃.eq]
  have hmt : a₃.mt = s.mt := by rw [hgrows₃.eq]
  let a₄ := markmt (markobject (.thread a₃.L) a₃)
  have hm₃ := Marks.markobject (.thread a₃.L) a₃
  have hm₄ : Marks a₃ a₄ := hm₃.trans (Marks.markmt _)
  have hg₄ := hm₄.grows.ground hg₃
  obtain ⟨hr₅, hempty₅⟩ := propagateall_spec (hm₄.linked hl₃ hg₃.listed.openListed)
    hg₄.listed.openListed hg₄.listed.allListed
  let a₅ := propagateall a₄
  have ht₅ := hr₅.tri _ (hm₄.tri ht₃)
  -- gray again
  let a₆ := regrayAgain a₅
  have hgrows₄ : Grows a₄ a₆ := hr₅.grows.trans (grows_regrayAgain a₅)
  have hgrows₆ : Grows s a₆ := hgrows₃.trans (hm₄.grows.trans hgrows₄)
  have hg₆ := hgrows₆.ground hs
  have ht₆ : Tri (fun r => ∃ u ∈ s.tmudata, r = .udata u) a₆ := by
    refine ht₅.regrayAgain hempty₅ fun r hr => ?_
    refine hr.symm.imp_right fun hagain => hr₅.grayagain ?_
    rw [hm₄.grayagain]
    exact hr₂.grayagain (hm₁.grayagain ▸ hagain)
  obtain ⟨hr₇, hempty₇⟩ := propagateall_spec (hr₅.linked.regrayAgain hempty₅)
    hg₆.listed.openListed hg₆.listed.allListed
  have hmono {r : Ref} (hr : a₄.iswhite r = false) : (propagateall a₆).iswhite r = false :=
    (hgrows₄.trans hr₇.grows).nonwhite hr
  refine ⟨hgrows₆.trans hr₇.grows, hr₇.linked, hempty₇, hr₇.tri _ ht₆, ?_, fun mt hmem => ?_⟩
  · rw [← hL]
    exact hmono ((Marks.markmt _).nonwhite (iswhite_markobject ..))
  · refine hmono (iswhite_markobjects ?_ _)
    rw [hm₃.eq]
    exact List.mem_map_of_mem (hmt ▸ hmem)

/-- Every marked object is clean after the marking, and the roots are marked. -/
structure AllClean (s : State) : Prop where
  clean : ∀ r, s.IsMarked r → Clean s r
  mainthread : s.iswhite (.thread s.mainthread) = false
  registry : s.iswhite (.table s.registry) = false
  thread : s.iswhite (.thread s.L) = false
  mt : ∀ mt ∈ s.mt.reduceOption, s.iswhite (.table mt) = false
  tmudata : ∀ u ∈ s.tmudata, s.iswhite (.udata u) = false
  weak : ∀ h ∈ s.weak, s.IsMarked (.table h)

/-- The marking, with the separation in the middle. -/
structure AtomicMarked (s s' : State) (moved : List Nat) : Prop where
  steps : ∃ s₁ s₂, Grows s s₁ ∧ Separates s₁ s₂ moved ∧ Grows s₂ s'
  ground : Ground s'
  clean : AllClean s'

/-- The userdata are marked, with what they refer to. -/
theorem marktmu_spec {moved : List Nat} (hs : Ground s) (hlinked : Linked s)
    (htri : Tri (fun r => ∃ u ∈ s.tmudata, r = .udata u) s) (hsep : Separates s s' moved) :
    Grows s' (propagateall (marktmu s')) ∧ Ground (propagateall (marktmu s')) ∧
      Linked (propagateall (marktmu s')) ∧
      (∀ r, (propagateall (marktmu s')).IsMarked r → Clean (propagateall (marktmu s')) r) ∧
      ∀ u ∈ s'.tmudata, (propagateall (marktmu s')).iswhite (.udata u) = false := by
  have hg := hsep.ground hs
  have htm : s'.tmudata = s.tmudata ++ moved := by rw [hsep.eq]
  have htri' : Tri (fun r => ∃ u ∈ s'.tmudata, r = .udata u) s' := by
    refine (hsep.tri htri).mono fun r _ hr => Or.inl ?_
    obtain ⟨u, hu, rfl⟩ := hr
    exact ⟨u, htm ▸ List.mem_append_left _ hu, rfl⟩
  have hroot (u : Nat) (hu : u ∈ s'.tmudata) : s'.marked (.udata u) ≠ none :=
    (hg.kept.root _ (Or.inr (Or.inr (Or.inr (Or.inr (Or.inl ⟨u, hu, rfl⟩)))))).1
  obtain ⟨hgrows, hl, ht, hmarked⟩ :=
    remarkLoop_spec s'.tmudata hroot (hsep.linked hlinked) hg.listed.openListed htri'
  rw [← marktmu_eq] at hgrows hl ht hmarked
  have hg' := hgrows.ground hg
  obtain ⟨hr, hempty⟩ := propagateall_spec hl hg'.listed.openListed hg'.listed.allListed
  refine ⟨hgrows.trans hr.grows, hr.grows.ground hg', hr.linked, fun r hmem => ?_, fun u hu => ?_⟩
  · rcases hr.tri _ ht r hmem with hgray | hfalse | hclean
    · rw [hempty] at hgray
      cases hgray
    · exact hfalse.elim
    · exact hclean
  · exact hr.grows.nonwhite (hmarked u hu).iswhite

theorem atomicMark_eq (s : State) :
    atomicMark s = propagateall (marktmu (luaC_separateudata false (atomicRemark s))) := rfl

theorem atomicMark_spec (hs : Ground s) (hp : Propagating s) :
    ∃ moved, AtomicMarked s (atomicMark s) moved := by
  rw [atomicMark_eq]
  obtain ⟨hgrows₁, hlinked₁, -, ht₁, hthread, hmt⟩ := atomicRemark_spec hs hp
  generalize atomicRemark s = a₁ at hgrows₁ hlinked₁ ht₁ hthread hmt
  rw [← hgrows₁.tmudata] at ht₁
  obtain ⟨moved, hsep⟩ := luaC_separateudata_spec false a₁
  generalize luaC_separateudata false a₁ = a₂ at hsep
  obtain ⟨hgrows₂, hg, hlinked, hclean, htm⟩ := marktmu_spec (hgrows₁.ground hs) hlinked₁ ht₁ hsep
  generalize propagateall (marktmu a₂) = s' at hgrows₂ hg hlinked hclean htm
  have hmono {r : Ref} (hr : a₁.iswhite r = false) : s'.iswhite r = false := by
    refine hgrows₂.nonwhite ?_
    rw [← hr]
    exact iswhite_congr (by rw [hsep.marked])
  refine ⟨moved, ⟨a₁, a₂, hgrows₁, hsep, hgrows₂⟩, hg, hclean, ?_, ?_, ?_, ?_, ?_, fun h hh => ?_⟩
  · have heq : s'.mainthread = s.mainthread := by rw [hgrows₂.eq, hsep.eq, hgrows₁.eq]
    rw [heq]
    exact hmono (hgrows₁.nonwhite hp.mainthread)
  · have heq : s'.registry = s.registry := by rw [hgrows₂.eq, hsep.eq, hgrows₁.eq]
    rw [heq]
    exact hmono (hgrows₁.nonwhite hp.registry)
  · have heq : s'.L = s.L := by rw [hgrows₂.eq, hsep.eq, hgrows₁.eq]
    rw [heq]
    exact hmono hthread
  · have heq : s'.mt = s.mt := by rw [hgrows₂.eq, hsep.eq, hgrows₁.eq]
    rw [heq]
    exact fun mt hmem => hmono (hmt mt hmem)
  · rw [hgrows₂.tmudata]
    exact htm
  · exact Or.inl (hlinked.listed _ (List.mem_append_right _ (List.mem_map_of_mem hh))).1

end Luaxx.Collector
