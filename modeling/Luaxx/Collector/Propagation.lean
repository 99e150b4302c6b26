import Mathlib.Data.Finset.Card
import Luaxx.Collector.Traversal

/-!
# The propagation of marks

One object after the other is taken from the list `gray` and traversed. What holds of the marked
objects and of the lists is kept by every such step, and after `propagateall` the list is empty.
-/

namespace Luaxx.Collector

open Luaxx.Gc (White GCState)

variable {s s' s'' : State} {o r : Ref} {P : Ref → Prop}

/-! ## What is marked stays marked -/

/-- All the steps of the mark phase do no more than this. -/
structure Grows (s s' : State) : Prop where
  eq : s' = { s with
    marked := s'.marked, gray := s'.gray, grayagain := s'.grayagain, weak := s'.weak,
    table := s'.table, thread := s'.thread }
  openupval : ∀ t, (s'.thread t).openupval = (s.thread t).openupval
  refs : ∀ r, s'.refs r ⊆ s.refs r
  none : ∀ r, s'.marked r = none ↔ s.marked r = none
  isMarked : ∀ r, s.IsMarked r → s'.IsMarked r
  white : ∀ r, s'.iswhite r = true → s'.marked r = s.marked r
  black : ∀ a t slot, s.upval a = .stack t slot → s'.marked (.upval a) = some .black →
    s.marked (.upval a) = some .black

namespace Grows

theorem refl (s : State) : Grows s s where
  eq := rfl
  openupval _ := rfl
  refs _ := List.Subset.refl _
  none _ := Iff.rfl
  isMarked _ h := h
  white _ _ := rfl
  black _ _ _ _ h := h

theorem upval (h : Grows s s') : s'.upval = s.upval := by rw [h.eq]

theorem uvhead (h : Grows s s') : s'.uvhead = s.uvhead := by rw [h.eq]

theorem tmudata (h : Grows s s') : s'.tmudata = s.tmudata := by rw [h.eq]

theorem nonwhite (h : Grows s s') (hr : s.iswhite r = false) : s'.iswhite r = false := by
  by_cases hnone : s.marked r = Option.none
  · rw [State.iswhite_eq_false, (h.none r).mpr hnone]
    simp
  · exact (h.isMarked r (State.isMarked_of_not_white hnone hr)).iswhite

theorem trans (h : Grows s s') (h' : Grows s' s'') : Grows s s'' where
  eq := by rw [h'.eq, h.eq]
  openupval t := (h'.openupval t).trans (h.openupval t)
  refs r := List.Subset.trans (h'.refs r) (h.refs r)
  none r := (h'.none r).trans (h.none r)
  isMarked r hr := h'.isMarked r (h.isMarked r hr)
  white r hr := by
    have h₁ := h'.white r hr
    exact h₁.trans (h.white r ((iswhite_congr h₁).symm.trans hr))
  black a t slot hslot hr := by
    have hslot' : s'.upval a = .stack t slot := by rw [h.upval, hslot]
    exact h.black a t slot hslot (h'.black a t slot hslot' hr)

end Grows

theorem Marks.grows (h : Marks s s') : Grows s s' where
  eq := by rw [h.eq]
  openupval t := by rw [h.thread]
  refs r := by rw [h.refs]; exact List.Subset.refl _
  none r := by
    cases hwhite : s.iswhite r with
    | true =>
      refine iff_of_false (fun hnone => ?_) (State.ne_none_of_iswhite hwhite)
      have hwhite' : s'.iswhite r = false := by rw [State.iswhite_eq_false, hnone]; simp
      exact (h.fresh r hwhite hwhite').isMarked.ne_none hnone
    | false => rw [h.kept r hwhite]
  isMarked _ hr := h.isMarked hr
  white := h.white
  black a t slot hslot hr := by
    cases hwhite : s.iswhite (.upval a) with
    | true =>
      have hfresh := h.fresh _ hwhite (State.IsMarked.iswhite (Or.inr hr))
      rcases hfresh.1 with ⟨hgray, -⟩ | ⟨-, v, hv⟩
      · cases hr.symm.trans hgray
      · rw [h.upval, hslot] at hv
        cases hv
    | false => exact (h.kept _ hwhite).symm.trans hr

theorem Trims.grows (h : Trims s s') : Grows s s' where
  eq := by rw [h.eq]
  openupval := h.openupval
  refs := h.refs
  none r := by rw [h.marked]
  isMarked r hr := by unfold State.IsMarked; rw [h.marked]; exact hr
  white r _ := by rw [h.marked]
  black _ _ _ _ hr := by rwa [h.marked] at hr

/-- White stays white, and what is not white does. -/
structure Repaints (f : Colour → Colour) : Prop where
  white : ∀ w, f (.white w) = .white w
  gray : f .gray = .gray ∨ f .gray = .black
  black : f .black = .gray ∨ f .black = .black

theorem repaints_gray2black : Repaints Colour.gray2black :=
  ⟨fun _ => rfl, Or.inr rfl, Or.inr rfl⟩

theorem repaints_black2gray : Repaints Colour.black2gray :=
  ⟨fun _ => rfl, Or.inl rfl, Or.inl rfl⟩

namespace Repaints

variable {f : Colour → Colour}

theorem isMarked (hf : Repaints f) : (s.recolour o f).IsMarked r ↔ s.IsMarked r := by
  unfold State.IsMarked
  by_cases hro : r = o
  · subst hro
    rw [marked_recolour_self]
    cases s.marked r with
    | none => simp
    | some c =>
      cases c with
      | white w => simp [hf.white]
      | gray => simpa using hf.gray
      | black => simpa using hf.black
  · rw [marked_recolour_of_ne hro]

theorem marked_of_white (hf : Repaints f) (hr : (s.recolour o f).iswhite r = true) :
    (s.recolour o f).marked r = s.marked r := by
  by_cases hro : r = o
  · subst hro
    rw [State.iswhite_iff] at hr
    rw [marked_recolour_self] at hr ⊢
    obtain ⟨w, hw⟩ := hr
    cases hc : s.marked r with
    | none => rfl
    | some c =>
      cases c with
      | white w => rw [Option.map_some, hf.white]
      | gray => rcases hf.gray with h | h <;> simp [hc, h] at hw
      | black => rcases hf.black with h | h <;> simp [hc, h] at hw
  · exact marked_recolour_of_ne hro

theorem iswhite (hf : Repaints f) : (s.recolour o f).iswhite r = s.iswhite r := by
  cases h : (s.recolour o f).iswhite r with
  | true => rw [← iswhite_congr (hf.marked_of_white h), h]
  | false =>
    by_cases hnone : s.marked r = none
    · rw [eq_comm, State.iswhite_eq_false, hnone]
      simp
    · have hnone' : (s.recolour o f).marked r ≠ none := by
        by_cases hro : r = o
        · subst hro
          rw [marked_recolour_self]
          simpa using hnone
        · rwa [marked_recolour_of_ne hro]
      exact (hf.isMarked.mp (State.isMarked_of_not_white hnone' h)).iswhite.symm

theorem grows (hf : Repaints f) (ho : ∀ a t slot, o = .upval a → s.upval a ≠ .stack t slot) :
    Grows s (s.recolour o f) where
  eq := rfl
  openupval _ := rfl
  refs _ := List.Subset.refl _
  none r := by
    by_cases hro : r = o
    · subst hro
      rw [marked_recolour_self]
      simp
    · rw [marked_recolour_of_ne hro]
  isMarked _ hr := hf.isMarked.mpr hr
  white _ hr := hf.marked_of_white hr
  black a t slot hslot hr := by
    have hne : Ref.upval a ≠ o := fun heq => ho a t slot heq.symm hslot
    rwa [marked_recolour_of_ne hne] at hr

theorem tri (hf : Repaints f) (h : Tri P s) : Tri P (s.recolour o f) := by
  intro r hr
  refine (h r (hf.isMarked.mp hr)).imp_right (Or.imp_right fun hclean o' ho' => ?_)
  rw [hf.iswhite]
  exact hclean o' ho'

theorem clean (hf : Repaints f) (h : Clean s r) : Clean (s.recolour o f) r := by
  intro o' ho'
  rw [hf.iswhite]
  exact h o' ho'

end Repaints

/-! ## One step -/

/-- An object is taken from the list. -/
def popgray (o : Ref) (gray : List Ref) (s : State) : State :=
  { s.recolour o Colour.gray2black with gray := gray }

/-- A thread is put in the list `grayagain`. -/
def linkagain (o : Ref) (s : State) : State :=
  { s with grayagain := o :: s.grayagain }.recolour o Colour.black2gray

inductive Propagated : Ref → State → State → Prop
  | strong {o : Ref} {s s' : State} (ho : ∀ t, o ≠ .thread t) (h : Traversed o s s') :
    Propagated o s s'
  | weak {h : Nat} {s s' : State} (ht : TraversedWeak h s s') :
    Propagated (.table h) s (s'.recolour (.table h) Colour.black2gray)
  | thread {t : Nat} {s s' : State} (h : Traversed (.thread t) (linkagain (.thread t) s) s') :
    Propagated (.thread t) s s'

theorem propagatemark_spec {gray : List Ref} (hgray : s.gray = o :: gray)
    (hlinked : o.linked = true) : Propagated o (popgray o gray s) (propagatemark s) := by
  unfold propagatemark
  rw [hgray]
  cases o with
  | table h =>
    have hspec := traversetable_spec h (popgray (.table h) gray s)
    show Propagated _ _ (if (traversetable h (popgray (.table h) gray s)).1 then _ else _)
    split
    · rename_i hweak
      rw [if_pos hweak] at hspec
      exact .weak hspec
    · rename_i hweak
      rw [if_neg hweak] at hspec
      exact .strong (by simp) hspec
  | function f => exact .strong (by simp) (traverseclosure_spec f _)
  | thread t => exact .thread (traversestack_spec t _)
  | proto f => exact .strong (by simp) (traverseproto_spec f _)
  | string | udata | upval => cases hlinked

theorem grows_popgray (o : Ref) (gray : List Ref) (s : State) (ho : ∀ a, o ≠ .upval a) :
    Grows s (popgray o gray s) := by
  have h := @Repaints.grows s o _ repaints_gray2black fun a _ _ heq => absurd heq (ho a)
  exact ⟨rfl, h.openupval, h.refs, h.none, h.isMarked, h.white, h.black⟩

theorem grows_linkagain (t : Nat) (s : State) : Grows s (linkagain (.thread t) s) := by
  have h := @Repaints.grows s (.thread t) _ repaints_black2gray (by simp)
  exact ⟨rfl, h.openupval, h.refs, h.none, h.isMarked, h.white, h.black⟩

theorem grows_linkweak (h : Nat) (weakkey weakvalue : Bool) (s : State) :
    Grows s (linkweak h weakkey weakvalue s) where
  eq := rfl
  openupval _ := rfl
  refs r := by
    cases r with
    | table h' =>
      show (Function.update s.table h _ h').refs ⊆ _
      by_cases heq : h' = h
      · rw [heq, Function.update_self]; exact List.Subset.refl _
      · rw [Function.update_of_ne heq]; exact List.Subset.refl _
    | _ => exact List.Subset.refl _
  none _ := Iff.rfl
  isMarked _ h := h
  white _ _ := rfl
  black _ _ _ _ h := h

theorem Traversed.grows (h : Traversed o s s') : Grows s s' := by
  obtain ⟨s₁, hmarks, htrims⟩ := h.steps
  exact hmarks.grows.trans htrims.grows

theorem TraversedWeak.grows {h : Nat} (ht : TraversedWeak h s s') : Grows s s' := by
  obtain ⟨weakkey, weakvalue, s₁, s₂, hmarks₁, hmarks₂, htrims⟩ := ht.steps
  exact hmarks₁.grows.trans ((grows_linkweak ..).trans (hmarks₂.grows.trans htrims.grows))

theorem Propagated.grows (h : Propagated o s s') : Grows s s' := by
  cases h with
  | strong _ h => exact h.grows
  | weak h => exact h.grows.trans (Repaints.grows repaints_black2gray (by simp))
  | thread h => exact (grows_linkagain ..).trans h.grows

/-! ## The objects that are marked -/

theorem Tri.mono {Q : Ref → Prop} (h : Tri P s)
    (hPQ : ∀ r, s.IsMarked r → P r → Q r ∨ Clean s r) : Tri Q s := by
  intro r hr
  rcases h r hr with hgray | hP | hclean
  · exact Or.inl hgray
  · exact Or.inr (hPQ r hr hP)
  · exact Or.inr (Or.inr hclean)

theorem Tri.popgray {gray : List Ref} (h : Tri P s) (hgray : s.gray = o :: gray) :
    Tri (fun r => P r ∨ r = o) (popgray o gray s) := by
  intro r hr
  rcases h r (repaints_gray2black.isMarked.mp hr) with hmem | hP | hclean
  · rw [hgray] at hmem
    rcases List.mem_cons.mp hmem with rfl | hmem
    · exact Or.inr (Or.inl (Or.inr rfl))
    · exact Or.inl hmem
  · exact Or.inr (Or.inl (Or.inl hP))
  · exact Or.inr (Or.inr (@Repaints.clean _ o _ _ repaints_gray2black hclean))

theorem Tri.linkweak {h : Nat} (htri : Tri P s) (hP : P (.table h)) (weakkey weakvalue : Bool) :
    Tri P (linkweak h weakkey weakvalue s) := by
  intro r hr
  by_cases hrh : r = .table h
  · exact Or.inr (Or.inl (hrh ▸ hP))
  · refine (htri r hr).imp_right (Or.imp_right fun hclean o ho => hclean o ?_)
    cases r with
    | table h' =>
      have hne : h' ≠ h := fun heq => hrh (heq ▸ rfl)
      change o ∈ (Function.update s.table h _ h').strong (decide (h' ∈ h :: s.weak)) at ho
      rw [Function.update_of_ne hne] at ho
      simpa [State.strong, hne] using ho
    | _ => exact ho

theorem Propagated.clean (h : Propagated o s s') : Clean s' o := by
  cases h with
  | strong _ h => exact h.clean
  | weak h => exact repaints_black2gray.clean h.clean
  | thread h => exact h.clean

theorem Propagated.tri (h : Propagated o s s') (htri : Tri (fun r => P r ∨ r = o) s) : Tri P s' := by
  have hclean := h.clean
  have htri' : Tri (fun r => P r ∨ r = o) s' := by
    cases h with
    | strong _ h =>
      obtain ⟨s₁, hmarks, htrims⟩ := h.steps
      exact htrims.tri (hmarks.tri htri)
    | weak h =>
      obtain ⟨weakkey, weakvalue, s₁, s₂, hmarks₁, hmarks₂, htrims⟩ := h.steps
      exact repaints_black2gray.tri
        (htrims.tri (hmarks₂.tri ((hmarks₁.tri htri).linkweak (Or.inr rfl) weakkey weakvalue)))
    | thread h =>
      obtain ⟨s₁, hmarks, htrims⟩ := h.steps
      exact htrims.tri (hmarks.tri (repaints_black2gray.tri htri))
  refine htri'.mono fun r _ hr => hr.imp_right ?_
  rintro rfl
  exact hclean

theorem Table.swept_subset (t : Table) : t.swept.strong false ⊆ t.refs := by
  refine List.Subset.trans (Table.strong_swept t) ?_
  show t.metatable.toList.map Ref.table ++ (t.array.filterMap Val.ref ++ _) ⊆ _
  rw [← List.append_assoc]
  refine append_subset_append (List.Subset.refl _) ?_
  show (t.node.map _).flatMap _ ⊆ _
  rw [List.flatMap_map]
  refine flatMap_subset fun n _ => ?_
  by_cases hval : n.val = .nil
  · have hval' : (removeentry n).val = .nil := hval
    simp [hval, hval']
  · simp only [hval, if_false]
    exact List.Subset.refl _

/-- Entries without a value lose their keys when their table becomes black. -/
theorem Propagated.keyed (h : Propagated o s s') (ho : ∀ x ∈ s.refs o, s.marked x ≠ none)
    (hs : ∀ t, o ≠ .table t → s.marked (.table t) = some .black →
      ∀ x ∈ (s.table t).strong false, s.marked x ≠ none) : Keyed s' := by
  intro t ht x hx
  rw [ne_eq, h.grows.none]
  have hmarks {s₁ s₂ s₃ : State} (hmarks : Marks s₁ s₂) (htrims : Trims s₂ s₃)
      (ht : s₃.marked (.table t) = some .black) : s₁.marked (.table t) = some .black := by
    rw [htrims.marked] at ht
    exact hmarks.black_table ht
  cases h with
  | @strong _ _ _ _ h =>
    obtain ⟨s₁, h₁, h₂⟩ := h.steps
    have ht := hmarks h₁ h₂ ht
    rw [h.table] at hx
    split at hx
    · rename_i heq
      subst heq
      exact ho x (Table.swept_subset _ hx)
    · rename_i hne
      exact hs t hne ht x hx
  | @weak h' _ s₂ h =>
    obtain ⟨weakkey, weakvalue, s₁, s₃, h₁, h₃, h₂⟩ := h.steps
    by_cases hne : t = h'
    · subst hne
      rw [marked_recolour_self] at ht
      cases hc : s₂.marked (.table t) with
      | none => simp [hc] at ht
      | some c => cases c <;> simp [hc, Colour.black2gray] at ht
    · rw [marked_recolour_of_ne (by simpa using hne)] at ht
      have hx : x ∈ (s₂.table t).strong false := hx
      rw [h.table t hne] at hx
      have ht := @hmarks (linkweak h' weakkey weakvalue s₁) _ _ h₃ h₂ ht
      exact hs t (by simpa [eq_comm] using hne) (h₁.black_table ht) x hx
  | @thread t' _ _ h =>
    obtain ⟨s₁, h₁, h₂⟩ := h.steps
    have ht := hmarks h₁ h₂ ht
    rw [h.table, if_neg (by simp)] at hx
    have hsame : (linkagain (.thread t') s).marked (.table t) = s.marked (.table t) :=
      marked_recolour_of_ne (by simp)
    exact hs t (by simp) (hsame ▸ ht) x hx

/-- Another object is black afterwards, but no other table. -/
theorem propagatemark_keyed (hlinked : Linked s)
    (hkept : ∀ r, s.IsMarked r → ∀ x ∈ s.refs r, s.marked x ≠ none) (hs : Keyed s) :
    Keyed (propagatemark s) := by
  cases hgray : s.gray with
  | nil =>
    have heq : propagatemark s = s := by
      unfold propagatemark
      rw [hgray]
    rwa [heq]
  | cons o gray =>
    obtain ⟨hmarked, hlink⟩ := hlinked.listed o (by simp [State.gclist, hgray])
    have hnone (x : Ref) : (popgray o gray s).marked x = none ↔ s.marked x = none :=
      (grows_popgray o gray s fun a ha => by simp [ha, Ref.linked] at hlink).none x
    refine (propagatemark_spec hgray hlink).keyed (fun x hx => ?_) fun t hne ht x hx => ?_
    · rw [ne_eq, hnone]
      exact hkept o (Or.inl hmarked) x (by cases o <;> exact hx)
    · rw [ne_eq, hnone]
      have hsame : (popgray o gray s).marked (.table t) = s.marked (.table t) :=
        marked_recolour_of_ne fun heq => hne heq.symm
      exact hs t (hsame ▸ ht) x hx

/-! ## The lists -/

/-- The open upvalues are in the list of all of them. -/
def OpenListed (s : State) : Prop :=
  ∀ a t slot, s.marked (.upval a) ≠ none → s.upval a = .stack t slot → a ∈ s.uvhead

theorem Grows.openListed (h : Grows s s') (hopen : OpenListed s) : OpenListed s' := by
  intro a t slot ha hslot
  rw [h.uvhead]
  rw [h.upval] at hslot
  exact hopen a t slot (fun hnone => ha ((h.none _).mpr hnone)) hslot

theorem Linked.popgray {gray : List Ref} (h : Linked s) (hgray : s.gray = o :: gray)
    (ho : ∀ t, o ≠ .thread t) : Linked (popgray o gray s) := by
  have hgclist : s.gclist = o :: (gray ++ s.grayagain ++ s.weak.map .table) := by
    simp [State.gclist, hgray]
  have hcolour := (h.listed o (hgclist ▸ List.mem_cons_self ..)).1
  have hblack : (Collector.popgray o gray s).marked o = some .black := by
    show (s.recolour o _).marked o = _
    rw [marked_recolour_self, hcolour]
    rfl
  have hsame {r : Ref} (hr : r ≠ o) : (Collector.popgray o gray s).marked r = s.marked r :=
    marked_recolour_of_ne hr
  have hnodup := h.nodup
  rw [hgclist, List.nodup_cons] at hnodup
  refine ⟨fun r hr => ?_, fun r hr => ?_, hnodup.2, fun t => ?_⟩
  · have hro : r ≠ o := by
      rintro rfl
      cases hblack.symm.trans hr
    rw [hsame hro] at hr
    rcases h.gray r hr with hstr | hmem | hdef
    · exact Or.inl hstr
    · rw [hgray] at hmem
      exact Or.inr (Or.inl ((List.mem_cons.mp hmem).resolve_left hro))
    · exact Or.inr (Or.inr hdef)
  · have hro : r ≠ o := by
      rintro rfl
      exact hnodup.1 hr
    rw [hsame hro]
    exact h.listed r (hgclist ▸ List.mem_cons_of_mem _ hr)
  · rw [hsame (ho t).symm]
    exact h.black t

theorem Linked.linkagain {gray : List Ref} {t : Nat} (h : Linked s)
    (hgray : s.gray = .thread t :: gray) :
    Linked (linkagain (.thread t) (Collector.popgray (.thread t) gray s)) := by
  let s' := Collector.linkagain (.thread t) (Collector.popgray (.thread t) gray s)
  have hgclist : s.gclist = .thread t :: (gray ++ s.grayagain ++ s.weak.map .table) := by
    simp [State.gclist, hgray]
  have hgclist' : s'.gclist = gray ++ (.thread t :: s.grayagain) ++ s.weak.map .table := rfl
  have hperm : s'.gclist.Perm s.gclist := by
    rw [hgclist, hgclist', List.append_assoc, List.append_assoc]
    exact List.perm_middle
  have hcolour := (h.listed _ (hgclist ▸ List.mem_cons_self ..)).1
  have hself : s'.marked (.thread t) = some .gray := by
    show ((s.recolour (.thread t) _).recolour (.thread t) _).marked (.thread t) = _
    rw [marked_recolour_self, marked_recolour_self, hcolour]
    rfl
  have hsame {r : Ref} (hr : r ≠ .thread t) : s'.marked r = s.marked r :=
    (marked_recolour_of_ne hr).trans (marked_recolour_of_ne hr)
  have hmarked (r : Ref) : s'.marked r = s.marked r := by
    by_cases hr : r = .thread t
    · rw [hr, hself, hcolour]
    · exact hsame hr
  refine ⟨fun r hr => ?_, fun r hr => ?_, hperm.nodup_iff.mpr h.nodup, fun t' => ?_⟩
  · rw [hmarked] at hr
    rcases h.gray r hr with hstr | hmem | hdef
    · exact Or.inl hstr
    · rw [hgray] at hmem
      rcases List.mem_cons.mp hmem with rfl | hmem
      · exact Or.inr (Or.inr (Or.inl (List.mem_cons_self ..)))
      · exact Or.inr (Or.inl hmem)
    · exact Or.inr (Or.inr (hdef.imp_left (List.mem_cons_of_mem _)))
  · rw [hmarked]
    exact h.listed r (hperm.mem_iff.mp hr)
  · rw [hmarked]
    exact h.black t'

theorem Linked.linkweak {h : Nat} (hlinked : Linked s) (hblack : s.marked (.table h) = some .black)
    (weakkey weakvalue : Bool) :
    Linked ((linkweak h weakkey weakvalue s).recolour (.table h) Colour.black2gray) := by
  let s' := (Collector.linkweak h weakkey weakvalue s).recolour (.table h) Colour.black2gray
  have hgclist : s'.gclist = s.gray ++ s.grayagain ++ .table h :: s.weak.map .table := rfl
  have hperm : s'.gclist.Perm (.table h :: s.gclist) := by
    rw [hgclist]
    exact List.perm_middle
  have hself : s'.marked (.table h) = some .gray := by
    show (s.recolour (.table h) _).marked (.table h) = _
    rw [marked_recolour_self, hblack]
    rfl
  have hsame {r : Ref} (hr : r ≠ .table h) : s'.marked r = s.marked r :=
    marked_recolour_of_ne hr
  refine ⟨fun r hr => ?_, fun r hr => ?_, hperm.nodup_iff.mpr (List.nodup_cons.mpr ⟨?_, hlinked.nodup⟩),
    fun t => ?_⟩
  · by_cases hro : r = .table h
    · exact Or.inr (Or.inr (Or.inr (Or.inl ⟨h, List.mem_cons_self .., hro⟩)))
    · rw [hsame hro] at hr
      rcases hlinked.gray r hr with hstr | hmem | hagain | ⟨h', hh', rfl⟩ | hdef
      · exact Or.inl hstr
      · exact Or.inr (Or.inl hmem)
      · exact Or.inr (Or.inr (Or.inl hagain))
      · exact Or.inr (Or.inr (Or.inr (Or.inl ⟨h', List.mem_cons_of_mem _ hh', rfl⟩)))
      · exact Or.inr (Or.inr (Or.inr (Or.inr hdef)))
  · rcases List.mem_cons.mp (hperm.mem_iff.mp hr) with rfl | hr
    · exact ⟨hself, rfl⟩
    · have hgray := hlinked.listed r hr
      have hro : r ≠ .table h := by
        rintro rfl
        cases hblack.symm.trans hgray.1
      rw [hsame hro]
      exact hgray
  · intro hmem
    cases hblack.symm.trans (hlinked.listed _ hmem).1
  · rw [hsame (by simp)]
    exact hlinked.black t

/-- Marking does not see the colour of what is marked already. -/
theorem Marks.recolour {f : Colour → Colour} (hf : Repaints f) (ho : s.iswhite o = false)
    (h : Marks s s') : Marks (s.recolour o f) (s'.recolour o f) := by
  have ho' := h.nonwhite ho
  have hne {s : State} {r : Ref} (ho : s.iswhite o = false) (hr : s.iswhite r = true) : r ≠ o := by
    rintro rfl
    simp [ho] at hr
  exact {
    eq := by
      rw [h.eq]
      rfl
    kept := by
      intro r hr
      rw [hf.iswhite] at hr
      have hsame := h.kept r hr
      by_cases hro : r = o
      · subst hro
        rw [marked_recolour_self, marked_recolour_self, hsame]
      · rw [marked_recolour_of_ne hro, marked_recolour_of_ne hro, hsame]
    white := by
      intro r hr
      rw [hf.iswhite] at hr
      rw [marked_recolour_of_ne (hne ho' hr), marked_recolour_of_ne (hne ho' hr)]
      exact h.white r hr
    fresh := by
      intro r hr hr'
      rw [hf.iswhite] at hr hr'
      have hro := hne ho hr
      have hfresh := h.fresh r hr hr'
      have hcolour : (s'.recolour o f).marked r = s'.marked r := marked_recolour_of_ne hro
      cases r with
      | string a => exact hcolour.trans hfresh
      | udata u => exact ⟨hcolour.trans hfresh.1, hf.clean hfresh.2⟩
      | upval a =>
        refine ⟨?_, hf.clean hfresh.2⟩
        rw [hcolour]
        exact hfresh.1
      | table | function | thread | proto => exact ⟨hcolour.trans hfresh.1, hfresh.2⟩
    gray := by
      obtain ⟨new, hgray, hnodup, hnew⟩ := h.gray
      refine ⟨new, hgray, hnodup, fun r hr => ?_⟩
      obtain ⟨hwhite, hc, hlinked⟩ := hnew r hr
      rw [hf.iswhite, marked_recolour_of_ne (hne ho hwhite)]
      exact ⟨hwhite, hc, hlinked⟩ }

theorem Trims.recolour (h : Trims s s') (o : Ref) (f : Colour → Colour) :
    Trims (s.recolour o f) (s'.recolour o f) where
  eq := by
    have hmarked := h.marked
    rw [h.eq]
    rfl
  openupval := h.openupval
  refs := h.refs
  strong := h.strong

theorem Linked.propagatemark (h : Linked s) (hopen : OpenListed s) : Linked (propagatemark s) := by
  cases hgray : s.gray with
  | nil =>
    unfold Collector.propagatemark
    rw [hgray]
    exact h
  | cons o gray =>
    have hmem : o ∈ s.gclist := by simp [State.gclist, hgray]
    have hcolour := h.listed o hmem
    have hupval (a : Nat) : o ≠ .upval a := by
      rintro rfl
      cases hcolour.2
    have hopen₁ := (grows_popgray o gray s hupval).openListed hopen
    have hblack : (Collector.popgray o gray s).marked o = some .black := by
      show (s.recolour o _).marked o = _
      rw [marked_recolour_self, hcolour.1]
      rfl
    have hspec := propagatemark_spec hgray hcolour.2
    generalize hs₁ : Collector.popgray o gray s = s₁ at hspec hopen₁ hblack
    generalize Collector.propagatemark s = s' at hspec
    cases hspec with
    | strong ho ht =>
      obtain ⟨s₂, hmarks, htrims⟩ := ht.steps
      exact htrims.linked (hmarks.linked (hs₁ ▸ h.popgray hgray ho) hopen₁)
    | @weak h' _ s₄ ht =>
      obtain ⟨weakkey, weakvalue, s₂, s₃, hmarks₁, hmarks₂, htrims⟩ := ht.steps
      have hlinked₂ := hmarks₁.linked (hs₁ ▸ h.popgray hgray (by simp)) hopen₁
      have hwhite : s₁.iswhite (.table h') = false := State.IsMarked.iswhite (Or.inr hblack)
      have hblack₂ := (hmarks₁.kept _ hwhite).trans hblack
      have hlinked₃ := hlinked₂.linkweak hblack₂ weakkey weakvalue
      have hgrows := hmarks₁.grows.trans
        ((grows_linkweak h' weakkey weakvalue s₂).trans
          (@Repaints.grows _ (.table h') _ repaints_black2gray (by simp)))
      have hwhite₃ : (Collector.linkweak h' weakkey weakvalue s₂).iswhite (.table h') = false :=
        State.IsMarked.iswhite (Or.inr hblack₂)
      have hmarks₃ := hmarks₂.recolour repaints_black2gray hwhite₃
      exact (htrims.recolour _ _).linked (hmarks₃.linked hlinked₃ (hgrows.openListed hopen₁))
    | thread ht =>
      obtain ⟨s₂, hmarks, htrims⟩ := ht.steps
      have hlinked₁ := h.linkagain hgray
      rw [hs₁] at hlinked₁
      exact htrims.linked (hmarks.linked hlinked₁ ((grows_linkagain ..).openListed hopen₁))

theorem Linked.gray_linked (h : Linked s) (hr : r ∈ s.gray) : r.linked = true :=
  (h.listed r (by simp [State.gclist, hr])).2

theorem Linked.grows_propagatemark (h : Linked s) : Grows s (Collector.propagatemark s) := by
  cases hgray : s.gray with
  | nil =>
    unfold Collector.propagatemark
    rw [hgray]
    exact Grows.refl s
  | cons o gray =>
    have hlinked := h.gray_linked (hgray ▸ List.mem_cons_self .. : o ∈ s.gray)
    have hupval (a : Nat) : o ≠ .upval a := by
      rintro rfl
      cases hlinked
    exact (grows_popgray o gray s hupval).trans (propagatemark_spec hgray hlinked).grows

theorem Tri.propagatemark (htri : Tri P s) (h : Linked s) : Tri P (propagatemark s) := by
  cases hgray : s.gray with
  | nil =>
    unfold Collector.propagatemark
    rw [hgray]
    exact htri
  | cons o gray =>
    have hlinked := h.gray_linked (hgray ▸ List.mem_cons_self .. : o ∈ s.gray)
    exact (propagatemark_spec hgray hlinked).tri (htri.popgray hgray)

/-! ## All objects -/

/-- What the loop keeps. -/
structure Runs (s s' : State) : Prop where
  grows : Grows s s'
  grayagain : s.grayagain ⊆ s'.grayagain
  weak : s.weak ⊆ s'.weak
  linked : Linked s'
  tri : ∀ P, Tri P s → Tri P s'

theorem Runs.refl (h : Linked s) : Runs s s :=
  ⟨Grows.refl s, List.Subset.refl _, List.Subset.refl _, h, fun _ htri => htri⟩

theorem Runs.trans (h : Runs s s') (h' : Runs s' s'') : Runs s s'' where
  grows := h.grows.trans h'.grows
  grayagain := List.Subset.trans h.grayagain h'.grayagain
  weak := List.Subset.trans h.weak h'.weak
  linked := h'.linked
  tri P htri := h'.tri P (h.tri P htri)

theorem Marks.runs (h : Marks s s') (hlinked : Linked s) (hopen : OpenListed s) : Runs s s' where
  grows := h.grows
  grayagain := by rw [h.grayagain]; exact List.Subset.refl _
  weak := by rw [h.weak]; exact List.Subset.refl _
  linked := h.linked hlinked hopen
  tri _ htri := h.tri htri

theorem Traversed.lists (h : Traversed o s s') : s'.grayagain = s.grayagain ∧ s'.weak = s.weak := by
  obtain ⟨s₁, hmarks, htrims⟩ := h.steps
  rw [htrims.eq, hmarks.eq]
  exact ⟨rfl, rfl⟩

theorem Propagated.lists (h : Propagated o s s') :
    s.grayagain ⊆ s'.grayagain ∧ s.weak ⊆ s'.weak := by
  cases h with
  | strong _ h =>
    rw [h.lists.1, h.lists.2]
    exact ⟨List.Subset.refl _, List.Subset.refl _⟩
  | weak h =>
    obtain ⟨weakkey, weakvalue, s₁, s₂, hmarks₁, hmarks₂, htrims⟩ := h.steps
    rw [htrims.eq, hmarks₂.eq, hmarks₁.eq]
    exact ⟨List.Subset.refl _, List.subset_cons_self ..⟩
  | thread h =>
    rw [h.lists.1, h.lists.2]
    exact ⟨List.subset_cons_self .., List.Subset.refl _⟩

theorem propagatemark_runs (h : Linked s) (hopen : OpenListed s) : Runs s (propagatemark s) := by
  have hlists : s.grayagain ⊆ (propagatemark s).grayagain ∧ s.weak ⊆ (propagatemark s).weak := by
    cases hgray : s.gray with
    | nil =>
      unfold propagatemark
      rw [hgray]
      exact ⟨List.Subset.refl _, List.Subset.refl _⟩
    | cons o gray =>
      have hlinked := h.gray_linked (hgray ▸ List.mem_cons_self .. : o ∈ s.gray)
      exact (propagatemark_spec hgray hlinked).lists
  exact ⟨h.grows_propagatemark, hlists.1, hlists.2, h.propagatemark hopen,
    fun _ htri => htri.propagatemark h⟩

theorem propagateLoop_runs (n : Nat) (h : Linked s) (hopen : OpenListed s) :
    Runs s (propagateLoop n s) := by
  induction n generalizing s with
  | zero => exact Runs.refl h
  | succ n ih =>
    unfold propagateLoop
    split
    · exact Runs.refl h
    · have hone := propagatemark_runs h hopen
      exact hone.trans (ih hone.linked (hone.grows.openListed hopen))

/-! ## The loop ends -/

def whites (s : State) : Finset Ref := s.objects.toFinset.filter fun r => s.iswhite r = true

/-- What is white or gray is still to be traversed. -/
def togo (s : State) : Nat := (whites s).card + s.gray.length

def AllListed (s : State) : Prop := ∀ r, s.marked r ≠ none → r ∈ s.objects

theorem Grows.objects (h : Grows s s') : s'.objects = s.objects := by
  rw [h.eq]
  rfl

theorem Grows.allListed (h : Grows s s') (hall : AllListed s) : AllListed s' := by
  intro r hr
  rw [h.objects]
  exact hall r fun hnone => hr ((h.none r).mpr hnone)

theorem Grows.whites_subset (h : Grows s s') : whites s' ⊆ whites s := by
  intro r hr
  unfold whites at hr ⊢
  rw [h.objects, Finset.mem_filter] at hr
  rw [Finset.mem_filter]
  exact ⟨hr.1, (iswhite_congr (h.white r hr.2)).symm.trans hr.2⟩

theorem Marks.togo_le (h : Marks s s') (hall : AllListed s) : togo s' ≤ togo s := by
  obtain ⟨new, hgray, hnodup, hnew⟩ := h.gray
  have hdisj : Disjoint (whites s') new.toFinset := by
    rw [Finset.disjoint_left]
    intro r hr hmem
    have hwhite := (Finset.mem_filter.mp hr).2
    have hmarked := State.IsMarked.iswhite (Or.inl (hnew r (List.mem_toFinset.mp hmem)).2.1)
    rw [hmarked] at hwhite
    cases hwhite
  have hsub : (whites s').disjUnion new.toFinset hdisj ⊆ whites s := by
    intro r hr
    rcases Finset.mem_disjUnion.mp hr with hr | hr
    · exact h.grows.whites_subset hr
    · have hwhite := (hnew r (List.mem_toFinset.mp hr)).1
      exact Finset.mem_filter.mpr
        ⟨List.mem_toFinset.mpr (hall r (State.ne_none_of_iswhite hwhite)), hwhite⟩
  have hcard := Finset.card_le_card hsub
  rw [Finset.card_disjUnion, List.toFinset_card_of_nodup hnodup] at hcard
  unfold togo
  rw [hgray, List.length_append]
  omega

theorem togo_le_of_gray (h : Grows s s') (hgray : s'.gray = s.gray) : togo s' ≤ togo s := by
  unfold togo
  rw [hgray]
  exact Nat.add_le_add_right (Finset.card_le_card h.whites_subset) _

theorem Traversed.togo_le (h : Traversed o s s') (hall : AllListed s) : togo s' ≤ togo s := by
  obtain ⟨s₁, hmarks, htrims⟩ := h.steps
  exact (togo_le_of_gray htrims.grows htrims.gray).trans (hmarks.togo_le hall)

theorem Propagated.togo_le (h : Propagated o s s') (hall : AllListed s) : togo s' ≤ togo s := by
  cases h with
  | strong _ h => exact h.togo_le hall
  | @weak h' _ s₄ h =>
    obtain ⟨weakkey, weakvalue, s₁, s₂, hmarks₁, hmarks₂, htrims⟩ := h.steps
    have hlink := grows_linkweak h' weakkey weakvalue s₁
    have hall₁ := hlink.allListed (hmarks₁.grows.allListed hall)
    calc togo (s₄.recolour (.table h') Colour.black2gray)
        ≤ togo s₄ := togo_le_of_gray (repaints_black2gray.grows (by simp)) rfl
      _ ≤ togo s₂ := togo_le_of_gray htrims.grows htrims.gray
      _ ≤ togo (linkweak h' weakkey weakvalue s₁) := hmarks₂.togo_le hall₁
      _ ≤ togo s₁ := togo_le_of_gray hlink rfl
      _ ≤ togo s := hmarks₁.togo_le hall
  | @thread t _ _ h =>
    have hlink := grows_linkagain t s
    exact (h.togo_le (hlink.allListed hall)).trans (togo_le_of_gray hlink rfl)

theorem togo_propagatemark {gray : List Ref} (h : Linked s) (hall : AllListed s)
    (hgray : s.gray = o :: gray) : togo (propagatemark s) < togo s := by
  have hlinked := h.gray_linked (hgray ▸ List.mem_cons_self .. : o ∈ s.gray)
  have hupval (a : Nat) : o ≠ .upval a := by
    rintro rfl
    cases hlinked
  have hpop := grows_popgray o gray s hupval
  refine Nat.lt_of_le_of_lt ((propagatemark_spec hgray hlinked).togo_le (hpop.allListed hall)) ?_
  have hcard := Finset.card_le_card hpop.whites_subset
  unfold togo
  rw [hgray, List.length_cons]
  show _ + gray.length < _
  omega

theorem gray_propagateLoop (n : Nat) (h : Linked s) (hopen : OpenListed s) (hall : AllListed s)
    (hn : togo s ≤ n) : (propagateLoop n s).gray = [] := by
  induction n generalizing s with
  | zero =>
    have hlen : s.gray.length = 0 := by
      unfold togo at hn
      omega
    exact List.length_eq_zero_iff.mp hlen
  | succ n ih =>
    unfold propagateLoop
    split
    · exact List.isEmpty_iff.mp ‹_›
    · cases hgray : s.gray with
      | nil => simp [hgray] at *
      | cons o gray =>
        have hone := propagatemark_runs h hopen
        have hlt := togo_propagatemark h hall hgray
        exact ih hone.linked (hone.grows.openListed hopen) (hone.grows.allListed hall) (by omega)

/-- All gray objects are traversed. -/
theorem propagateall_spec (h : Linked s) (hopen : OpenListed s) (hall : AllListed s) :
    Runs s (propagateall s) ∧ (propagateall s).gray = [] := by
  refine ⟨propagateLoop_runs _ h hopen, gray_propagateLoop _ h hopen hall ?_⟩
  have hcard : (whites s).card ≤ s.objects.length :=
    (Finset.card_filter_le _ _).trans (List.toFinset_card_le _)
  unfold togo
  omega

end Luaxx.Collector
