import Luaxx.Collector.Invariant
import Luaxx.Collector.Mark

/-!
# Marking

`Marks` is what any sequence of markings does: white objects become gray or black, and nothing that was
marked changes its colour.
-/

namespace Luaxx.Collector

open Luaxx.Gc (White GCState)

variable {s s' s'' : State} {o r : Ref} {P : Ref → Prop}

theorem iswhite_congr (h : s'.marked r = s.marked r) : s'.iswhite r = s.iswhite r := by
  simp only [State.iswhite, h]

/-- How an object is when it has just been marked. -/
def Fresh (s : State) : Ref → Prop
  | .string a => s.marked (.string a) = some .gray
  | .udata u => s.marked (.udata u) = some .black ∧ Clean s (.udata u)
  | .upval a =>
    (s.marked (.upval a) = some .gray ∧ (∃ t slot, s.upval a = .stack t slot) ∨
      s.marked (.upval a) = some .black ∧ ∃ v, s.upval a = .closed v) ∧ Clean s (.upval a)
  | r => s.marked r = some .gray ∧ r ∈ s.gray

theorem Fresh.isMarked (h : Fresh s r) : s.IsMarked r := by
  cases r with
  | string a => exact Or.inl h
  | udata u => exact Or.inr h.1
  | upval a => exact h.1.imp And.left And.left
  | table | function | thread | proto => exact Or.inl h.1

structure Marks (s s' : State) : Prop where
  eq : s' = { s with marked := s'.marked, gray := s'.gray }
  kept : ∀ r, s.iswhite r = false → s'.marked r = s.marked r
  white : ∀ r, s'.iswhite r = true → s'.marked r = s.marked r
  fresh : ∀ r, s.iswhite r = true → s'.iswhite r = false → Fresh s' r
  gray : ∃ new, s'.gray = new ++ s.gray ∧ new.Nodup ∧
    ∀ r ∈ new, s.iswhite r = true ∧ s'.marked r = some .gray ∧ r.linked = true

namespace Marks

theorem nonwhite (h : Marks s s') (hr : s.iswhite r = false) : s'.iswhite r = false := by
  rw [iswhite_congr (h.kept r hr), hr]

theorem isMarked (h : Marks s s') (hr : s.IsMarked r) : s'.IsMarked r := by
  unfold State.IsMarked
  rw [h.kept r hr.iswhite]
  exact hr

theorem gray_subset (h : Marks s s') : s.gray ⊆ s'.gray := by
  obtain ⟨new, hnew, -⟩ := h.gray
  rw [hnew]
  exact List.subset_append_right new s.gray

theorem refs (h : Marks s s') (r : Ref) : s'.refs r = s.refs r := by
  rw [h.eq]
  cases r <;> rfl

theorem strong (h : Marks s s') (r : Ref) : s'.strong r = s.strong r := by
  rw [h.eq]
  cases r <;> rfl

theorem clean (h : Marks s s') (hr : Clean s r) : Clean s' r :=
  fun o ho => h.nonwhite (hr o (h.strong r ▸ ho))

theorem refl (s : State) : Marks s s where
  eq := rfl
  kept _ _ := rfl
  white _ _ := rfl
  fresh r h h' := absurd h (by simp [h'])
  gray := ⟨[], rfl, List.nodup_nil, by simp⟩

theorem upval (h : Marks s s') : s'.upval = s.upval := by rw [h.eq]

theorem mono_fresh (h : Marks s s') (hr : Fresh s r) : Fresh s' r := by
  have hcolour := h.kept r hr.isMarked.iswhite
  cases r with
  | string a => exact hcolour.trans hr
  | udata u => exact ⟨hcolour.trans hr.1, h.clean hr.2⟩
  | upval a =>
    refine ⟨?_, h.clean hr.2⟩
    rw [hcolour, h.upval]
    exact hr.1
  | table | function | thread | proto => exact ⟨hcolour.trans hr.1, h.gray_subset hr.2⟩

theorem trans (h : Marks s s') (h' : Marks s' s'') : Marks s s'' where
  eq := by rw [h'.eq, h.eq]
  kept r hr := (h'.kept r (h.nonwhite hr)).trans (h.kept r hr)
  white r hr := by
    have h₁ := h'.white r hr
    exact h₁.trans (h.white r ((iswhite_congr h₁).symm.trans hr))
  fresh r hr hr'' := by
    cases hr' : s'.iswhite r with
    | true => exact h'.fresh r hr' hr''
    | false => exact h'.mono_fresh (h.fresh r hr hr')
  gray := by
    obtain ⟨new, hgray, hnodup, hnew⟩ := h.gray
    obtain ⟨new', hgray', hnodup', hnew'⟩ := h'.gray
    refine ⟨new' ++ new, ?_, ?_, ?_⟩
    · rw [hgray', hgray, List.append_assoc]
    · refine List.nodup_append.mpr ⟨hnodup', hnodup, ?_⟩
      rintro r hr' _ hr rfl
      have hmarked : s'.iswhite r = false := State.IsMarked.iswhite (Or.inl (hnew r hr).2.1)
      have hwhite := (hnew' r hr').1
      simp [hmarked] at hwhite
    · intro r hr
      rcases List.mem_append.mp hr with hr | hr
      · obtain ⟨hwhite, hc⟩ := hnew' r hr
        exact ⟨(iswhite_congr (h.white r hwhite)).symm.trans hwhite, hc⟩
      · obtain ⟨hwhite, hc, hlinked⟩ := hnew r hr
        have hmarked : s'.iswhite r = false := State.IsMarked.iswhite (Or.inl hc)
        exact ⟨hwhite, (h'.kept r hmarked).trans hc, hlinked⟩

/-! ## Invariants -/

theorem grayagain (h : Marks s s') : s'.grayagain = s.grayagain := by rw [h.eq]

theorem weak (h : Marks s s') : s'.weak = s.weak := by rw [h.eq]

theorem uvhead (h : Marks s s') : s'.uvhead = s.uvhead := by rw [h.eq]

theorem tmudata (h : Marks s s') : s'.tmudata = s.tmudata := by rw [h.eq]

theorem deferred (h : Marks s s') : Deferred s' r ↔ Deferred s r := by
  unfold Deferred
  rw [h.grayagain, h.weak, h.uvhead, h.tmudata]

theorem tri (h : Marks s s') (htri : Tri P s) : Tri P s' := by
  intro r hr
  cases hwhite : s.iswhite r with
  | true =>
    have hfresh := h.fresh r hwhite hr.iswhite
    cases r with
    | string a => exact Or.inr (Or.inr fun o ho => by cases ho)
    | udata u => exact Or.inr (Or.inr hfresh.2)
    | upval a => exact Or.inr (Or.inr hfresh.2)
    | table | function | thread | proto => exact Or.inl hfresh.2
  | false =>
    have hr' : s.IsMarked r := by
      unfold State.IsMarked at hr ⊢
      rwa [h.kept r hwhite] at hr
    rcases htri r hr' with hgray | hP | hclean
    · exact Or.inl (h.gray_subset hgray)
    · exact Or.inr (Or.inl hP)
    · exact Or.inr (Or.inr (h.clean hclean))

theorem gclist (h : Marks s s') : ∃ new, s'.gclist = new ++ s.gclist ∧ new.Nodup ∧
    ∀ r ∈ new, s.iswhite r = true ∧ s'.marked r = some .gray ∧ r.linked = true := by
  obtain ⟨new, hgray, hnew⟩ := h.gray
  refine ⟨new, ?_, hnew⟩
  unfold State.gclist
  rw [hgray, h.grayagain, h.weak, List.append_assoc, List.append_assoc, List.append_assoc]

theorem linked (h : Marks s s') (hlinked : Linked s)
    (hopen : ∀ a t slot, s.marked (.upval a) ≠ none → s.upval a = .stack t slot → a ∈ s.uvhead) :
    Linked s' where
  gray r hr := by
    cases hwhite : s.iswhite r with
    | true =>
      have hfresh := h.fresh r hwhite (State.IsMarked.iswhite (Or.inl hr))
      cases r with
      | string a => exact Or.inl ⟨a, rfl⟩
      | udata u => cases hr.symm.trans hfresh.1
      | upval a =>
        rcases hfresh.1 with ⟨-, t, slot, hslot⟩ | ⟨hblack, -⟩
        · rw [h.upval] at hslot
          have huv := hopen a t slot (State.ne_none_of_iswhite hwhite) hslot
          exact Or.inr (Or.inr (h.deferred.mpr (Or.inr (Or.inr (Or.inl ⟨a, huv, rfl⟩)))))
        · simp [hr] at hblack
      | table | function | thread | proto => exact Or.inr (Or.inl hfresh.2)
    | false =>
      rw [h.kept r hwhite] at hr
      exact (hlinked.gray r hr).imp_right (Or.imp (h.gray_subset ·) h.deferred.mpr)
  listed r hr := by
    obtain ⟨new, hgclist, -, hnew⟩ := h.gclist
    rw [hgclist] at hr
    rcases List.mem_append.mp hr with hr | hr
    · exact (hnew r hr).2
    · obtain ⟨hgray, hr⟩ := hlinked.listed r hr
      exact ⟨(h.kept r (State.IsMarked.iswhite (Or.inl hgray))).trans hgray, hr⟩
  nodup := by
    obtain ⟨new, hgclist, hnodup, hnew⟩ := h.gclist
    rw [hgclist]
    refine List.nodup_append.mpr ⟨hnodup, hlinked.nodup, ?_⟩
    rintro r hr _ hr' rfl
    have hmarked := State.IsMarked.iswhite (Or.inl (hlinked.listed r hr').1)
    simp [(hnew r hr).1] at hmarked
  black t ht := by
    cases hwhite : s.iswhite (.thread t) with
    | true =>
      have hfresh := h.fresh _ hwhite (State.IsMarked.iswhite (Or.inr ht))
      simp [Fresh, ht] at hfresh
    | false => exact hlinked.black t ((h.kept _ hwhite).symm.trans ht)

end Marks

/-! ## The primitives -/

@[simp] theorem marked_recolour_self (f : Colour → Colour) :
    (s.recolour o f).marked o = (s.marked o).map f := Function.update_self ..

theorem Marks.none_iff (h : Marks s s') : s'.marked r = Option.none ↔ s.marked r = Option.none := by
  cases hr : s'.iswhite r with
  | true => rw [h.white r hr]
  | false =>
    cases hr' : s.iswhite r with
    | true =>
      refine iff_of_false ?_ (State.ne_none_of_iswhite hr')
      exact (h.fresh r hr' hr).isMarked.ne_none
    | false => rw [h.kept r hr']

/-- A table that has just been marked is gray. -/
theorem Marks.black_table {t : Nat} (h : Marks s s') (ht : s'.marked (.table t) = some .black) :
    s.marked (.table t) = some .black := by
  cases hwhite : s.iswhite (.table t) with
  | false => rwa [h.kept _ hwhite] at ht
  | true =>
    have hfresh := (h.fresh (.table t) hwhite (by simp [State.iswhite_eq_false, ht])).1
    rw [ht] at hfresh
    cases hfresh

theorem Marks.keyed (h : Marks s s') (hs : Keyed s) : Keyed s' := by
  intro t ht o ho
  rw [ne_eq, h.none_iff]
  refine hs t (h.black_table ht) o ?_
  rw [h.eq] at ho
  exact ho

theorem marked_recolour_of_ne {f : Colour → Colour} (h : r ≠ o) :
    (s.recolour o f).marked r = s.marked r := Function.update_of_ne h ..

@[simp] theorem recolour_id (s : State) (o : Ref) : s.recolour o id = s := by
  simp [State.recolour]

/-- A white object is marked: it gets a colour, its parts are marked, and it may change its colour once
more. -/
theorem Marks.enter {f g : Colour → Colour} (ho : s.iswhite o = true)
    (hf : (s.recolour o f).iswhite o = false) (h : Marks (s.recolour o f) s')
    (hfresh : Fresh (s'.recolour o g) o) : Marks s (s'.recolour o g) := by
  have hsame {r : Ref} (hr : r ≠ o) : (s'.recolour o g).marked r = s'.marked r :=
    marked_recolour_of_ne hr
  have hsame' {r : Ref} (hr : r ≠ o) : (s.recolour o f).marked r = s.marked r :=
    marked_recolour_of_ne hr
  have hfo : (s'.recolour o g).iswhite o = false := hfresh.isMarked.iswhite
  have hnonwhite (r : Ref) (hr : s'.iswhite r = false) : (s'.recolour o g).iswhite r = false := by
    by_cases hro : r = o
    · rw [hro, hfo]
    · rw [iswhite_congr (hsame hro), hr]
  exact {
    eq := by rw [h.eq]; rfl
    kept := by
      intro r hr
      have hro : r ≠ o := by rintro rfl; simp [ho] at hr
      rw [hsame hro, h.kept r (by rw [iswhite_congr (hsame' hro), hr]), hsame' hro]
    white := by
      intro r hr
      have hro : r ≠ o := by rintro rfl; simp [hfo] at hr
      rw [iswhite_congr (hsame hro)] at hr
      rw [hsame hro, h.white r hr, hsame' hro]
    fresh := by
      intro r hr hr'
      by_cases hro : r = o
      · rw [hro]; exact hfresh
      · rw [iswhite_congr (hsame hro)] at hr'
        have hfr := h.fresh r (by rw [iswhite_congr (hsame' hro), hr]) hr'
        have hclean (hc : Clean s' r) : Clean (s'.recolour o g) r := fun o' ho' => hnonwhite o' (hc o' ho')
        cases r with
        | string a => exact (hsame hro).trans hfr
        | udata u => exact ⟨(hsame hro).trans hfr.1, hclean hfr.2⟩
        | upval a =>
          refine ⟨?_, hclean hfr.2⟩
          rw [hsame hro]
          exact hfr.1
        | table | function | thread | proto => exact ⟨(hsame hro).trans hfr.1, hfr.2⟩
    gray := by
      obtain ⟨new, hgray, hnodup, hnew⟩ := h.gray
      refine ⟨new, hgray, hnodup, fun r hr => ?_⟩
      obtain ⟨hwhite, hc, hlinked⟩ := hnew r hr
      have hro : r ≠ o := by rintro rfl; simp [hf] at hwhite
      exact ⟨(iswhite_congr (hsame' hro)).symm.trans hwhite, (hsame hro).trans hc, hlinked⟩ }

theorem Marks.linkgray (ho : s.iswhite o = true) (hlinked : o.linked = true) :
    Marks s (linkgray o s) := by
  obtain ⟨w, hw⟩ := State.iswhite_iff.mp ho
  have hself : (Collector.linkgray o s).marked o = some .gray := by
    show (s.recolour o _).marked o = _
    rw [marked_recolour_self, hw]
    rfl
  have hsame {r : Ref} (hr : r ≠ o) : (Collector.linkgray o s).marked r = s.marked r :=
    marked_recolour_of_ne hr
  have hwhite : (Collector.linkgray o s).iswhite o = false :=
    State.IsMarked.iswhite (Or.inl hself)
  exact {
    eq := rfl
    kept := fun r hr => hsame (by rintro rfl; simp [ho] at hr)
    white := fun r hr => hsame (by rintro rfl; simp [hwhite] at hr)
    fresh := by
      intro r hr hr'
      by_cases hro : r = o
      · subst hro
        cases r with
        | table | function | thread | proto => exact ⟨hself, List.mem_cons_self ..⟩
        | string | udata | upval => cases hlinked
      · rw [iswhite_congr (hsame hro), hr] at hr'
        cases hr'
    gray := ⟨[o], rfl, by simp, by simp [ho, hself, hlinked]⟩ }

theorem Marks.stringmark (a : Nat) (s : State) : Marks s (stringmark a s) := by
  cases ho : s.iswhite (.string a) with
  | true =>
    obtain ⟨w, hw⟩ := State.iswhite_iff.mp ho
    have hself : (s.recolour (.string a) Colour.white2gray).marked (.string a) = some .gray := by
      rw [marked_recolour_self, hw]
      rfl
    have h := @Marks.enter _ _ _ _ id ho (State.IsMarked.iswhite (Or.inl hself)) (Marks.refl _)
      (by rw [recolour_id]; exact hself)
    rwa [recolour_id] at h
  | false =>
    have h : Collector.stringmark a s = s := by
      rw [State.iswhite_eq_false] at ho
      have hmap : (s.marked (.string a)).map Colour.white2gray = s.marked (.string a) := by
        cases hc : s.marked (.string a) with
        | none => rfl
        | some c =>
          cases c with
          | white w => exact absurd hc (ho w)
          | gray | black => rfl
      simp [Collector.stringmark, State.recolour, hmap]
    rw [h]
    exact Marks.refl s

theorem iswhite_stringmark (a : Nat) (s : State) :
    (stringmark a s).iswhite (.string a) = false := by
  rw [State.iswhite_eq_false]
  intro w
  unfold stringmark
  rw [marked_recolour_self]
  cases s.marked (.string a) with
  | none => simp
  | some c => cases c <;> simp [Colour.white2gray]

theorem Marks.markgray (hlinked : o.linked = true) (s : State) : Marks s (markgray o s) := by
  unfold Collector.markgray
  split
  · exact Marks.linkgray ‹_› hlinked
  · exact Marks.refl s

theorem iswhite_linkgray (o : Ref) (s : State) : (linkgray o s).iswhite o = false := by
  rw [State.iswhite_eq_false]
  intro w
  show (s.recolour o _).marked o ≠ _
  rw [marked_recolour_self]
  cases s.marked o with
  | none => simp
  | some c => cases c <;> simp [Colour.white2gray]

theorem iswhite_markgray (o : Ref) (s : State) : (markgray o s).iswhite o = false := by
  unfold markgray
  split
  · exact iswhite_linkgray o s
  · simpa using ‹¬ s.iswhite o = true›

/-- The parts of a userdata are marked. -/
theorem Marks.udata (u : Nat) (ho : s.iswhite (.udata u) = true) :
    Marks s (Collector.reallymarkvalue (.udata u) s) ∧
      (Collector.reallymarkvalue (.udata u) s).IsMarked (.udata u) := by
  obtain ⟨w, hw⟩ := State.iswhite_iff.mp ho
  let s₁ := s.recolour (.udata u) (Colour.gray2black ∘ Colour.white2gray)
  have hblack : s₁.marked (.udata u) = some .black := by
    show (s.recolour _ _).marked _ = _
    rw [marked_recolour_self, hw]
    rfl
  have hwhite : s₁.iswhite (.udata u) = false := State.IsMarked.iswhite (Or.inr hblack)
  obtain ⟨s₂, h₂, heq⟩ : ∃ s₂,
      (Marks s₁ s₂ ∧ ∀ mt ∈ (s.udata u).metatable, s₂.iswhite (.table mt) = false) ∧
        Collector.reallymarkvalue (.udata u) s =
          Collector.markgray (.table (s₂.udata u).env) s₂ := by
    unfold Collector.reallymarkvalue
    dsimp only
    cases hmt : (s.udata u).metatable with
    | none =>
      have hmt' : (s₁.udata u).metatable = none := hmt
      refine ⟨s₁, ⟨Marks.refl s₁, by simp⟩, ?_⟩
      rw [hmt']
    | some mt =>
      have hmt' : (s₁.udata u).metatable = some mt := hmt
      refine ⟨Collector.markgray (.table mt) s₁, ⟨Marks.markgray rfl s₁, by simp [iswhite_markgray]⟩, ?_⟩
      rw [hmt']
  have h₃ : Marks s₂ (Collector.markgray (.table (s.udata u).env) s₂) := Marks.markgray rfl s₂
  have hudata : s₂.udata = s.udata := by rw [h₂.1.eq]; rfl
  rw [heq, hudata]
  have h := h₂.1.trans h₃
  have hself : (Collector.markgray (.table (s.udata u).env) s₂).marked (.udata u) = some .black :=
    (h.kept _ hwhite).trans hblack
  have hclean : Clean (Collector.markgray (.table (s.udata u).env) s₂) (.udata u) := by
    intro o ho
    rw [h.strong] at ho
    change o ∈ (s.udata u).metatable.toList.map Ref.table ++ [.table (s.udata u).env] at ho
    rcases List.mem_append.mp ho with ho | ho
    · obtain ⟨mt, hmt, rfl⟩ := List.mem_map.mp ho
      exact h₃.nonwhite (h₂.2 mt (Option.mem_toList.mp hmt))
    · rw [List.mem_singleton.mp ho]
      exact iswhite_markgray _ _
  refine ⟨?_, Or.inr hself⟩
  have henter := @Marks.enter _ _ _ _ id ho hwhite h (by rw [recolour_id]; exact ⟨hself, hclean⟩)
  rwa [recolour_id] at henter

theorem Marks.reallymarkvalue (ho : s.iswhite o = true) (hupval : ∀ a, o ≠ .upval a) :
    Marks s (reallymarkvalue o s) := by
  cases o with
  | string a => exact Marks.stringmark a s
  | udata u => exact (Marks.udata u ho).1
  | upval a => exact absurd rfl (hupval a)
  | table | function | thread | proto => exact Marks.linkgray ho rfl

theorem iswhite_reallymarkvalue (ho : s.iswhite o = true) :
    (reallymarkvalue o s).iswhite o = false := by
  cases o with
  | string a => exact iswhite_stringmark a s
  | udata u => exact (Marks.udata u ho).2.iswhite
  | upval | table | function | thread | proto => exact iswhite_linkgray _ s

theorem Val.ref_ne_upval {v : Val} (h : o ∈ v.ref) (a : Nat) : o ≠ .upval a := by
  rintro rfl
  cases v <;> simp [Val.ref] at h

theorem Marks.markvalue (v : Val) (s : State) : Marks s (markvalue v s) := by
  unfold Collector.markvalue
  cases hv : v.ref with
  | none => exact Marks.refl s
  | some o =>
    dsimp only
    split
    · exact Marks.reallymarkvalue ‹_› (Val.ref_ne_upval hv)
    · exact Marks.refl s

theorem iswhite_markvalue {v : Val} (hv : o ∈ v.ref) (s : State) :
    (markvalue v s).iswhite o = false := by
  unfold markvalue
  rw [Option.mem_def.mp hv]
  dsimp only
  split
  · exact iswhite_reallymarkvalue ‹_›
  · simpa using ‹¬ s.iswhite o = true›

theorem Marks.reallymarkobject (ho : s.iswhite o = true) :
    Marks s (reallymarkobject o s) ∧ (reallymarkobject o s).iswhite o = false := by
  cases o with
  | upval a =>
    obtain ⟨w, hw⟩ := State.iswhite_iff.mp ho
    let s₁ := s.recolour (.upval a) Colour.white2gray
    let s₂ := Collector.markvalue (s.upvalue a) s₁
    have hgray : s₁.marked (.upval a) = some .gray := by
      show (s.recolour _ _).marked _ = _
      rw [marked_recolour_self, hw]
      rfl
    have hwhite : s₁.iswhite (.upval a) = false := State.IsMarked.iswhite (Or.inl hgray)
    have h₂ : Marks s₁ s₂ := Marks.markvalue (s.upvalue a) s₁
    have hself : s₂.marked (.upval a) = some .gray := (h₂.kept _ hwhite).trans hgray
    have hupval : s₂.upval = s.upval := by rw [h₂.upval]; rfl
    have hclean : Clean s₂ (.upval a) := by
      intro o ho
      rw [h₂.strong] at ho
      change o ∈ (s.upvalue a).ref.toList at ho
      exact iswhite_markvalue (Option.mem_toList.mp ho) s₁
    cases huv : s₂.upval a with
    | stack t slot =>
      have heq : Collector.reallymarkobject (.upval a) s = s₂ := by
        have huv : (Collector.markvalue (s₁.upvalue a) s₁).upval a = .stack t slot := huv
        unfold Collector.reallymarkobject
        dsimp only
        rw [huv]
        rfl
      rw [heq]
      have henter := @Marks.enter _ _ _ _ id ho hwhite h₂
        (by rw [recolour_id]; exact ⟨Or.inl ⟨hself, t, slot, huv⟩, hclean⟩)
      rw [recolour_id] at henter
      exact ⟨henter, State.IsMarked.iswhite (Or.inl hself)⟩
    | closed v =>
      have heq : Collector.reallymarkobject (.upval a) s =
          s₂.recolour (.upval a) Colour.gray2black := by
        have huv : (Collector.markvalue (s₁.upvalue a) s₁).upval a = .closed v := huv
        unfold Collector.reallymarkobject
        dsimp only
        rw [huv]
        rfl
      rw [heq]
      have hself' : (s₂.recolour (.upval a) Colour.gray2black).marked (.upval a) = some .black := by
        rw [marked_recolour_self, hself]
        rfl
      have hblack := State.IsMarked.iswhite (Or.inr hself')
      refine ⟨Marks.enter ho hwhite h₂ ⟨Or.inr ⟨hself', v, huv⟩, fun o ho => ?_⟩, hblack⟩
      by_cases hoa : o = .upval a
      · rw [hoa, hblack]
      · rw [iswhite_congr (marked_recolour_of_ne hoa)]
        exact hclean o ho
  | string | udata | table | function | thread | proto =>
    exact ⟨Marks.reallymarkvalue ho (by simp), iswhite_reallymarkvalue ho⟩

theorem Marks.markobject (o : Ref) (s : State) : Marks s (markobject o s) := by
  unfold Collector.markobject
  split
  · exact (Marks.reallymarkobject ‹_›).1
  · exact Marks.refl s

theorem iswhite_markobject (o : Ref) (s : State) : (markobject o s).iswhite o = false := by
  unfold markobject
  split
  · exact (Marks.reallymarkobject ‹_›).2
  · simpa using ‹¬ s.iswhite o = true›

/-! ## Loops -/

theorem Marks.foldl {α : Type} {f : State → α → State} (hf : ∀ s x, Marks s (f s x)) (l : List α)
    (s : State) : Marks s (l.foldl f s) := by
  induction l generalizing s with
  | nil => exact Marks.refl s
  | cons x l ih => exact (hf s x).trans (ih (f s x))

/-- What one round of a loop marks is marked after the loop. -/
theorem iswhite_foldl {α : Type} {f : State → α → State} (hf : ∀ s x, Marks s (f s x)) {x : α}
    {l : List α} (hx : x ∈ l) (ho : ∀ s', Marks s s' → (f s' x).iswhite o = false) :
    (l.foldl f s).iswhite o = false := by
  induction l generalizing s with
  | nil => cases hx
  | cons y l ih =>
    rcases List.mem_cons.mp hx with rfl | hx
    · exact (Marks.foldl hf l (f s x)).nonwhite (ho s (Marks.refl s))
    · exact ih hx fun s' hs' => ho s' ((hf s y).trans hs')

theorem Marks.markvalues (vs : List Val) (s : State) : Marks s (markvalues vs s) :=
  Marks.foldl (fun s v => Marks.markvalue v s) vs s

theorem iswhite_markvalues {vs : List Val} (ho : o ∈ vs.filterMap Val.ref) (s : State) :
    (markvalues vs s).iswhite o = false := by
  obtain ⟨v, hv, ho⟩ := List.mem_filterMap.mp ho
  exact iswhite_foldl (fun s v => Marks.markvalue v s) hv fun s' _ => iswhite_markvalue ho s'

theorem Marks.markobjects (os : List Ref) (s : State) : Marks s (markobjects os s) :=
  Marks.foldl (fun s o => Marks.markobject o s) os s

theorem iswhite_markobjects {os : List Ref} (ho : o ∈ os) (s : State) :
    (markobjects os s).iswhite o = false :=
  iswhite_foldl (fun s o => Marks.markobject o s) ho fun s' _ => iswhite_markobject o s'

theorem Marks.stringmarks (strings : List Nat) (s : State) : Marks s (stringmarks strings s) :=
  Marks.foldl (fun s a => Marks.stringmark a s) strings s

theorem iswhite_stringmarks {strings : List Nat} {a : Nat} (ha : a ∈ strings) (s : State) :
    (stringmarks strings s).iswhite (.string a) = false :=
  iswhite_foldl (fun s a => Marks.stringmark a s) ha fun s' _ => iswhite_stringmark a s'

end Luaxx.Collector
