import Luaxx.Collector.Propagation

/-!
# What the mark phase keeps

While nothing is dead, what is there is safe. `Ground` is kept by every step of the mark phase, and by
the separation of the userdata that are to be finalized.
-/

namespace Luaxx.Collector

open Luaxx.Gc (White GCState)

variable {s s' : State} {o r : Ref} {P : Ref → Prop}

structure Ground (s : State) : Prop where
  kept : Kept s
  listed : Listed s
  opened : Opened s
  dead : ∀ r, s.isdead r = false

theorem White.other_ne (w : White) : w.other ≠ w := by cases w <;> simp [White.other]

theorem White.other_other (w : White) : w.other.other = w := by cases w <;> rfl

/-! ## Lists -/

theorem Listed.openListed (h : Listed s) : OpenListed s := by
  intro a t slot ha hslot
  have hmem := (h.mem (.upval a)).mpr ha
  have hroot : Ref.upval a ∉ s.rootgc ++ s.sweepgc := by
    intro hroot
    obtain ⟨v, hv⟩ := h.closed a hroot
    rw [hslot] at hv
    cases hv
  simp only [State.objects, List.mem_append, not_or, List.mem_map] at hmem hroot
  rcases hmem with (((⟨_, _, heq⟩ | hmem) | hmem) | ⟨_, _, heq⟩) | ⟨a', ha', heq⟩
  · cases heq
  · exact absurd hmem hroot.1
  · exact absurd hmem hroot.2
  · cases heq
  · cases heq
    exact ha'

theorem Listed.allListed (h : Listed s) : AllListed s := fun r hr => (h.mem r).mpr hr

/-- Threads are in the list of the objects. -/
theorem Listed.mem_of_root (h : Listed s) (hr : s.marked r ≠ none)
    (hstring : ∀ a, r ≠ .string a) (hudata : ∀ u, r ≠ .udata u) (hupval : ∀ a, r ≠ .upval a) :
    r ∈ s.rootgc ++ s.sweepgc := by
  have hmem := (h.mem r).mpr hr
  simp only [State.objects, List.mem_append, List.mem_map] at hmem
  rcases hmem with (((⟨a, _, heq⟩ | hmem) | hmem) | ⟨u, _, heq⟩) | ⟨a, _, heq⟩
  · exact absurd heq.symm (hstring a)
  · simp [hmem]
  · simp [hmem]
  · exact absurd heq.symm (hudata u)
  · exact absurd heq.symm (hupval a)

/-! ## Growth -/

namespace Grows

theorem nodead (h : Grows s s') (hdead : ∀ r, s.isdead r = false) (r : Ref) :
    s'.isdead r = false := by
  have hcurrent : s'.currentwhite = s.currentwhite := by rw [h.eq]
  rw [State.isdead_eq_false, hcurrent]
  intro hr
  have hsame := h.white r (State.iswhite_iff.mpr ⟨_, hr⟩)
  exact State.isdead_eq_false.mp (hdead r) (hsame ▸ hr)

theorem isRoot (h : Grows s s') : s'.IsRoot r ↔ s.IsRoot r := by
  rw [h.eq]
  rfl

theorem ground (h : Grows s s') (hs : Ground s) : Ground s' := by
  have hdead := h.nodead hs.dead
  have hsafe {r : Ref} : Safe s' r ↔ Safe s r := by
    simp [Safe, hdead, hs.dead, h.none]
  have hnone {r : Ref} : s'.marked r ≠ Option.none ↔ s.marked r ≠ Option.none := not_congr (h.none r)
  have hstring : s'.rootgc ++ s'.sweepgc = s.rootgc ++ s.sweepgc := by rw [h.eq]
  refine ⟨⟨fun o ho => ?_, fun o ho o' ho' => ?_, ?_⟩, ⟨?_, fun r => ?_, ?_, fun a ha => ?_⟩,
    ⟨fun a ha => ?_, fun t ht a ha => ?_, fun t ht => ?_, fun a ha hblack => ?_⟩, hdead⟩
  · exact hsafe.mpr (hs.kept.root o (h.isRoot.mp ho))
  · exact hsafe.mpr (hs.kept.refs o (hsafe.mp ho) o' (h.refs o ho'))
  · rw [h.eq]
    exact hs.kept.fixed
  · rw [h.objects]
    exact hs.listed.nodup
  · rw [h.objects, hnone]
    exact hs.listed.mem r
  · rw [hstring]
    exact hs.listed.string
  · rw [hstring] at ha
    rw [h.upval]
    exact hs.listed.closed a ha
  · rw [h.uvhead] at ha
    obtain ⟨t, slot, hslot, ht, hmem⟩ := hs.opened.uvhead a ha
    exact ⟨t, slot, by rw [h.upval, hslot], hnone.mpr ht, by rwa [h.openupval]⟩
  · rw [h.openupval] at ha
    rw [h.uvhead, h.upval]
    exact hs.opened.openupval t (hnone.mp ht) a ha
  · rw [h.openupval]
    exact hs.opened.nodup t (hnone.mp ht)
  · rw [h.uvhead] at ha
    obtain ⟨t, slot, hslot, -⟩ := hs.opened.uvhead a ha
    exact hs.opened.black a ha (h.black a t slot hslot hblack)

end Grows

/-! ## Separation -/

structure Separated (s s' : State) (l kept : List Ref) (moved : List Nat) : Prop where
  eq : s' = { s with udata := s'.udata, tmudata := s.tmudata ++ moved }
  refs : ∀ u, (s'.udata u).refs = (s.udata u).refs
  metatable : ∀ u, (s'.udata u).metatable = (s.udata u).metatable
  perm : l.Perm (kept ++ moved.map .udata)
  finalized : ∀ u, (s.udata u).finalized = true → (s'.udata u).finalized = true
  moved : ∀ u ∈ moved, (s.udata u).finalized = false ∧ (s'.udata u).finalized = true

theorem fasttm_congr (htable : s'.table = s.table) (mt : Option Nat) (event : Nat) :
    fasttm s' mt event = fasttm s mt event := by
  unfold fasttm
  rw [htable]

theorem separateLoop_spec (all : Bool) (l : List Ref) (s : State) :
    ∃ moved, Separated s (separateLoop all l s).2 l (separateLoop all l s).1 moved := by
  induction l generalizing s with
  | nil => exact ⟨[], by simp [separateLoop], fun _ => rfl, fun _ => rfl, List.Perm.refl _,
      fun _ h => h, by simp⟩
  | cons o l ih =>
    have hkeep (s₁ : State) (hloop : separateLoop all (o :: l) s =
        (o :: (separateLoop all l s₁).1, (separateLoop all l s₁).2))
        (heq : s₁ = { s with udata := s₁.udata }) (hrefs : ∀ u, (s₁.udata u).refs = (s.udata u).refs)
        (hmt : ∀ u, (s₁.udata u).metatable = (s.udata u).metatable)
        (hfin : ∀ u, (s.udata u).finalized = true → (s₁.udata u).finalized = true) :
        ∃ moved, Separated s (separateLoop all (o :: l) s).2 (o :: l)
          (separateLoop all (o :: l) s).1 moved := by
      obtain ⟨moved, h⟩ := ih s₁
      rw [hloop]
      refine ⟨moved, ?_, fun u => (h.refs u).trans (hrefs u), fun u => (h.metatable u).trans (hmt u),
        h.perm.cons o, fun u hu => h.finalized u (hfin u hu), fun u hu => ⟨?_, (h.moved u hu).2⟩⟩
      · have htm : s₁.tmudata = s.tmudata := by rw [heq]
        rw [h.eq, ← htm, heq]
      · cases hf : (s.udata u).finalized with
        | false => rfl
        | true => exact absurd (hfin u hf) (by rw [(h.moved u hu).1]; simp)
    cases o with
    | udata u =>
      let s₁ := s.setUdata u { s.udata u with finalized := true }
      have hudata (u' : Nat) :
          s₁.udata u' = if u' = u then { s.udata u with finalized := true } else s.udata u' :=
        Function.update_apply ..
      have hrefs (u' : Nat) : (s₁.udata u').refs = (s.udata u').refs := by
        rw [hudata]
        split
        · subst u'; rfl
        · rfl
      have hmt (u' : Nat) : (s₁.udata u').metatable = (s.udata u').metatable := by
        rw [hudata]
        split
        · subst u'; rfl
        · rfl
      have hfin (u' : Nat) (hu' : (s.udata u').finalized = true) :
          (s₁.udata u').finalized = true := by
        rw [hudata]
        split
        · rfl
        · exact hu'
      by_cases hold : !(s.iswhite (.udata u) || all) || (s.udata u).finalized
      · refine hkeep s ?_ rfl (fun _ => rfl) (fun _ => rfl) (fun _ h => h)
        rw [separateLoop]
        simp only [hold, if_true]
      · by_cases htm : fasttm s₁ (s.udata u).metatable s₁.tm_gc = .nil
        · refine hkeep s₁ ?_ rfl hrefs hmt hfin
          rw [separateLoop]
          simp only [hold]
          rw [if_neg (by simp), if_pos htm]
        · have hloop : separateLoop all (.udata u :: l) s =
              separateLoop all l { s₁ with tmudata := s₁.tmudata ++ [u] } := by
            rw [separateLoop]
            simp only [hold]
            rw [if_neg (by simp), if_neg htm]
          have hnew : (s.udata u).finalized = false := by
            cases hf : (s.udata u).finalized with
            | false => rfl
            | true => simp [hf] at hold
          have hnew₁ : (s₁.udata u).finalized = true := by
            rw [hudata, if_pos rfl]
          obtain ⟨moved, h⟩ := ih { s₁ with tmudata := s₁.tmudata ++ [u] }
          rw [hloop]
          refine ⟨u :: moved, ?_, fun u' => (h.refs u').trans (hrefs u'),
            fun u' => (h.metatable u').trans (hmt u'), ?_,
            fun u' hu' => h.finalized u' (hfin u' hu'), fun u' hu' => ?_⟩
          · rw [h.eq]
            show ({ s₁ with udata := _, tmudata := (s.tmudata ++ [u]) ++ moved } : State) = _
            rw [List.append_assoc]
            rfl
          · exact (h.perm.cons _).trans List.perm_middle.symm
          · rcases List.mem_cons.mp hu' with rfl | hu'
            · exact ⟨hnew, h.finalized _ hnew₁⟩
            · refine ⟨?_, (h.moved u' hu').2⟩
              cases hf : (s.udata u').finalized with
              | false => rfl
              | true =>
                have hf₁ : (s₁.udata u').finalized = false := (h.moved u' hu').1
                rw [hfin u' hf] at hf₁
                cases hf₁
    | string | table | function | thread | proto | upval =>
      exact hkeep s rfl rfl (fun _ => rfl) (fun _ => rfl) (fun _ h => h)

/-- What `luaC_separateudata` does. -/
structure Separates (s s' : State) (moved : List Nat) : Prop where
  eq : s' = { s with
    udata := s'.udata, rootgc := s'.rootgc, sweepgc := s'.sweepgc, tmudata := s.tmudata ++ moved }
  refs : ∀ u, (s'.udata u).refs = (s.udata u).refs
  metatable : ∀ u, (s'.udata u).metatable = (s.udata u).metatable
  perm : (s.rootgc ++ s.sweepgc).Perm (s'.rootgc ++ s'.sweepgc ++ moved.map .udata)
  finalized : ∀ u, (s.udata u).finalized = true → (s'.udata u).finalized = true
  moved : ∀ u ∈ moved, (s.udata u).finalized = false ∧ (s'.udata u).finalized = true

theorem luaC_separateudata_spec (all : Bool) (s : State) :
    ∃ moved, Separates s (luaC_separateudata all s) moved := by
  obtain ⟨moved₁, h₁⟩ := separateLoop_spec all s.rootgc s
  obtain ⟨moved₂, h₂⟩ := separateLoop_spec all (separateLoop all s.rootgc s).2.sweepgc
    (separateLoop all s.rootgc s).2
  have hsweepgc : (separateLoop all s.rootgc s).2.sweepgc = s.sweepgc := by rw [h₁.eq]
  have htmudata : (separateLoop all s.rootgc s).2.tmudata = s.tmudata ++ moved₁ := by rw [h₁.eq]
  refine ⟨moved₁ ++ moved₂, ?_, fun u => (h₂.refs u).trans (h₁.refs u),
    fun u => (h₂.metatable u).trans (h₁.metatable u), ?_,
    fun u hu => h₂.finalized u (h₁.finalized u hu), fun u hu => ?_⟩
  · unfold luaC_separateudata
    dsimp only
    rw [h₂.eq, htmudata, h₁.eq, List.append_assoc]
  · have hperm := h₁.perm.append ((List.Perm.of_eq hsweepgc.symm).trans h₂.perm)
    rw [List.perm_iff_count] at hperm ⊢
    intro r
    have hcount := hperm r
    simp only [luaC_separateudata, List.map_append, List.count_append] at hcount ⊢
    omega
  · rcases List.mem_append.mp hu with hu | hu
    · exact ⟨(h₁.moved u hu).1, h₂.finalized u (h₁.moved u hu).2⟩
    · refine ⟨?_, (h₂.moved u hu).2⟩
      cases hf : (s.udata u).finalized with
      | false => rfl
      | true => exact absurd (h₁.finalized u hf) (by rw [(h₂.moved u hu).1]; simp)

namespace Separates

variable {moved : List Nat}

theorem objects (h : Separates s s' moved) : s'.objects.Perm s.objects := by
  have hobjects : s'.objects = s.strt.flatten.map .string ++ s'.rootgc ++ s'.sweepgc ++
      (s.tmudata ++ moved).map .udata ++ s.uvhead.map .upval := by
    unfold State.objects
    rw [h.eq]
  rw [hobjects, List.perm_iff_count]
  intro r
  have hcount := h.perm.count_eq r
  simp only [State.objects, List.map_append, List.count_append] at hcount ⊢
  omega

theorem sameRefs (h : Separates s s' moved) (r : Ref) : s'.refs r = s.refs r := by
  cases r with
  | udata u => exact h.refs u
  | string | table | function | thread | proto | upval => rw [h.eq]; rfl

theorem strong (h : Separates s s' moved) (r : Ref) : s'.strong r = s.strong r := by
  cases r with
  | udata u => exact h.refs u
  | string | table | function | thread | proto | upval => rw [h.eq]; rfl

theorem marked (h : Separates s s' moved) : s'.marked = s.marked := by rw [h.eq]

theorem mem_root (h : Separates s s' moved) (hr : r ∈ s'.rootgc ++ s'.sweepgc) :
    r ∈ s.rootgc ++ s.sweepgc :=
  h.perm.mem_iff.mpr (List.mem_append_left _ hr)

theorem ground (h : Separates s s' moved) (hs : Ground s) : Ground s' := by
  have hdead (r : Ref) : s'.isdead r = s.isdead r := by rw [h.eq]; rfl
  have hsafe {r : Ref} : Safe s' r ↔ Safe s r := by
    simp only [Safe, hdead, h.marked]
    rw [h.eq]
  refine ⟨⟨fun o ho => ?_, fun o ho o' ho' => ?_, ?_⟩, ⟨?_, fun r => ?_, fun a ha => ?_, fun a ha => ?_⟩,
    ?_, fun r => (hdead r).trans (hs.dead r)⟩
  · by_cases hmoved : ∃ u ∈ moved, o = .udata u
    · obtain ⟨u, hu, rfl⟩ := hmoved
      have hmem : Ref.udata u ∈ s.rootgc ++ s.sweepgc :=
        h.perm.mem_iff.mpr (List.mem_append_right _ (List.mem_map_of_mem hu))
      have hobj : Ref.udata u ∈ s.objects := by
        unfold State.objects
        simp only [List.mem_append] at hmem ⊢
        tauto
      exact hsafe.mpr ⟨(hs.listed.mem _).mp hobj, Or.inl (hs.dead _)⟩
    · refine hsafe.mpr (hs.kept.root o ?_)
      rw [h.eq] at ho
      rcases ho with ho | ho | ho | ho | ⟨u, hu, rfl⟩ | ho
      · exact Or.inl ho
      · exact Or.inr (Or.inl ho)
      · exact Or.inr (Or.inr (Or.inl ho))
      · exact Or.inr (Or.inr (Or.inr (Or.inl ho)))
      · rcases List.mem_append.mp hu with hu | hu
        · exact Or.inr (Or.inr (Or.inr (Or.inr (Or.inl ⟨u, hu, rfl⟩))))
        · exact absurd ⟨u, hu, rfl⟩ hmoved
      · exact Or.inr (Or.inr (Or.inr (Or.inr (Or.inr ho))))
  · rw [h.sameRefs] at ho'
    exact hsafe.mpr (hs.kept.refs o (hsafe.mp ho) o' ho')
  · rw [h.eq]
    exact hs.kept.fixed
  · exact h.objects.nodup_iff.mpr hs.listed.nodup
  · rw [h.marked]
    exact h.objects.mem_iff.trans (hs.listed.mem r)
  · exact hs.listed.string a (h.mem_root ha)
  · have hupval : s'.upval = s.upval := by rw [h.eq]
    rw [hupval]
    exact hs.listed.closed a (h.mem_root ha)
  · have hopened := hs.opened
    rw [h.eq]
    exact ⟨hopened.uvhead, hopened.openupval, hopened.nodup, hopened.black⟩

theorem tri (h : Separates s s' moved) (htri : Tri P s) : Tri P s' := by
  have hgray : s'.gray = s.gray := by rw [h.eq]
  intro r hr
  unfold State.IsMarked at hr
  rw [h.marked] at hr
  rw [hgray]
  refine (htri r hr).imp_right (Or.imp_right fun hclean o ho => ?_)
  rw [h.strong] at ho
  have hwhite : s'.iswhite o = s.iswhite o := iswhite_congr (by rw [h.marked])
  rw [hwhite]
  exact hclean o ho

theorem linked (h : Separates s s' moved) (hlinked : Linked s) : Linked s' := by
  rw [h.eq]
  refine ⟨fun r hr => ?_, hlinked.listed, hlinked.nodup, hlinked.black⟩
  refine (hlinked.gray r hr).imp_right (Or.imp_right ?_)
  rintro (hr | hr | hr | ⟨u, hu, rfl⟩)
  · exact Or.inl hr
  · exact Or.inr (Or.inl hr)
  · exact Or.inr (Or.inr (Or.inl hr))
  · exact Or.inr (Or.inr (Or.inr ⟨u, List.mem_append_left _ hu, rfl⟩))

end Separates

end Luaxx.Collector
