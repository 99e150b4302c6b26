import Luaxx.Collector.Atomic

/-!
# The clearing of the weak tables

An entry stays if its key and its value are marked, and its value is no userdata with a finalizer to
come. Strings are marked on the way. When the current white changes, everything that is not marked is
dead, and nothing that is marked refers to it.
-/

namespace Luaxx.Collector

open Luaxx.Gc (White GCState)

variable {s s' s'' : State} {o r : Ref}

/-! ## Strings are marked -/

structure MarksStrings (s s' : State) : Prop where
  marks : Marks s s'
  same : ∀ r, (∀ a, r ≠ .string a) → s'.marked r = s.marked r

theorem MarksStrings.refl (s : State) : MarksStrings s s := ⟨Marks.refl s, fun _ _ => rfl⟩

theorem MarksStrings.trans (h : MarksStrings s s') (h' : MarksStrings s' s'') :
    MarksStrings s s'' :=
  ⟨h.marks.trans h'.marks, fun r hr => (h'.same r hr).trans (h.same r hr)⟩

theorem MarksStrings.stringmark (a : Nat) (s : State) : MarksStrings s (stringmark a s) :=
  ⟨Marks.stringmark a s, fun _ hr => marked_recolour_of_ne (hr a)⟩

theorem iscleared_marks (v : Val) (iskey : Bool) (s : State) :
    MarksStrings s (iscleared v iskey s).2 := by
  cases v with
  | string a => exact MarksStrings.stringmark a s
  | nil | data | udata | table | function | thread | proto => exact MarksStrings.refl s

theorem iscleared_keeps {v : Val} {iskey : Bool} (h : (iscleared v iskey s).1 = false)
    (ho : o ∈ v.ref) : (iscleared v iskey s).2.iswhite o = false := by
  cases v with
  | nil | data => cases ho
  | string a =>
    obtain rfl : .string a = o := Option.some.inj ho
    exact iswhite_stringmark a s
  | udata u =>
    obtain rfl : .udata u = o := Option.some.inj ho
    change (s.iswhite (.udata u) || (!iskey && (s.udata u).finalized)) = false at h
    exact (Bool.or_eq_false_iff.mp h).1
  | table h' =>
    obtain rfl : .table h' = o := Option.some.inj ho
    exact h
  | function f =>
    obtain rfl : .function f = o := Option.some.inj ho
    exact h
  | thread t =>
    obtain rfl : .thread t = o := Option.some.inj ho
    exact h
  | proto f =>
    obtain rfl : .proto f = o := Option.some.inj ho
    exact h

/-! ## The loops -/

theorem cleararray_spec (l : List Val) (s : State) :
    MarksStrings s (cleararray l s).2 ∧
      ∀ v ∈ (cleararray l s).1, v = .nil ∨
        v ∈ l ∧ ∀ o ∈ v.ref, (cleararray l s).2.iswhite o = false := by
  induction l generalizing s with
  | nil => exact ⟨MarksStrings.refl s, by simp [cleararray]⟩
  | cons v l ih =>
    obtain ⟨hmarks, hkept⟩ := ih s
    have hcleared := iscleared_marks v false (cleararray l s).2
    have heq : cleararray (v :: l) s =
        ((if (iscleared v false (cleararray l s).2).1 then .nil else v) :: (cleararray l s).1,
          (iscleared v false (cleararray l s).2).2) := rfl
    rw [heq]
    refine ⟨hmarks.trans hcleared, fun v' hv' => ?_⟩
    rcases List.mem_cons.mp hv' with rfl | hv'
    · cases hc : (iscleared v false (cleararray l s).2).1 with
      | true => exact Or.inl rfl
      | false =>
        refine Or.inr ⟨List.mem_cons_self .., fun o ho => ?_⟩
        exact iscleared_keeps hc ho
    · refine (hkept v' hv').imp_right fun ⟨hmem, hwhite⟩ => ?_
      exact ⟨List.mem_cons_of_mem _ hmem, fun o ho => hcleared.marks.nonwhite (hwhite o ho)⟩

/-- What becomes of an entry that is cleared. -/
def Node.cleared (n : Node) : Node := removeentry { n with val := .nil }

theorem Node.val_cleared (n : Node) : n.cleared.val = .nil := rfl

theorem Node.keyref_cleared (n : Node) : n.cleared.keyref = none := keyref_removeentry _

theorem clearnodes_spec (l : List Node) (s : State) :
    MarksStrings s (clearnodes l s).2 ∧
      ∀ n' ∈ (clearnodes l s).1, ∃ n ∈ l, n' = n.cleared ∨ n' = n ∧ (n.val ≠ .nil →
        (∀ o ∈ n.key.ref, (clearnodes l s).2.iswhite o = false) ∧
          ∀ o ∈ n.val.ref, (clearnodes l s).2.iswhite o = false) := by
  induction l generalizing s with
  | nil => exact ⟨MarksStrings.refl s, by simp [clearnodes]⟩
  | cons n l ih =>
    obtain ⟨hmarks, hkept⟩ := ih s
    let s₁ := (clearnodes l s).2
    have hrest (s₂ : State) (h₂ : MarksStrings s₁ s₂) (n' : Node) (hn' : n' ∈ (clearnodes l s).1) :
        ∃ m ∈ n :: l, n' = m.cleared ∨ n' = m ∧ (m.val ≠ .nil →
          (∀ o ∈ m.key.ref, s₂.iswhite o = false) ∧ ∀ o ∈ m.val.ref, s₂.iswhite o = false) := by
      obtain ⟨m, hm, hcase⟩ := hkept n' hn'
      refine ⟨m, List.mem_cons_of_mem _ hm, hcase.imp_right fun ⟨heq, hwhite⟩ => ⟨heq, fun hval => ?_⟩⟩
      exact ⟨fun o ho => h₂.marks.nonwhite ((hwhite hval).1 o ho),
        fun o ho => h₂.marks.nonwhite ((hwhite hval).2 o ho)⟩
    by_cases hval : n.val = .nil
    · have heq : clearnodes (n :: l) s = (n :: (clearnodes l s).1, s₁) := by
        rw [clearnodes]
        exact if_pos hval
      rw [heq]
      refine ⟨hmarks, fun n' hn' => ?_⟩
      rcases List.mem_cons.mp hn' with rfl | hn'
      · exact ⟨n', List.mem_cons_self .., Or.inr ⟨rfl, fun h => absurd hval h⟩⟩
      · exact hrest s₁ (MarksStrings.refl _) n' hn'
    · have hkey := iscleared_marks n.key true s₁
      have hvalue := iscleared_marks n.val false (iscleared n.key true s₁).2
      cases hck : (iscleared n.key true s₁).1 with
      | true =>
        have heq : clearnodes (n :: l) s =
            (n.cleared :: (clearnodes l s).1, (iscleared n.key true s₁).2) := by
          rw [clearnodes]
          simp only [if_neg hval]
          simp only [show (iscleared n.key true (clearnodes l s).2).1 = true from hck, if_true]
          rfl
        rw [heq]
        refine ⟨hmarks.trans hkey, fun n' hn' => ?_⟩
        rcases List.mem_cons.mp hn' with rfl | hn'
        · exact ⟨n, List.mem_cons_self .., Or.inl rfl⟩
        · exact hrest _ hkey n' hn'
      | false =>
        let c := iscleared n.val false (iscleared n.key true s₁).2
        have heq : clearnodes (n :: l) s =
            ((if c.1 then n.cleared else n) :: (clearnodes l s).1, c.2) := by
          rw [clearnodes]
          simp only [if_neg hval]
          simp only [show (iscleared n.key true (clearnodes l s).2).1 = false from hck]
          rfl
        rw [heq]
        refine ⟨hmarks.trans (hkey.trans hvalue), fun n' hn' => ?_⟩
        rcases List.mem_cons.mp hn' with rfl | hn'
        · refine ⟨n, List.mem_cons_self .., ?_⟩
          cases hc : c.1 with
          | true => exact Or.inl rfl
          | false =>
            refine Or.inr ⟨rfl, fun _ => ⟨fun o ho => ?_, fun o ho => iscleared_keeps hc ho⟩⟩
            exact hvalue.marks.nonwhite (iscleared_keeps hck ho)
        · exact hrest _ (hkey.trans hvalue) n' hn'

/-! ## One table -/

theorem flatMap_subset_of {α β : Type} {f : α → List β} {l l' : List α}
    (h : ∀ x' ∈ l', ∃ x ∈ l, f x' ⊆ f x) : l'.flatMap f ⊆ l.flatMap f := by
  intro y hy
  obtain ⟨x', hx', hy⟩ := List.mem_flatMap.mp hy
  obtain ⟨x, hx, hsub⟩ := h x' hx'
  exact List.mem_flatMap.mpr ⟨x, hx, hsub hy⟩

/-- The entries of `node'` and the elements of `array'` are those of the table, or cleared. -/
theorem trims_cleared {h : Nat} {array' : List Val} {node' : List Node}
    (harray : ∀ v ∈ array', v = .nil ∨ v ∈ (s.table h).array)
    (hnode : ∀ n' ∈ node', ∃ n ∈ (s.table h).node, n' = n.cleared ∨ n' = n) :
    Trims s (s.setTable h { s.table h with array := array', node := node' }) := by
  have hsub : array'.filterMap Val.ref ⊆ (s.table h).array.filterMap Val.ref := by
    intro o ho
    obtain ⟨v, hv, ho⟩ := List.mem_filterMap.mp ho
    rcases harray v hv with rfl | hmem
    · cases ho
    · exact List.mem_filterMap.mpr ⟨v, hmem, ho⟩
  have hflat (f : Node → List Ref) (hf : ∀ n : Node, f n.cleared = []) :
      node'.flatMap f ⊆ (s.table h).node.flatMap f := by
    refine flatMap_subset_of fun n' hn' => ?_
    obtain ⟨n, hn, rfl | rfl⟩ := hnode n' hn'
    · exact ⟨n, hn, by rw [hf]; exact List.nil_subset _⟩
    · exact ⟨n', hn, List.Subset.refl _⟩
  refine Trims.setTable ?_ fun weak => ?_
  · exact append_subset_append (append_subset_append (List.Subset.refl _) hsub)
      (hflat _ fun n => if_pos n.val_cleared)
  · cases weak with
    | true =>
      refine append_subset_append (List.Subset.refl _) (append_subset_append ?_ ?_)
      · dsimp only
        split
        · exact List.Subset.refl _
        · exact hsub
      · exact hflat _ fun n => if_pos n.val_cleared
    | false =>
      refine append_subset_append (List.Subset.refl _) (append_subset_append hsub (hflat _ fun n => ?_))
      rw [n.keyref_cleared, n.val_cleared]
      rfl

/-- What was clean as a weak table refers to no white object any more. -/
theorem cleartable_spec (h : Nat) (s : State) :
    ∃ s₁, MarksStrings s s₁ ∧ Trims s₁ (cleartable h s) ∧ (h ∈ s.weak → Clean s (.table h) →
      ∀ o ∈ (cleartable h s).refs (.table h), (cleartable h s).iswhite o = false) := by
  let t := s.table h
  obtain ⟨array', s₁, harray, hmarks₁, hkept₁⟩ : ∃ array' s₁,
      (if t.valueweak then cleararray t.array s else (t.array, s)) = (array', s₁) ∧
      MarksStrings s s₁ ∧ ∀ v ∈ array', v = .nil ∨ v ∈ t.array ∧
        (t.valueweak = true → ∀ o ∈ v.ref, s₁.iswhite o = false) := by
    obtain ⟨hmarks, hkept⟩ := cleararray_spec t.array s
    cases hweak : t.valueweak with
    | true =>
      exact ⟨_, _, rfl, hmarks, fun v hv => (hkept v hv).imp_right fun h => ⟨h.1, fun _ => h.2⟩⟩
    | false => exact ⟨_, _, rfl, MarksStrings.refl s, fun v hv => Or.inr ⟨hv, by simp⟩⟩
  obtain ⟨hmarks₂, hkept₂⟩ := clearnodes_spec t.node s₁
  let s₂ := (clearnodes t.node s₁).2
  have hmarks := hmarks₁.trans hmarks₂
  have htable : s₂.table h = t := by rw [hmarks.marks.table]
  have heq : cleartable h s =
      s₂.setTable h { s₂.table h with array := array', node := (clearnodes t.node s₁).1 } := by
    rw [htable]
    unfold cleartable
    dsimp only
    rw [harray]
  have htrims : Trims s₂ (cleartable h s) := by
    rw [heq]
    refine trims_cleared ?_ ?_
    · rw [htable]
      exact fun v hv => (hkept₁ v hv).imp_right And.left
    · rw [htable]
      intro n' hn'
      obtain ⟨n, hn, hcase⟩ := hkept₂ n' hn'
      exact ⟨n, hn, hcase.imp_right And.left⟩
  refine ⟨s₂, hmarks, htrims, fun hweak hclean o ho => ?_⟩
  rw [htrims.iswhite]
  have hstrong (o : Ref) (ho : o ∈ t.parts t.keyweak t.valueweak) : s₂.iswhite o = false := by
    refine hmarks.marks.nonwhite (hclean o ?_)
    simp only [State.strong, hweak, decide_true]
    exact ho
  rw [heq] at ho
  change o ∈ (Function.update s₂.table h _ h).refs at ho
  rw [Function.update_self, htable] at ho
  rcases List.mem_append.mp ho with ho | ho
  · rcases List.mem_append.mp ho with ho | ho
    · exact hstrong o (List.mem_append_left _ ho)
    · obtain ⟨v, hv, ho⟩ := List.mem_filterMap.mp ho
      rcases hkept₁ v hv with rfl | ⟨hmem, hwhite⟩
      · cases ho
      · cases hvw : t.valueweak with
        | true => exact hmarks₂.marks.nonwhite (hwhite hvw o ho)
        | false =>
          refine hstrong o (List.mem_append_right _ (List.mem_append_left _ ?_))
          rw [hvw]
          exact List.mem_filterMap.mpr ⟨v, hmem, ho⟩
  · obtain ⟨n', hn', ho⟩ := List.mem_flatMap.mp ho
    obtain ⟨n, hn, rfl | ⟨rfl, hwhite⟩⟩ := hkept₂ n' hn'
    · rw [if_pos n.val_cleared] at ho
      cases ho
    · by_cases hval : n'.val = .nil
      · rw [if_pos hval] at ho
        cases ho
      · rw [if_neg hval] at ho
        rcases List.mem_append.mp ho with ho | ho
        · refine (hwhite hval).1 o ?_
          have ho := Option.mem_toList.mp ho
          split at ho
          · cases ho
          · exact ho
        · exact (hwhite hval).2 o (Option.mem_toList.mp ho)

/-! ## All tables -/

/-- What has been cleared stays so. -/
theorem cleartables_spec (l : List Nat) (hl : ∀ h ∈ l, h ∈ s.weak ∧ Clean s (.table h)) :
    let s' := cleartables l s
    Grows s s' ∧ (∀ r, Clean s r → Clean s' r) ∧
      (∀ r, (∀ a, r ≠ .string a) → s'.marked r = s.marked r) ∧
      ∀ h ∈ l, ∀ o ∈ s'.refs (.table h), s'.iswhite o = false := by
  induction l generalizing s with
  | nil => exact ⟨Grows.refl s, fun _ h => h, fun _ _ => rfl, by simp⟩
  | cons h l ih =>
    obtain ⟨s₁, hmarks, htrims, hclear⟩ := cleartable_spec h s
    have hclean (r : Ref) (hr : Clean s r) : Clean (cleartable h s) r := by
      intro o ho
      rw [htrims.iswhite]
      exact hmarks.marks.clean hr o (htrims.strong r ho)
    have hsame (r : Ref) (hr : ∀ a, r ≠ .string a) : (cleartable h s).marked r = s.marked r := by
      rw [htrims.marked]
      exact hmarks.same r hr
    have hweak : (cleartable h s).weak = s.weak := by rw [htrims.eq, hmarks.marks.eq]
    obtain ⟨hgrows', hclean', hsame', hdone⟩ := @ih (cleartable h s) fun h' hh' => by
      have hh := hl h' (List.mem_cons_of_mem _ hh')
      exact ⟨hweak ▸ hh.1, hclean _ hh.2⟩
    have hgrows := hmarks.marks.grows.trans htrims.grows
    refine ⟨hgrows.trans hgrows', fun r hr => hclean' r (hclean r hr),
      fun r hr => (hsame' r hr).trans (hsame r hr), fun h' hh' o ho => ?_⟩
    rcases List.mem_cons.mp hh' with rfl | hh'
    · have hfirst := hl h' (List.mem_cons_self ..)
      exact hgrows'.nonwhite (hclear hfirst.1 hfirst.2 o (hgrows'.refs _ ho))
    · exact hdone h' hh' o ho

theorem Table.refs_subset_strong (t : Table) : t.refs ⊆ t.strong false := by
  intro o ho
  rcases List.mem_append.mp ho with ho | ho
  · rcases List.mem_append.mp ho with ho | ho
    · exact List.mem_append_left _ ho
    · exact List.mem_append_right _ (List.mem_append_left _ ho)
  · obtain ⟨n, hn, ho⟩ := List.mem_flatMap.mp ho
    refine List.mem_append_right _ (List.mem_append_right _ (List.mem_flatMap.mpr ⟨n, hn, ?_⟩))
    split at ho
    · cases ho
    · exact ho

/-- After the clearing no marked object refers to a white one. -/
theorem cleared_closed (h : AllClean s) :
    Grows s (cleartables s.weak s) ∧ ∀ r, (cleartables s.weak s).IsMarked r →
      ∀ o ∈ (cleartables s.weak s).refs r, (cleartables s.weak s).iswhite o = false := by
  obtain ⟨hgrows, hclean, hsame, hdone⟩ := cleartables_spec s.weak fun h' hh' =>
    ⟨hh', h.clean _ (h.weak h' hh')⟩
  refine ⟨hgrows, fun r hr o ho => ?_⟩
  have hmarked (hne : ∀ a, r ≠ .string a) : s.IsMarked r := by
    unfold State.IsMarked at hr ⊢
    rwa [hsame r hne] at hr
  cases r with
  | string a => cases ho
  | table h' =>
    by_cases hweak : h' ∈ s.weak
    · exact hdone h' hweak o ho
    · refine hgrows.nonwhite (h.clean _ (hmarked (by simp)) o ?_)
      have ho := Table.refs_subset_strong _ (hgrows.refs _ ho)
      simpa [State.strong, hweak] using ho
  | udata u => exact hclean _ (h.clean _ (hmarked (by simp))) o ho
  | function f => exact hclean _ (h.clean _ (hmarked (by simp))) o ho
  | thread t => exact hclean _ (h.clean _ (hmarked (by simp))) o ho
  | proto f => exact hclean _ (h.clean _ (hmarked (by simp))) o ho
  | upval a => exact hclean _ (h.clean _ (hmarked (by simp))) o ho

/-! ## The other white -/

/-- The sweep is to come to every object. -/
theorem unswept_all (hlisted : Listed s) (hopened : Opened s) (hstate : s.gcstate = .GCSsweepstring)
    (hcount : s.sweepstrgc = 0) (hroot : s.rootgc = []) (hr : s.marked r ≠ none) :
    Unswept s r ∨ ∃ u ∈ s.tmudata, r = .udata u := by
  have hsweeping : s.Sweeping := Or.inl hstate
  have hmem := (hlisted.mem r).mpr hr
  simp only [State.objects, hroot, List.append_nil, List.mem_append,
    List.mem_map] at hmem
  have hstring := hlisted.string
  rw [hroot] at hstring
  rcases hmem with ((⟨a, ha, rfl⟩ | hmem) | ⟨u, hu, rfl⟩) | ⟨a, ha, rfl⟩
  · obtain ⟨chain, hchain, ha⟩ := List.mem_flatten.mp ha
    obtain ⟨i, hi⟩ := List.mem_iff_getElem?.mp hchain
    refine Or.inl ⟨hstate, i, by omega, ?_⟩
    simp only [List.getD, hi, Option.getD_some]
    exact ha
  · left
    cases r with
    | string a => exact absurd hmem (by simpa using hstring a)
    | upval a => exact ⟨hsweeping, Or.inl hmem⟩
    | udata | table | function | thread | proto => exact ⟨hsweeping, hmem⟩
  · exact Or.inr ⟨u, hu, rfl⟩
  · obtain ⟨t, slot, hslot, ht, -⟩ := hopened.uvhead a ha
    have hthread := hlisted.mem_of_root ht (by simp) (by simp) (by simp)
    rw [hroot] at hthread
    exact Or.inl ⟨hsweeping, Or.inr ⟨t, slot, hslot, by simpa using hthread⟩⟩

/-- The white changes, and the sweep begins. -/
def flip (s : State) : State :=
  { s with
    currentwhite := s.currentwhite.other
    sweepstrgc := 0
    rootgc := []
    sweepgc := s.rootgc ++ s.sweepgc
    gcstate := .GCSsweepstring }

theorem flip_inv (hs : Ground s) (hwhite : ∀ r w, s.marked r = some (.white w) → w = s.currentwhite)
    (hclosed : ∀ r, s.IsMarked r → ∀ o ∈ s.refs r, s.iswhite o = false)
    (hroots : ∀ r, s.IsRoot r → s.iswhite r = false ∨ s.fixed r = true)
    (hmain : s.iswhite (.thread s.mainthread) = false) : Inv (flip s) := by
  have hrefs (r : Ref) : (flip s).refs r = s.refs r := by cases r <;> rfl
  have hsafe (r : Ref) : Safe (flip s) r ↔
      s.marked r ≠ none ∧ (s.iswhite r = false ∨ s.fixed r = true) := by
    have hdead : (flip s).isdead r = false ↔ s.iswhite r = false := by
      rw [State.isdead_eq_false, State.iswhite_eq_false]
      show s.marked r ≠ some (.white s.currentwhite.other.other) ↔ _
      rw [White.other_other]
      refine ⟨fun h w hw => h ?_, fun h => h _⟩
      rw [hw, hwhite r w hw]
    exact and_congr_right' (or_congr hdead Iff.rfl)
  have hsafe₀ (r : Ref) : Safe s r ↔ s.marked r ≠ none := by
    simp [Safe, hs.dead]
  have hobjects : (flip s).objects = s.objects := by
    simp [State.objects, flip, List.append_assoc]
  have hkept : Kept (flip s) := by
    refine ⟨fun o ho => ?_, fun o ho o' ho' => ?_, hs.kept.fixed⟩
    · exact (hsafe o).mpr ⟨(hs.kept.root o ho).1, hroots o ho⟩
    · rw [hrefs] at ho'
      obtain ⟨hsome, hcase⟩ := (hsafe o).mp ho
      have hsome' := (hs.kept.refs o ((hsafe₀ o).mpr hsome) o' ho').1
      refine (hsafe o').mpr ⟨hsome', Or.inl ?_⟩
      cases hwo : s.iswhite o with
      | false => exact hclosed o (State.isMarked_of_not_white hsome hwo) o' ho'
      | true =>
        rw [hwo] at hcase
        rcases hs.kept.fixed o (hcase.resolve_left (by simp)) with ⟨a, rfl⟩ | rfl
        · cases ho'
        · rw [hmain] at hwo
          cases hwo
  have hlisted : Listed (flip s) := by
    refine ⟨?_, fun r => ?_, hs.listed.string, hs.listed.closed⟩
    · rw [hobjects]
      exact hs.listed.nodup
    · rw [hobjects]
      exact hs.listed.mem r
  have hopened : Opened (flip s) :=
    ⟨hs.opened.uvhead, hs.opened.openupval, hs.opened.nodup, hs.opened.black⟩
  refine ⟨hkept, hlisted, hopened, fun _ r c hc => Or.inr ?_, fun h => by cases h⟩
  exact unswept_all hlisted hopened rfl rfl rfl (by rw [hc]; simp)

theorem atomic_eq (s : State) :
    atomic s = flip (cleartables (atomicMark s).weak (atomicMark s)) := rfl

theorem AtomicMarked.white {moved : List Nat} (h : AtomicMarked s s' moved)
    (hr : s'.iswhite r = true) : s'.marked r = s.marked r := by
  obtain ⟨s₁, s₂, hgrows₁, hsep, hgrows₂⟩ := h.steps
  have h₂ := hgrows₂.white r hr
  have h₁ : s₂.marked r = s₁.marked r := by rw [hsep.marked]
  have hwhite : s₁.iswhite r = true := by
    rw [← iswhite_congr h₁, ← iswhite_congr h₂]
    exact hr
  exact h₂.trans (h₁.trans (hgrows₁.white r hwhite))

theorem AtomicMarked.currentwhite {moved : List Nat} (h : AtomicMarked s s' moved) :
    s'.currentwhite = s.currentwhite := by
  obtain ⟨s₁, s₂, hgrows₁, hsep, hgrows₂⟩ := h.steps
  rw [hgrows₂.eq, hsep.eq, hgrows₁.eq]

theorem Inv.ground (h : Inv s) (hstate : s.gcstate = .GCSpropagate) : Ground s := by
  refine ⟨h.kept, h.listed, h.opened, fun r => ?_⟩
  rw [State.isdead_eq_false]
  intro hr
  exact White.other_ne _ ((h.propagating hstate).white r _ hr)

theorem atomic_inv (h : Inv s) (hstate : s.gcstate = .GCSpropagate) : Inv (atomic s) := by
  have hp := h.propagating hstate
  obtain ⟨moved, hmarked⟩ := atomicMark_spec (h.ground hstate) hp
  rw [atomic_eq]
  generalize atomicMark s = s₁ at hmarked
  have hclean : AllClean s₁ := hmarked.clean
  obtain ⟨hgrows, hclosed⟩ := cleared_closed hclean
  generalize cleartables s₁.weak s₁ = s₂ at hgrows hclosed
  have hmono {r : Ref} (hr : s₁.iswhite r = false) : s₂.iswhite r = false := hgrows.nonwhite hr
  refine flip_inv (hgrows.ground hmarked.ground) (fun r w hw => ?_) hclosed (fun r hr => ?_) ?_
  · have hwhite := State.iswhite_iff.mpr ⟨w, hw⟩
    have h₂ := hgrows.white r hwhite
    have h₁ := hmarked.white ((iswhite_congr h₂).symm.trans hwhite)
    have hcurrent : s₂.currentwhite = s.currentwhite := by
      rw [hgrows.eq]
      exact hmarked.currentwhite
    rw [hcurrent]
    exact hp.white r w (h₁ ▸ h₂ ▸ hw)
  · rcases hgrows.isRoot.mp hr with rfl | rfl | rfl | ⟨mt, hmt, rfl⟩ | ⟨u, hu, rfl⟩ | hfixed
    · exact Or.inl (hmono hclean.mainthread)
    · exact Or.inl (hmono hclean.registry)
    · exact Or.inl (hmono hclean.thread)
    · exact Or.inl (hmono (hclean.mt mt hmt))
    · exact Or.inl (hmono (hclean.tmudata u hu))
    · right
      rw [hgrows.eq]
      exact hfixed
  · have heq : s₂.mainthread = s₁.mainthread := by rw [hgrows.eq]
    rw [heq]
    exact hmono hclean.mainthread

end Luaxx.Collector
