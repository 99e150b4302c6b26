import Luaxx.Collector.Marking

/-!
# Traversal

`propagatemark` traverses an object, which makes it clean. What the traversal clears on its way
(`Trims`) is not referred to any more.
-/

namespace Luaxx.Collector

open Luaxx.Gc (White GCState)

variable {s s' s'' : State} {o r : Ref} {P : Ref → Prop}

/-! ## What a traversal clears -/

structure Trims (s s' : State) : Prop where
  eq : s' = { s with table := s'.table, thread := s'.thread }
  openupval : ∀ t, (s'.thread t).openupval = (s.thread t).openupval
  refs : ∀ r, s'.refs r ⊆ s.refs r
  strong : ∀ r, s'.strong r ⊆ s.strong r

namespace Trims

theorem marked (h : Trims s s') : s'.marked = s.marked := by rw [h.eq]

theorem iswhite (h : Trims s s') (r : Ref) : s'.iswhite r = s.iswhite r :=
  iswhite_congr (by rw [h.marked])

theorem gray (h : Trims s s') : s'.gray = s.gray := by rw [h.eq]

theorem tri (h : Trims s s') (htri : Tri P s) : Tri P s' := by
  intro r hr
  unfold State.IsMarked at hr
  rw [h.marked] at hr
  rw [h.gray]
  refine (htri r hr).imp_right (Or.imp_right fun hclean o ho => ?_)
  rw [h.iswhite]
  exact hclean o (h.strong r ho)

theorem linked (h : Trims s s') (hlinked : Linked s) : Linked s' := by
  have hdeferred (r : Ref) : Deferred s' r ↔ Deferred s r := by rw [h.eq]; rfl
  have hgclist : s'.gclist = s.gclist := by rw [h.eq]; rfl
  constructor
  · intro r
    rw [h.marked, h.gray, hdeferred]
    exact hlinked.gray r
  · rw [hgclist, h.marked]
    exact hlinked.listed
  · rw [hgclist]
    exact hlinked.nodup
  · rw [h.marked]
    exact hlinked.black

theorem refl (s : State) : Trims s s where
  eq := rfl
  openupval _ := rfl
  refs _ := List.Subset.refl _
  strong _ := List.Subset.refl _

theorem setTable {h : Nat} {t : Table} (hrefs : t.refs ⊆ (s.table h).refs)
    (hstrong : ∀ weak, t.strong weak ⊆ (s.table h).strong weak) : Trims s (s.setTable h t) where
  eq := rfl
  openupval _ := rfl
  refs r := by
    cases r with
    | table h' =>
      show (Function.update s.table h t h').refs ⊆ _
      by_cases heq : h' = h
      · rw [heq, Function.update_self]; exact hrefs
      · rw [Function.update_of_ne heq]; exact List.Subset.refl _
    | _ => exact List.Subset.refl _
  strong r := by
    cases r with
    | table h' =>
      show (Function.update s.table h t h').strong _ ⊆ _
      by_cases heq : h' = h
      · rw [heq, Function.update_self]; exact hstrong _
      · rw [Function.update_of_ne heq]; exact List.Subset.refl _
    | _ => exact List.Subset.refl _

theorem setThread {t : Nat} {th : Thread} (hgt : th.gt = (s.thread t).gt)
    (hopen : th.openupval = (s.thread t).openupval)
    (hstack : ∀ i, th.stack.getD i .nil = .nil ∨
      th.stack.getD i .nil = (s.thread t).stack.getD i .nil) : Trims s (s.setThread t th) := by
  have hthread (t' : Nat) : (s.setThread t th).thread t' = if t' = t then th else s.thread t' :=
    Function.update_apply ..
  have hrefs (r : Ref) : (s.setThread t th).refs r ⊆ s.refs r := by
    cases r with
    | thread t' =>
      show ((s.setThread t th).thread t').refs ⊆ _
      rw [hthread]
      split
      · rename_i heq
        subst heq
        intro o ho
        rcases List.mem_cons.mp ho with rfl | ho
        · rw [hgt]; exact List.mem_cons_self ..
        · obtain ⟨v, hv, hvo⟩ := List.mem_filterMap.mp ho
          obtain ⟨i, hi⟩ := List.mem_iff_getElem?.mp hv
          have hi' : th.stack.getD i .nil = v := by simp [List.getD, hi]
          rcases hstack i with hnil | hsame
          · rw [← hi', hnil] at hvo; cases hvo
          · rw [hi'] at hsame
            have hmem : v ∈ (s.thread t').stack := by
              by_contra hnot
              have hd : (s.thread t').stack.getD i .nil = .nil := by
                cases hg : (s.thread t').stack[i]? with
                | none => simp [List.getD, hg]
                | some v' =>
                  have hv' : v = v' := by simpa [List.getD, hg] using hsame
                  exact absurd (hv' ▸ List.mem_of_getElem? hg) hnot
              rw [hsame, hd] at hvo
              cases hvo
            exact List.mem_cons_of_mem _ (List.mem_filterMap.mpr ⟨v, hmem, hvo⟩)
      · exact List.Subset.refl _
    | upval a =>
      show ((s.setThread t th).upvalue a).ref.toList ⊆ (s.upvalue a).ref.toList
      have hupval : (s.setThread t th).upval a = s.upval a := rfl
      cases hu : s.upval a with
      | closed v =>
        rw [State.upvalue_closed (hupval.trans hu), State.upvalue_closed hu]
        exact List.Subset.refl _
      | stack t' slot =>
        rw [State.upvalue_stack (hupval.trans hu), State.upvalue_stack hu, hthread]
        split
        · rename_i heq
          subst heq
          rcases hstack slot with hnil | hsame
          · rw [hnil]; exact List.nil_subset _
          · rw [hsame]; exact List.Subset.refl _
        · exact List.Subset.refl _
    | _ => exact List.Subset.refl _
  refine ⟨rfl, fun t' => ?_, hrefs, fun r => ?_⟩
  · rw [hthread]
    split
    · rename_i heq; rw [heq]; exact hopen
    · rfl
  · cases r with
    | table h => exact List.Subset.refl _
    | string a => exact hrefs (.string a)
    | udata u => exact hrefs (.udata u)
    | function f => exact hrefs (.function f)
    | thread t => exact hrefs (.thread t)
    | proto f => exact hrefs (.proto f)
    | upval a => exact hrefs (.upval a)

end Trims

/-! ## Tables -/

theorem append_subset_append {α : Type} {l₁ l₂ l₁' l₂' : List α} (h₁ : l₁ ⊆ l₁') (h₂ : l₂ ⊆ l₂') :
    l₁ ++ l₂ ⊆ l₁' ++ l₂' :=
  List.append_subset.mpr ⟨List.subset_append_of_subset_left _ h₁, List.subset_append_of_subset_right _ h₂⟩

theorem flatMap_subset {α β : Type} {f g : α → List β} {l : List α} (h : ∀ x ∈ l, f x ⊆ g x) :
    l.flatMap f ⊆ l.flatMap g := by
  intro y hy
  obtain ⟨x, hx, hy⟩ := List.mem_flatMap.mp hy
  exact List.mem_flatMap.mpr ⟨x, hx, h x hx hy⟩

theorem keyref_removeentry (n : Node) : (removeentry n).keyref = none := by
  unfold Node.keyref removeentry
  cases n.dead <;> cases n.key.ref <;> rfl

/-- Whether an entry is weak or not, no more of it is kept than the whole table refers to. -/
theorem Table.strong_subset (t : Table) (weak : Bool) : t.strong weak ⊆ t.strong false := by
  cases weak with
  | false => exact List.Subset.refl _
  | true =>
    refine append_subset_append (List.Subset.refl _) (append_subset_append ?_ ?_)
    · split
      · exact List.nil_subset _
      · exact List.Subset.refl _
    · refine flatMap_subset fun n _ => ?_
      split
      · exact List.nil_subset _
      · refine append_subset_append ?_ ?_ <;> split <;> simp

theorem trims_removeentry (h : Nat) (s : State) : Trims s (s.setTable h { s.table h with
    node := (s.table h).node.map fun n => if n.val = .nil then removeentry n else n }) := by
  have hval (n : Node) : (if n.val = .nil then removeentry n else n).val = n.val := by
    split <;> rfl
  refine Trims.setTable ?_ fun weak => ?_
  · refine append_subset_append (List.Subset.refl _) ?_
    rw [List.flatMap_map]
    refine flatMap_subset fun n _ => ?_
    simp only [hval]
    split
    · exact List.Subset.refl _
    · exact List.Subset.refl _
  · cases weak with
    | true =>
      refine append_subset_append (List.Subset.refl _) (append_subset_append (List.Subset.refl _) ?_)
      dsimp only
      rw [List.flatMap_map]
      refine flatMap_subset fun n _ => ?_
      simp only [hval]
      split <;> exact List.Subset.refl _
    | false =>
      refine append_subset_append (List.Subset.refl _) (append_subset_append (List.Subset.refl _) ?_)
      dsimp only
      rw [List.flatMap_map]
      refine flatMap_subset fun n _ => ?_
      simp only [hval]
      refine append_subset_append ?_ (List.Subset.refl _)
      split
      · rw [keyref_removeentry]; exact List.nil_subset _
      · exact List.Subset.refl _

theorem Marks.marknode (weakkey weakvalue : Bool) (n : Node) (s : State) :
    Marks s (marknode weakkey weakvalue n s) := by
  unfold Collector.marknode
  split
  · exact Marks.refl s
  · cases weakkey <;> cases weakvalue
    · exact (Marks.markvalue n.key s).trans (Marks.markvalue n.val _)
    · exact Marks.markvalue n.key s
    · exact Marks.markvalue n.val s
    · exact Marks.refl s

theorem Marks.marknodes (weakkey weakvalue : Bool) (node : List Node) (s : State) :
    Marks s (marknodes weakkey weakvalue node s) := by
  induction node with
  | nil => exact Marks.refl s
  | cons n node ih => exact ih.trans (Marks.marknode weakkey weakvalue n _)

theorem iswhite_marknode_key {n : Node} (hval : n.val ≠ .nil) (ho : o ∈ n.key.ref) (weakvalue : Bool)
    (s : State) : (marknode false weakvalue n s).iswhite o = false := by
  have heq : marknode false weakvalue n s =
      if weakvalue then markvalue n.key s else markvalue n.val (markvalue n.key s) := if_neg hval
  have hkey := iswhite_markvalue ho s
  rw [heq]
  cases weakvalue with
  | true => exact hkey
  | false => exact (Marks.markvalue n.val _).nonwhite hkey

theorem iswhite_marknode_val {n : Node} (ho : o ∈ n.val.ref) (weakkey : Bool) (s : State) :
    (marknode weakkey false n s).iswhite o = false := by
  have hval : n.val ≠ .nil := by
    intro h
    rw [h] at ho
    cases ho
  have heq : marknode weakkey false n s =
      markvalue n.val (if weakkey then s else markvalue n.key s) := if_neg hval
  rw [heq]
  exact iswhite_markvalue ho _

/-- What one entry marks is marked after all of them. -/
theorem iswhite_marknodes {weakkey weakvalue : Bool} {node : List Node} {n : Node} (hn : n ∈ node)
    (ho : ∀ s, (marknode weakkey weakvalue n s).iswhite o = false) (s : State) :
    (marknodes weakkey weakvalue node s).iswhite o = false := by
  induction node with
  | nil => cases hn
  | cons m node ih =>
    rcases List.mem_cons.mp hn with rfl | hn
    · exact ho _
    · exact (Marks.marknode weakkey weakvalue m _).nonwhite (ih hn)

/-! ## One object -/

/-- The table as it is left by its traversal. -/
def Table.swept (t : Table) : Table :=
  { t with node := t.node.map fun n => if n.val = .nil then removeentry n else n }

/-- An object is traversed, and clean afterwards. -/
structure Traversed (o : Ref) (s s' : State) : Prop where
  steps : ∃ s₁, Marks s s₁ ∧ Trims s₁ s'
  clean : Clean s' o
  table : ∀ h, s'.table h = if o = .table h then (s.table h).swept else s.table h

/-- A weak table is traversed: it is linked in the list `weak` in between. -/
structure TraversedWeak (h : Nat) (s s' : State) : Prop where
  steps : ∃ weakkey weakvalue s₁ s₂, Marks s s₁ ∧ Marks (linkweak h weakkey weakvalue s₁) s₂ ∧
    Trims s₂ s'
  clean : Clean s' (.table h)
  table : ∀ h', h' ≠ h → s'.table h' = s.table h'

theorem Marks.table (h : Marks s s') : s'.table = s.table := by rw [h.eq]

theorem Marks.thread (h : Marks s s') : s'.thread = s.thread := by rw [h.eq]

theorem Table.strong_swept (t : Table) : t.swept.strong false ⊆ t.swept.parts false false := by
  refine append_subset_append (List.Subset.refl _) (append_subset_append (List.Subset.refl _) ?_)
  refine flatMap_subset fun n hn => ?_
  obtain ⟨m, -, rfl⟩ := List.mem_map.mp hn
  split
  · rename_i hm
    have hval : (removeentry m).val = .nil := hm
    simp [keyref_removeentry, hval, Val.ref]
  · exact List.Subset.refl _

/-- The marking of the array and of the entries. -/
def markentries (t : Table) (weakkey weakvalue : Bool) (s : State) : State :=
  marknodes weakkey weakvalue t.node (if weakvalue then s else markvalues t.array.reverse s)

theorem Marks.markentries (t : Table) (weakkey weakvalue : Bool) (s : State) :
    Marks s (markentries t weakkey weakvalue s) := by
  cases weakvalue with
  | true => exact Marks.marknodes ..
  | false => exact (Marks.markvalues ..).trans (Marks.marknodes ..)

theorem iswhite_markentries {t : Table} {weakkey weakvalue : Bool}
    (hmt : ∀ mt ∈ t.metatable, s.iswhite (.table mt) = false)
    (ho : o ∈ t.swept.parts weakkey weakvalue) :
    (markentries t weakkey weakvalue s).iswhite o = false := by
  rcases List.mem_append.mp ho with ho | ho
  · obtain ⟨mt, hmem, rfl⟩ := List.mem_map.mp ho
    exact (Marks.markentries ..).nonwhite (hmt mt (Option.mem_toList.mp hmem))
  · rcases List.mem_append.mp ho with ho | ho
    · cases weakvalue with
      | true => cases ho
      | false =>
        have hrev : o ∈ t.array.reverse.filterMap Val.ref := by
          rw [List.filterMap_reverse, List.mem_reverse]
          exact ho
        exact (Marks.marknodes ..).nonwhite (iswhite_markvalues hrev s)
    · obtain ⟨n', hn', ho⟩ := List.mem_flatMap.mp ho
      obtain ⟨n, hn, rfl⟩ := List.mem_map.mp hn'
      by_cases hval : n.val = .nil
      · have hval' : (removeentry n).val = .nil := hval
        rw [if_pos hval, if_pos hval'] at ho
        cases ho
      · rw [if_neg hval, if_neg hval] at ho
        rcases List.mem_append.mp ho with ho | ho
        · cases weakkey with
          | true => cases ho
          | false =>
            have hkey : o ∈ n.key.ref := by
              have ho := Option.mem_toList.mp ho
              unfold Node.keyref at ho
              split at ho
              · cases ho
              · exact ho
            exact iswhite_marknodes hn (iswhite_marknode_key hval hkey weakvalue) _
        · cases weakvalue with
          | true => cases ho
          | false =>
            exact iswhite_marknodes hn (iswhite_marknode_val (Option.mem_toList.mp ho) weakkey) _

theorem traversetable_spec (h : Nat) (s : State) :
    if (traversetable h s).1 then TraversedWeak h s (traversetable h s).2
    else Traversed (.table h) s (traversetable h s).2 := by
  let s₁ := markobjects ((s.table h).metatable.toList.map .table) s
  have hmarks : Marks s s₁ := Marks.markobjects ..
  have hmt (mt : Nat) (hmem : mt ∈ (s.table h).metatable) : s₁.iswhite (.table mt) = false :=
    iswhite_markobjects (List.mem_map_of_mem (Option.mem_toList.mpr hmem)) s
  rw [← hmarks.table] at hmt
  obtain ⟨weakkey, weakvalue, hweak⟩ : ∃ weakkey weakvalue,
      weakmode s₁ (s₁.table h).metatable = (weakkey, weakvalue) := ⟨_, _, rfl⟩
  let s₂ := if weakkey || weakvalue then linkweak h weakkey weakvalue s₁ else s₁
  have htable (s' : State) : (s'.setTable h (s'.table h).swept).table h = (s'.table h).swept :=
    Function.update_self ..
  have hother (s' : State) {h' : Nat} (hne : h' ≠ h) :
      (s'.setTable h (s'.table h).swept).table h' = s'.table h' := Function.update_of_ne hne ..
  have hother₂ {h' : Nat} (hne : h' ≠ h) : s₂.table h' = s.table h' := by
    rw [← hmarks.table]
    show (if weakkey || weakvalue then linkweak h weakkey weakvalue s₁ else s₁).table h' = _
    split
    · exact Function.update_of_ne hne ..
    · rfl
  have heq : traversetable h s =
      if weakkey && weakvalue then (true, s₂)
      else (weakkey || weakvalue,
        let s := markentries (s₁.table h) weakkey weakvalue s₂
        s.setTable h (s.table h).swept) := by
    unfold traversetable
    simp only [hweak, s₁]
    rfl
  rw [heq]
  by_cases hany : weakkey || weakvalue
  · have hs₂ : s₂ = linkweak h weakkey weakvalue s₁ := if_pos hany
    have htable₂ : s₂.table h =
        { s₁.table h with keyweak := weakkey, valueweak := weakvalue } := by
      rw [hs₂]
      exact Function.update_self ..
    by_cases hboth : weakkey && weakvalue
    · rw [if_pos hboth]
      obtain ⟨rfl, rfl⟩ : weakkey = true ∧ weakvalue = true := by simpa using hboth
      refine ⟨⟨true, true, s₁, s₂, hmarks, hs₂ ▸ Marks.refl _, Trims.refl _⟩, fun o ho => ?_,
        fun h' hne => by rw [hother₂ hne]⟩
      have hmem : h ∈ s₂.weak := by
        rw [hs₂]
        exact List.mem_cons_self ..
      simp only [State.strong, hmem, decide_true, htable₂, Table.strong, Table.parts, if_true,
        List.nil_append, List.mem_append] at ho
      rcases ho with ho | ho
      · obtain ⟨mt, hmt', rfl⟩ := List.mem_map.mp ho
        rw [hs₂]
        exact hmt mt (Option.mem_toList.mp hmt')
      · simp at ho
    · rw [if_neg hboth]
      simp only [hany, if_true]
      have hmarks₃ := Marks.markentries (s₁.table h) weakkey weakvalue s₂
      refine ⟨⟨weakkey, weakvalue, s₁, _, hmarks, hs₂ ▸ hmarks₃, trims_removeentry h _⟩,
        fun o ho => ?_, fun h' hne => ?_⟩
      have hmem : h ∈ (markentries (s₁.table h) weakkey weakvalue s₂).weak := by
        rw [hmarks₃.weak, hs₂]
        exact List.mem_cons_self ..
      have hstrong : o ∈ (s₁.table h).swept.parts weakkey weakvalue := by
        have hmem' : h ∈ ((markentries (s₁.table h) weakkey weakvalue s₂).setTable h
          ((markentries (s₁.table h) weakkey weakvalue s₂).table h).swept).weak := hmem
        simp only [State.strong, hmem', decide_true] at ho
        rw [htable, hmarks₃.table, htable₂] at ho
        exact ho
      · refine iswhite_markentries (fun mt hmt' => ?_) hstrong
        rw [hs₂]
        exact hmt mt hmt'
      · rw [hother _ hne, hmarks₃.table, hother₂ hne]
  · have hs₂ : s₂ = s₁ := if_neg hany
    have hboth : ¬(weakkey && weakvalue) = true := by
      intro hboth
      exact hany (by simp at hboth ⊢; exact Or.inl hboth.1)
    obtain ⟨rfl, rfl⟩ : weakkey = false ∧ weakvalue = false := by simpa using hany
    rw [if_neg hboth, hs₂]
    have hmarks₃ := Marks.markentries (s₁.table h) false false s₁
    refine ⟨⟨_, hmarks.trans hmarks₃, trims_removeentry h _⟩, fun o ho => ?_, fun h' => ?_⟩
    · refine iswhite_markentries hmt (Table.strong_swept _ ?_)
      have ho := Table.strong_subset _ _ ho
      rw [htable, hmarks₃.table] at ho
      exact ho
    · by_cases hne : h' = h
      · subst hne
        rw [if_pos rfl, htable, hmarks₃.table, hmarks.table]
      · rw [if_neg (by simpa [eq_comm] using hne), hother _ hne, hmarks₃.table, hmarks.table]

theorem traverseproto_spec (f : Nat) (s : State) : Traversed (.proto f) s (traverseproto f s) := by
  let p := s.proto f
  let s₁ := stringmarks p.source.toList s
  let s₂ := markvalues p.k s₁
  let s₃ := stringmarks p.upvalues.reduceOption s₂
  let s₄ := markobjects (p.p.reduceOption.map .proto) s₃
  let s₅ := stringmarks p.locvars.reduceOption s₄
  have h₂ : Marks s₁ s₂ := Marks.markvalues ..
  have h₃ : Marks s₂ s₃ := Marks.stringmarks ..
  have h₄ : Marks s₃ s₄ := Marks.markobjects ..
  have h₅ : Marks s₄ s₅ := Marks.stringmarks ..
  have hmarks : Marks s s₅ := (((Marks.stringmarks ..).trans h₂).trans h₃).trans (h₄.trans h₅)
  refine ⟨⟨s₅, hmarks, Trims.refl _⟩, fun o ho => ?_,
    fun h => (congrFun hmarks.table h).trans (if_neg (by simp)).symm⟩
  change o ∈ s₅.strong (.proto f) at ho
  rw [hmarks.strong] at ho
  change o ∈ (p.source.toList ++ p.upvalues.reduceOption ++ p.locvars.reduceOption).map Ref.string ++
    p.k.filterMap Val.ref ++ p.p.reduceOption.map .proto at ho
  show s₅.iswhite o = false
  simp only [List.map_append, List.mem_append, or_assoc] at ho
  rcases ho with ho | ho | ho | ho | ho
  · obtain ⟨a, ha, rfl⟩ := List.mem_map.mp ho
    exact (h₂.trans (h₃.trans (h₄.trans h₅))).nonwhite (iswhite_stringmarks ha s)
  · obtain ⟨a, ha, rfl⟩ := List.mem_map.mp ho
    exact (h₄.trans h₅).nonwhite (iswhite_stringmarks ha s₂)
  · obtain ⟨a, ha, rfl⟩ := List.mem_map.mp ho
    exact iswhite_stringmarks ha s₄
  · exact (h₃.trans (h₄.trans h₅)).nonwhite (iswhite_markvalues ho s₁)
  · exact h₅.nonwhite (iswhite_markobjects ho s₃)

theorem traverseclosure_spec (f : Nat) (s : State) :
    Traversed (.function f) s (traverseclosure f s) := by
  cases hf : s.function f with
  | c env upvalue =>
    have heq : traverseclosure f s = markvalues upvalue (markobject (.table env) s) := by
      simp only [traverseclosure, hf]
    rw [heq]
    have h₁ : Marks s (markobject (.table env) s) := Marks.markobject ..
    have h₂ : Marks _ (markvalues upvalue (markobject (.table env) s)) := Marks.markvalues ..
    refine ⟨⟨_, h₁.trans h₂, Trims.refl _⟩, fun o ho => ?_,
      fun h => (congrFun (h₁.trans h₂).table h).trans (if_neg (by simp)).symm⟩
    rw [(h₁.trans h₂).strong] at ho
    change o ∈ (s.function f).refs at ho
    rw [hf] at ho
    rcases List.mem_cons.mp ho with rfl | ho
    · exact h₂.nonwhite (iswhite_markobject ..)
    · exact iswhite_markvalues ho _
  | l env p upvals =>
    have heq : traverseclosure f s =
        markobjects (upvals.map .upval) (markobject (.proto p) (markobject (.table env) s)) := by
      simp only [traverseclosure, hf]
    rw [heq]
    have h₁ : Marks s (markobject (.table env) s) := Marks.markobject ..
    have h₂ : Marks _ (markobject (.proto p) (markobject (.table env) s)) := Marks.markobject ..
    have h₃ := Marks.markobjects (upvals.map .upval) (markobject (.proto p) (markobject (.table env) s))
    refine ⟨⟨_, h₁.trans (h₂.trans h₃), Trims.refl _⟩, fun o ho => ?_,
      fun h => (congrFun (h₁.trans (h₂.trans h₃)).table h).trans (if_neg (by simp)).symm⟩
    rw [(h₁.trans (h₂.trans h₃)).strong] at ho
    change o ∈ (s.function f).refs at ho
    rw [hf] at ho
    rcases List.mem_cons.mp ho with rfl | ho
    · exact (h₂.trans h₃).nonwhite (iswhite_markobject ..)
    · rcases List.mem_cons.mp ho with rfl | ho
      · exact h₃.nonwhite (iswhite_markobject ..)
      · exact iswhite_markobjects ho _

theorem getD_clear (l : List Val) (top i : Nat) :
    (l.take top ++ List.replicate (l.length - top) Val.nil).getD i .nil = .nil ∨
      (l.take top ++ List.replicate (l.length - top) Val.nil).getD i .nil = l.getD i .nil := by
  by_cases hi : i < (l.take top).length
  · right
    have hlt : i < l.length := Nat.lt_of_lt_of_le hi (List.length_take_le' ..)
    rw [List.getD_eq_getElem?_getD, List.getElem?_append_left hi, List.getElem?_take_of_lt
      (Nat.lt_of_lt_of_le hi (List.length_take_le ..)), List.getD_eq_getElem?_getD]
  · left
    rw [List.getD_eq_getElem?_getD, List.getElem?_append_right (Nat.le_of_not_lt hi),
      List.getElem?_replicate]
    split <;> rfl

theorem traversestack_spec (t : Nat) (s : State) : Traversed (.thread t) s (traversestack t s) := by
  let th := s.thread t
  let s₁ := markvalue (.table th.gt) s
  let s₂ := markvalues (th.stack.take th.top) s₁
  have h₁ : Marks s s₁ := Marks.markvalue ..
  have h₂ : Marks s₁ s₂ := Marks.markvalues ..
  have hthread : s₂.thread t = th := by rw [(h₁.trans h₂).thread]
  have htrims : Trims s₂ (traversestack t s) := by
    refine Trims.setThread ?_ ?_ ?_
    · rw [hthread]
    · rw [hthread]
    · intro i
      rw [hthread]
      exact getD_clear th.stack th.top i
  refine ⟨⟨s₂, h₁.trans h₂, htrims⟩, fun o ho => ?_,
    fun h => (congrFun (h₁.trans h₂).table h).trans (if_neg (by simp)).symm⟩
  rw [htrims.iswhite]
  change o ∈ (Function.update s₂.thread t _ t).refs at ho
  rw [Function.update_self] at ho
  rcases List.mem_cons.mp ho with rfl | ho
  · exact h₂.nonwhite (iswhite_markvalue rfl s)
  · rw [List.filterMap_append] at ho
    rcases List.mem_append.mp ho with ho | ho
    · exact iswhite_markvalues ho s₁
    · obtain ⟨v, hv, hvo⟩ := List.mem_filterMap.mp ho
      rw [(List.mem_replicate.mp hv).2] at hvo
      cases hvo

end Luaxx.Collector
