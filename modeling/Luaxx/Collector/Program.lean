import Mathlib.Data.List.ReduceOption
import Luaxx.Collector.Stores

/-!
# What the program stores

Every store of the program with its barrier keeps the invariant, in each phase of the collector.
-/

namespace Luaxx.Collector

open Luaxx.Gc (White GCState)

variable {s s' : State} {o p r : Ref} {v : Val}

theorem Inv.safe (h : Inv s) (hr : Reach s r) : Safe s r := h.kept.reach hr

theorem Inv.held (h : Inv s) (hv : Held s v) (o : Ref) (ho : o ∈ v.ref) : Safe s o := h.safe (hv o ho)

/-! ## Barriers behind a store -/

variable {X : Ref → Prop}

theorem Stores.barrier {q : Ref} (h : Stores X (fun r o => r = p ∧ o ∈ v.ref) s s') (hs : Inv s)
    (hX : ∀ o, X o → Safe s o)
    (hq : s.gcstate = .GCSpropagate → s.isblack p = true → s.isblack q = true) :
    Inv (luaC_barrier q v s') := by
  have hblack (r : Ref) : s'.isblack r = s.isblack r := by
    unfold State.isblack
    rw [h.marked]
  unfold luaC_barrier
  cases hv : v.ref with
  | none => exact h.inv hs hX fun _ _ _ hE => by simp [hv] at hE
  | some o =>
    refine (h.owes hs hX fun r x hE => ⟨hE.1, ?_⟩).objbarrier (p := p) fun hstate => ?_
    · have hx := hE.2
      rw [hv] at hx
      exact (Option.mem_some.mp hx).symm
    · rw [hblack, hblack]
      exact hq (h.gcstate ▸ hstate)

theorem Stores.objbarrier (h : Stores X (fun r x => r = p ∧ x = o) s s') (hs : Inv s)
    (hX : ∀ o, X o → Safe s o) : Inv (luaC_objbarrier p o s') :=
  (h.owes hs hX fun _ _ hE => hE).objbarrier fun _ hblack => hblack

theorem Stores.barriert {t : Nat} (h : Stores X (fun r o => r = .table t ∧ o ∈ v.ref) s s')
    (hs : Inv s) (hX : ∀ o, X o → Safe s o) : Inv (luaC_barriert t v s') := by
  unfold luaC_barriert
  cases hv : v.ref with
  | none => exact h.inv hs hX fun _ _ _ hE => by simp [hv] at hE
  | some o =>
    refine (h.owes hs hX fun r x hE => ⟨hE.1, ?_⟩).objbarriert
    have hx := hE.2
    rw [hv] at hx
    exact (Option.mem_some.mp hx).symm

/-! ## Tables -/

theorem Table.mem_refs {t : Table} : o ∈ t.refs ↔ (∃ mt ∈ t.metatable, o = .table mt) ∨
    (∃ v ∈ t.array, o ∈ v.ref) ∨ ∃ n ∈ t.node, n.val ≠ .nil ∧ (o ∈ n.keyref ∨ o ∈ n.val.ref) := by
  have hnode (n : Node) : o ∈ (if n.val = .nil then [] else n.refs) ↔
      n.val ≠ .nil ∧ (o ∈ n.keyref ∨ o ∈ n.val.ref) := by
    split <;> simp [*, Node.refs, Node.keyref]
  simp only [Table.refs, List.mem_append, List.mem_map, List.mem_filterMap, List.mem_flatMap, hnode,
    Option.mem_toList, or_assoc]
  simp only [Option.mem_def, eq_comm]

theorem Table.mem_strong {t : Table} : o ∈ t.strong false ↔ (∃ mt ∈ t.metatable, o = .table mt) ∨
    (∃ v ∈ t.array, o ∈ v.ref) ∨ ∃ n ∈ t.node, o ∈ n.keyref ∨ o ∈ n.val.ref := by
  simp only [Table.strong, Bool.false_eq_true, if_false, List.mem_append, List.mem_map,
    List.mem_filterMap, List.mem_flatMap, Option.mem_toList, Option.mem_def, eq_comm]

theorem setarray_inv {h i : Nat} (hs : Inv s) (hv : Held s v) : Inv (setarray h i v s) := by
  have hmem (w : Val) (hw : w ∈ (s.table h).array.set i v) : w ∈ (s.table h).array ∨ w = v :=
    List.mem_or_eq_of_mem_set hw
  refine Stores.barriert (X := (· ∈ v.ref))
    (Stores.setTable (fun o ho => ?_) (fun o ho => ?_) fun _ ho => ho) hs (hs.held hv)
  · rw [Table.mem_refs] at ho ⊢
    rcases ho with hmt | ⟨w, hw, ho⟩ | hnode
    · exact Or.inl (Or.inl hmt)
    · rcases hmem w hw with hw | rfl
      · exact Or.inl (Or.inr (Or.inl ⟨w, hw, ho⟩))
      · exact Or.inr ho
    · exact Or.inl (Or.inr (Or.inr hnode))
  · rw [Table.mem_strong] at ho ⊢
    rcases ho with hmt | ⟨w, hw, ho⟩ | hnode
    · exact Or.inl (Or.inl hmt)
    · rcases hmem w hw with hw | rfl
      · exact Or.inl (Or.inr (Or.inl ⟨w, hw, ho⟩))
      · exact Or.inr ho
    · exact Or.inl (Or.inr (Or.inr hnode))

theorem mem_modify {α : Type} {f : α → α} {i : Nat} {l : List α} {x : α} (h : x ∈ l.modify i f) :
    x ∈ l ∨ ∃ y, l[i]? = some y ∧ x = f y := by
  obtain ⟨j, hj⟩ := List.mem_iff_getElem?.mp h
  rw [List.getElem?_modify] at hj
  obtain ⟨y, hy, hx⟩ := Option.map_eq_some_iff.mp hj
  by_cases hij : i = j
  · subst hij
    exact Or.inr ⟨y, hy, by simpa using hx.symm⟩
  · rw [if_neg hij] at hx
    exact Or.inl (List.mem_iff_getElem?.mpr ⟨j, hx ▸ hy⟩)

/-- The key of the entry is held, for a weak table may not have marked it. -/
theorem setnode_inv {h i : Nat} {n : Node} (hs : Inv s) (hn : (s.table h).node[i]? = some n)
    (hk : Held s n.key) (hv : Held s v) : Inv (setnode h i v s) := by
  have hmem (m : Node) (hm : m ∈ (s.table h).node.modify i fun n => { n with val := v }) :
      m ∈ (s.table h).node ∨ m = { n with val := v } := by
    refine (mem_modify hm).imp_right ?_
    rintro ⟨y, hy, rfl⟩
    rw [hn] at hy
    rw [← Option.some.inj hy]
  have hkey : ∀ o ∈ n.keyref, o ∈ n.key.ref := by
    unfold Node.keyref
    split <;> simp
  refine Stores.barriert (X := fun o => o ∈ v.ref ∨ o ∈ n.key.ref)
    (Stores.setTable (fun o ho => ?_) (fun o ho => ?_) fun _ => Or.inl) hs
    fun o ho => ho.elim (hs.held hv o) (hs.held hk o)
  · rw [Table.mem_refs] at ho ⊢
    rcases ho with hmt | harray | ⟨m, hm, hval, ho⟩
    · exact Or.inl (Or.inl hmt)
    · exact Or.inl (Or.inr (Or.inl harray))
    · rcases hmem m hm with hm | rfl
      · exact Or.inl (Or.inr (Or.inr ⟨m, hm, hval, ho⟩))
      · exact Or.inr (ho.symm.imp_right (hkey o))
  · rw [Table.mem_strong] at ho ⊢
    rcases ho with hmt | harray | ⟨m, hm, ho⟩
    · exact Or.inl (Or.inl hmt)
    · exact Or.inl (Or.inr (Or.inl harray))
    · rcases hmem m hm with hm | rfl
      · exact Or.inl (Or.inr (Or.inr ⟨m, hm, ho⟩))
      · refine ho.imp_left fun ho => Or.inr (Or.inr ⟨n, List.mem_iff_getElem?.mpr ⟨i, hn⟩, Or.inl ho⟩)

theorem newkey_inv {h i : Nat} {key : Val} (hs : Inv s) (hk : Held s key) :
    Inv (newkey h i key s) := by
  have hmem (m : Node) (hm : m ∈ (s.table h).node.set i ⟨key, .nil, false⟩) :
      m ∈ (s.table h).node ∨ m = ⟨key, .nil, false⟩ := List.mem_or_eq_of_mem_set hm
  refine Stores.barriert (X := (· ∈ key.ref))
    (Stores.setTable (fun o ho => ?_) (fun o ho => ?_) fun _ ho => ho) hs (hs.held hk)
  · rw [Table.mem_refs] at ho ⊢
    rcases ho with hmt | harray | ⟨m, hm, hval, ho⟩
    · exact Or.inl (Or.inl hmt)
    · exact Or.inl (Or.inr (Or.inl harray))
    · rcases hmem m hm with hm | rfl
      · exact Or.inl (Or.inr (Or.inr ⟨m, hm, hval, ho⟩))
      · exact absurd rfl hval
  · rw [Table.mem_strong] at ho ⊢
    rcases ho with hmt | harray | ⟨m, hm, ho⟩
    · exact Or.inl (Or.inl hmt)
    · exact Or.inl (Or.inr (Or.inl harray))
    · rcases hmem m hm with hm | rfl
      · exact Or.inl (Or.inr (Or.inr ⟨m, hm, ho⟩))
      · exact Or.inr (by simpa [Node.keyref, Val.ref] using ho)

theorem rehash_inv {h : Nat} {t : Table} (hs : Inv s) (ht : Rearranged (s.table h) t) :
    Inv (s.setTable h t) := by
  have hnil : Val.nil.ref = none := rfl
  refine Stores.inv (X := fun _ => False)
    (Stores.setTable (v := none) (fun o ho => ?_) (fun o ho => ?_) fun _ ho => by simp at ho) hs
    (fun _ => False.elim) fun _ _ _ hE => by simp at hE
  · rw [Table.mem_refs] at ho ⊢
    rw [ht.metatable] at ho
    refine Or.inl ?_
    rcases ho with hmt | ⟨w, hw, ho⟩ | ⟨m, hm, hval, ho⟩
    · exact Or.inl hmt
    · rcases ht.array w hw with rfl | hw | ⟨n, hn, rfl⟩
      · simp [hnil] at ho
      · exact Or.inr (Or.inl ⟨w, hw, ho⟩)
      · refine Or.inr (Or.inr ⟨n, hn, fun hval => ?_, Or.inr ho⟩)
        simp [hval, hnil] at ho
    · rcases ht.node m hm with ⟨hnone, -⟩ | ⟨hkey, hw⟩ | hm
      · exact absurd hnone hval
      · refine Or.inr (Or.inl ⟨m.val, hw, ho.resolve_left ?_⟩)
        simp [Node.keyref, hkey]
      · exact Or.inr (Or.inr ⟨m, hm, hval, ho⟩)
  · rw [Table.mem_strong] at ho ⊢
    rw [ht.metatable] at ho
    refine Or.inl ?_
    rcases ho with hmt | ⟨w, hw, ho⟩ | ⟨m, hm, ho⟩
    · exact Or.inl hmt
    · rcases ht.array w hw with rfl | hw | ⟨n, hn, rfl⟩
      · simp [hnil] at ho
      · exact Or.inr (Or.inl ⟨w, hw, ho⟩)
      · exact Or.inr (Or.inr ⟨n, hn, Or.inr ho⟩)
    · rcases ht.node m hm with ⟨hnone, hkey⟩ | ⟨hkey, hw⟩ | hm
      · simp [Node.keyref, hkey, hnone, hnil] at ho
      · refine Or.inr (Or.inl ⟨m.val, hw, ho.resolve_left ?_⟩)
        simp [Node.keyref, hkey]
      · exact Or.inr (Or.inr ⟨m, hm, ho⟩)

theorem setmetatable_inv {h : Nat} {mt : Option Nat} (hs : Inv s)
    (hm : ∀ m ∈ mt, Reach s (.table m)) : Inv (setmetatable h mt s) := by
  have hstore : Stores (fun o => ∃ m ∈ mt, o = .table m)
      (fun r o => r = .table h ∧ o ∈ mt.map Ref.table) s
      (s.setTable h { s.table h with metatable := mt }) := by
    refine Stores.setTable (fun o ho => ?_) (fun o ho => ?_) fun o ho => ?_
    · rw [Table.mem_refs] at ho ⊢
      exact ho.elim Or.inr fun ho => Or.inl (Or.inr ho)
    · rw [Table.mem_strong] at ho ⊢
      rcases ho with ⟨m, hm, rfl⟩ | ho
      · exact Or.inr (Option.mem_map_of_mem _ hm)
      · exact Or.inl (Or.inr ho)
    · obtain ⟨m, hm, rfl⟩ := Option.mem_map.mp ho
      exact ⟨m, hm, rfl⟩
  have hX (o : Ref) (ho : ∃ m ∈ mt, o = .table m) : Safe s o := by
    obtain ⟨m, hmem, rfl⟩ := ho
    exact hs.safe (hm m hmem)
  unfold setmetatable
  cases mt with
  | none => exact hstore.inv hs hX fun _ _ _ hE => by simp at hE
  | some m => exact (hstore.owes hs hX fun r x hE => ⟨hE.1, by simpa [eq_comm] using hE.2⟩).objbarriert

/-! ## Other objects -/

theorem Udata.mem_refs {u : Udata} :
    o ∈ u.refs ↔ (∃ mt ∈ u.metatable, o = .table mt) ∨ o = .table u.env := by
  simp only [Udata.refs, List.mem_append, List.mem_map, Option.mem_toList, List.mem_singleton]
  simp only [Option.mem_def, eq_comm]

theorem setudatamt_inv {u : Nat} {mt : Option Nat} (hs : Inv s)
    (hm : ∀ m ∈ mt, Reach s (.table m)) : Inv (setudatamt u mt s) := by
  have hstore : Stores (· ∈ mt.map Ref.table) (fun r o => r = .udata u ∧ o ∈ mt.map Ref.table) s
      (s.setUdata u { s.udata u with metatable := mt }) := by
    refine Stores.setUdata fun o ho => ?_
    rw [Udata.mem_refs] at ho ⊢
    rcases ho with ⟨m, hm, rfl⟩ | ho
    · exact Or.inr (Option.mem_map_of_mem _ hm)
    · exact Or.inl (Or.inr ho)
  have hX (o : Ref) (ho : o ∈ mt.map Ref.table) : Safe s o := by
    obtain ⟨m, hmem, rfl⟩ := Option.mem_map.mp ho
    exact hs.safe (hm m hmem)
  unfold setudatamt
  cases mt with
  | none => exact hstore.inv hs hX fun _ _ _ hE => by simp at hE
  | some m =>
    exact (hstore.owes hs hX fun r x hE => ⟨hE.1, by simpa [eq_comm] using hE.2⟩).objbarrier
      fun _ hblack => hblack

theorem setudataenv_inv {u env : Nat} (hs : Inv s) (henv : Reach s (.table env)) :
    Inv (setudataenv u env s) := by
  refine Stores.objbarrier (X := (· = .table env)) (Stores.setUdata fun o ho => ?_) hs
    fun o ho => ho ▸ hs.safe henv
  rw [Udata.mem_refs] at ho ⊢
  exact ho.imp_left Or.inl

theorem setfenv_inv {f env : Nat} (hs : Inv s) (henv : Reach s (.table env)) :
    Inv (setfenv f env s) := by
  refine Stores.objbarrier (X := (· = .table env)) (Stores.setFunction fun o ho => ?_) hs
    fun o ho => ho ▸ hs.safe henv
  cases hf : s.function f with
  | c env' upvalue =>
    rw [hf] at ho
    exact (List.mem_cons.mp ho).symm.imp_left (List.mem_cons_of_mem _)
  | l env' p upvals =>
    rw [hf] at ho
    exact (List.mem_cons.mp ho).symm.imp_left (List.mem_cons_of_mem _)

theorem setCupvalue_inv {f i : Nat} (hs : Inv s) (hv : Held s v) : Inv (setCupvalue f i v s) := by
  refine Stores.barrier (X := (· ∈ v.ref)) (Stores.setFunction fun o ho => ?_) hs (hs.held hv)
    fun _ hblack => hblack
  cases hf : s.function f with
  | c env upvalue =>
    rw [hf] at ho
    rcases List.mem_cons.mp ho with rfl | ho
    · exact Or.inl List.mem_cons_self
    · obtain ⟨w, hw, hwo⟩ := List.mem_filterMap.mp ho
      rcases List.mem_or_eq_of_mem_set hw with hw | rfl
      · exact Or.inl (List.mem_cons_of_mem _ (List.mem_filterMap.mpr ⟨w, hw, hwo⟩))
      · exact Or.inr hwo
  | l env p upvals =>
    rw [hf] at ho
    exact Or.inl ho

theorem setproto_inv {f : Nat} {p : Proto} (hs : Inv s) (ho : Reach s o)
    (hp : ∀ r ∈ p.refs, r ∈ (s.proto f).refs ∨ r = o) : Inv (setproto f p o s) :=
  Stores.objbarrier (X := (· = o)) (Stores.setProto hp) hs fun _ hx => hx ▸ hs.safe ho

/-! ## Threads and upvalues -/

/-- Threads and their open upvalues are never black in the mark phase, so that stores in stacks need no
barrier. -/
theorem Inv.stack_not_black (h : Inv s) (hstate : s.gcstate = .GCSpropagate) {t : Nat}
    (hr : r = .thread t ∨ ∃ a slot, r = .upval a ∧ s.upval a = .stack t slot) :
    s.isblack r = false := by
  rw [Bool.eq_false_iff]
  intro hblack
  rw [State.isblack_iff] at hblack
  rcases hr with rfl | ⟨a, slot, rfl, hslot⟩
  · exact (h.propagating hstate).linked.black t hblack
  · have hmem := (h.listed.mem (.upval a)).mpr (by rw [hblack]; simp)
    simp only [State.objects, List.mem_append, List.mem_map, reduceCtorEq, and_false, exists_false,
      false_or, or_false, Ref.upval.injEq, exists_eq_right] at hmem
    rcases hmem with hmem | huv
    · obtain ⟨w, hw⟩ := h.listed.closed a (List.mem_append.mpr hmem)
      rw [hslot] at hw
      cases hw
    · exact h.opened.black a huv hblack

theorem Thread.mem_refs {th : Thread} : o ∈ th.refs ↔ o = .table th.gt ∨ ∃ v ∈ th.stack, o ∈ v.ref := by
  simp [Thread.refs]

theorem Inv.setThread {t : Nat} {th : Thread} (h : Inv s)
    (hopen : th.openupval = (s.thread t).openupval)
    (hrefs : ∀ o ∈ th.refs, o ∈ (s.thread t).refs ∨ X o)
    (hslot : ∀ slot, ∀ o ∈ (th.stack.getD slot .nil).ref,
      o ∈ ((s.thread t).stack.getD slot .nil).ref ∨ X o)
    (hX : ∀ o, X o → Safe s o) : Inv (s.setThread t th) := by
  refine (Stores.setThread hopen hrefs hslot).inv h hX fun hstate r o hE hblack => ?_
  rw [h.stack_not_black hstate hE.1] at hblack
  cases hblack

/-- The stack after a store. -/
theorem mem_stored {stack : List Val} {slot n : Nat} {w : Val}
    (hw : w ∈ (stack ++ List.replicate n Val.nil).set slot v) : w ∈ stack ∨ w = .nil ∨ w = v := by
  rcases List.mem_or_eq_of_mem_set hw with hw | rfl
  · exact (List.mem_append.mp hw).imp_right fun hw => Or.inl (List.eq_of_mem_replicate hw)
  · exact Or.inr (Or.inr rfl)

theorem getD_stored (stack : List Val) (slot n i : Nat) :
    ((stack ++ List.replicate n Val.nil).set slot v).getD i .nil = stack.getD i .nil ∨
      ((stack ++ List.replicate n Val.nil).set slot v).getD i .nil = v := by
  by_cases hi : slot = i ∧ i < (stack ++ List.replicate n Val.nil).length
  · right
    obtain ⟨rfl, hi⟩ := hi
    rw [List.getD, List.getElem?_set, if_pos rfl, if_pos hi, Option.getD_some]
  · left
    have hset : ((stack ++ List.replicate n Val.nil).set slot v)[i]? =
        (stack ++ List.replicate n Val.nil)[i]? := by
      rw [List.getElem?_set]
      split
      · rename_i hslot
        subst hslot
        rw [if_neg fun hlt => hi ⟨rfl, hlt⟩]
        exact (List.getElem?_eq_none (by omega)).symm
      · rfl
    simp only [List.getD, hset, List.getElem?_append, List.getElem?_replicate]
    split
    · rfl
    · rename_i hlen
      rw [List.getElem?_eq_none (by omega : stack.length ≤ i)]
      split <;> rfl

theorem setstack_inv {t slot : Nat} (hs : Inv s) (hv : ∀ o ∈ v.ref, Safe s o) :
    Inv (setstack t slot v s) := by
  refine hs.setThread (X := (· ∈ v.ref)) rfl (fun o ho => ?_) (fun i o ho => ?_) hv
  · rw [Thread.mem_refs] at ho ⊢
    rcases ho with ho | ⟨w, hw, ho⟩
    · exact Or.inl (Or.inl ho)
    · rcases mem_stored hw with hw | rfl | rfl
      · exact Or.inl (Or.inr ⟨w, hw, ho⟩)
      · cases ho
      · exact Or.inr ho
  · rcases @getD_stored v (s.thread t).stack slot (slot + 1 - (s.thread t).stack.length) i with h | h
    · exact Or.inl (h ▸ ho)
    · exact Or.inr (h ▸ ho)

theorem settop_inv {t top : Nat} (hs : Inv s) : Inv (settop t top s) :=
  hs.setThread (X := fun _ => False) rfl (fun _ ho => Or.inl ho) (fun _ _ ho => Or.inl ho)
    fun _ => False.elim

theorem truncate_inv {t size : Nat} (hs : Inv s) :
    Inv (s.setThread t { s.thread t with stack := (s.thread t).stack.take size }) := by
  refine hs.setThread (X := fun _ => False) rfl (fun o ho => Or.inl ?_) (fun i o ho => Or.inl ?_)
    fun _ => False.elim
  · rw [Thread.mem_refs] at ho ⊢
    exact ho.imp_right fun ⟨w, hw, ho⟩ => ⟨w, List.mem_of_mem_take hw, ho⟩
  · by_cases hi : i < size
    · simpa [List.getD, List.getElem?_take, hi] using ho
    · simp [List.getD, hi, Val.ref] at ho

theorem setthreadenv_inv {t env : Nat} (hs : Inv s) (henv : Reach s (.table env)) :
    Inv (setthreadenv t env s) := by
  have hinv : Inv (s.setThread t { s.thread t with gt := env }) := by
    refine hs.setThread (X := (· = .table env)) rfl (fun o ho => ?_) (fun _ _ ho => Or.inl ho)
      fun o ho => ho ▸ hs.safe henv
    rw [Thread.mem_refs] at ho ⊢
    exact ho.symm.imp_left Or.inr
  exact (hinv.owes (.thread t) (.table env)).objbarrier fun _ hblack => hblack

/-- A store in an upvalue, whose barrier is that of `q`. -/
theorem setuv_inv {a : Nat} {q : Ref} (hs : Inv s) (hv : Held s v)
    (hq : s.isblack (.upval a) = true → s.isblack q = true) : Inv (luaC_barrier q v (setuv a v s)) := by
  unfold setuv
  cases ha : s.upval a with
  | closed w =>
    exact Stores.barrier (X := (· ∈ v.ref)) (Stores.setUpval ha fun _ ho => ho) hs (hs.held hv)
      fun _ => hq
  | stack t slot =>
    have hinv : Inv (setstack t slot v s) := setstack_inv hs (hs.held hv)
    cases hv : v.ref with
    | none => rwa [luaC_barrier_none hv]
    | some o =>
      rw [luaC_barrier_some hv]
      exact (hinv.owes q o).objbarrier fun _ hblack => hblack

/-! ## Roots -/

/-- Another thread runs, or a basic metatable is set. -/
theorem Inv.setroots {L : Nat} {mt : List (Option Nat)} (hs : Inv s) (hL : Safe s (.thread L))
    (hmt : ∀ m ∈ mt.reduceOption, Safe s (.table m)) : Inv { s with L := L, mt := mt } where
  kept := by
    refine ⟨fun o ho => ?_, fun o ho o' ho' => hs.kept.refs o ho o' (by cases o <;> exact ho'),
      hs.kept.fixed⟩
    rcases ho with ho | ho | rfl | ⟨m, hm, rfl⟩ | ho | ho
    · exact hs.kept.root o (Or.inl ho)
    · exact hs.kept.root o (Or.inr (Or.inl ho))
    · exact hL
    · exact hmt m hm
    · exact hs.kept.root o (Or.inr (Or.inr (Or.inr (Or.inr (Or.inl ho)))))
    · exact hs.kept.root o (Or.inr (Or.inr (Or.inr (Or.inr (Or.inr ho)))))
  listed := ⟨hs.listed.nodup, hs.listed.mem, hs.listed.string, hs.listed.closed⟩
  opened := ⟨hs.opened.uvhead, hs.opened.openupval, hs.opened.nodup, hs.opened.black⟩
  swept hne r c hc :=
    (hs.swept hne r c hc).imp_right (Or.imp_left fun hu => by cases r <;> exact hu)
  propagating hstate := by
    have hp := hs.propagating hstate
    exact ⟨fun r hr => (hp.tri r hr).imp_right (Or.imp_right fun hc o ho =>
        hc o (by cases r <;> exact ho)),
      ⟨hp.linked.gray, hp.linked.listed, hp.linked.nodup, hp.linked.black⟩, hp.keyed, hp.white,
      hp.mainthread, hp.registry⟩

theorem switch_inv {t : Nat} (hs : Inv s) (ht : Reach s (.thread t)) : Inv { s with L := t } :=
  hs.setroots (hs.safe ht) fun m hm =>
    hs.kept.root _ (Or.inr (Or.inr (Or.inr (Or.inl ⟨m, hm, rfl⟩))))

theorem setmt_inv {i : Nat} {mt : Option Nat} (hs : Inv s) (hm : ∀ m ∈ mt, Reach s (.table m)) :
    Inv { s with mt := s.mt.set i mt } := by
  refine hs.setroots (hs.kept.root _ (Or.inr (Or.inr (Or.inl rfl)))) fun m hmem => ?_
  rcases List.mem_or_eq_of_mem_set (List.reduceOption_mem_iff.mp hmem) with hold | hnew
  · exact hs.kept.root _ (Or.inr (Or.inr (Or.inr (Or.inl ⟨m, List.reduceOption_mem_iff.mpr hold, rfl⟩))))
  · exact hs.safe (hm m hnew.symm)

end Luaxx.Collector
