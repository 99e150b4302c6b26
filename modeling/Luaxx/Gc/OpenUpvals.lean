import Luaxx.Gc.Upval
import Luaxx.Lib.Rings
import Mathlib.Logic.Function.Basic

/-!
# Open upvalues

The list of a thread is sorted by level, with one upvalue for a slot, and the ring from `uvhead` has
the open upvalues of all threads. What an operation does is said in two parts: what becomes of the
ring, and what becomes of the upvalues when their links are left out.
-/

namespace Luaxx.Gc

open Rings

variable {V : Type} {s s' : State V} {a b : Nat}

/-- An upvalue without its links. -/
inductive Content (V : Type) where
  | stack (t level : Nat)
  | own (value : V)
  deriving DecidableEq, Repr

def Place.content : Place V → Content V
  | .stack t level _ _ => .stack t level
  | .own value => .own value

namespace State

def view (s : State V) (a : Nat) : Option (Marked × Content V) :=
  (s.heap a).map fun uv => (uv.marked, uv.v.content)

theorem slot_eq_view (s : State V) (a : Nat) :
    s.slot a = (s.view a).bind fun p => match p.2 with
      | .stack t level => some (t, level)
      | .own _ => none := by
  unfold slot view
  cases h : s.heap a with
  | none => rfl
  | some uv => obtain ⟨m, v⟩ := uv; cases v <;> rfl

theorem marked_eq_view (s : State V) (a : Nat) : s.marked a = (s.view a).map (·.1) := by
  unfold marked view
  cases s.heap a <;> rfl

/-- Nothing but links differs. -/
structure Relinked (s s' : State V) : Prop where
  view : ∀ a, s'.view a = s.view a
  stack : s'.stack = s.stack
  openupval : s'.openupval = s.openupval
  rootgc : s'.rootgc = s.rootgc
  currentwhite : s'.currentwhite = s.currentwhite
  gcstate : s'.gcstate = s.gcstate
  closures : s'.closures = s.closures

theorem Relinked.slot (h : Relinked s s') (a : Nat) : s'.slot a = s.slot a := by
  rw [slot_eq_view, slot_eq_view, h.view]

theorem Relinked.isdead (h : Relinked s s') (a : Nat) : s'.isdead a = s.isdead a := by
  rw [State.isdead, State.isdead, marked_eq_view, marked_eq_view, h.view, h.currentwhite]

theorem Relinked.trans {s'' : State V} (h : Relinked s s') (h' : Relinked s' s'') :
    Relinked s s'' :=
  ⟨fun a => (h'.view a).trans (h.view a), h'.stack.trans h.stack, h'.openupval.trans h.openupval,
    h'.rootgc.trans h.rootgc, h'.currentwhite.trans h.currentwhite, h'.gcstate.trans h.gcstate,
    h'.closures.trans h.closures⟩

@[simp] theorem view_setHeap (s : State V) (a b : Nat) (uv : Option (UpVal V)) :
    (s.setHeap a uv).view b =
      if b = a then uv.map fun uv => (uv.marked, uv.v.content) else s.view b := by
  unfold view setHeap
  by_cases h : b = a
  · subst h
    simp
  · simp [h]

theorem nextOf_setHeap_of_ne (s : State V) (uv : Option (UpVal V)) {n : Node} (h : n ≠ .uv a) :
    (s.setHeap a uv).nextOf n = s.nextOf n := by
  cases n with
  | uvhead => rfl
  | uv b =>
    have hb : b ≠ a := fun he => h (he ▸ rfl)
    simp [nextOf, setHeap, hb]

theorem prevOf_setHeap_of_ne (s : State V) (uv : Option (UpVal V)) {n : Node} (h : n ≠ .uv a) :
    (s.setHeap a uv).prevOf n = s.prevOf n := by
  cases n with
  | uvhead => rfl
  | uv b =>
    have hb : b ≠ a := fun he => h (he ▸ rfl)
    simp [prevOf, setHeap, hb]

/-- The element of the ring, if it is one. -/
def IsNode (s : State V) (n : Node) : Prop :=
  match n with
  | .uvhead => True
  | .uv a => (s.slot a).isSome = true

theorem Relinked.isNode (h : Relinked s s') {n : Node} (hn : s.IsNode n) : s'.IsNode n := by
  cases n with
  | uvhead => trivial
  | uv a => exact (congrArg Option.isSome (h.slot a)).trans hn

theorem heap_of_isNode (h : s.IsNode (.uv a)) :
    ∃ m t i prev next, s.heap a = some ⟨m, .stack t i prev next⟩ := by
  unfold IsNode slot at h
  cases hh : s.heap a with
  | none => simp [hh] at h
  | some uv =>
    obtain ⟨m, v⟩ := uv
    cases v with
    | stack t i prev next => exact ⟨m, t, i, prev, next, rfl⟩
    | own value => simp [hh] at h

theorem setNext_spec {n x : Node} (h : s.IsNode n) :
    Relinked s (s.setNext n x) ∧
      (∀ m, (s.setNext n x).nextOf m = if m = n then x else s.nextOf m) ∧
      ∀ m, (s.setNext n x).prevOf m = s.prevOf m := by
  cases n with
  | uvhead =>
    refine ⟨⟨fun _ => rfl, rfl, rfl, rfl, rfl, rfl, rfl⟩, fun m => ?_, fun m => ?_⟩ <;>
      cases m <;> rfl
  | uv a =>
    obtain ⟨m, t, i, prev, next, hh⟩ := heap_of_isNode h
    have heq : s.setNext (.uv a) x = s.setHeap a (some ⟨m, .stack t i prev x⟩) := by
      simp only [setNext, hh]
    rw [heq]
    refine ⟨⟨fun b => ?_, rfl, rfl, rfl, rfl, rfl, rfl⟩, fun k => ?_, fun k => ?_⟩
    · rw [view_setHeap]
      split_ifs with hb
      · simp [view, hb, hh, Place.content]
      · rfl
    · split_ifs with hk
      · subst hk
        simp [nextOf, setHeap]
      · exact nextOf_setHeap_of_ne s _ hk
    · by_cases hk : k = .uv a
      · subst hk
        simp [prevOf, setHeap, hh]
      · exact prevOf_setHeap_of_ne s _ hk

theorem setPrev_spec {n x : Node} (h : s.IsNode n) :
    Relinked s (s.setPrev n x) ∧
      (∀ m, (s.setPrev n x).prevOf m = if m = n then x else s.prevOf m) ∧
      ∀ m, (s.setPrev n x).nextOf m = s.nextOf m := by
  cases n with
  | uvhead =>
    refine ⟨⟨fun _ => rfl, rfl, rfl, rfl, rfl, rfl, rfl⟩, fun m => ?_, fun m => ?_⟩ <;>
      cases m <;> rfl
  | uv a =>
    obtain ⟨m, t, i, prev, next, hh⟩ := heap_of_isNode h
    have heq : s.setPrev (.uv a) x = s.setHeap a (some ⟨m, .stack t i x next⟩) := by
      simp only [setPrev, hh]
    rw [heq]
    refine ⟨⟨fun b => ?_, rfl, rfl, rfl, rfl, rfl, rfl⟩, fun k => ?_, fun k => ?_⟩
    · rw [view_setHeap]
      split_ifs with hb
      · simp [view, hb, hh, Place.content]
      · rfl
    · split_ifs with hk
      · subst hk
        simp [prevOf, setHeap]
      · exact prevOf_setHeap_of_ne s _ hk
    · by_cases hk : k = .uv a
      · subst hk
        simp [nextOf, setHeap, hh]
      · exact nextOf_setHeap_of_ne s _ hk

end State

/-! ## The ring -/

/-- The ring from `uvhead` has the open upvalues, each once. -/
def Ringed (s : State V) : Prop :=
  ∃ l, Ring s.nextOf s.prevOf .uvhead l ∧ ∀ n, n ∈ l ↔ ∃ a, n = .uv a ∧ (s.slot a).isSome = true

theorem isNode_of_mem {l : List Node} (hl : ∀ n, n ∈ l ↔ ∃ a, n = .uv a ∧ (s.slot a).isSome = true)
    {n : Node} (hn : n ∈ Node.uvhead :: l) : s.IsNode n := by
  rcases List.mem_cons.mp hn with rfl | hn
  · trivial
  · obtain ⟨a, rfl, ha⟩ := (hl n).mp hn
    exact ha

theorem Ringed.congr (hr : Ringed s) (hslot : ∀ a, (s'.slot a).isSome = (s.slot a).isSome)
    (hnext : ∀ n, s.IsNode n → s'.nextOf n = s.nextOf n)
    (hprev : ∀ n, s.IsNode n → s'.prevOf n = s.prevOf n) : Ringed s' := by
  obtain ⟨l, ring, hl⟩ := hr
  refine ⟨l, ring.congr (fun n hn => hnext n (isNode_of_mem hl hn))
    fun n hn => hprev n (isNode_of_mem hl hn), fun n => ?_⟩
  simp only [hl, hslot]

theorem unlinkupval_spec (hr : Ringed s) (ha : (s.slot a).isSome = true) :
    State.Relinked s (unlinkupval s a) ∧
      ∃ l, Ring (unlinkupval s a).nextOf (unlinkupval s a).prevOf .uvhead l ∧
        ∀ n, n ∈ l ↔ ∃ b, n = .uv b ∧ b ≠ a ∧ (s.slot b).isSome = true := by
  obtain ⟨l, ring, hl⟩ := hr
  have hmem : Node.uv a ∈ l := (hl _).mpr ⟨a, rfl, ha⟩
  have hnode := List.mem_cons_of_mem Node.uvhead hmem
  have hprevNode := isNode_of_mem hl (ring.prev_mem hnode)
  have hnextNode := isNode_of_mem hl (ring.next_mem hnode)
  obtain ⟨h1, hprev1, hnext1⟩ :=
    State.setPrev_spec (x := s.prevOf (.uv a)) hnextNode
  obtain ⟨h2, hnext2, hprev2⟩ :=
    State.setNext_spec (x := s.nextOf (.uv a)) (h1.isNode hprevNode)
  obtain ⟨l₁, l₂, rfl⟩ := List.append_of_mem hmem
  refine ⟨h1.trans h2, l₁ ++ l₂, ring.remove (fun n => ?_) (fun n => ?_), fun n => ?_⟩
  · rw [unlinkupval, hnext2, hnext1]
  · rw [unlinkupval, hprev2, hprev1]
  · have hnodup := (List.nodup_cons.mp ring.nodup).2
    have hnot : Node.uv a ∉ l₁ ++ l₂ := by
      have := (List.perm_middle.nodup_iff).mp hnodup
      exact (List.nodup_cons.mp this).1
    constructor
    · intro hn
      have hn' : n ∈ l₁ ++ Node.uv a :: l₂ := by
        rcases List.mem_append.mp hn with hn | hn
        · exact List.mem_append_left _ hn
        · exact List.mem_append_right _ (List.mem_cons_of_mem _ hn)
      obtain ⟨b, rfl, hb⟩ := (hl n).mp hn'
      exact ⟨b, rfl, fun he => hnot (he ▸ hn), hb⟩
    · rintro ⟨b, rfl, hne, hb⟩
      have := (hl _).mpr ⟨b, rfl, hb⟩
      rcases List.mem_append.mp this with hn | hn
      · exact List.mem_append_left _ hn
      · rcases List.mem_cons.mp hn with hn | hn
        · exact absurd (Node.uv.inj hn) hne
        · exact List.mem_append_right _ hn

/-- An upvalue that is out of the ring may become anything that is not open. -/
theorem ringed_of_unlinked (hr : Ringed s) (ha : (s.slot a).isSome = true)
    {uv : Option (UpVal V)} (huv : ((unlinkupval s a).setHeap a uv).slot a = none) :
    Ringed ((unlinkupval s a).setHeap a uv) := by
  obtain ⟨h1, l, ring, hl⟩ := unlinkupval_spec hr ha
  have hne : ∀ n ∈ Node.uvhead :: l, n ≠ Node.uv a := by
    rintro n hn rfl
    rcases List.mem_cons.mp hn with hn | hn
    · cases hn
    · obtain ⟨b, hb, hba, -⟩ := (hl _).mp hn
      exact hba (Node.uv.inj hb).symm
  refine ⟨l, ring.congr (fun n hn => State.nextOf_setHeap_of_ne _ _ (hne n hn))
    (fun n hn => State.prevOf_setHeap_of_ne _ _ (hne n hn)), fun n => ?_⟩
  rw [hl]
  refine exists_congr fun b => and_congr_right fun _ => ?_
  by_cases hb : b = a
  · subst hb
    simp [huv]
  · have hslot : ((unlinkupval s a).setHeap a uv).slot b = s.slot b := by
      rw [State.slot_eq_view, State.view_setHeap, if_neg hb, h1.view, ← State.slot_eq_view]
    simp [hb, hslot]

/-! ## Single upvalues -/

/-- What an operation on upvalues leaves alone. -/
structure Frame (s s' : State V) : Prop where
  stack : s'.stack = s.stack
  currentwhite : s'.currentwhite = s.currentwhite
  closures : s'.closures = s.closures

theorem Frame.refl (s : State V) : Frame s s := ⟨rfl, rfl, rfl⟩

theorem Frame.trans {s'' : State V} (h : Frame s s') (h' : Frame s' s'') : Frame s s'' :=
  ⟨h'.stack.trans h.stack, h'.currentwhite.trans h.currentwhite, h'.closures.trans h.closures⟩

theorem State.Relinked.frame (h : State.Relinked s s') : Frame s s' :=
  ⟨h.stack, h.currentwhite, h.closures⟩

theorem view_of_slot {t i : Nat} (h : s.slot a = some (t, i)) :
    ∃ m, s.view a = some (m, .stack t i) := by
  rw [State.slot_eq_view] at h
  cases hv : s.view a with
  | none => simp [hv] at h
  | some p =>
    obtain ⟨m, c⟩ := p
    cases c with
    | stack t' i' =>
      rw [hv] at h
      cases h
      exact ⟨m, rfl⟩
    | own v => simp [hv] at h

theorem slot_of_view {m : Marked} {t i : Nat} (h : s.view a = some (m, .stack t i)) :
    s.slot a = some (t, i) := by
  rw [State.slot_eq_view, h]
  rfl

theorem mark_spec (s : State V) (a : Nat) (f : Marked → Marked) :
    Frame s (s.mark a f) ∧ (s.mark a f).openupval = s.openupval ∧
      (∀ b, (s.mark a f).view b =
        if b = a then (s.view a).map fun p => (f p.1, p.2) else s.view b) ∧
      (∀ n, (s.mark a f).nextOf n = s.nextOf n) ∧ ∀ n, (s.mark a f).prevOf n = s.prevOf n := by
  refine ⟨⟨rfl, rfl, rfl⟩, rfl, fun b => ?_, fun n => ?_, fun n => ?_⟩
  · rw [State.mark, State.view_setHeap, State.view, State.view, Option.map_map, Option.map_map]
    rfl
  · by_cases hn : n = .uv a
    · subst hn
      simp only [State.mark, State.nextOf, State.setHeap, Function.update_self]
      rcases s.heap a with _ | ⟨m, _ | _⟩ <;> rfl
    · exact State.nextOf_setHeap_of_ne s _ hn
  · by_cases hn : n = .uv a
    · subst hn
      simp only [State.mark, State.prevOf, State.setHeap, Function.update_self]
      rcases s.heap a with _ | ⟨m, _ | _⟩ <;> rfl
    · exact State.prevOf_setHeap_of_ne s _ hn

theorem slot_mark (s : State V) (a b : Nat) (f : Marked → Marked) :
    (s.mark a f).slot b = s.slot b := by
  rw [State.slot_eq_view, (mark_spec s a f).2.2.1, State.slot_eq_view]
  split_ifs with h
  · subst h
    cases s.view b <;> rfl
  · rfl

theorem Ringed.mark (hr : Ringed s) (a : Nat) (f : Marked → Marked) : Ringed (s.mark a f) :=
  hr.congr (fun b => by rw [slot_mark]) (fun n _ => (mark_spec s a f).2.2.2.1 n)
    fun n _ => (mark_spec s a f).2.2.2.2 n

theorem luaF_freeupval_spec (hr : Ringed s) (ha : (s.slot a).isSome = true) :
    Ringed (luaF_freeupval s a) ∧ Frame s (luaF_freeupval s a) ∧
      (luaF_freeupval s a).openupval = s.openupval ∧
      ∀ b, (luaF_freeupval s a).view b = if b = a then none else s.view b := by
  obtain ⟨h1, -⟩ := unlinkupval_spec hr ha
  rw [luaF_freeupval, if_pos ha]
  refine ⟨ringed_of_unlinked hr ha ?_, ⟨h1.stack, h1.currentwhite, h1.closures⟩, h1.openupval,
    fun b => ?_⟩
  · rw [State.slot_eq_view, State.view_setHeap, if_pos rfl]
    rfl
  · rw [State.view_setHeap, h1.view]
    rfl

theorem luaC_linkupval_spec (hr : Ringed s) (a : Nat) :
    Ringed (luaC_linkupval s a) ∧ Frame s (luaC_linkupval s a) ∧
      (luaC_linkupval s a).openupval = s.openupval ∧
      (∀ b ≠ a, (luaC_linkupval s a).view b = s.view b) ∧
      ∀ m c, s.view a = some (m, c) → ∃ m', (luaC_linkupval s a).view a = some (m', c) ∧
        (m.isdead s.currentwhite = false → m'.isdead s.currentwhite = false) := by
  have marks : ∀ f : Marked → Marked,
      (∀ m : Marked, m.isdead s.currentwhite = false → (f m).isdead s.currentwhite = false) →
      let s1 : State V := { s with rootgc := a :: s.rootgc }
      Ringed (s1.mark a f) ∧ Frame s (s1.mark a f) ∧ (s1.mark a f).openupval = s.openupval ∧
        (∀ b ≠ a, (s1.mark a f).view b = s.view b) ∧
        ∀ m c, s.view a = some (m, c) → ∃ m', (s1.mark a f).view a = some (m', c) ∧
          (m.isdead s.currentwhite = false → m'.isdead s.currentwhite = false) := by
    intro f hf s1
    have hr1 : Ringed s1 := hr
    obtain ⟨frame, hopen, hview, -⟩ := mark_spec s1 a f
    refine ⟨hr1.mark a f, ⟨frame.stack, frame.currentwhite, frame.closures⟩, hopen, fun b hb => ?_, fun m c hm => ⟨f m, ?_, hf m⟩⟩
    · rw [hview, if_neg hb]
      rfl
    · have hm1 : s1.view a = some (m, c) := hm
      rw [hview, if_pos rfl, hm1]
      rfl
  simp only [luaC_linkupval]
  split_ifs
  · exact marks _ fun m h => by rw [Marked.isdead_gray2black, h]
  · exact marks _ fun m _ => Marked.isdead_makewhite _ m
  · exact ⟨hr, ⟨rfl, rfl, rfl⟩, rfl, fun b _ => rfl, fun m c hm => ⟨m, hm, id⟩⟩

/-- An open upvalue that is not dead gets the value of its slot. -/
theorem closeOne_spec {t i : Nat} (hr : Ringed s) (ha : s.slot a = some (t, i)) :
    Ringed (closeOne s a) ∧ Frame s (closeOne s a) ∧
      (closeOne s a).openupval = s.openupval ∧
      (∀ b ≠ a, (closeOne s a).view b = s.view b) ∧
      (s.isdead a = true → (closeOne s a).view a = none) ∧
      (s.isdead a = false → ∃ m, (closeOne s a).view a = some (m, .own (s.stack t i)) ∧
        m.isdead s.currentwhite = false) := by
  have hopen : (s.slot a).isSome = true := by rw [ha]; rfl
  cases hdead : s.isdead a with
  | true =>
    obtain ⟨hr', frame, hopenup, hview⟩ := luaF_freeupval_spec hr hopen
    rw [closeOne, if_pos hdead]
    refine ⟨hr', frame, hopenup, fun b hb => ?_, fun _ => ?_, nofun⟩
    · rw [hview, if_neg hb]
    · rw [hview, if_pos rfl]
  | false =>
    obtain ⟨h1, -⟩ := unlinkupval_spec hr hopen
    have hslot1 : (unlinkupval s a).slot a = some (t, i) := (h1.slot a).trans ha
    have hnode : (unlinkupval s a).IsNode (.uv a) := by
      show ((unlinkupval s a).slot a).isSome = true
      rw [hslot1]
      rfl
    obtain ⟨m, t', i', prev, next, hheap⟩ := State.heap_of_isNode hnode
    obtain ⟨rfl, rfl⟩ : t' = t ∧ i' = i := by
      rw [State.slot, hheap] at hslot1
      cases hslot1
      exact ⟨rfl, rfl⟩
    let s2 := (unlinkupval s a).setHeap a (some ⟨m, .own ((unlinkupval s a).stack t' i')⟩)
    have heq : closeOne s a = luaC_linkupval s2 a := by
      rw [closeOne, hdead]
      simp only [Bool.false_eq_true, if_false, hheap]
      rfl
    have hr2 : Ringed s2 := by
      refine ringed_of_unlinked hr hopen ?_
      rw [State.slot_eq_view, State.view_setHeap, if_pos rfl]
      rfl
    obtain ⟨hr3, frame, hopenup, hother, hself⟩ := luaC_linkupval_spec hr2 a
    have hview2 : s2.view a = some (m, .own (s.stack t' i')) := by
      rw [State.view_setHeap, if_pos rfl, h1.stack]
      rfl
    have hm : m.isdead s.currentwhite = false := by
      have hd := h1.isdead a
      rw [hdead, State.isdead, State.marked, hheap, h1.currentwhite] at hd
      exact hd
    obtain ⟨m', hm', hdead'⟩ := hself _ _ hview2
    have hcw : s2.currentwhite = s.currentwhite := h1.currentwhite
    rw [heq]
    refine ⟨hr3, ⟨frame.stack.trans h1.stack, frame.currentwhite.trans h1.currentwhite,
      frame.closures.trans h1.closures⟩, hopenup.trans h1.openupval, fun b hb => ?_, nofun,
      fun _ => ⟨m', hm', ?_⟩⟩
    · rw [hother b hb, State.view_setHeap, if_neg hb, h1.view]
    · rw [hcw] at hdead'
      exact hdead' hm

/-! ## The lists of the threads -/

/-- The open upvalues of a thread, the highest slot first. -/
structure Listed (s : State V) (t : Nat) (l : List Nat) : Prop where
  sorted : l.Pairwise fun a b => s.level b < s.level a
  mem : ∀ a, a ∈ l ↔ ∃ i, s.slot a = some (t, i)

theorem level_of_slot {t i : Nat} (h : s.slot a = some (t, i)) : s.level a = i := by
  rw [State.level, h]
  rfl

theorem Listed.nodup {t : Nat} {l : List Nat} (h : Listed s t l) : l.Nodup :=
  h.sorted.imp fun hlt he => by
    subst he
    exact lt_irrefl _ hlt

/-- There is at most one upvalue for a slot. -/
theorem Listed.unique {t i : Nat} {l : List Nat} (h : Listed s t l) (ha : s.slot a = some (t, i))
    (hb : s.slot b = some (t, i)) : a = b := by
  by_contra hne
  have hal := (h.mem a).mpr ⟨i, ha⟩
  have hbl := (h.mem b).mpr ⟨i, hb⟩
  have hsymm : Std.Symm fun a b => s.level a ≠ s.level b := ⟨fun _ _ h => h.symm⟩
  have hlevels : l.Pairwise fun a b => s.level a ≠ s.level b := h.sorted.imp fun hlt => hlt.ne'
  exact hlevels.forall hal hbl hne (by rw [level_of_slot ha, level_of_slot hb])

theorem Listed.congr {t : Nat} {l : List Nat} (h : Listed s t l)
    (hslot : ∀ a, s'.slot a = s.slot a) : Listed s' t l := by
  have hlevel : ∀ a, s'.level a = s.level a := fun a => by rw [State.level, hslot, State.level]
  exact ⟨h.sorted.imp fun hlt => by rwa [hlevel, hlevel], fun a => by rw [h.mem, hslot]⟩

theorem Listed.tail {t : Nat} {l : List Nat} (h : Listed s t (a :: l))
    (hslot : ∀ b ≠ a, s'.slot b = s.slot b) (ha : s'.slot a = none) : Listed s' t l := by
  have hnot : a ∉ l := (List.nodup_cons.mp h.nodup).1
  have hlevel : ∀ b ∈ l, s'.level b = s.level b := fun b hb => by
    rw [State.level, hslot b fun he => hnot (he ▸ hb), State.level]
  refine ⟨?_, fun b => ?_⟩
  · refine (List.pairwise_cons.mp h.sorted).2.imp_of_mem fun hb hc hlt => ?_
    rwa [hlevel _ hb, hlevel _ hc]
  · by_cases hb : b = a
    · subst hb
      simp [hnot, ha]
    · rw [hslot b hb, ← h.mem, List.mem_cons, or_iff_right hb]

/-- What closing down to a level does to an upvalue. -/
structure Closes (s : State V) (t level : Nat) (s' : State V) : Prop where
  dead : ∀ a i, s.slot a = some (t, i) → level ≤ i → s.isdead a = true → s'.view a = none
  own : ∀ a i, s.slot a = some (t, i) → level ≤ i → s.isdead a = false →
    ∃ m, s'.view a = some (m, .own (s.stack t i)) ∧ m.isdead s.currentwhite = false
  other : ∀ a, (∀ i, s.slot a = some (t, i) → i < level) → s'.view a = s.view a

theorem isdead_of_view (hcw : s'.currentwhite = s.currentwhite) (h : s'.view a = s.view a) :
    s'.isdead a = s.isdead a := by
  rw [State.isdead, State.isdead, State.marked_eq_view, State.marked_eq_view, h, hcw]

theorem slot_of_view_eq (h : s'.view a = s.view a) : s'.slot a = s.slot a := by
  rw [State.slot_eq_view, State.slot_eq_view, h]

theorem live_of_view {m : Marked} {c : Content V} (h : s.view a = some (m, c))
    (hm : m.isdead s.currentwhite = false) : s.live a = true := by
  rw [State.live, State.marked_eq_view, h]
  simp [hm]

theorem live_congr (hcw : s'.currentwhite = s.currentwhite) (h : s'.view a = s.view a) :
    s'.live a = s.live a := by
  rw [State.live, State.live, State.marked_eq_view, State.marked_eq_view, h, hcw]

theorem isdead_of_live (h : s.live a = true) : s.isdead a = false := by
  rw [State.live] at h
  rw [State.isdead]
  cases hm : s.marked a with
  | none => rfl
  | some m => simpa [hm] using h

theorem live_of_slot {p : Nat × Nat} (h : s.slot a = some p) (hd : s.isdead a = false) :
    s.live a = true := by
  obtain ⟨m, hm⟩ := view_of_slot (t := p.1) (i := p.2) h
  apply live_of_view hm
  rwa [State.isdead, State.marked_eq_view, hm] at hd

theorem heap_of_live (h : s.live a = true) : s.heap a ≠ none := by
  intro hn
  simp [State.live, State.marked, hn] at h

theorem closeLoop_spec {t level : Nat} {l : List Nat} (hr : Ringed s) (hl : Listed s t l)
    (hopen : s.openupval t = l) :
    Ringed (closeLoop t level l s) ∧ Frame s (closeLoop t level l s) ∧
      Closes s t level (closeLoop t level l s) ∧
      (∀ t' ≠ t, (closeLoop t level l s).openupval t' = s.openupval t') ∧
      Listed (closeLoop t level l s) t ((closeLoop t level l s).openupval t) := by
  induction l generalizing s with
  | nil =>
    have hnone : ∀ a i, s.slot a ≠ some (t, i) := fun a i h =>
      absurd ((hl.mem a).mpr ⟨i, h⟩) List.not_mem_nil
    refine ⟨hr, .refl s, ⟨fun a i h => absurd h (hnone a i), fun a i h => absurd h (hnone a i),
      fun a _ => rfl⟩, fun _ _ => rfl, ?_⟩
    show Listed s t (s.openupval t)
    rw [hopen]
    exact hl
  | cons a rest ih =>
    obtain ⟨ia, ha⟩ := (hl.mem a).mp List.mem_cons_self
    have hla := level_of_slot ha
    rw [closeLoop]
    split_ifs with hge
    · -- the first upvalue is closed
      let s1 := s.setOpen t rest
      have ha1 : s1.slot a = some (t, ia) := ha
      have hr1 : Ringed s1 := hr
      obtain ⟨hr2, frame2, hopen2, hother2, hdead2, hown2⟩ := closeOne_spec hr1 ha1
      have hslot2 : ∀ b ≠ a, (closeOne s1 a).slot b = s.slot b := fun b hb =>
        slot_of_view_eq (s := s) (hother2 b hb)
      have hview2 : (closeOne s1 a).slot a = none := by
        rw [State.slot_eq_view]
        cases hd : s1.isdead a with
        | true =>
          rw [hdead2 hd]
          rfl
        | false =>
          obtain ⟨m, hm, -⟩ := hown2 hd
          rw [hm]
          rfl
      have hopen2' : (closeOne s1 a).openupval t = rest := by
        rw [hopen2]
        exact Function.update_self t rest s.openupval
      obtain ⟨hr3, frame3, closes3, hothers3, hlisted3⟩ :=
        ih hr2 (hl.tail hslot2 hview2) hopen2'
      have hcw2 : (closeOne s1 a).currentwhite = s.currentwhite := frame2.currentwhite
      have hst2 : (closeOne s1 a).stack = s.stack := frame2.stack
      have ha3 : (closeLoop t level rest (closeOne s1 a)).view a = (closeOne s1 a).view a :=
        closes3.other a fun i hi => by rw [hview2] at hi; cases hi
      refine ⟨hr3, ⟨frame3.stack.trans frame2.stack, frame3.currentwhite.trans hcw2,
        frame3.closures.trans frame2.closures⟩, ⟨?_, ?_, ?_⟩, fun t' ht' => ?_, hlisted3⟩
      · intro b i hb hi hd
        by_cases hba : b = a
        · subst hba
          rw [ha3]
          exact hdead2 hd
        · refine closes3.dead b i ((hslot2 b hba).trans hb) hi ?_
          rw [isdead_of_view hcw2 (hother2 b hba)]
          exact hd
      · intro b i hb hi hd
        by_cases hba : b = a
        · subst hba
          obtain ⟨m, hm, hmd⟩ := hown2 hd
          obtain rfl : i = ia := by
            rw [ha] at hb
            exact (Prod.mk.inj (Option.some.inj hb)).2.symm
          exact ⟨m, ha3.trans hm, hmd⟩
        · have hd2 : (closeOne s1 a).isdead b = false := by
            rw [isdead_of_view hcw2 (hother2 b hba)]
            exact hd
          have := closes3.own b i ((hslot2 b hba).trans hb) hi hd2
          rwa [hst2, hcw2] at this
      · intro b hb
        have hba : b ≠ a := by
          rintro rfl
          have := hb ia ha
          omega
        rw [closes3.other b fun i hi => hb i ((hslot2 b hba).symm.trans hi)]
        exact hother2 b hba
      · rw [hothers3 t' ht', hopen2]
        exact Function.update_of_ne ht' rest s.openupval
    · -- and all below it stay
      have hbelow : ∀ b i, s.slot b = some (t, i) → i < level := by
        intro b i hb
        rcases List.mem_cons.mp ((hl.mem b).mpr ⟨i, hb⟩) with rfl | hmem
        · have := level_of_slot hb
          omega
        · have hlt := (List.pairwise_cons.mp hl.sorted).1 b hmem
          have := level_of_slot hb
          omega
      refine ⟨hr, .refl s, ⟨fun b i hb hi => ?_, fun b i hb hi => ?_, fun b _ => rfl⟩,
        fun _ _ => rfl, ?_⟩
      · exact absurd (hbelow b i hb) (by omega)
      · exact absurd (hbelow b i hb) (by omega)
      · rw [hopen]
        exact hl

/-! ## Sweeping -/

/-- What sweeping a list does to an upvalue. -/
structure Sweeps (s : State V) (l : List Nat) (s' : State V) : Prop where
  dead : ∀ a ∈ l, s.isdead a = true → s'.view a = none
  live : ∀ a ∈ l, s.isdead a = false →
    s'.view a = (s.view a).map fun p => (.luaC_white s.currentwhite, p.2)
  other : ∀ a ∉ l, s'.view a = s.view a

theorem sweepLoop_spec {l : List Nat} (hr : Ringed s) (hl : ∀ a ∈ l, (s.slot a).isSome = true)
    (hnodup : l.Nodup) :
    Ringed (sweepLoop l s).2 ∧ Frame s (sweepLoop l s).2 ∧
      (sweepLoop l s).2.openupval = s.openupval ∧ Sweeps s l (sweepLoop l s).2 ∧
      (sweepLoop l s).1 = l.filter fun a => !s.isdead a := by
  induction l generalizing s with
  | nil => exact ⟨hr, .refl s, rfl, ⟨nofun, nofun, fun a _ => rfl⟩, rfl⟩
  | cons a rest ih =>
    obtain ⟨hnot, hrest⟩ := List.nodup_cons.mp hnodup
    -- the first upvalue is done, and the others are as they were
    have step : ∀ s1 : State V, Ringed s1 → Frame s s1 → s1.openupval = s.openupval →
        (∀ b ≠ a, s1.view b = s.view b) →
        Ringed (sweepLoop rest s1).2 ∧ Frame s (sweepLoop rest s1).2 ∧
          (sweepLoop rest s1).2.openupval = s.openupval ∧
          (sweepLoop rest s1).2.view a = s1.view a ∧
          (∀ b ∈ rest, s.isdead b = true → (sweepLoop rest s1).2.view b = none) ∧
          (∀ b ∈ rest, s.isdead b = false → (sweepLoop rest s1).2.view b =
            (s.view b).map fun p => (.luaC_white s.currentwhite, p.2)) ∧
          (∀ b ∉ a :: rest, (sweepLoop rest s1).2.view b = s.view b) ∧
          (sweepLoop rest s1).1 = rest.filter fun b => !s.isdead b := by
      intro s1 hr1 frame1 hopen1 hview1
      have hne : ∀ b ∈ rest, b ≠ a := fun b hb he => hnot (he ▸ hb)
      have hdead1 : ∀ b ∈ rest, s1.isdead b = s.isdead b := fun b hb =>
        isdead_of_view frame1.currentwhite (hview1 b (hne b hb))
      obtain ⟨hr2, frame2, hopen2, sweeps2, hkept⟩ := ih hr1 (fun b hb => by
        rw [slot_of_view_eq (hview1 b (hne b hb))]
        exact hl b (List.mem_cons_of_mem a hb)) hrest
      refine ⟨hr2, frame1.trans frame2, hopen2.trans hopen1, sweeps2.other a hnot,
        fun b hb hd => sweeps2.dead b hb ((hdead1 b hb).trans hd), fun b hb hd => ?_,
        fun b hb => ?_, ?_⟩
      · rw [sweeps2.live b hb ((hdead1 b hb).trans hd), hview1 b (hne b hb), frame1.currentwhite]
      · obtain ⟨hba, hbr⟩ := not_or.mp (List.mem_cons.not.mp hb)
        rw [sweeps2.other b hbr, hview1 b hba]
      · rw [hkept]
        exact List.filter_congr fun b hb => by rw [hdead1 b hb]
    rw [sweepLoop]
    cases hd : s.isdead a with
    | true =>
      obtain ⟨hr1, frame1, hopen1, hview1⟩ := luaF_freeupval_spec hr (hl a List.mem_cons_self)
      obtain ⟨hr2, frame2, hopen2, ha, hdead, hlive, hother, hkept⟩ :=
        step _ hr1 frame1 hopen1 fun b hb => by rw [hview1, if_neg hb]
      refine ⟨hr2, frame2, hopen2, ⟨fun b hb hbd => ?_, fun b hb hbd => ?_, hother⟩, ?_⟩
      · rcases List.mem_cons.mp hb with rfl | hb
        · exact ha.trans (by rw [hview1, if_pos rfl])
        · exact hdead b hb hbd
      · rcases List.mem_cons.mp hb with rfl | hb
        · rw [hd] at hbd
          cases hbd
        · exact hlive b hb hbd
      · rw [List.filter_cons_of_neg (by simp [hd])]
        exact hkept
    | false =>
      obtain ⟨frame1, hopen1, hview1, -⟩ := mark_spec s a (Marked.makewhite s.currentwhite)
      obtain ⟨hr2, frame2, hopen2, ha, hdead, hlive, hother, hkept⟩ :=
        step _ (hr.mark a _) frame1 hopen1 fun b hb => by rw [hview1, if_neg hb]
      refine ⟨hr2, frame2, hopen2, ⟨fun b hb hbd => ?_, fun b hb hbd => ?_, hother⟩, ?_⟩
      · rcases List.mem_cons.mp hb with rfl | hb
        · rw [hd] at hbd
          cases hbd
        · exact hdead b hb hbd
      · rcases List.mem_cons.mp hb with rfl | hb
        · exact ha.trans (by rw [hview1, if_pos rfl]; rfl)
        · exact hlive b hb hbd
      · rw [List.filter_cons_of_pos (by simp [hd])]
        exact congrArg (a :: ·) hkept

/-! ## Looking for an upvalue -/

/-- Either the upvalue of the slot is found, or the place where it belongs. -/
theorem findOpen_spec (s : State V) (level new : Nat) {l : List Nat}
    (hl : l.Pairwise fun a b => s.level b < s.level a) :
    (∃ p ∈ l, s.level p = level ∧ (findOpen s level new l).1 = some p) ∨
      ((findOpen s level new l).1 = none ∧
        ∃ before after, l = before ++ after ∧
          (findOpen s level new l).2 = before ++ new :: after ∧
          (∀ a ∈ before, level < s.level a) ∧ ∀ a ∈ after, s.level a < level) := by
  induction l with
  | nil => exact .inr ⟨rfl, [], [], rfl, rfl, nofun, nofun⟩
  | cons p rest ih =>
    obtain ⟨hp, hrest⟩ := List.pairwise_cons.mp hl
    rw [findOpen]
    split_ifs with hge heq
    · exact .inl ⟨p, List.mem_cons_self, heq, rfl⟩
    · rcases ih hrest with ⟨q, hq, hlevel, hfound⟩ |
        ⟨hnone, before, after, rfl, hlist, hbefore, hafter⟩
      · exact .inl ⟨q, List.mem_cons_of_mem p hq, hlevel, hfound⟩
      · refine .inr ⟨hnone, p :: before, after, rfl, congrArg (p :: ·) hlist, ?_, hafter⟩
        intro a ha
        rcases List.mem_cons.mp ha with rfl | ha
        · omega
        · exact hbefore a ha
    · refine .inr ⟨rfl, [], p :: rest, rfl, rfl, nofun, ?_⟩
      intro a ha
      rcases List.mem_cons.mp ha with rfl | ha
      · omega
      · have := hp a ha
        omega

/-- A new upvalue is linked in behind `uvhead`. -/
theorem newupval_spec {t level new : Nat} {l : List Nat} (hr : Ringed s)
    (hnew : s.heap new = none) :
    let uv : UpVal V := ⟨.luaC_white s.currentwhite, .stack t level .uvhead s.headNext⟩
    let s1 := (s.setHeap new (some uv)).setOpen t l
    let s2 : State V := { s1.setPrev s1.headNext (.uv new) with headNext := .uv new }
    Ringed s2 ∧ Frame s s2 ∧ s2.openupval = Function.update s.openupval t l ∧
      s2.view new = some (.luaC_white s.currentwhite, .stack t level) ∧
      ∀ b ≠ new, s2.view b = s.view b := by
  intro uv s1 s2
  have hslot : s.slot new = none := by rw [State.slot, hnew]
  have hview1 : ∀ b, s1.view b =
      if b = new then some (.luaC_white s.currentwhite, .stack t level) else s.view b := fun b =>
    State.view_setHeap s new b (some uv)
  obtain ⟨lr, ring, hlr⟩ := hr
  have hnot : Node.uv new ∉ Node.uvhead :: lr := by
    intro hmem
    rcases List.mem_cons.mp hmem with h | h
    · cases h
    · obtain ⟨b, hb, hsome⟩ := (hlr _).mp h
      cases hb
      rw [hslot] at hsome
      cases hsome
  have hfirst : s.nextOf .uvhead ∈ Node.uvhead :: lr := ring.next_mem List.mem_cons_self
  have hnode : s1.IsNode s1.headNext := by
    have hfirst' : s.headNext ∈ Node.uvhead :: lr := hfirst
    show s1.IsNode s.headNext
    cases hn : s.headNext with
    | uvhead => trivial
    | uv b =>
      rw [hn] at hfirst'
      have hb : b ≠ new := fun he => hnot (he ▸ hfirst')
      have hsome := isNode_of_mem hlr hfirst'
      have hslot1 : s1.slot b = s.slot b := slot_of_view_eq (by rw [hview1, if_neg hb])
      exact (congrArg Option.isSome hslot1).trans hsome
  obtain ⟨h2, hprev2, hnext2⟩ := State.setPrev_spec (x := .uv new) hnode
  have hview2 : ∀ b, s2.view b = s1.view b := h2.view
  refine ⟨⟨.uv new :: lr, ring.insert hnot (fun n => ?_) (fun n => ?_), fun n => ?_⟩,
    ⟨h2.stack, h2.currentwhite, h2.closures⟩, h2.openupval, ?_, fun b hb => ?_⟩
  · cases n with
    | uvhead => rfl
    | uv b =>
      rw [if_neg nofun]
      have : s2.nextOf (.uv b) = s1.nextOf (.uv b) := hnext2 (.uv b)
      rw [this]
      split_ifs with hb
      · cases hb
        simp [s1, State.nextOf, State.setHeap, State.setOpen, uv]
      · exact State.nextOf_setHeap_of_ne s _ hb
  · have hprev : s2.prevOf n = (s1.setPrev s1.headNext (.uv new)).prevOf n := by cases n <;> rfl
    rw [hprev, hprev2]
    have hfirst' : s1.headNext = s.nextOf .uvhead := rfl
    rw [hfirst']
    by_cases hn : n = .uv new
    · subst hn
      have hne : Node.uv new ≠ s.nextOf .uvhead := fun he => hnot (he.symm ▸ hfirst)
      rw [if_neg hne, if_pos rfl]
      simp [s1, State.prevOf, State.setHeap, State.setOpen, uv]
    · rw [if_neg hn]
      split_ifs with he
      · rfl
      · exact State.prevOf_setHeap_of_ne s _ hn
  · have hself : s2.slot new = some (t, level) :=
      slot_of_view (m := .luaC_white s.currentwhite) (by rw [hview2, hview1, if_pos rfl])
    have hothers : ∀ b ≠ new, s2.slot b = s.slot b := fun b hb =>
      slot_of_view_eq (by rw [hview2, hview1, if_neg hb])
    rw [List.mem_cons, hlr]
    constructor
    · rintro (rfl | ⟨b, rfl, hb⟩)
      · exact ⟨new, rfl, by rw [hself]; rfl⟩
      · have hbn : b ≠ new := by
          rintro rfl
          rw [hslot] at hb
          cases hb
        exact ⟨b, rfl, by rw [hothers b hbn]; exact hb⟩
    · rintro ⟨b, rfl, hb⟩
      by_cases hbn : b = new
      · exact .inl (hbn ▸ rfl)
      · exact .inr ⟨b, rfl, by rw [← hothers b hbn]; exact hb⟩
  · rw [hview2, hview1, if_pos rfl]
  · rw [hview2, hview1, if_neg hb]

theorem Listed.insert {t level new : Nat} {l before after : List Nat} (h : Listed s t l)
    (heq : l = before ++ after) (hnone : s.slot new = none)
    (hself : s'.slot new = some (t, level)) (hslot : ∀ b ≠ new, s'.slot b = s.slot b)
    (hbefore : ∀ a ∈ before, level < s.level a) (hafter : ∀ a ∈ after, s.level a < level) :
    Listed s' t (before ++ new :: after) := by
  subst heq
  have hne : ∀ b ∈ before ++ after, b ≠ new := by
    rintro b hb rfl
    obtain ⟨i, hi⟩ := (h.mem b).mp hb
    rw [hnone] at hi
    cases hi
  have hlevel : ∀ b ∈ before ++ after, s'.level b = s.level b := fun b hb => by
    rw [State.level, hslot b (hne b hb), State.level]
  have hnew : s'.level new = level := level_of_slot hself
  have hsorted : (before ++ after).Pairwise fun a b => s'.level b < s'.level a :=
    h.sorted.imp_of_mem fun ha hb hlt => by rwa [hlevel _ ha, hlevel _ hb]
  obtain ⟨hs1, hs2, hs12⟩ := List.pairwise_append.mp hsorted
  refine ⟨List.pairwise_append.mpr ⟨hs1, List.pairwise_cons.mpr ⟨fun b hb => ?_, hs2⟩,
    fun a ha b hb => ?_⟩, fun b => ?_⟩
  · rw [hnew, hlevel b (List.mem_append_right before hb)]
    exact hafter b hb
  · rcases List.mem_cons.mp hb with rfl | hb
    · rw [hnew, hlevel a (List.mem_append_left after ha)]
      exact hbefore a ha
    · exact hs12 a ha b hb
  · by_cases hb : b = new
    · subst hb
      simp [hself]
    · rw [hslot b hb, ← h.mem]
      simp [hb]

/-- The invariant of the two kinds of list. -/
structure Inv (s : State V) : Prop where
  ring : Ringed s
  listed : ∀ t, Listed s t (s.openupval t)

theorem Inv.unique {t i : Nat} (h : Inv s) (ha : s.slot a = some (t, i))
    (hb : s.slot b = some (t, i)) : a = b :=
  (h.listed t).unique ha hb

/-- What `luaF_findupval` gives back, and what it changes. -/
structure Found (s : State V) (t level new : Nat) (a : Nat) (s' : State V) : Prop where
  inv : Inv s'
  frame : Frame s s'
  slot : s'.slot a = some (t, level)
  alive : s'.isdead a = false
  /-- There is one for the slot already: it is this one, and the lists stay as they are. -/
  shared : ∀ b, s.slot b = some (t, level) → a = b ∧ s'.openupval = s.openupval
  made : a = new ∨ s.slot a = some (t, level)
  other : ∀ b ≠ a, s'.view b = s.view b
  /-- An upvalue that was there has its mark changed only when it was dead. -/
  same : s.live a = true → s'.view a = s.view a

theorem luaF_findupval_spec (t level : Nat) {new : Nat} (h : Inv s) (hnew : s.heap new = none) :
    Found s t level new (luaF_findupval s t level new).1 (luaF_findupval s t level new).2 := by
  have hl := h.listed t
  rcases findOpen_spec s level new hl.sorted with ⟨p, hp, hlevel, hfound⟩ |
    ⟨hnone, before, after, heq, hlist, hbefore, hafter⟩
  · -- the slot has an upvalue
    obtain ⟨i, hslot⟩ := (hl.mem p).mp hp
    obtain rfl : i = level := (level_of_slot hslot).symm.trans hlevel
    have hres : luaF_findupval s t i new =
        (p, if s.isdead p then s.mark p Marked.changewhite else s) := by
      rw [luaF_findupval]
      generalize findOpen s i new (s.openupval t) = r at hfound
      obtain ⟨r1, r2⟩ := r
      cases hfound
      rfl
    rw [hres]
    cases hd : s.isdead p with
    | false =>
      exact ⟨h, .refl s, hslot, hd, fun b hb => ⟨h.unique hslot hb, rfl⟩, .inr hslot,
        fun _ _ => rfl, fun _ => rfl⟩
    | true =>
      obtain ⟨frame, hopen, hview, -⟩ := mark_spec s p Marked.changewhite
      have hinv : Inv (s.mark p Marked.changewhite) :=
        ⟨h.ring.mark p _, fun t' => (h.listed t').congr fun b => slot_mark s p b _⟩
      refine ⟨hinv, frame, (slot_mark s p p _).trans hslot, ?_,
        fun b hb => ⟨h.unique hslot hb, rfl⟩, .inr hslot, fun b hb => ?_, fun hl => ?_⟩
      · obtain ⟨m, hm⟩ := view_of_slot hslot
        have hd' : m.isdead s.currentwhite = true := by
          rw [State.isdead, State.marked_eq_view, hm] at hd
          exact hd
        show (s.mark p Marked.changewhite).isdead p = false
        rw [State.isdead, State.marked_eq_view, hview, if_pos rfl, hm]
        exact Marked.isdead_changewhite hd'
      · exact (hview b).trans (if_neg hb)
      · rw [isdead_of_live hl] at hd
        cases hd
  · -- a new one takes its place in the list
    have hres : ∃ s2, luaF_findupval s t level new = (new, s2) ∧ Ringed s2 ∧ Frame s s2 ∧
        s2.openupval = Function.update s.openupval t (before ++ new :: after) ∧
        s2.view new = some (.luaC_white s.currentwhite, .stack t level) ∧
        ∀ b ≠ new, s2.view b = s.view b := by
      refine ⟨_, ?_, newupval_spec h.ring hnew⟩
      rw [luaF_findupval]
      generalize findOpen s level new (s.openupval t) = r at hnone hlist
      obtain ⟨r1, r2⟩ := r
      cases hnone
      cases hlist
      rfl
    obtain ⟨s2, hres, hring, frame, hopen, hview, hother⟩ := hres
    rw [hres]
    have hfresh : s.slot new = none := by rw [State.slot, hnew]
    have hself : s2.slot new = some (t, level) := slot_of_view hview
    have hslot : ∀ b ≠ new, s2.slot b = s.slot b := fun b hb => slot_of_view_eq (hother b hb)
    have hnot : ∀ t', new ∉ s.openupval t' := fun t' hmem => by
      obtain ⟨i, hi⟩ := ((h.listed t').mem new).mp hmem
      rw [hfresh] at hi
      cases hi
    have hfree : ∀ b, s.slot b ≠ some (t, level) := by
      intro b hb
      have hlevel := level_of_slot hb
      have hmem := (hl.mem b).mpr ⟨level, hb⟩
      rw [heq] at hmem
      rcases List.mem_append.mp hmem with hmem | hmem
      · exact absurd hlevel (hbefore b hmem).ne'
      · exact absurd hlevel (hafter b hmem).ne
    have hinv : Inv s2 := by
      refine ⟨hring, fun t' => ?_⟩
      rw [hopen]
      by_cases ht : t' = t
      · subst ht
        rw [Function.update_self]
        exact hl.insert heq hfresh hself hslot hbefore hafter
      · rw [Function.update_of_ne ht]
        have hmem : ∀ b ∈ s.openupval t', b ≠ new := fun b hb he => hnot t' (he ▸ hb)
        refine ⟨(h.listed t').sorted.imp_of_mem fun hb hc hlt => ?_, fun b => ?_⟩
        · rwa [State.level, State.level, hslot _ (hmem _ hb), hslot _ (hmem _ hc)]
        · by_cases hb : b = new
          · subst hb
            rw [hself]
            simp [hnot t', Ne.symm ht]
          · rw [hslot b hb]
            exact (h.listed t').mem b
    refine ⟨hinv, frame, hself, ?_, fun b hb => absurd hb (hfree b), .inl rfl, hother,
      fun hl => absurd hnew (heap_of_live hl)⟩
    rw [State.isdead, State.marked_eq_view, hview, frame.currentwhite]
    exact Marked.isdead_luaC_white _

end Luaxx.Gc
