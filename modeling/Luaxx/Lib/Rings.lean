import Mathlib.Tactic.Common
import Mathlib.Data.List.Chain
import Mathlib.Data.List.Nodup

/-!
# Rings of links

A circular list with links in both directions, threaded through the elements of a type, with one
element `h` that is always in it. `Ring next prev h l` says that the links from `h` lead through `l`
back to `h`, and the same way backwards. An element is put in behind `h`, or taken out anywhere.
-/

namespace Luaxx.Rings

universe u

variable {α : Type u} {next prev next' prev' : α → α} {h a : α} {l l₁ l₂ : List α}

def Linked (next prev : α → α) (x y : α) : Prop := next x = y ∧ prev y = x

structure Ring (next prev : α → α) (h : α) (l : List α) : Prop where
  nodup : (h :: l).Nodup
  links : (h :: l ++ [h]).IsChain (Linked next prev)

/-- Only the links between the elements of a chain matter. -/
theorem chain_congr (hc : l.IsChain (Linked next prev)) (hnext : ∀ x ∈ l.dropLast, next' x = next x)
    (hprev : ∀ x ∈ l.tail, prev' x = prev x) : l.IsChain (Linked next' prev') := by
  induction l with
  | nil => exact .nil
  | cons x l ih =>
    cases l with
    | nil => exact .singleton x
    | cons y l =>
      rw [List.isChain_cons_cons] at hc ⊢
      refine ⟨⟨?_, ?_⟩, ih hc.2 (fun z hz => hnext z ?_) (fun z hz => hprev z ?_)⟩
      · rw [hnext x (by simp), hc.1.1]
      · rw [hprev y (by simp), hc.1.2]
      · rw [List.dropLast_cons_cons]
        exact List.mem_cons_of_mem x hz
      · exact List.mem_cons_of_mem y hz

theorem exists_next {R : α → α → Prop} (hc : l.IsChain R) (ha : a ∈ l.dropLast) :
    ∃ y ∈ l, R a y := by
  induction l with
  | nil => exact absurd ha List.not_mem_nil
  | cons x l ih =>
    cases l with
    | nil => exact absurd ha List.not_mem_nil
    | cons y l =>
      rw [List.isChain_cons_cons] at hc
      rw [List.dropLast_cons_cons] at ha
      rcases List.mem_cons.mp ha with rfl | ha
      · exact ⟨y, List.mem_cons_of_mem _ List.mem_cons_self, hc.1⟩
      · obtain ⟨z, hz, hR⟩ := ih hc.2 ha
        exact ⟨z, List.mem_cons_of_mem x hz, hR⟩

theorem exists_previous {R : α → α → Prop} (hc : l.IsChain R) (ha : a ∈ l.tail) :
    ∃ x ∈ l, R x a := by
  induction l with
  | nil => exact absurd ha List.not_mem_nil
  | cons x l ih =>
    cases l with
    | nil => exact absurd ha List.not_mem_nil
    | cons y l =>
      rw [List.isChain_cons_cons] at hc
      rcases List.mem_cons.mp ha with rfl | ha
      · exact ⟨x, List.mem_cons_self, hc.1⟩
      · obtain ⟨z, hz, hR⟩ := ih hc.2 ha
        exact ⟨z, List.mem_cons_of_mem x hz, hR⟩

namespace Ring

theorem mem_append_iff (h a : α) (l : List α) : a ∈ h :: l ++ [h] ↔ a ∈ h :: l := by
  simp only [List.mem_append, List.mem_cons, List.not_mem_nil, or_false]
  tauto

theorem exists_next (r : Ring next prev h l) (ha : a ∈ h :: l) :
    ∃ y ∈ h :: l, Linked next prev a y := by
  have hmem : a ∈ (h :: l ++ [h]).dropLast := by
    rw [List.dropLast_concat]
    exact ha
  obtain ⟨y, hy, hlink⟩ := Rings.exists_next r.links hmem
  exact ⟨y, (mem_append_iff h y l).mp hy, hlink⟩

theorem exists_previous (r : Ring next prev h l) (ha : a ∈ h :: l) :
    ∃ x ∈ h :: l, Linked next prev x a := by
  have hmem : a ∈ (h :: l ++ [h]).tail := by
    rcases List.mem_cons.mp ha with rfl | ha
    · exact List.mem_append_right l (List.mem_singleton_self _)
    · exact List.mem_append_left _ ha
  obtain ⟨x, hx, hlink⟩ := Rings.exists_previous r.links hmem
  exact ⟨x, (mem_append_iff h x l).mp hx, hlink⟩

theorem next_mem (r : Ring next prev h l) (ha : a ∈ h :: l) : next a ∈ h :: l := by
  obtain ⟨y, hy, hlink⟩ := r.exists_next ha
  rw [hlink.1]
  exact hy

theorem prev_mem (r : Ring next prev h l) (ha : a ∈ h :: l) : prev a ∈ h :: l := by
  obtain ⟨x, hx, hlink⟩ := r.exists_previous ha
  rw [hlink.2]
  exact hx

/-- The links of other elements do not matter. -/
theorem congr (r : Ring next prev h l) (hnext : ∀ x ∈ h :: l, next' x = next x)
    (hprev : ∀ x ∈ h :: l, prev' x = prev x) : Ring next' prev' h l := by
  refine ⟨r.nodup, chain_congr r.links (fun x hx => hnext x ?_) fun x hx => hprev x ?_⟩
  · exact (mem_append_iff h x l).mp (List.dropLast_subset _ hx)
  · exact (mem_append_iff h x l).mp (List.mem_of_mem_tail hx)

section Insert

variable [DecidableEq α]

/-- An element that is not in the ring is put in behind `h`. -/
theorem insert (r : Ring next prev h l) (ha : a ∉ h :: l)
    (hnext : ∀ x, next' x = if x = h then a else if x = a then next h else next x)
    (hprev : ∀ x, prev' x = if x = a then h else if x = next h then a else prev x) :
    Ring next' prev' h (a :: l) := by
  have hah : a ≠ h := fun he => ha (he ▸ List.mem_cons_self)
  have hal : a ∉ l := fun hm => ha (List.mem_cons_of_mem h hm)
  have hhl : h ∉ l := (List.nodup_cons.mp r.nodup).1
  have hl : l.Nodup := (List.nodup_cons.mp r.nodup).2
  have hend : (l ++ [h]).Nodup := by
    rw [List.nodup_append]
    exact ⟨hl, List.nodup_singleton h, fun x hx y hy => by
      rw [List.mem_singleton.mp hy]
      exact fun he => hhl (he ▸ hx)⟩
  refine ⟨by simp [hhl, hal, hl, Ne.symm hah], ?_⟩
  have links := r.links
  rw [List.cons_append] at links ⊢
  rw [List.cons_append, List.isChain_cons_cons]
  refine ⟨⟨by simp [hnext], by simp [hprev]⟩, ?_⟩
  obtain ⟨y, m, hm⟩ : ∃ y m, l ++ [h] = y :: m := by
    cases l with
    | nil => exact ⟨h, [], rfl⟩
    | cons y l => exact ⟨y, l ++ [h], rfl⟩
  have hay : a ≠ y := by
    have hy : y ∈ l ++ [h] := hm ▸ List.mem_cons_self
    rintro rfl
    rcases List.mem_append.mp hy with hy | hy
    · exact hal hy
    · exact hah (List.mem_singleton.mp hy)
  rw [hm] at links hend ⊢
  rw [List.isChain_cons_cons] at links ⊢
  obtain ⟨⟨hny, -⟩, hchain⟩ := links
  refine ⟨⟨by simp [hnext, hah, hny], by simp [hprev, hny, Ne.symm hay]⟩, ?_⟩
  refine chain_congr hchain (fun x hx => ?_) fun x hx => ?_
  · -- an element of `l`
    have hxl : x ∈ l := by
      rw [← hm, List.dropLast_concat] at hx
      exact hx
    have hxh : x ≠ h := fun he => hhl (he ▸ hxl)
    have hxa : x ≠ a := fun he => hal (he ▸ hxl)
    rw [hnext, if_neg hxh, if_neg hxa]
  · -- not the first one of the rest
    have hxm : x ∈ l ++ [h] := hm ▸ List.mem_cons_of_mem y hx
    have hxa : x ≠ a := by
      rintro rfl
      rcases List.mem_append.mp hxm with hx | hx
      · exact hal hx
      · exact hah (List.mem_singleton.mp hx)
    have hxy : x ≠ next h := by
      rw [hny]
      rintro rfl
      exact (List.nodup_cons.mp hend).1 hx
    rw [hprev, if_neg hxa, if_neg hxy]

/-- An element is taken out, and its neighbours are linked. -/
theorem remove (r : Ring next prev h (l₁ ++ a :: l₂))
    (hnext : ∀ x, next' x = if x = prev a then next a else next x)
    (hprev : ∀ x, prev' x = if x = next a then prev a else prev x) :
    Ring next' prev' h (l₁ ++ l₂) := by
  have hnodup : ((h :: l₁) ++ a :: l₂).Nodup := r.nodup
  have links : ((h :: l₁) ++ a :: (l₂ ++ [h])).IsChain (Linked next prev) := by
    have := r.links
    rwa [List.cons_append, List.append_assoc] at this
  obtain ⟨hleft, hright, hseam⟩ := List.isChain_append.mp links
  obtain ⟨hn1, hn2, hdisj⟩ := List.nodup_append.mp hnodup
  have hhl1 : h ∉ l₁ := (List.nodup_cons.mp hn1).1
  have hn2 := (List.nodup_cons.mp hn2).2
  -- the neighbours
  obtain ⟨p, hp⟩ : ∃ p, (h :: l₁).getLast? = some p :=
    ⟨_, List.getLast?_eq_some_getLast (List.cons_ne_nil h l₁)⟩
  obtain ⟨q, m, hm⟩ : ∃ q m, l₂ ++ [h] = q :: m := by
    cases l₂ with
    | nil => exact ⟨h, [], rfl⟩
    | cons q l => exact ⟨q, l ++ [h], rfl⟩
  have hpa : Linked next prev p a := hseam p hp a rfl
  rw [hm, List.isChain_cons_cons] at hright
  obtain ⟨haq, hchain⟩ := hright
  have hpmem : p ∈ h :: l₁ := List.mem_of_getLast? hp
  have hqmem : q ∈ l₂ ++ [h] := hm ▸ List.mem_cons_self
  have hh2 : h ∉ l₂ := fun hmem =>
    hdisj h List.mem_cons_self h (List.mem_cons_of_mem a hmem) rfl
  have hend : (q :: m).Nodup := by
    rw [← hm, List.nodup_append]
    exact ⟨hn2, List.nodup_singleton h, fun x hx y hy => by
      rw [List.mem_singleton.mp hy]
      exact fun he => hh2 (he ▸ hx)⟩
  refine ⟨?_, ?_⟩
  · rw [← List.cons_append]
    exact hnodup.sublist (List.Sublist.append_left (List.sublist_cons_self a l₂) _)
  · rw [← List.cons_append, List.append_assoc, hm]
    refine List.IsChain.append (chain_congr hleft (fun x hx => ?_) fun x hx => ?_)
      (chain_congr hchain (fun x hx => ?_) fun x hx => ?_) fun x hx y hy => ?_
    · -- before the left neighbour
      have hxp : x ≠ p := by
        rw [← List.dropLast_append_getLast? p hp] at hn1
        exact (List.nodup_append.mp hn1).2.2 x hx p (List.mem_singleton_self p)
      rw [hnext, hpa.2, if_neg hxp]
    · have hxq : x ≠ q := by
        rintro rfl
        rcases List.mem_append.mp hqmem with hq | hq
        · exact hdisj x (List.mem_cons_of_mem h hx) x (List.mem_cons_of_mem a hq) rfl
        · exact hhl1 (List.mem_singleton.mp hq ▸ hx)
      rw [hprev, haq.1, if_neg hxq]
    · have hx2 : x ∈ l₂ := by
        rw [← hm, List.dropLast_concat] at hx
        exact hx
      have hxp : x ≠ p := fun he => hdisj p hpmem x (List.mem_cons_of_mem a hx2) he.symm
      rw [hnext, hpa.2, if_neg hxp]
    · -- after the right neighbour
      have hxq : x ≠ q := by
        rintro rfl
        exact (List.nodup_cons.mp hend).1 hx
      rw [hprev, haq.1, if_neg hxq]
    · have hx : x = p := Option.some.inj (hx.symm.trans hp)
      have hy : q = y := Option.some.inj hy
      rw [hx, ← hy]
      exact ⟨by rw [hnext, hpa.2, if_pos rfl, haq.1], by rw [hprev, haq.1, if_pos rfl, hpa.2]⟩

end Insert

end Ring

end Luaxx.Rings
