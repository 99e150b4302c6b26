import Luaxx.Collector.Clearing
import Luaxx.Collector.Sweep

/-!
# The beginning of a cycle

Between two cycles no object is marked, but for userdata that still wait for their finalizers.
-/

namespace Luaxx.Collector

open Luaxx.Gc (White GCState)

variable {s s' : State} {o r : Ref}

theorem Swept.not_dead (h : Swept s) (hk : Kept s) (hstate : ¬ s.Sweeping) (r : Ref) :
    s.isdead r = false := by
  rw [State.isdead_eq_false]
  intro hr
  rcases h r _ hr with hc | hunswept | ⟨u, hu, rfl⟩
  · exact White.other_ne _ (Colour.white.inj hc)
  · cases r with
    | string a => exact hstate (Or.inl hunswept.1)
    | udata | table | function | thread | proto | upval => exact hstate hunswept.1
  · have hsafe := hk.root (.udata u) (Or.inr (Or.inr (Or.inr (Or.inr (Or.inl ⟨u, hu, rfl⟩)))))
    rcases hsafe.2 with hdead | hfixed
    · exact State.isdead_eq_false.mp hdead hr
    · rcases hk.fixed _ hfixed with ⟨a, h⟩ | h <;> cases h

theorem Swept.not_unswept (hstate : ¬ s.Sweeping) : ¬ Unswept s r := by
  intro h
  cases r with
  | string a => exact hstate (Or.inl h.1)
  | udata | table | function | thread | proto | upval => exact hstate h.1

theorem Ground.propagating (h : Ground s) (hp : Propagating s) :
    Inv { s with gcstate := .GCSpropagate } where
  kept := ⟨h.kept.root, fun o ho o' ho' => h.kept.refs o ho o' (by cases o <;> exact ho'), h.kept.fixed⟩
  listed := ⟨h.listed.nodup, h.listed.mem, h.listed.string, h.listed.closed⟩
  opened := ⟨h.opened.uvhead, h.opened.openupval, h.opened.nodup, h.opened.black⟩
  swept hne := absurd rfl hne
  propagating _ :=
    ⟨fun r hr => (hp.tri r hr).imp_right (Or.imp_right fun hc o ho => hc o (by cases r <;> exact ho)),
      ⟨hp.linked.gray, hp.linked.listed, hp.linked.nodup, hp.linked.black⟩, hp.keyed, hp.white,
      hp.mainthread, hp.registry⟩

theorem Ground.inv (h : Ground s) (hstate : s.gcstate = .GCSpropagate) (hp : Propagating s) : Inv s := by
  have hinv := h.propagating hp
  rwa [← hstate] at hinv

theorem propagatemark_inv (h : Inv s) (hstate : s.gcstate = .GCSpropagate) :
    Inv (propagatemark s) := by
  have hp := h.propagating hstate
  have hg := h.ground hstate
  have hruns := propagatemark_runs hp.linked hg.listed.openListed
  have hgrows := hruns.grows
  have hmain : (propagatemark s).mainthread = s.mainthread := by rw [hgrows.eq]
  have hregistry : (propagatemark s).registry = s.registry := by rw [hgrows.eq]
  have hcurrent : (propagatemark s).currentwhite = s.currentwhite := by rw [hgrows.eq]
  have hstate' : (propagatemark s).gcstate = .GCSpropagate := by rw [hgrows.eq, hstate]
  have hp' : Propagating (propagatemark s) := by
    refine ⟨(hruns.tri _ hp.tri).mono fun r _ hr => Or.inl ?_, hruns.linked, ?_, fun r w hw => ?_, ?_, ?_⟩
    · rcases hr with hagain | ⟨h', hh', rfl⟩ | ⟨a, ha, rfl⟩ | ⟨u, hu, rfl⟩
      · exact Or.inl (hruns.grayagain hagain)
      · exact Or.inr (Or.inl ⟨h', hruns.weak hh', rfl⟩)
      · exact Or.inr (Or.inr (Or.inl ⟨a, hgrows.uvhead ▸ ha, rfl⟩))
      · exact Or.inr (Or.inr (Or.inr ⟨u, hgrows.tmudata ▸ hu, rfl⟩))
    · refine propagatemark_keyed hp.linked (fun r hr x hx => ?_) hp.keyed
      have hsafe : Safe s r := ⟨hr.ne_none, Or.inl (hg.dead r)⟩
      exact (hg.kept.refs r hsafe x hx).1
    · rw [hcurrent]
      exact hp.white r w (hgrows.white r (State.iswhite_iff.mpr ⟨w, hw⟩) ▸ hw)
    · rw [hmain]
      exact hgrows.nonwhite hp.mainthread
    · rw [hregistry]
      exact hgrows.nonwhite hp.registry
  exact (hgrows.ground hg).inv hstate' hp'

/-- `markroot` before anything is marked. -/
def resetlists (s : State) : State := { s with gray := [], grayagain := [], weak := [] }

theorem markroot_marks (s : State) : ∃ s₁, Marks (resetlists s) s₁ ∧
    markroot s = { s₁ with gcstate := .GCSpropagate } ∧ s₁.iswhite (.thread s.mainthread) = false ∧
    s₁.iswhite (.table s.registry) = false := by
  let a₁ := markobject (.thread s.mainthread) (resetlists s)
  let a₂ := markvalue (.table (a₁.thread a₁.mainthread).gt) a₁
  let a₃ := markvalue (.table a₂.registry) a₂
  have h₁ : Marks (resetlists s) a₁ := Marks.markobject ..
  have h₂ : Marks a₁ a₂ := Marks.markvalue ..
  have h₃ : Marks a₂ a₃ := Marks.markvalue ..
  have h₄ : Marks a₃ (markmt a₃) := Marks.markmt a₃
  have hregistry : a₂.registry = s.registry := by rw [h₂.eq, h₁.eq]; rfl
  refine ⟨markmt a₃, ((h₁.trans h₂).trans h₃).trans h₄, rfl, ?_, ?_⟩
  · exact ((h₂.trans h₃).trans h₄).nonwhite (iswhite_markobject ..)
  · rw [← hregistry]
    exact h₄.nonwhite (iswhite_markvalue rfl a₂)

theorem markroot_inv (h : Inv s) (hstate : s.gcstate = .GCSpause ∨ s.gcstate = .GCSfinalize) :
    Inv (markroot s) := by
  have hne : s.gcstate ≠ .GCSpropagate := by rcases hstate with h | h <;> simp [h]
  have hns : ¬ s.Sweeping := by
    rcases hstate with h | h <;> simp [State.Sweeping, h]
  have hswept := h.swept hne
  have hdead := hswept.not_dead h.kept hns
  -- what is marked waits for its finalizer
  have htm (r : Ref) (hr : s.IsMarked r) : ∃ u ∈ s.tmudata, r = .udata u := by
    rcases hr with hr | hr <;>
      exact ((hswept r _ hr).resolve_left (by simp)).resolve_left (Swept.not_unswept hns)
  have hreset : Grows s (resetlists s) := ⟨rfl, fun _ => rfl, fun r => by cases r <;> exact List.Subset.refl _,
    fun _ => Iff.rfl, fun _ h => h, fun _ _ => rfl, fun _ _ _ _ h => h⟩
  have hg : Ground (resetlists s) := hreset.ground ⟨h.kept, h.listed, h.opened, hdead⟩
  have hlinked : Linked (resetlists s) := by
    refine ⟨fun r hr => ?_, by simp [State.gclist, resetlists], by simp [State.gclist, resetlists],
      fun t ht => ?_⟩
    · exact Or.inr (Or.inr (Or.inr (Or.inr (Or.inr (htm r (Or.inl hr))))))
    · obtain ⟨u, -, hu⟩ := htm (.thread t) (Or.inr ht)
      cases hu
  have htri : Tri (Deferred (resetlists s)) (resetlists s) := fun r hr =>
    Or.inr (Or.inl (Or.inr (Or.inr (Or.inr (htm r hr)))))
  obtain ⟨s₁, hmarks, heq, hmain, hregistry⟩ := markroot_marks s
  have hwhite (r : Ref) (w : White) (hw : s.marked r = some (.white w)) : w = s.currentwhite := by
    have hr := State.isdead_eq_false.mp (hdead r)
    cases w <;> cases hc : s.currentwhite <;> simp_all [White.other]
  rw [heq]
  refine (hmarks.grows.ground hg).propagating
    ⟨(hmarks.tri htri).mono fun r _ hr => Or.inl (hmarks.deferred.mpr hr),
      hmarks.linked hlinked hg.listed.openListed, hmarks.keyed fun t ht => ?_, fun r w hw => ?_, ?_, ?_⟩
  · obtain ⟨u, -, hu⟩ := htm (.table t) (Or.inr ht)
    cases hu
  · have hcurrent : s₁.currentwhite = s.currentwhite := by rw [hmarks.eq]; rfl
    rw [hcurrent]
    exact hwhite r w (hmarks.white r (State.iswhite_iff.mpr ⟨w, hw⟩) ▸ hw)
  · have heq : s₁.mainthread = s.mainthread := by rw [hmarks.eq]; rfl
    rw [heq]
    exact hmain
  · have heq : s₁.registry = s.registry := by rw [hmarks.eq]; rfl
    rw [heq]
    exact hregistry

/-- All is to be swept once more. -/
theorem resetsweep_inv (h : Inv s) : Inv (resetsweep s) := by
  have hobjects : (resetsweep s).objects = s.objects := by
    simp [State.objects, resetsweep, List.append_assoc]
  have hlisted : Listed (resetsweep s) :=
    ⟨hobjects ▸ h.listed.nodup, fun r => hobjects ▸ h.listed.mem r, h.listed.string, h.listed.closed⟩
  have hopened : Opened (resetsweep s) :=
    ⟨h.opened.uvhead, h.opened.openupval, h.opened.nodup, h.opened.black⟩
  refine ⟨⟨h.kept.root, fun o ho o' ho' => h.kept.refs o ho o' (by cases o <;> exact ho'),
    h.kept.fixed⟩, hlisted, hopened, fun _ r c hc => Or.inr ?_, fun hp => by cases hp⟩
  exact unswept_all hlisted hopened rfl rfl rfl (by rw [hc]; simp)

end Luaxx.Collector
