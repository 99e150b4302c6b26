import Luaxx.Coro.Resume

/-!
# States and histories

What a history says of every thread is found in the state: `Agrees` is kept when a thread changes as
its life allows, when a coroutine is created or entered, and when the thread that runs leaves.
-/

namespace Luaxx.Coro

open Luaxx.Call

variable {V : Type} {env : Host V}

def Life.Fits (env : Host V) (isMain : Prop) : Life → LuaState V → Prop
  | .fresh, L => Fresh env L
  | .yielded, L => Yielded env L
  | .running, L | .normal, L => Active isMain L
  | .dead, L => Dead L

structure Agrees (env : Host V) (s : State V) (h : History) : Prop where
  count : s.count = h.count
  active : h.active = s.running :: s.resumers.map Pending.thread
  nodup : h.active.Nodup
  last : h.active.getLast? = some 0
  lt : ∀ i ∈ h.active, i < s.count
  running_iff : ∀ i < s.count, h.lives i = .running ↔ i = s.running
  normal_iff : ∀ i < s.count, h.lives i = .normal ↔ i ∈ s.resumers.map Pending.thread
  fits : ∀ i < s.count, (h.lives i).Fits env (i = 0) (s.threads i)

variable {s : State V} {h : History}

/-! ## Statuses -/

theorem Agrees.running_lt (ha : Agrees env s h) : s.running < s.count :=
  ha.lt _ (ha.active ▸ List.mem_cons_self)

theorem Agrees.lives_running (ha : Agrees env s h) : h.lives s.running = .running :=
  (ha.running_iff _ ha.running_lt).2 rfl

theorem Agrees.runs (ha : Agrees env s h) : Active (s.running = 0) (s.threads s.running) := by
  have hfits := ha.fits _ ha.running_lt
  rw [ha.lives_running] at hfits
  exact hfits

/-- `costatus` tells what has become of a thread. -/
theorem Agrees.costatus (ha : Agrees env s h) {i : Nat} (hi : i < s.count) :
    costatus (i = s.running) (s.threads i) = (h.lives i).costatus := by
  have hfits := ha.fits i hi
  by_cases hrun : i = s.running
  · rw [(ha.running_iff i hi).2 hrun, decide_eq_true hrun]
    rfl
  · rw [decide_eq_false hrun]
    cases hlife : h.lives i with
    | running => exact absurd ((ha.running_iff i hi).1 hlife) hrun
    | fresh =>
      rw [hlife] at hfits
      exact Fresh.costatus hfits
    | yielded =>
      rw [hlife] at hfits
      exact Yielded.costatus hfits
    | normal =>
      rw [hlife] at hfits
      exact Active.costatus hfits
    | dead =>
      rw [hlife] at hfits
      exact Dead.costatus hfits

theorem Life.suspended_iff (l : Life) : l.suspended = true ↔ l.costatus = .CO_SUS := by
  cases l <;> decide

theorem Agrees.suspended_iff (ha : Agrees env s h) {i : Nat} (hi : i < s.count) :
    (h.lives i).suspended = true ↔ Coro.costatus (i = s.running) (s.threads i) = .CO_SUS := by
  rw [ha.costatus hi, Life.suspended_iff]

/-- A thread that neither runs nor waits. -/
theorem Agrees.not_mem_active (ha : Agrees env s h) {i : Nat} (hi : i < s.count)
    (hrun : h.lives i ≠ .running) (hnor : h.lives i ≠ .normal) : i ∉ h.active := by
  rw [ha.active, List.mem_cons, not_or]
  exact ⟨fun he => hrun ((ha.running_iff i hi).2 he), fun hm => hnor ((ha.normal_iff i hi).2 hm)⟩

theorem Life.suspended_ne {l : Life} (h : l.suspended = true) : l ≠ .running ∧ l ≠ .normal := by
  constructor <;> rintro rfl <;> exact Bool.false_ne_true h

theorem Agrees.suspended_ne (ha : Agrees env s h) {i : Nat} (hi : i < s.count)
    (hsus : (h.lives i).suspended = true) : i ≠ s.running := by
  rintro rfl
  exact (Life.suspended_ne hsus).1 ha.lives_running

/-- The main thread is at the end of those that wait, so another one runs when a thread waits. -/
theorem Agrees.running_ne_zero (ha : Agrees env s h) {p : Pending} {rest : List Pending}
    (hp : s.resumers = p :: rest) : s.running ≠ 0 := by
  rintro hzero
  have hnodup := ha.nodup
  have hlast := ha.last
  rw [ha.active, hp, List.map_cons] at hnodup hlast
  rw [List.getLast?_cons_cons] at hlast
  have hmem := List.mem_of_getLast? hlast
  exact (List.nodup_cons.1 hnodup).1 (hzero ▸ hmem)

/-! ## Updates -/

theorem State.set_self (s : State V) (i : Nat) (L : LuaState V) : (s.set i L).threads i = L :=
  Function.update_self ..

theorem State.set_of_ne (s : State V) {i j : Nat} (L : LuaState V) (h : j ≠ i) :
    (s.set i L).threads j = s.threads j :=
  Function.update_of_ne h ..

theorem State.set_set (s : State V) (i : Nat) (L L' : LuaState V) :
    (s.set i L).set i L' = s.set i L' := by
  rw [State.set, State.set, State.set, Function.update_idem]

/-- A thread changes as its life allows. -/
theorem Agrees.set (ha : Agrees env s h) {c : Nat} {L : LuaState V}
    (hL : (h.lives c).Fits env (c = 0) L) : Agrees env (s.set c L) h where
  count := ha.count
  active := ha.active
  nodup := ha.nodup
  last := ha.last
  lt := ha.lt
  running_iff := ha.running_iff
  normal_iff := ha.normal_iff
  fits i hi := by
    by_cases hic : i = c
    · rw [hic, State.set_self]
      exact hL
    · rw [State.set_of_ne _ _ hic]
      exact ha.fits i hi

/-- A thread that neither runs nor waits changes, and its life too. -/
theorem Agrees.become (ha : Agrees env s h) {c : Nat} {L : LuaState V} {life : Life}
    (hc : c ∉ h.active) (hrun : life ≠ .running) (hnor : life ≠ .normal)
    (hL : life.Fits env (c = 0) L) :
    Agrees env (s.set c L) { h with lives := Function.update h.lives c life } where
  count := ha.count
  active := ha.active
  nodup := ha.nodup
  last := ha.last
  lt := ha.lt
  running_iff i hi := by
    rw [ha.active, List.mem_cons, not_or] at hc
    show Function.update h.lives c life i = _ ↔ i = s.running
    by_cases hic : i = c
    · rw [hic, Function.update_self]
      exact iff_of_false hrun hc.1
    · rw [Function.update_of_ne hic]
      exact ha.running_iff i hi
  normal_iff i hi := by
    rw [ha.active, List.mem_cons, not_or] at hc
    show Function.update h.lives c life i = _ ↔ i ∈ s.resumers.map Pending.thread
    by_cases hic : i = c
    · rw [hic, Function.update_self]
      exact iff_of_false hnor hc.2
    · rw [Function.update_of_ne hic]
      exact ha.normal_iff i hi
  fits i hi := by
    show Life.Fits env (i = 0) (Function.update h.lives c life i) ((s.set c L).threads i)
    by_cases hic : i = c
    · rw [hic, State.set_self, Function.update_self]
      exact hL
    · rw [State.set_of_ne _ _ hic, Function.update_of_ne hic]
      exact ha.fits i hi

/-- A thread is added. -/
theorem Agrees.create (ha : Agrees env s h) {L : LuaState V} (hL : Fresh env L) :
    Agrees env { s.set s.count L with count := s.count + 1 }
      { h with lives := Function.update h.lives h.count .fresh, count := h.count + 1 } where
  count := congrArg (· + 1) ha.count
  active := ha.active
  nodup := ha.nodup
  last := ha.last
  lt i hi := Nat.lt_succ_of_lt (ha.lt i hi)
  running_iff i hi := by
    rw [← ha.count]
    show Function.update h.lives s.count .fresh i = _ ↔ i = s.running
    rcases Nat.lt_succ_iff_lt_or_eq.1 hi with hlt | rfl
    · rw [Function.update_of_ne (Nat.ne_of_lt hlt)]
      exact ha.running_iff i hlt
    · rw [Function.update_self]
      exact iff_of_false (by decide) (Nat.ne_of_gt ha.running_lt)
  normal_iff i hi := by
    rw [← ha.count]
    show Function.update h.lives s.count .fresh i = _ ↔ i ∈ s.resumers.map Pending.thread
    rcases Nat.lt_succ_iff_lt_or_eq.1 hi with hlt | rfl
    · rw [Function.update_of_ne (Nat.ne_of_lt hlt)]
      exact ha.normal_iff i hlt
    · rw [Function.update_self]
      refine iff_of_false (by decide) fun hm => ?_
      exact Nat.lt_irrefl _ (ha.lt _ (ha.active ▸ List.mem_cons_of_mem _ hm))
  fits i hi := by
    rw [← ha.count]
    show Life.Fits env (i = 0) (Function.update h.lives s.count .fresh i) ((s.set s.count L).threads i)
    rcases Nat.lt_succ_iff_lt_or_eq.1 hi with hlt | rfl
    · rw [Function.update_of_ne (Nat.ne_of_lt hlt), State.set_of_ne _ _ (Nat.ne_of_lt hlt)]
      exact ha.fits i hlt
    · rw [Function.update_self, State.set_self]
      exact hL

/-- A suspended coroutine is entered, and the thread that ran waits. -/
theorem Agrees.enter (ha : Agrees env s h) {c : Nat} {kind : Kind} {L co : LuaState V}
    (hc : c < s.count) (hmem : c ∉ h.active) (hL : Active (s.running = 0) L)
    (hco : Active (c = 0) co) :
    Agrees env
      { (s.set s.running L).set c co with running := c, resumers := ⟨s.running, kind⟩ :: s.resumers }
      { h with
        lives := Function.update (Function.update h.lives s.running .normal) c .running
        active := c :: h.active } := by
  have hne : c ≠ s.running := fun he => hmem (ha.active ▸ he ▸ List.mem_cons_self)
  refine ⟨ha.count, by rw [ha.active]; rfl, List.nodup_cons.2 ⟨hmem, ha.nodup⟩, ?_, ?_, ?_, ?_, ?_⟩
  · rw [ha.active, List.getLast?_cons_cons, ← ha.active]
    exact ha.last
  · intro i hi
    rcases List.mem_cons.1 hi with rfl | hi
    · exact hc
    · exact ha.lt i hi
  · intro i hi
    show Function.update (Function.update h.lives s.running .normal) c .running i = _ ↔ i = c
    by_cases hic : i = c
    · rw [hic, Function.update_self]
      exact iff_of_true rfl rfl
    · rw [Function.update_of_ne hic]
      by_cases hir : i = s.running
      · rw [hir, Function.update_self]
        exact iff_of_false (by decide) (hir ▸ hic)
      · rw [Function.update_of_ne hir]
        exact iff_of_false (fun hl => hir ((ha.running_iff i hi).1 hl)) hic
  · intro i hi
    show Function.update (Function.update h.lives s.running .normal) c .running i = _ ↔
      i ∈ s.running :: s.resumers.map Pending.thread
    by_cases hic : i = c
    · rw [hic, Function.update_self]
      exact iff_of_false (by decide) (ha.active ▸ hmem)
    · rw [Function.update_of_ne hic, List.mem_cons]
      by_cases hir : i = s.running
      · rw [hir, Function.update_self]
        exact iff_of_true rfl (.inl rfl)
      · rw [Function.update_of_ne hir, ha.normal_iff i hi]
        exact ⟨.inr, fun hm => hm.resolve_left hir⟩
  · intro i hi
    show Life.Fits env (i = 0)
      (Function.update (Function.update h.lives s.running .normal) c .running i)
      (((s.set s.running L).set c co).threads i)
    by_cases hic : i = c
    · rw [hic, Function.update_self, State.set_self]
      exact hco
    · rw [Function.update_of_ne hic, State.set_of_ne _ _ hic]
      by_cases hir : i = s.running
      · rw [hir, Function.update_self, State.set_self]
        exact hL
      · rw [Function.update_of_ne hir, State.set_of_ne _ _ hir]
        exact ha.fits i hi

/-- The thread that runs leaves, and the one that waits for it goes on. -/
theorem Agrees.leave (ha : Agrees env s h) {p : Pending} {rest : List Pending} {L co : LuaState V}
    {life : Life} (hp : s.resumers = p :: rest) (hrun : life ≠ .running) (hnor : life ≠ .normal)
    (hco : life.Fits env (s.running = 0) co) (hL : Active (p.thread = 0) L) :
    Agrees env { (s.set s.running co).set p.thread L with running := p.thread, resumers := rest }
      (h.leave life) := by
  have hactive : h.active = s.running :: p.thread :: rest.map Pending.thread := by
    rw [ha.active, hp, List.map_cons]
  have hleave : h.leave life =
      { h with
        lives := Function.update (Function.update h.lives s.running life) p.thread .running
        active := p.thread :: rest.map Pending.thread } := by
    rw [History.leave, hactive]
  have hnodup := ha.nodup
  rw [hactive] at hnodup
  obtain ⟨hnot, hrest⟩ := List.nodup_cons.1 hnodup
  rw [List.mem_cons, not_or] at hnot
  obtain ⟨hnotp, -⟩ := List.nodup_cons.1 hrest
  rw [hleave]
  refine ⟨ha.count, rfl, hrest, ?_, fun i hi => ?_, fun i hi => ?_, fun i hi => ?_, fun i hi => ?_⟩
  · have hlast := ha.last
    rw [hactive, List.getLast?_cons_cons] at hlast
    exact hlast
  · exact ha.lt i (hactive ▸ List.mem_cons_of_mem _ hi)
  · show Function.update (Function.update h.lives s.running life) p.thread .running i = _ ↔
      i = p.thread
    by_cases hip : i = p.thread
    · rw [hip, Function.update_self]
      exact iff_of_true rfl rfl
    · rw [Function.update_of_ne hip]
      by_cases hir : i = s.running
      · rw [hir, Function.update_self]
        exact iff_of_false hrun (hir ▸ hip)
      · rw [Function.update_of_ne hir]
        exact iff_of_false (fun hl => hir ((ha.running_iff i hi).1 hl)) hip
  · show Function.update (Function.update h.lives s.running life) p.thread .running i = _ ↔
      i ∈ rest.map Pending.thread
    by_cases hip : i = p.thread
    · rw [hip, Function.update_self]
      exact iff_of_false (by decide) hnotp
    · rw [Function.update_of_ne hip]
      by_cases hir : i = s.running
      · rw [hir, Function.update_self]
        exact iff_of_false hnor hnot.2
      · rw [Function.update_of_ne hir, ha.normal_iff i hi, hp, List.map_cons, List.mem_cons]
        exact ⟨fun hm => hm.resolve_left hip, .inr⟩
  · show Life.Fits env (i = 0)
      (Function.update (Function.update h.lives s.running life) p.thread .running i)
      (((s.set s.running co).set p.thread L).threads i)
    by_cases hip : i = p.thread
    · rw [hip, Function.update_self, State.set_self]
      exact hL
    · rw [Function.update_of_ne hip, State.set_of_ne _ _ hip]
      by_cases hir : i = s.running
      · rw [hir, Function.update_self, State.set_self]
        exact hco
      · rw [Function.update_of_ne hir, State.set_of_ne _ _ hir]
        exact ha.fits i hi

end Luaxx.Coro
