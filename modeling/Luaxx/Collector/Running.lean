import Luaxx.Collector.Finalizing
import Luaxx.Intern.Lstring

/-!
# Runs

From the state that `lua_newstate` makes, the program and the collector take steps in any order. In
every state that they come to, what the program can reach is there.
-/

namespace Luaxx.Collector

open Luaxx.Gc (White GCState)
open Luaxx.Intern (MINSTRTABSIZE lmod hash)

variable {s s' : State} {o r : Ref} {es : List Event}

/-! ## The first state -/

def NUM_TAGS : Nat := 9

/-- The main thread, its table of globals and the registry. -/
def stack_init : State where
  marked r := if r = .thread 0 ∨ r = .table 0 ∨ r = .table 1 then some (.white .white0) else none
  fixed r := r = .thread 0
  str _ := []
  udata _ := ⟨none, 0, false⟩
  table _ := ⟨none, [], [], false, false⟩
  function _ := .c 0 []
  thread _ := ⟨0, [.nil], 1, []⟩
  proto _ := ⟨none, [], [], [], []⟩
  upval _ := .closed .nil
  currentwhite := .white0
  gcstate := .GCSpause
  strt := List.replicate MINSTRTABSIZE []
  sweepstrgc := 0
  rootgc := []
  sweepgc := [.table 1, .table 0, .thread 0]
  gray := []
  grayagain := []
  weak := []
  tmudata := []
  uvhead := []
  mainthread := 0
  registry := 1
  mt := List.replicate NUM_TAGS none
  L := 0
  tm_mode := 1
  tm_gc := 0

/-- The name of a tag method. -/
def tmname (a : Nat) (str : List UInt8) (s : State) : State :=
  luaS_fix a (newlstr a (lmod (hash str) MINSTRTABSIZE) str s)

/-- `f_luaopen`, of whose strings two are read by the collector. -/
def f_luaopen : State :=
  tmname 1 ("__mode".toList.map Char.toUInt8) (tmname 0 ("__gc".toList.map Char.toUInt8) stack_init)

theorem stack_init_inv : Inv stack_init where
  kept := by
    have hsafe {r : Ref} (hr : r = .thread 0 ∨ r = .table 0 ∨ r = .table 1) : Safe stack_init r :=
      safe_of_white (if_pos hr)
    refine ⟨fun o ho => ?_, fun o ho o' ho' => ?_, fun o ho => ?_⟩
    · rcases ho with rfl | rfl | rfl | ⟨mt, hmt, -⟩ | ⟨u, hu, -⟩ | ho
      · exact hsafe (Or.inl rfl)
      · exact hsafe (Or.inr (Or.inr rfl))
      · exact hsafe (Or.inl rfl)
      · exact absurd (List.eq_of_mem_replicate (List.reduceOption_mem_iff.mp hmt)) (by simp)
      · cases hu
      · exact hsafe (Or.inl (of_decide_eq_true ho))
    · by_cases hr : o = .thread 0 ∨ o = .table 0 ∨ o = .table 1
      · rcases hr with rfl | rfl | rfl
        · exact hsafe (Or.inr (Or.inl (List.mem_singleton.mp ho')))
        · cases ho'
        · cases ho'
      · exact absurd (if_neg hr) ho.1
    · exact Or.inr (of_decide_eq_true ho)
  listed := by
    have hobjects : stack_init.objects = [.table 1, .table 0, .thread 0] := rfl
    refine ⟨by rw [hobjects]; decide, fun r => ?_, fun a ha => ?_, fun a _ => ⟨.nil, rfl⟩⟩
    · rw [hobjects]
      show _ ↔ (if _ then _ else _) ≠ none
      split
      · simp_all
        tauto
      · simp_all
    · simp [stack_init] at ha
  opened := ⟨fun a ha => (List.not_mem_nil ha).elim, fun t _ a ha => (List.not_mem_nil ha).elim,
    fun _ _ => List.nodup_nil, fun a ha => (List.not_mem_nil ha).elim⟩
  swept _ r c hc := by
    have hc : (if _ then _ else _) = some c := hc
    split at hc
    · exact Or.inl (Option.some.inj hc).symm
    · cases hc
  propagating hstate := by cases hstate

theorem length_newlstr (a chain : Nat) (str : List UInt8) (s : State) :
    (newlstr a chain str s).strt.length = s.strt.length := List.length_modify ..

theorem tmname_inv {a : Nat} {str : List UInt8} (h : Inv s) (ha : s.marked (.string a) = none)
    (hsize : s.strt.length = MINSTRTABSIZE) : Inv (tmname a str s) := by
  refine luaS_fix_inv (newlstr_inv h ha ?_) (safe_of_white (Function.update_self ..))
  rw [hsize]
  exact Nat.lt_of_le_of_lt Nat.and_le_right (by decide)

theorem f_luaopen_inv : Inv f_luaopen := by
  refine tmname_inv (tmname_inv stack_init_inv rfl ?_) rfl ?_
  · exact List.length_replicate
  · have hlength := length_newlstr 0 (lmod (hash ("__gc".toList.map Char.toUInt8)) MINSTRTABSIZE)
      ("__gc".toList.map Char.toUInt8) stack_init
    exact hlength.trans List.length_replicate

/-! ## Runs -/

/-- The states that are reached, with the events on the way, the last one first. -/
inductive Reaches : List Event → State → Prop
  | start : Reaches [] f_luaopen
  | step {es : List Event} {s s' : State} {e : Event} (h : Reaches es s) (hstep : Step s e s') :
    Reaches (e :: es) s'

theorem Reaches.inv (h : Reaches es s) : Inv s := by
  induction h with
  | start => exact f_luaopen_inv
  | step _ hstep ih => exact step_inv ih hstep

/-- What the program can come to is there and in the lists of the collector once, in every state. -/
theorem reach_allocated (h : Reaches es s) :
    (∀ o, Reach s o → s.marked o ≠ none) ∧ s.objects.Nodup ∧
      (∀ o, o ∈ s.objects ↔ s.marked o ≠ none) ∧
      ∀ a t slot, Reach s (.upval a) → s.upval a = .stack t slot →
        s.marked (.thread t) ≠ none ∧ a ∈ (s.thread t).openupval := by
  have hinv := h.inv
  refine ⟨fun o ho => (hinv.safe ho).1, hinv.listed.nodup, hinv.listed.mem, fun a t slot ha hslot => ?_⟩
  obtain ⟨t', slot', hslot', ht', hmem⟩ :=
    hinv.opened.uvhead a (hinv.listed.openListed a t slot (hinv.safe ha).1 hslot)
  obtain ⟨rfl, rfl⟩ := UpVal.stack.inj (hslot.symm.trans hslot')
  exact ⟨ht', hmem⟩

/-- A table that is made in the mark phase. -/
theorem reach_allocated_propagate :
    let s := setstack (singlestep f_luaopen).L 1 (.table 2) (luaH_new 2 (singlestep f_luaopen))
    (∀ o, Reach s o → s.marked o ≠ none) ∧ s.objects.Nodup ∧
      (∀ o, o ∈ s.objects ↔ s.marked o ≠ none) ∧
      ∀ a t slot, Reach s (.upval a) → s.upval a = .stack t slot →
        s.marked (.thread t) ≠ none ∧ a ∈ (s.thread t).openupval :=
  reach_allocated (.step (.step .start (.singlestep (Or.inl (by decide)))) (.luaH_new (by rfl)))

end Luaxx.Collector
