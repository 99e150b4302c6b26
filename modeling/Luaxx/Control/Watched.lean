import Luaxx.Control.Frames

/-!
# A thread above a call

What lies below a call, or below a protected call, while it runs: the frames and the part of the C
stack that belong to its caller, and the slots and upvalues below a limit. `Above` is kept by every
step that does not leave the call.
-/

namespace Luaxx.Control

open Luaxx.Call
open Luaxx.Coro (Host)

variable {V : Type} {env : Host V}

/-- A call: the C function that runs it with what is below on the C stack, its frame with the frames
below, and the slot from which on it stores. -/
structure Mark where
  limit : Nat
  entry : Ctl
  rest : List Ctl
  frame : CallInfo
  callers : List CallInfo

/-- The mark of a function, or of a protected call, which has no frame of its own. -/
inductive Mark.Ok (m : Mark) : Prop
  | function (hentry : (∃ n, m.entry = .luaV_execute n ∧ 0 < n) ∨ m.entry = .cfunction)
      (hlimit : m.limit = m.frame.func) (hcount : weight (m.entry :: m.rest) = m.callers.length)
  | pcall {old : OldState} (hentry : m.entry = .luaD_pcall old) (hlimit : m.limit = old.old_top)
      (hcount : weight m.rest = m.callers.length)

/-- The call is not left. -/
def Mark.Stays (m : Mark) (c : List Ctl) : Prop :=
  match m.entry with
  | .luaD_pcall _ => m.rest.length < c.length
  | _ => weight (m.entry :: m.rest) ≤ weight c

/-! ## The C stack -/

/-- The same activation, which may run more functions. -/
inductive Grows : Ctl → Ctl → Prop
  | refl (x : Ctl) : Grows x x
  | luaV_execute {a n : Nat} (h : a ≤ n) : Grows (.luaV_execute a) (.luaV_execute n)

/-- The C stack is that of the call with `xs` on top. -/
structure Mark.On (m : Mark) (xs : List Ctl) (e : Ctl) (c : List Ctl) : Prop where
  eq : c = xs ++ e :: m.rest
  grows : Grows m.entry e
  pcalls : ∀ old, .luaD_pcall old ∈ xs → m.limit ≤ old.old_top

def Mark.Holds (m : Mark) (c : List Ctl) : Prop := ∃ xs e, m.On xs e c

variable {m : Mark} {c c' : List Ctl}

theorem Mark.Ok.holds_entry (m : Mark) : m.Holds (m.entry :: m.rest) :=
  ⟨[], m.entry, rfl, .refl _, fun _ h => absurd h List.not_mem_nil⟩

theorem Grows.weight_le {e e' : Ctl} (h : Grows e e') (rest : List Ctl) :
    weight (e :: rest) ≤ weight (e' :: rest) := by
  cases h with
  | refl => exact Nat.le_refl _
  | luaV_execute h => exact Nat.add_le_add_right h _

theorem Mark.On.weight {xs : List Ctl} {e : Ctl} (h : m.On xs e c) :
    weight xs + weight (m.entry :: m.rest) ≤ weight c := by
  rw [h.eq, weight_append]
  exact Nat.add_le_add_left (h.grows.weight_le m.rest) _

theorem Mark.Holds.weight_le (h : m.Holds c) : weight (m.entry :: m.rest) ≤ weight c := by
  obtain ⟨xs, e, hon⟩ := h
  exact Nat.le_trans (Nat.le_add_left _ _) hon.weight

theorem Mark.Ok.count (hm : m.Ok) : weight (m.entry :: m.rest) = m.callers.length := by
  cases hm with
  | function _ _ hcount => exact hcount
  | pcall hentry _ hcount =>
    rw [hentry]
    exact hcount

/-- Something is put on top. -/
theorem Mark.On.push {xs : List Ctl} {e : Ctl} (h : m.On xs e c) (ys : List Ctl)
    (hpcalls : ∀ old, .luaD_pcall old ∈ ys → m.limit ≤ old.old_top) : m.On (ys ++ xs) e (ys ++ c) :=
  ⟨by rw [h.eq, List.append_assoc], h.grows,
    fun old hmem => (List.mem_append.1 hmem).elim (hpcalls old) (h.pcalls old)⟩

/-- The top is replaced by a code of the same kind. -/
theorem Mark.Holds.reenter {n n' : Nat} {rest : List Ctl} (h : m.Holds (.luaV_execute n :: rest))
    (hle : ∀ a, m.entry = .luaV_execute a → a ≤ n → rest = m.rest → a ≤ n') :
    m.Holds (.luaV_execute n' :: rest) := by
  obtain ⟨xs, e, hon⟩ := h
  cases xs with
  | nil =>
    obtain ⟨he, hrest⟩ := List.cons.inj hon.eq
    refine ⟨[], .luaV_execute n', by rw [hrest]; rfl, ?_, hon.pcalls⟩
    have hgrows := hon.grows
    rw [← he] at hgrows
    generalize hentry : m.entry = entry at hgrows
    cases hgrows with
    | refl => exact .luaV_execute (hle n hentry (Nat.le_refl _) hrest)
    | luaV_execute ha => exact .luaV_execute (hle _ hentry ha hrest)
  | cons x xs =>
    obtain ⟨rfl, hrest⟩ := List.cons.inj hon.eq
    exact ⟨.luaV_execute n' :: xs, e, by rw [hrest]; rfl, hon.grows,
      fun old hmem => hon.pcalls old
        (List.mem_cons_of_mem _ ((List.mem_cons.1 hmem).resolve_left (by rintro ⟨⟩)))⟩

theorem Mark.On.tail {x : Ctl} {xs : List Ctl} {e : Ctl} (h : m.On (x :: xs) e (x :: c)) :
    m.On xs e c :=
  ⟨(List.cons.inj h.eq).2, h.grows, fun old hmem => h.pcalls old (List.mem_cons_of_mem _ hmem)⟩

theorem holds_pushes (h : m.Holds c) (hp : Pushes c c') : m.Holds c' := by
  cases hp with
  | reenter => exact h.reenter fun _ _ ha _ => Nat.le_succ_of_le ha
  | op_call =>
    obtain ⟨xs, e, hon⟩ := h
    exact ⟨_, e, hon.push [.cfunction, .op_call _] fun old hmem => by simp at hmem⟩
  | @luaD_call lua c =>
    obtain ⟨xs, e, hon⟩ := h
    refine ⟨_, e, hon.push [if lua then .luaV_execute 1 else .cfunction, .luaD_call] fun old hmem => ?_⟩
    cases lua <;> simp at hmem
  | start =>
    obtain ⟨xs, e, hon⟩ := h
    exact absurd hon.eq.symm (List.append_ne_nil_of_right_ne_nil xs (List.cons_ne_nil _ _))

/-- A return that does not leave the call. -/
theorem holds_pops (hm : m.Ok) (h : m.Holds c) (hp : Pops c c') (hstay : m.Stays c') : m.Holds c' := by
  -- the code on top is not the one that the call was entered with
  have hleave {x y : Ctl} {rest : List Ctl} (hc : c = x :: y :: rest) (hc' : c' = rest)
      (hx : x = .luaV_execute 1 ∨ x = .cfunction) (hy : (∃ r, y = .op_call r) ∨ y = .luaD_call) :
      m.Holds rest := by
    obtain ⟨xs, e, hon⟩ := h
    rw [hc] at hon
    cases xs with
    | nil =>
      exfalso
      obtain ⟨hxe, hrest⟩ := List.cons.inj hon.eq
      have hwx : 0 < weight [m.entry] ∨ ∃ old, m.entry = .luaD_pcall old := by
        cases hm with
        | function hentry _ _ =>
          rcases hentry with ⟨n, hn, hpos⟩ | hn <;> rw [hn]
          · exact .inl hpos
          · exact .inl Nat.one_pos
        | pcall hentry _ _ => exact .inr ⟨_, hentry⟩
      have hgrows := hon.grows
      rw [← hxe] at hgrows
      rcases hwx with hpos | ⟨old, hold⟩
      · have hle : weight (m.entry :: m.rest) ≤ weight c' := by
          cases hm with
          | function hentry _ _ =>
            rw [Mark.Stays] at hstay
            rcases hentry with ⟨n, hn, -⟩ | hn <;> rw [hn] at hstay ⊢ <;> exact hstay
          | pcall hentry _ _ =>
            rw [hentry] at hpos
            exact absurd hpos (Nat.lt_irrefl 0)
        have hsplit : weight (m.entry :: m.rest) = weight [m.entry] + weight m.rest :=
          weight_append [m.entry] m.rest
        rw [hsplit, ← hrest, hc'] at hle
        have hy0 : weight (y :: rest) = weight rest := by
          rcases hy with ⟨r, rfl⟩ | rfl <;> rfl
        omega
      · rw [hold] at hgrows
        rcases hx with rfl | rfl <;> exact absurd hgrows (by rintro ⟨⟩)
    | cons x' xs =>
      cases xs with
      | nil =>
        exfalso
        have hye : y = e := (List.cons.inj (List.cons.inj hon.eq).2).1
        have hgrows := hon.grows
        rw [← hye] at hgrows
        cases hm with
        | function hentry _ _ =>
          rcases hentry with ⟨n, hn, -⟩ | hn <;> rw [hn] at hgrows <;>
            rcases hy with ⟨r, rfl⟩ | rfl <;> exact absurd hgrows (by rintro ⟨⟩)
        | pcall hentry _ _ =>
          rw [hentry] at hgrows
          rcases hy with ⟨r, rfl⟩ | rfl <;> exact absurd hgrows (by rintro ⟨⟩)
      | cons y' xs =>
        obtain ⟨rfl, htail⟩ := List.cons.inj hon.eq
        obtain ⟨rfl, -⟩ := List.cons.inj htail
        exact ⟨xs, e, hon.tail.tail⟩
  cases hp with
  | @back n rest hn =>
    refine h.reenter fun a ha hle hrest => ?_
    rw [Mark.Stays, ha] at hstay
    have hstay : a + weight m.rest ≤ n + weight rest := hstay
    rw [hrest] at hstay
    omega
  | op_call => exact hleave rfl rfl (.inr rfl) (.inl ⟨_, rfl⟩)
  | luaD_call hx => exact hleave rfl rfl hx (.inr rfl)
  | body =>
    exfalso
    obtain ⟨xs, e, hon⟩ := h
    cases xs with
    | nil =>
      obtain ⟨hxe, hrest⟩ := List.cons.inj hon.eq
      have hgrows := hon.grows
      rw [← hxe] at hgrows
      cases hm with
      | function hentry _ _ =>
        rcases hentry with ⟨n, hn, hpos⟩ | hn
        · rw [Mark.Stays, hn] at hstay
          have hstay : n + weight m.rest ≤ 0 := hstay
          omega
        · rw [hn] at hgrows
          exact absurd hgrows (by rintro ⟨⟩)
      | pcall hentry _ _ =>
        rw [hentry] at hgrows
        exact absurd hgrows (by rintro ⟨⟩)
    | cons x xs =>
      exact List.append_ne_nil_of_right_ne_nil xs (List.cons_ne_nil e m.rest)
        (List.cons.inj hon.eq).2.symm

/-- A protected call is begun or ended above the call. -/
theorem holds_protect {old : OldState} (h : m.Holds c) (hle : m.limit ≤ old.old_top) :
    m.Holds (.luaD_pcall old :: c) := by
  obtain ⟨xs, e, hon⟩ := h
  refine ⟨_, e, hon.push [.luaD_pcall old] fun old' hmem => ?_⟩
  rw [Ctl.luaD_pcall.inj (List.mem_singleton.1 hmem)]
  exact hle

theorem holds_unprotect {old : OldState} (hm : m.Ok) (h : m.Holds (.luaD_pcall old :: c))
    (hstay : m.Stays c) : m.Holds c := by
  obtain ⟨xs, e, hon⟩ := h
  cases xs with
  | nil =>
    exfalso
    obtain ⟨he, hrest⟩ := List.cons.inj hon.eq
    have hgrows := hon.grows
    rw [← he] at hgrows
    cases hm with
    | function hentry _ _ =>
      rcases hentry with ⟨n, hn, -⟩ | hn <;> rw [hn] at hgrows <;> exact absurd hgrows (by rintro ⟨⟩)
    | pcall hentry _ _ =>
      rw [Mark.Stays, hentry, hrest] at hstay
      exact absurd hstay (Nat.lt_irrefl _)
  | cons x xs =>
    obtain ⟨rfl, -⟩ := List.cons.inj hon.eq
    exact ⟨xs, e, hon.tail⟩

/-- An error that is caught above the call. -/
theorem holds_throw {old : OldState} (hm : m.Ok) (h : m.Holds c) (hjmp : errorJmp c = some (old, c'))
    (hstay : m.Stays c') : m.Holds c' ∧ m.limit ≤ old.old_top := by
  obtain ⟨xs, e, hon⟩ := h
  have hsuffix := errorJmp_suffix hjmp
  rw [hon.eq] at hsuffix
  have hle : (e :: m.rest).length ≤ c'.length := by
    by_contra hlt
    have hrest : c' <:+ m.rest := List.suffix_of_suffix_length_le
      ((List.suffix_cons _ _).trans hsuffix)
      ((List.suffix_cons e m.rest).trans (List.suffix_append xs _))
      (by rw [List.length_cons] at hlt; omega)
    obtain ⟨zs, hzs⟩ := hrest
    have hweight : weight c' ≤ weight m.rest := by
      rw [← hzs, weight_append]
      exact Nat.le_add_left _ _
    have hlength : c'.length ≤ m.rest.length := by
      rw [← hzs, List.length_append]
      exact Nat.le_add_left _ _
    cases hm with
    | function hentry _ _ =>
      rcases hentry with ⟨n, hn, hpos⟩ | hn <;> rw [Mark.Stays, hn] at hstay
      · have hstay : n + weight m.rest ≤ weight c' := hstay
        omega
      · have hstay : 1 + weight m.rest ≤ weight c' := hstay
        omega
    | pcall hentry _ _ =>
      rw [Mark.Stays, hentry] at hstay
      exact absurd hlength (Nat.not_le_of_lt hstay)
  obtain ⟨ys, hys⟩ : e :: m.rest <:+ c' := List.suffix_of_suffix_length_le
    (List.suffix_append xs _) ((List.suffix_cons _ _).trans hsuffix) hle
  obtain ⟨zs, hzs⟩ := hsuffix
  have happ : xs ++ e :: m.rest = (zs ++ .luaD_pcall old :: ys) ++ e :: m.rest := by
    rw [← hzs, ← hys, List.append_assoc, List.cons_append]
  have hxs : xs = zs ++ .luaD_pcall old :: ys := List.append_cancel_right happ
  have hmem (x : Ctl) (hx : x ∈ ys) : x ∈ xs := by
    rw [hxs]
    exact List.mem_append_right _ (List.mem_cons_of_mem _ hx)
  refine ⟨⟨ys, e, hys.symm, hon.grows, fun old hx => hon.pcalls old (hmem _ hx)⟩, hon.pcalls old ?_⟩
  rw [hxs]
  exact List.mem_append_right _ List.mem_cons_self

/-! ## The frames -/

/-- The frame of the call: it keeps its place, and is left to the callee of a tail call. -/
structure Mark.Frame (m : Mark) (f : CallInfo) : Prop where
  func : f.func = m.frame.func
  nresults : f.nresults = m.frame.nresults
  base : ∀ old, m.entry = .luaD_pcall old → f.base = m.frame.base

/-- Only frames from the limit on are above that of the call. -/
structure Mark.Over (m : Mark) (inner : List CallInfo) (f : CallInfo) (frames : List CallInfo) :
    Prop where
  eq : frames = inner ++ f :: m.callers
  frame : m.Frame f
  above : ∀ g ∈ inner, m.limit ≤ g.func

def Mark.Frames (m : Mark) (frames : List CallInfo) : Prop := ∃ inner f, m.Over inner f frames

theorem Mark.Frame.like {f f' : CallInfo} (h : m.Frame f) (hl : Like f f') : m.Frame f' :=
  ⟨hl.func.trans h.func, hl.nresults.trans h.nresults, fun old he => hl.base.trans (h.base old he)⟩

theorem Mark.Frames.like {g g' : CallInfo} {fs : List CallInfo} (h : m.Frames (g :: fs))
    (hl : Like g g') : m.Frames (g' :: fs) := by
  obtain ⟨inner, f, hover⟩ := h
  cases inner with
  | nil =>
    obtain ⟨rfl, hfs⟩ := List.cons.inj hover.eq
    exact ⟨[], g', by rw [hfs]; rfl, hover.frame.like hl, hover.above⟩
  | cons x inner =>
    obtain ⟨rfl, hfs⟩ := List.cons.inj hover.eq
    refine ⟨g' :: inner, f, by rw [hfs]; rfl, hover.frame, fun y hy => ?_⟩
    rcases List.mem_cons.1 hy with rfl | hy
    · rw [hl.func]
      exact hover.above g List.mem_cons_self
    · exact hover.above y (List.mem_cons_of_mem _ hy)

theorem Mark.Frames.push {g : CallInfo} {fs : List CallInfo} (h : m.Frames fs)
    (hg : m.limit ≤ g.func) : m.Frames (g :: fs) := by
  obtain ⟨inner, f, hover⟩ := h
  refine ⟨g :: inner, f, by rw [hover.eq]; rfl, hover.frame, fun y hy => ?_⟩
  rcases List.mem_cons.1 hy with rfl | hy
  · exact hg
  · exact hover.above y hy

theorem Mark.Frames.suffix {fs fs' : List CallInfo} (h : m.Frames fs) (hs : fs' <:+ fs)
    (hlen : m.callers.length < fs'.length) : m.Frames fs' := by
  obtain ⟨inner, f, hover⟩ := h
  rw [hover.eq] at hs
  obtain ⟨ys, hys⟩ : f :: m.callers <:+ fs' :=
    List.suffix_of_suffix_length_le (List.suffix_append inner _) hs hlen
  obtain ⟨zs, hzs⟩ := hs
  have happ : inner ++ f :: m.callers = (zs ++ ys) ++ f :: m.callers := by
    rw [← hzs, ← hys, List.append_assoc]
  have hinner : inner = zs ++ ys := List.append_cancel_right happ
  exact ⟨ys, f, hys.symm, hover.frame,
    fun g hg => hover.above g (by rw [hinner]; exact List.mem_append_right _ hg)⟩

/-- The code that runs is a protected call, or runs a frame. -/
theorem Stacked.head {x : Ctl} {xs : List Ctl} (h : Stacked c) (hc : c = x :: xs) :
    (∃ old, x = .luaD_pcall old) ∨ 0 < weight [x] := by
  cases h with
  | idle => cases hc
  | body hn =>
    obtain ⟨rfl, -⟩ := List.cons.inj hc
    exact .inr hn
  | execute hn _ =>
    obtain ⟨rfl, -⟩ := List.cons.inj hc
    exact .inr hn
  | called _ =>
    obtain ⟨rfl, -⟩ := List.cons.inj hc
    exact .inr Nat.one_pos
  | cfunction _ =>
    obtain ⟨rfl, -⟩ := List.cons.inj hc
    exact .inr Nat.one_pos
  | pcall _ =>
    obtain ⟨rfl, -⟩ := List.cons.inj hc
    exact .inl ⟨_, rfl⟩

/-! ## The call and what is below it -/

structure Mark.Above (m : Mark) (below : Nat → V) (uvs : List OpenUpval) (s : State V) : Prop where
  ctl : m.Holds s.ctl
  frames : m.Frames (s.ci :: s.callers)
  slots : ∀ j < m.limit, s.stack j = below j
  upvals : s.openupval.filter (·.v < m.limit) = uvs

variable {below : Nat → V} {uvs : List OpenUpval} {s s' : State V}

/-- The function that runs is the one of the call, or was called above it. -/
theorem Mark.Above.limit_le_func (hm : m.Ok) (hw : Wf s) (h : m.Above below uvs s)
    (hctl : ∀ old rest, s.ctl ≠ .luaD_pcall old :: rest) :
    m.limit ≤ s.ci.func ∧
      ((∃ old, m.entry = .luaD_pcall old) → m.callers.length < s.callers.length) := by
  obtain ⟨inner, f, hover⟩ := h.frames
  cases inner with
  | cons g inner =>
    obtain ⟨hg, hfs⟩ := List.cons.inj hover.eq
    refine ⟨hg ▸ hover.above g List.mem_cons_self, fun _ => ?_⟩
    have hlen : s.callers.length = inner.length + (m.callers.length + 1) := by
      rw [hfs]
      exact List.length_append
    omega
  | nil =>
    obtain ⟨hf, hfs⟩ := List.cons.inj hover.eq
    cases hm with
    | function hentry hlimit _ =>
      refine ⟨?_, fun ⟨old, hold⟩ => ?_⟩
      · rw [hlimit, hf, hover.frame.func]
      · rcases hentry with ⟨n, hn, -⟩ | hn <;> rw [hn] at hold <;> exact absurd hold (by rintro ⟨⟩)
    | pcall hentry _ hcount =>
      -- the code on top of the protected call has a frame of its own
      exfalso
      obtain ⟨xs, e, hon⟩ := h.ctl
      have hgrows := hon.grows
      rw [hentry] at hgrows
      obtain rfl : e = m.entry := by
        rw [hentry]
        cases hgrows with
        | refl => rfl
      have hweight := hon.weight
      rw [hw.weight, hfs, hentry] at hweight
      have hzero : Control.weight xs = 0 := by
        have hle : Control.weight xs + Control.weight m.rest ≤ m.callers.length := hweight
        omega
      cases xs with
      | nil => exact hctl _ _ (by rw [hon.eq, hentry]; rfl)
      | cons x xs =>
        obtain ⟨old', rfl⟩ | hpos := hw.stacked.head hon.eq
        · exact hctl _ _ hon.eq
        · have hsplit : Control.weight (x :: xs) = Control.weight [x] + Control.weight xs :=
            weight_append [x] xs
          omega

theorem Mark.Above.limit_le_floor (hm : m.Ok) (hw : Wf s) (h : m.Above below uvs s) :
    m.limit ≤ s.floor := by
  by_cases hctl : ∃ old rest, s.ctl = .luaD_pcall old :: rest
  · obtain ⟨old, rest, hctl⟩ := hctl
    obtain ⟨xs, e, hon⟩ := h.ctl
    rw [State.floor, hctl]
    rw [hctl] at hon
    cases xs with
    | nil =>
      obtain ⟨he, -⟩ := List.cons.inj hon.eq
      have hgrows := hon.grows
      rw [← he] at hgrows
      cases hm with
      | function hentry _ _ =>
        rcases hentry with ⟨n, hn, -⟩ | hn <;> rw [hn] at hgrows <;> exact absurd hgrows (by rintro ⟨⟩)
      | pcall hentry hlimit _ =>
        rw [hentry] at hgrows
        cases hgrows with
        | refl => exact Nat.le_of_eq hlimit
    | cons x xs =>
      obtain ⟨rfl, -⟩ := List.cons.inj hon.eq
      exact hon.pcalls old List.mem_cons_self
  · have hfloor : s.floor = s.base := by
      unfold State.floor
      split
      · rename_i hc
        exact absurd ⟨_, _, hc⟩ hctl
      · rfl
    rw [hfloor]
    exact Nat.le_trans (h.limit_le_func hm hw fun old rest hc => hctl ⟨old, rest, hc⟩).1
      (Nat.le_of_lt hw.func_lt)

/-! ## What changes below -/

/-- The values of the slots below a call, after an event. -/
def Event.update (below : Nat → V) : Event V → Nat → V
  | .assign slot v => Function.update below slot v
  | _ => below

theorem Event.Quiet.update {e : Event V} (he : e.Quiet) : e.update below = below := by
  cases e with
  | assign slot v => exact he.elim
  | _ => rfl

/-- The open upvalues below a call, after an event. -/
def Event.keep (uvs : List OpenUpval) : Event V → List OpenUpval
  | .sweep dead => uvs.filter (!dead ·.id)
  | _ => uvs

theorem Event.Quiet.keep {e : Event V} (he : e.Quiet) : e.keep uvs = uvs := by
  cases e with
  | sweep dead => exact he.elim
  | _ => rfl

/-- The values of the slots after some events. -/
def assigned (below : Nat → V) (events : List (Event V)) : Nat → V := events.foldl Event.update below

/-- The upvalues that the collector has not freed. -/
def unswept (uvs : List OpenUpval) (events : List (Event V)) : List OpenUpval :=
  events.foldl Event.keep uvs

/-! ## Steps and runs -/

/-- A step that does not leave the call keeps what is below it, but for what is assigned or freed. -/
theorem Mark.Above.step (hm : m.Ok) (hw : Wf s) (h : m.Above below uvs s) {e : Event V}
    (hstep : Step env s e s') (hstay : m.Stays s'.ctl) : m.Above (e.update below) (e.keep uvs) s' := by
  obtain ⟨hw', heffect⟩ := step_spec hw hstep
  have hfloor := h.limit_le_floor hm hw
  cases heffect with
  | assign hslots hopen hci hcallers hctl =>
    refine ⟨hctl ▸ h.ctl, by rw [hci, hcallers]; exact h.frames, fun j hj => ?_,
      by rw [hopen]; exact h.upvals⟩
    rw [hslots]
    show _ = Function.update below _ _ j
    split_ifs with he
    · rw [he, Function.update_self]
    · rw [Function.update_of_ne he]
      exact h.slots j hj
  | stay he hlike hcallers hctl hk =>
    rw [he.update, he.keep]
    refine ⟨?_, by rw [hcallers]; exact h.frames.like hlike, fun j hj => ?_, ?_⟩
    · rcases hctl with hctl | ⟨old, hctl, hle⟩ | ⟨old, hctl⟩
      · exact hctl ▸ h.ctl
      · exact hctl ▸ holds_protect h.ctl (Nat.le_trans hfloor hle)
      · exact holds_unprotect hm (hctl ▸ h.ctl) hstay
    · exact (hk.slots j (Nat.lt_of_lt_of_le hj hfloor)).trans (h.slots j hj)
    · exact (hk.upvals _ hfloor).trans h.upvals
  | sweep hopen hstack hci hcallers hctl =>
    refine ⟨hctl ▸ h.ctl, by rw [hci, hcallers]; exact h.frames, fun j hj => ?_, ?_⟩
    · rw [hstack]
      exact h.slots j hj
    · show _ = uvs.filter _
      rw [hopen, ← h.upvals, List.filter_filter, List.filter_filter]
      exact List.filter_congr fun uv _ => Bool.and_comm _ _
  | enter hcallers hfunc hnresults hle hctl hk =>
    have hlimit := Nat.le_trans hfloor hle
    refine ⟨holds_pushes h.ctl hctl, ?_, fun j hj => ?_, (hk.upvals _ hlimit).trans h.upvals⟩
    · rw [hcallers]
      exact Mark.Frames.push (h.frames.like ⟨rfl, rfl, rfl⟩) (by rw [hfunc]; exact hlimit)
    · exact (hk.slots j (Nat.lt_of_lt_of_le hj hlimit)).trans (h.slots j hj)
  | tailcall hfunc hnresults hcallers hexec hctl hk =>
    obtain ⟨hlimit, hpcall⟩ := h.limit_le_func hm hw fun old rest hc => by
      rw [hexec] at hc
      cases hc
    refine ⟨hctl ▸ h.ctl, ?_, fun j hj => ?_, (hk.upvals _ hlimit).trans h.upvals⟩
    · obtain ⟨inner, f, hover⟩ := h.frames
      rw [hcallers]
      cases inner with
      | nil =>
        obtain ⟨hf, hfs⟩ := List.cons.inj hover.eq
        refine ⟨[], s'.ci, by rw [hfs]; rfl, ⟨?_, ?_, fun old hold => ?_⟩, hover.above⟩
        · rw [hfunc, hf]
          exact hover.frame.func
        · rw [hnresults, hf]
          exact hover.frame.nresults
        · have hlt := hpcall ⟨old, hold⟩
          rw [hfs] at hlt
          exact absurd hlt (Nat.lt_irrefl _)
      | cons g inner =>
        obtain ⟨hg, hfs⟩ := List.cons.inj hover.eq
        refine ⟨s'.ci :: inner, f, by rw [hfs]; rfl, hover.frame, fun y hy => ?_⟩
        rcases List.mem_cons.1 hy with rfl | hy
        · rw [hfunc, hg]
          exact hover.above g List.mem_cons_self
        · exact hover.above y (List.mem_cons_of_mem _ hy)
    · exact (hk.slots j (Nat.lt_of_lt_of_le hj hlimit)).trans (h.slots j hj)
  | leave hl =>
    have hholds := holds_pops hm h.ctl hl.ctl hstay
    have hlen : m.callers.length ≤ s'.callers.length := by
      rw [← hm.count, ← hw'.weight]
      exact hholds.weight_le
    have hframes : m.Frames (s'.ci :: s'.callers) := by
      refine h.frames.suffix ?_ (Nat.lt_succ_of_le hlen)
      rw [← hl.callers]
      exact List.suffix_cons _ _
    have hlimit : m.limit ≤ s.ci.func := by
      refine (h.limit_le_func hm hw fun old rest hc => ?_).1
      have hpops := hl.ctl
      rw [hc] at hpops
      cases hpops with
      | luaD_call hx => rcases hx with hx | hx <;> cases hx
    exact ⟨hholds, hframes,
      fun j hj => (hl.below.slots j (Nat.lt_of_lt_of_le hj hlimit)).trans (h.slots j hj),
      (hl.below.upvals _ hlimit).trans h.upvals⟩
  | unwind hjmp hframes hk =>
    obtain ⟨hholds, hold⟩ := holds_throw hm h.ctl hjmp hstay
    have hlen : m.callers.length ≤ s'.callers.length := by
      rw [← hm.count, ← hw'.weight]
      exact hholds.weight_le
    refine ⟨hholds, ?_, fun j hj => ?_, (hk.upvals _ hold).trans h.upvals⟩
    · refine h.frames.suffix ?_ (Nat.lt_succ_of_le hlen)
      rw [hframes, restoreci]
      exact List.drop_suffix _ _
    · exact (hk.slots j (Nat.lt_of_lt_of_le hj hold)).trans (h.slots j hj)

/-- A run in which every state has a property. -/
inductive Run (env : Host V) (good : State V → Prop) : State V → List (Event V) → State V → Prop
  | refl (s : State V) : Run env good s [] s
  | step {s s' s'' : State V} {e : Event V} {events : List (Event V)} (h : Step env s e s')
      (hgood : good s') (hr : Run env good s' events s'') : Run env good s (e :: events) s''

theorem Run.snoc {good : State V → Prop} {events : List (Event V)} {s'' : State V} {e : Event V}
    (hr : Run env good s events s') (h : Step env s' e s'') (hgood : good s'') :
    Run env good s (events ++ [e]) s'' := by
  induction hr with
  | refl s => exact .step h hgood (.refl _)
  | step hstep hgood' _ ih => exact .step hstep hgood' (ih h)

theorem Mark.Above.run (hm : m.Ok) {good : State V → Prop} (hstays : ∀ s, Wf s → good s → m.Stays s.ctl)
    {events : List (Event V)} (hr : Run env good s events s') (hw : Wf s) (h : m.Above below uvs s) :
    Wf s' ∧ m.Above (assigned below events) (unswept uvs events) s' := by
  induction hr generalizing below uvs with
  | refl s => exact ⟨hw, h⟩
  | step hstep hgood _ ih =>
    have hw' := (step_spec hw hstep).1
    exact ih hw' (h.step hm hw hstep (hstays _ hw' hgood))

end Luaxx.Control
