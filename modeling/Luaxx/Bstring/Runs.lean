import Luaxx.Bstring.Refinement
import Mathlib.Logic.Function.Basic

/-!
# Runs of calls

Any number of bstrings, each with a name, under any sequence of calls. A name without a bstring is
`NULL`. The same calls on lists say what the bytes are to be.
-/

namespace Luaxx.Bstr

/-! ## Calls -/

inductive Op (ν : Type) where
  | bfromcstr (h : ν) (s : CString)
  | bfromcstralloc (h : ν) (mlen : Int) (s : CString)
  | bconchar (h : ν) (c : UInt8)
  | bcatcstr (h : ν) (s : CString)
  | bcatblk (h : ν) (s : List UInt8) (len : Int)
  | bconcat (h h' : ν)
  | btrunc (h : ν) (n : Int)
  | bdelete (h : ν) (pos len : Int)

abbrev Store (ν : Type) := ν → Option Bstring

abbrev Lists (ν : Type) := ν → Option (List UInt8)

section

variable {ν : Type} [DecidableEq ν]

/-- A call with a bstring that is changed. -/
def call (σ : Store ν) (h : ν) (f : Bstring → Option (Int × Bstring)) : Option (Int × Store ν) :=
  match σ h with
  | none => some (BSTR_ERR, σ)
  | some b => do
    let (code, b) ← f b
    return (code, Function.update σ h (some b))

def create (σ : Store ν) (h : ν) (r : Option (Option Bstring)) : Option (Int × Store ν) := do
  let b ← r
  return (BSTR_OK, Function.update σ h b)

def Op.exec (σ : Store ν) : Op ν → Option (Int × Store ν)
  | bfromcstr h s => create σ h (Bstr.bfromcstr s)
  | bfromcstralloc h mlen s => create σ h (Bstr.bfromcstralloc mlen s)
  | bconchar h c => call σ h (Bstr.bconchar · c)
  | bcatcstr h s => call σ h (Bstr.bcatcstr · s)
  | bcatblk h s len => call σ h (Bstr.bcatblk · s len)
  | bconcat h h' => call σ h fun b0 =>
    match σ h' with
    | none => some (BSTR_ERR, b0)
    | some b1 => Bstr.bconcat b0 b1 (h = h')
  | btrunc h n => call σ h (Bstr.btrunc · n)
  | bdelete h pos len => call σ h (Bstr.bdelete · pos len)

def run (σ : Store ν) : List (Op ν) → Option (Store ν)
  | [] => some σ
  | op :: ops => do
    let (_, σ) ← op.exec σ
    run σ ops

/-- What the call is to do to the bytes. -/
def Op.apply (τ : Lists ν) : Op ν → Lists ν
  | bfromcstr h s => Function.update τ h (some s.val)
  | bfromcstralloc h _ s => Function.update τ h (some s.val)
  | bconchar h c => Function.update τ h ((τ h).map (· ++ [c]))
  | bcatcstr h s => Function.update τ h ((τ h).map (· ++ s.val))
  | bcatblk h s len => Function.update τ h ((τ h).map (· ++ s.take len.toNat))
  | bconcat h h' => Function.update τ h ((τ h).map (· ++ (τ h').getD []))
  | btrunc h n => Function.update τ h ((τ h).map (List.take n.toNat))
  | bdelete h pos len => Function.update τ h ((τ h).map (without · pos.toNat len.toNat))

def applyAll (τ : Lists ν) : List (Op ν) → Lists ν
  | [] => τ
  | op :: ops => applyAll (op.apply τ) ops

end

/-- The arguments are in range. -/
def Op.ArgsInRange {ν : Type} : Op ν → Prop
  | bfromcstralloc _ mlen _ => mlen < 2 ^ 31
  | bcatblk _ s len => 0 ≤ len ∧ len ≤ s.length
  | btrunc _ n => 0 ≤ n
  | bdelete _ pos len => 0 ≤ pos ∧ 0 ≤ len ∧ pos + len < 2 ^ 31
  | _ => True

variable {ν : Type} [DecidableEq ν]

/-- So are those of all calls, and no list becomes longer than 2^30 - 1. -/
def InRange (τ : Lists ν) : List (Op ν) → Prop
  | [] => True
  | op :: ops => op.ArgsInRange ∧ (∀ h l, op.apply τ h = some l → l.length < 2 ^ 30) ∧
    InRange (op.apply τ) ops

/-- Every name stands for its list. -/
def Refines (σ : Store ν) (τ : Lists ν) : Prop := ∀ h, Option.Rel Represents (σ h) (τ h)

/-! ## One call -/

variable {σ : Store ν} {τ : Lists ν}

theorem Refines.update (hr : Refines σ τ) (h : ν) {b : Bstring} {l : List UInt8}
    (hb : Represents b l) : Refines (Function.update σ h (some b)) (Function.update τ h (some l)) := by
  intro h'
  by_cases heq : h' = h
  · rw [heq, Function.update_self, Function.update_self]
    exact .some hb
  · rw [Function.update_of_ne heq, Function.update_of_ne heq]
    exact hr h'

theorem refines_create (hr : Refines σ τ) (h : ν) {r : Option (Option Bstring)} {l : List UInt8}
    (hcreate : ∃ b, r = some (some b) ∧ Represents b l) :
    ∃ code σ', create σ h r = some (code, σ') ∧ Refines σ' (Function.update τ h (some l)) := by
  obtain ⟨b, rfl, hb⟩ := hcreate
  exact ⟨_, _, rfl, hr.update h hb⟩

/-- A call that does to the bytes of one string what it is to do. -/
theorem refines_call (hr : Refines σ τ) (h : ν) {f : Bstring → Option (Int × Bstring)}
    {g : List UInt8 → List UInt8}
    (hspec : ∀ b l, τ h = some l → Represents b l →
      ∃ code b', f b = some (code, b') ∧ Represents b' (g l)) :
    ∃ code σ', call σ h f = some (code, σ') ∧ Refines σ' (Function.update τ h ((τ h).map g)) := by
  have hrel := hr h
  rw [call]
  cases hb : σ h with
  | none =>
    rw [hb] at hrel
    cases hl : τ h with
    | some l =>
      rw [hl] at hrel
      cases hrel
    | none =>
      refine ⟨BSTR_ERR, σ, rfl, ?_⟩
      rw [Option.map_none, ← hl, Function.update_eq_self]
      exact hr
  | some b =>
    rw [hb] at hrel
    cases hl : τ h with
    | none =>
      rw [hl] at hrel
      cases hrel
    | some l =>
      rw [hl] at hrel
      cases hrel with
      | some hbl =>
        obtain ⟨code, b', hf, hb'⟩ := hspec b l hl hbl
        refine ⟨code, Function.update σ h (some b'), ?_, hr.update h hb'⟩
        show (f b >>= _) = _
        rw [hf]
        rfl

theorem exec_refines (hr : Refines σ τ) (op : Op ν) (hargs : op.ArgsInRange)
    (hlen : ∀ h l, op.apply τ h = some l → l.length < 2 ^ 30) :
    ∃ code σ', op.exec σ = some (code, σ') ∧ Refines σ' (op.apply τ) := by
  -- the list after the call is short
  have hafter : ∀ h (g : List UInt8 → List UInt8), op.apply τ = Function.update τ h ((τ h).map g) →
      ∀ l, τ h = some l → (g l).length < 2 ^ 30 := by
    intro h g heq l hl
    apply hlen h
    rw [heq, Function.update_self, hl]
    rfl
  have hnew : ∀ h (s : CString), op.apply τ = Function.update τ h (some s.val) →
      s.val.length + 2 < 2 ^ 31 := by
    intro h s heq
    have hlt := hlen h s.val (by rw [heq, Function.update_self])
    omega
  cases op with
  | bfromcstr h s => exact refines_create hr h (bfromcstr_spec s (hnew h s rfl))
  | bfromcstralloc h mlen s =>
    exact refines_create hr h (bfromcstralloc_spec s (hnew h s rfl) hargs)
  | bconchar h c =>
    refine refines_call hr h fun b l hl hb => ⟨_, bconchar_spec hb ?_ c⟩
    have hlt := hafter h _ rfl l hl
    rw [List.length_append, List.length_singleton] at hlt
    omega
  | bcatcstr h s =>
    refine refines_call hr h fun b l hl hb => ⟨_, bcatcstr_spec hb s ?_⟩
    have hlt := hafter h _ rfl l hl
    rw [List.length_append] at hlt
    omega
  | bcatblk h s len =>
    refine refines_call hr h fun b l hl hb => ⟨_, bcatblk_spec hb s hargs.1 hargs.2 ?_⟩
    have hlt := hafter h _ rfl l hl
    have htake : (s.take len.toNat).length = len.toNat := by
      apply List.length_take_of_le
      have hle := hargs.2
      omega
    have hnonneg := hargs.1
    rw [List.length_append, htake] at hlt
    omega
  | bconcat h h' =>
    refine refines_call hr h fun b l hl hb => ?_
    have hrel := hr h'
    have hlt := hafter h _ rfl l hl
    generalize σ h' = b1, τ h' = l1 at hrel hlt
    cases hrel with
    | none =>
      refine ⟨BSTR_ERR, b, rfl, ?_⟩
      show Represents b (l ++ [])
      rw [List.append_nil]
      exact hb
    | @some b1 l1 hb1 =>
      rw [List.length_append] at hlt
      have hlt : l.length + l1.length < 2 ^ 30 := hlt
      exact ⟨_, bconcat_spec hb.holds hb1.slen hb1.holds.starts (by omega) _⟩
  | btrunc h n => exact refines_call hr h fun b l _ hb => ⟨_, btrunc_spec hb hargs⟩
  | bdelete h pos len =>
    exact refines_call hr h fun b l _ hb => ⟨_, bdelete_spec hb hargs.1 hargs.2.1 hargs.2.2⟩

/-! ## Runs -/

theorem run_refines (hr : Refines σ τ) {ops : List (Op ν)} (h : InRange τ ops) :
    ∃ σ', run σ ops = some σ' ∧ Refines σ' (applyAll τ ops) := by
  induction ops generalizing σ τ with
  | nil => exact ⟨σ, rfl, hr⟩
  | cons op ops ih =>
    obtain ⟨hargs, hlen, hrest⟩ := h
    obtain ⟨code, σ₁, hexec, hr₁⟩ := exec_refines hr op hargs hlen
    obtain ⟨σ', hrun, hr'⟩ := ih hr₁ hrest
    refine ⟨σ', ?_, hr'⟩
    rw [run, hexec]
    exact hrun

theorem inRange_append {ops ops' : List (Op ν)} (h : InRange τ (ops ++ ops')) : InRange τ ops := by
  induction ops generalizing τ with
  | nil => trivial
  | cons op ops ih => exact ⟨h.1, h.2.1, ih h.2.2⟩

/-- No call of a run accesses a block outside of its bounds, and after each of them every bstring
is its list of bytes, with the zero byte within its capacity. -/
theorem bstring_refines_lists {ops : List (Op ν)} (h : InRange (fun _ => none) ops) :
    ∀ ops', ops' <+: ops → ∃ σ, run (fun _ => none) ops' = some σ ∧
      ∀ h, Option.Rel (fun b l => b.slen = l.length ∧ b.data.take l.length = l.map some ∧
        b.mlen = b.data.length ∧ 0 ≤ b.slen ∧ b.slen < b.mlen ∧
        b.data[b.slen.toNat]? = some (some 0))
        (σ h) (applyAll (fun _ => none) ops' h) := by
  rintro ops' ⟨rest, rfl⟩
  have hempty : Refines (ν := ν) (fun _ => none) (fun _ => none) := fun _ => .none
  obtain ⟨σ, hrun, hr⟩ := run_refines hempty (inRange_append h)
  refine ⟨σ, hrun, fun h => ?_⟩
  have hrel := hr h
  generalize σ h = b, applyAll (fun _ => none) ops' h = l at hrel
  cases hrel with
  | none => exact .none
  | some hb =>
    have htake := hb.holds.starts.take_eq (Nat.le_refl _)
    rw [List.take_length] at htake
    exact .some ⟨hb.slen, htake, hb.mlen, hb.bounds⟩

/-- A string that is appended to itself, and cut. -/
theorem bstring_refines_lists_self :
    let ops : List (Op Unit) := [.bfromcstr () ⟨[97, 98], by decide⟩, .bconcat () (), .btrunc () 3]
    ∀ ops', ops' <+: ops → ∃ σ, run (fun _ => none) ops' = some σ ∧
      ∀ h, Option.Rel (fun b l => b.slen = l.length ∧ b.data.take l.length = l.map some ∧
        b.mlen = b.data.length ∧ 0 ≤ b.slen ∧ b.slen < b.mlen ∧
        b.data[b.slen.toNat]? = some (some 0))
        (σ h) (applyAll (fun _ => none) ops' h) := by
  intro ops
  apply bstring_refines_lists
  refine ⟨trivial, ?_, trivial, ?_, by show (0 : Int) ≤ 3; decide, ?_, trivial⟩
  · intro h l hl
    cases hl
    decide
  · intro h l hl
    cases hl
    decide
  · intro h l hl
    cases hl
    decide

end Luaxx.Bstr
