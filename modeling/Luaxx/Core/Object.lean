import Mathlib.Tactic.Common
import Mathlib.Tactic.Ring

/-!
# Function prototypes (`lobject.h`)

The data every later stage shares: strings, constants and `Proto`. A `TString *` that may be
`NULL` is an `Option`. A `lua_Number` is kept as its 64 bits; nothing at this level computes
with it. The size fields of `Proto` are kept beside the arrays they are meant to describe, since
it is a property of the loader and of the compiler that they agree (`Proto.Sized`).
-/

namespace Luaxx

/-- The bytes of a `TString`, without the terminating NUL. -/
abbrev TString := List UInt8

/-- A word of code. -/
abbrev Instruction := UInt32

/-- A `TValue` that can stand in a constant table; `string none` has the tag of a string and a
`NULL` pointer. -/
inductive Constant where
  | nil
  | boolean (b : Bool)
  | number (n : UInt64)
  | string (s : Option TString)
  deriving DecidableEq, Repr

/-- `ttisstring`: only the tag is looked at. -/
def Constant.ttisstring : Constant → Bool
  | .string _ => true
  | _ => false

structure LocVar where
  varname : Option TString
  startpc : Int
  endpc : Int
  deriving DecidableEq, Repr

structure Proto where
  k : List Constant
  code : List Instruction
  p : List Proto
  lineinfo : List Int
  locvars : List LocVar
  upvalues : List (Option TString)
  source : Option TString
  sizeupvalues : Int
  sizek : Int
  sizecode : Int
  sizelineinfo : Int
  sizep : Int
  sizelocvars : Int
  linedefined : Int
  lastlinedefined : Int
  nups : UInt8
  numparams : UInt8
  is_vararg : UInt8
  maxstacksize : UInt8
  deriving Repr

def VARARG_HASARG : UInt8 := 1
def VARARG_ISVARARG : UInt8 := 2
def VARARG_NEEDSARG : UInt8 := 4

/-- `MAXSTACK` of `llimits.h`: maximum stack for a Lua function. -/
def MAXSTACK : Nat := 250

namespace Proto

/-- The size fields of one prototype are the lengths of its arrays. -/
structure Sized (f : Proto) : Prop where
  sizeupvalues : f.sizeupvalues = f.upvalues.length
  sizek : f.sizek = f.k.length
  sizecode : f.sizecode = f.code.length
  sizelineinfo : f.sizelineinfo = f.lineinfo.length
  sizep : f.sizep = f.p.length
  sizelocvars : f.sizelocvars = f.locvars.length

mutual
/-- A property of a prototype and of every function nested in it. -/
def Forall (P : Proto → Prop) : Proto → Prop
  | f@⟨_, _, p, _, _, _, _, _, _, _, _, _, _, _, _, _, _, _, _⟩ => P f ∧ ForallIn P p
/-- The same for the functions of a list. -/
def ForallIn (P : Proto → Prop) : List Proto → Prop
  | [] => True
  | f :: fs => Forall P f ∧ ForallIn P fs
end

mutual
/-- The number of functions on the longest chain of nested functions. -/
def depth : Proto → Nat
  | ⟨_, _, p, _, _, _, _, _, _, _, _, _, _, _, _, _, _, _, _⟩ => depthIn p + 1
def depthIn : List Proto → Nat
  | [] => 0
  | f :: fs => max (depth f) (depthIn fs)
end

/-- Induction over the nesting of functions. -/
theorem nested_induction {P : Proto → Prop} (h : ∀ f : Proto, (∀ g ∈ f.p, P g) → P f) :
    ∀ f, P f := by
  intro f
  refine h f fun g hg => ?_
  have hlt : sizeOf g < sizeOf f := by
    have := List.sizeOf_lt_of_mem hg
    cases f
    simp only at this
    simp only [mk.sizeOf_spec]
    omega
  exact nested_induction h g
termination_by f => sizeOf f

theorem forall_iff {P : Proto → Prop} (f : Proto) : Forall P f ↔ P f ∧ ForallIn P f.p := by
  cases f
  rfl

theorem forallIn_iff {P : Proto → Prop} (fs : List Proto) :
    ForallIn P fs ↔ ∀ f ∈ fs, Forall P f := by
  induction fs with
  | nil => simp [ForallIn]
  | cons f fs ih => simp [ForallIn, ih]

theorem depth_eq (f : Proto) : depth f = depthIn f.p + 1 := by
  cases f
  rfl

theorem depthIn_le {fs : List Proto} {n : Nat} : depthIn fs ≤ n ↔ ∀ f ∈ fs, depth f ≤ n := by
  induction fs with
  | nil => simp [depthIn]
  | cons f fs ih => rw [depthIn, Nat.max_le, ih, List.forall_mem_cons]

end Proto

end Luaxx
