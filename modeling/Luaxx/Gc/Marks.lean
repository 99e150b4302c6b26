import Mathlib.Tactic.Common

/-!
# Colours (`lgc.h`)

The bits of `marked` that tell the colour of an object. There are two whites; the collector
changes the current one at the end of its mark phase, and what still has the other one is dead.
-/

namespace Luaxx.Gc

inductive White where
  | white0 | white1
  deriving DecidableEq, Repr

def White.other : White → White
  | white0 => white1
  | white1 => white0

inductive GCState where
  | GCSpause | GCSpropagate | GCSsweepstring | GCSsweep | GCSfinalize
  deriving DecidableEq, Repr

structure Marked where
  white0 : Bool
  white1 : Bool
  black : Bool
  deriving DecidableEq, Repr

namespace Marked

def hasWhite (m : Marked) : White → Bool
  | .white0 => m.white0
  | .white1 => m.white1

def iswhite (m : Marked) : Bool := m.white0 || m.white1

def isgray (m : Marked) : Bool := !m.black && !m.iswhite

def isdead (currentwhite : White) (m : Marked) : Bool := m.hasWhite currentwhite.other

/-- `luaC_white`: the mark of a new object. -/
def luaC_white : White → Marked
  | .white0 => ⟨true, false, false⟩
  | .white1 => ⟨false, true, false⟩

def changewhite (m : Marked) : Marked := { m with white0 := !m.white0, white1 := !m.white1 }

/-- `makewhite`: every bit of the colour is replaced. -/
def makewhite (currentwhite : White) (_ : Marked) : Marked := luaC_white currentwhite

def gray2black (m : Marked) : Marked := { m with black := true }

@[simp] theorem isdead_luaC_white (w : White) : (luaC_white w).isdead w = false := by
  cases w <;> rfl

@[simp] theorem isdead_makewhite (w : White) (m : Marked) : (m.makewhite w).isdead w = false :=
  isdead_luaC_white w

@[simp] theorem isdead_gray2black (w : White) (m : Marked) :
    m.gray2black.isdead w = m.isdead w := by
  cases w <;> rfl

/-- A dead object is resurrected: it has one white, and gets the other. -/
theorem isdead_changewhite {w : White} {m : Marked} (h : m.isdead w = true) :
    m.changewhite.isdead w = false := by
  obtain ⟨w0, w1, b⟩ := m
  cases w <;> simp_all [isdead, hasWhite, White.other, changewhite]

end Marked

end Luaxx.Gc
