import Mathlib.Tactic.Common
import Mathlib.Tactic.Ring

/-!
# The type `int`

32 bits, with wrap-around.
-/

namespace Luaxx.Int32

def wrap (n : Int) : Int := (n + 2 ^ 31) % 2 ^ 32 - 2 ^ 31

theorem wrap_eq {n : Int} (h1 : -2 ^ 31 ≤ n) (h2 : n < 2 ^ 31) : wrap n = n := by
  unfold wrap
  omega

theorem wrap_lt (n : Int) : wrap n < 2 ^ 31 := by
  unfold wrap
  omega

end Luaxx.Int32
