import Mathlib.Data.Nat.Basic
import Mathlib.Tactic.Common

/-!
# Loops that use up a count

`for (; count >= stride && cond; count -= stride) step`: a loop that uses up a count in steps of
one size. Programs chain several of them, with different strides, over one count. Their
invariant is a predicate of the part of the count that is already used, and `countLoop_inv`
hands it from one loop to the next.
-/

set_option autoImplicit false

namespace RvO3

section Strides

variable {σ : Type}

/-- The loop, from a state and a count: the last state, and what is left of the count. -/
def countLoop (stride : Nat) (hpos : 0 < stride) (cond : σ → Bool) (step : σ → σ) (count : Nat) (s : σ) :
    σ × Nat :=
  if _h : stride ≤ count ∧ cond s = true then countLoop stride hpos cond step (count - stride) (step s)
  else (s, count)
  termination_by count
  decreasing_by omega

/-- The invariant holds where the loop ends, and there the next turn is refused. -/
theorem countLoop_inv {stride total : Nat} (hpos : 0 < stride) (cond : σ → Bool) {step : σ → σ}
    {P : Nat → σ → Prop}
    (hstep : ∀ k s, k + stride ≤ total → cond s = true → P k s → P (k + stride) (step s))
    {k count : Nat} {s : σ} (hcount : k + count = total) (h : P k s) :
    ∃ k', k' + (countLoop stride hpos cond step count s).2 = total ∧
      P k' (countLoop stride hpos cond step count s).1 ∧
      ¬ (stride ≤ (countLoop stride hpos cond step count s).2 ∧
        cond (countLoop stride hpos cond step count s).1 = true) := by
  -- on the count, which every turn lowers
  induction hc : count using Nat.strong_induction_on generalizing k count s with
  | _ c ih =>
      subst hc
      rw [countLoop]
      split
      · rename_i hgo
        exact ih (count - stride) (by omega) (by omega) (hstep k s (by omega) hgo.2 h) rfl
      · rename_i hstop
        exact ⟨k, hcount, h, hstop⟩

/-- A loop without a condition leaves less than a stride. -/
theorem countLoop_rest {stride total : Nat} (hpos : 0 < stride) {step : σ → σ} {P : Nat → σ → Prop}
    (hstep : ∀ k s, k + stride ≤ total → P k s → P (k + stride) (step s))
    {k count : Nat} {s : σ} (hcount : k + count = total) (h : P k s) :
    ∃ k', k' + (countLoop stride hpos (fun _ => true) step count s).2 = total ∧
      P k' (countLoop stride hpos (fun _ => true) step count s).1 ∧
      (countLoop stride hpos (fun _ => true) step count s).2 < stride := by
  obtain ⟨k', hk', hP, hstop⟩ := countLoop_inv hpos (fun _ => true) (fun k s hk _ => hstep k s hk) hcount h
  exact ⟨k', hk', hP, Nat.lt_of_not_le fun hle => hstop ⟨hle, rfl⟩⟩

end Strides

end RvO3
