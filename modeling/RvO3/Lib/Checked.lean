import Mathlib.Data.BitVec
import Mathlib.Tactic.Common

/-!
# C integer arithmetic with its undefined cases

The operations of C on fixed-width integers that are not defined for all operands: signed
products, quotients and remainders that leave the type, division by zero, and shifts by the
width or more. Each returns `none` there. Unsigned sums and products wrap, so the plain
operations of `BitVec` serve for them, except where code counts on them not to: `uadd` and
`usub` return `none` where they would.
-/

set_option autoImplicit false

namespace RvO3.Checked

variable {w : Nat}

/-- A signed product. -/
def smul (x y : BitVec w) : Option (BitVec w) := if x.smulOverflow y then none else some (x * y)

/-- A signed quotient, truncated toward zero. -/
def sdiv (x y : BitVec w) : Option (BitVec w) :=
  if y = 0 ∨ (x = BitVec.intMin w ∧ y = -1#w) then none else some (x.sdiv y)

/-- The remainder of that division. -/
def srem (x y : BitVec w) : Option (BitVec w) :=
  if y = 0 ∨ (x = BitVec.intMin w ∧ y = -1#w) then none else some (x.srem y)

/-- An unsigned sum that does not wrap. -/
def uadd (x y : BitVec w) : Option (BitVec w) := if x.toNat + y.toNat < 2 ^ w then some (x + y) else none

/-- An unsigned difference that does not wrap. -/
def usub (x y : BitVec w) : Option (BitVec w) := if y.toNat ≤ x.toNat then some (x - y) else none

/-- An unsigned quotient. -/
def udiv (x y : BitVec w) : Option (BitVec w) := if y = 0 then none else some (x / y)

/-- An unsigned remainder. -/
def umod (x y : BitVec w) : Option (BitVec w) := if y = 0 then none else some (x % y)

/-- A right shift of a signed value, which copies its sign. -/
def sshr (x : BitVec w) (n : Nat) : Option (BitVec w) := if n < w then some (x.sshiftRight n) else none

/-- A right shift of an unsigned value. -/
def ushr (x : BitVec w) (n : Nat) : Option (BitVec w) := if n < w then some (x >>> n) else none

/-- A left shift of an unsigned value. -/
def ushl (x : BitVec w) (n : Nat) : Option (BitVec w) := if n < w then some (x <<< n) else none

theorem ushl_eq (x : BitVec w) {n : Nat} (h : n < w) : ushl x n = some (x <<< n) := if_pos h

theorem uadd_eq {x y : BitVec w} (h : x.toNat + y.toNat < 2 ^ w) :
    ∃ z, uadd x y = some z ∧ z.toNat = x.toNat + y.toNat := by
  refine ⟨x + y, if_pos h, ?_⟩
  rw [BitVec.toNat_add, Nat.mod_eq_of_lt h]

theorem usub_eq {x y : BitVec w} (h : y.toNat ≤ x.toNat) :
    ∃ z, usub x y = some z ∧ z.toNat = x.toNat - y.toNat :=
  ⟨x - y, if_pos h, BitVec.toNat_sub_of_le h⟩

/-! ## Defined products -/

section Products

variable {x y : BitVec w}

theorem smul_eq (hl : -2 ^ (w - 1) ≤ x.toInt * y.toInt) (hu : x.toInt * y.toInt < 2 ^ (w - 1)) :
    smul x y = some (x * y) := by
  have hno : ¬ x.smulOverflow y = true := by
    unfold BitVec.smulOverflow
    simp only [Bool.or_eq_true, decide_eq_true_eq]
    omega
  exact if_neg hno

/-- Two factors of at most `2 ^ m` and `2 ^ n` in magnitude have a product of at most `2 ^ (m + n)`. -/
theorem natAbs_mul_le {i j : Int} {m n : Nat} (hi : i.natAbs ≤ 2 ^ m) (hj : j.natAbs ≤ 2 ^ n) :
    (i * j).natAbs ≤ 2 ^ (m + n) := by
  rw [Int.natAbs_mul, Nat.pow_add]
  exact Nat.mul_le_mul hi hj

end Products

/-! ## Quotient and remainder -/

section Division

variable {x y : BitVec w}

/-- The quotient and the remainder make up the dividend, in the arithmetic of the type. -/
theorem sdiv_mul_add_srem (h : x ≠ BitVec.intMin w ∨ y ≠ -1#w) : x.sdiv y * y + x.srem y = x := by
  have hq := BitVec.toInt_sdiv_of_ne_or_ne x y h
  calc x.sdiv y * y + x.srem y
      = BitVec.ofInt w ((x.sdiv y).toInt * y.toInt + (x.srem y).toInt) := by
        rw [BitVec.ofInt_add, BitVec.ofInt_mul, BitVec.ofInt_toInt, BitVec.ofInt_toInt, BitVec.ofInt_toInt]
    _ = BitVec.ofInt w x.toInt := by
        rw [hq, BitVec.toInt_srem, Int.mul_comm, Int.mul_tdiv_add_tmod]
    _ = x := BitVec.ofInt_toInt

theorem udiv_mul_add_umod : x / y * y + x % y = x := by
  rw [BitVec.toNat_inj.symm, BitVec.toNat_add, BitVec.toNat_mul, BitVec.toNat_udiv, BitVec.toNat_umod]
  rw [Nat.mod_add_mod, Nat.mul_comm, Nat.div_add_mod, Nat.mod_eq_of_lt x.isLt]

end Division

end RvO3.Checked
