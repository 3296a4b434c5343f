import RvO3.Lib.Checked

/-!
# Fixed-point division

`doom/fixed.c`: `FixedDiv` without a signed 64-bit division. Magnitudes are divided, in two
32-bit steps where the divisor has 16 bits, and the sign is put back at the end.
-/

set_option autoImplicit false

namespace RvO3

/-- A 16.16 fixed-point number, a signed 32-bit integer (`fixed_t`). -/
abbrev Fixed := BitVec 32

/-- The magnitude, as an unsigned number: `x < 0 ? 0u - (uint32_t)x : (uint32_t)x`. -/
def magnitude (x : Fixed) : Fixed := if x.slt 0 then 0 - x else x

/-- The guard in front: `(abs(a) >> 14) >= abs(b)`. -/
def saturates (a b : Fixed) : Bool := b.abs.sle (a.abs.sshiftRight 14)

/-- The two divisions of the short path: `ua / ub` and what it leaves. -/
def shortQuotient (ua ub : Fixed) : Option (Fixed × Fixed) := do
  let whole ← Checked.udiv ua ub
  return (whole, ua - whole * ub)

/-- `__wrap_FixedDiv`, or `none` where the source divides by zero. -/
def wrapFixedDiv (a b : Fixed) : Option Fixed :=
  if saturates a b then some (if (a ^^^ b).slt 0 then BitVec.intMin 32 else BitVec.intMax 32)
  else do
    let ua := magnitude a
    let ub := magnitude b
    let q ←
      if ub ≤ 0xFFFF#32 then do
        let (whole, rest) ← shortQuotient ua ub
        let high ← Checked.ushl whole 16
        let shifted ← Checked.ushl rest 16
        let low ← Checked.udiv shifted ub
        pure (high + low)
      else do
        let dividend ← Checked.ushl (ua.setWidth 64) 16
        let wide ← Checked.udiv dividend (ub.setWidth 64)
        pure (wide.setWidth 32)
    return if (a ^^^ b).slt 0 then 0 - q else q

/-- The quotient `a * 2 ^ 16 / b` of the integers, truncated toward zero. -/
def exactQuotient (a b : Fixed) : Int := (a.toInt * 2 ^ 16).tdiv b.toInt

/-! ## Magnitudes and signs -/

section Magnitude

variable (a b x : Fixed)

theorem slt_zero : x.slt 0 = decide (x.toInt < 0) :=
  BitVec.slt_zero_eq_msb.trans BitVec.msb_eq_toInt

theorem magnitude_toNat : (magnitude x).toNat = x.toInt.natAbs := by
  have hlt := x.isLt
  unfold magnitude
  rw [slt_zero]
  by_cases hneg : x.toInt < 0
  · rw [if_pos (decide_eq_true hneg), BitVec.toNat_sub]
    rw [BitVec.toInt_eq_toNat_cond] at hneg ⊢
    show (2 ^ 32 - x.toNat + 0) % 2 ^ 32 = _
    split at hneg <;> split <;> omega
  · rw [if_neg (by simpa using hneg)]
    rw [BitVec.toInt_eq_toNat_cond] at hneg ⊢
    split at hneg <;> split <;> omega

/-- The sign of `a ^ b` tells whether the signs differ. -/
theorem xor_slt_zero : (a ^^^ b).slt 0 = (decide (a.toInt < 0) != decide (b.toInt < 0)) := by
  rw [← slt_zero, ← slt_zero]
  show BitVec.slt _ 0#32 = (BitVec.slt a 0#32 != BitVec.slt b 0#32)
  rw [BitVec.slt_zero_eq_msb, BitVec.slt_zero_eq_msb, BitVec.slt_zero_eq_msb, BitVec.msb_xor]

/-- A quotient of integers from the magnitudes and the signs. -/
theorem tdiv_natAbs (i j : Int) :
    i.tdiv j = if (decide (i < 0) != decide (j < 0)) = true then -((i.natAbs / j.natAbs : Nat) : Int)
      else ((i.natAbs / j.natAbs : Nat) : Int) := by
  have hform : ∀ k : Int, if k < 0 then k = -(k.natAbs : Int) else k = k.natAbs := by
    intro k
    split <;> omega
  have hi := hform i
  have hj := hform j
  by_cases hi0 : i < 0
  · rw [if_pos hi0] at hi
    by_cases hj0 : j < 0
    · rw [if_pos hj0] at hj
      rw [if_neg (by simp [hi0, hj0])]
      calc i.tdiv j = (-(i.natAbs : Int)).tdiv (-(j.natAbs : Int)) := by rw [← hi, ← hj]
        _ = _ := by rw [Int.neg_tdiv, Int.tdiv_neg, Int.neg_neg, ← Int.ofNat_tdiv]
    · rw [if_neg hj0] at hj
      rw [if_pos (by simp [hi0, hj0])]
      calc i.tdiv j = (-(i.natAbs : Int)).tdiv (j.natAbs : Int) := by rw [← hi, ← hj]
        _ = _ := by rw [Int.neg_tdiv, ← Int.ofNat_tdiv]
  · rw [if_neg hi0] at hi
    by_cases hj0 : j < 0
    · rw [if_pos hj0] at hj
      rw [if_pos (by simp [hi0, hj0])]
      calc i.tdiv j = (i.natAbs : Int).tdiv (-(j.natAbs : Int)) := by rw [← hi, ← hj]
        _ = _ := by rw [Int.tdiv_neg, ← Int.ofNat_tdiv]
    · rw [if_neg hj0] at hj
      rw [if_neg (by simp [hi0, hj0])]
      calc i.tdiv j = (i.natAbs : Int).tdiv (j.natAbs : Int) := by rw [← hi, ← hj]
        _ = _ := (Int.ofNat_tdiv _ _).symm

end Magnitude

/-! ## The quotient of the magnitudes -/

section Quotient

variable {ua ub : Fixed}

/-- Dividing `m * 2 ^ 16` in two steps. -/
theorem split_quotient (m n : Nat) (hn : 0 < n) :
    m / n * 2 ^ 16 + m % n * 2 ^ 16 / n = m * 2 ^ 16 / n := by
  have hm : m * 2 ^ 16 = m % n * 2 ^ 16 + n * (m / n * 2 ^ 16) := by
    calc m * 2 ^ 16 = (n * (m / n) + m % n) * 2 ^ 16 := by rw [Nat.div_add_mod]
      _ = m % n * 2 ^ 16 + n * (m / n * 2 ^ 16) := by rw [Nat.add_mul, Nat.mul_assoc, Nat.add_comm]
  rw [hm, Nat.add_mul_div_left _ _ hn, Nat.add_comm]

theorem toNat_pos (hb : ub ≠ 0) : 0 < ub.toNat :=
  Nat.pos_of_ne_zero fun h => hb (BitVec.eq_of_toNat_eq h)

/-- What the first division leaves is the remainder. -/
theorem shortQuotient_eq (hb : ub ≠ 0) : shortQuotient ua ub = some (ua / ub, ua % ub) := by
  have hrest : ua - ua / ub * ub = ua % ub := by
    calc ua - ua / ub * ub = (ua / ub * ub + ua % ub) - ua / ub * ub := by rw [Checked.udiv_mul_add_umod]
      _ = ua % ub := by rw [BitVec.add_comm, BitVec.add_sub_cancel]
  unfold shortQuotient Checked.udiv
  rw [if_neg hb, ← hrest]
  rfl

/-- A remainder below a divisor of 16 bits can be shifted by 16. -/
theorem rest_shift (hb : ub ≠ 0) (hshort : ub ≤ 0xFFFF#32) : ((ua % ub) <<< 16).toNat = (ua % ub).toNat * 2 ^ 16 := by
  have hlt : (ua % ub).toNat < ub.toNat := by
    rw [BitVec.toNat_umod]
    exact Nat.mod_lt _ (toNat_pos hb)
  have hub : ub.toNat ≤ 65535 := hshort
  rw [BitVec.toNat_shiftLeft, Nat.shiftLeft_eq]
  exact Nat.mod_eq_of_lt (by omega)

/-- The short path, in 32 bits. -/
theorem short_path (ua : Fixed) (hb : ub ≠ 0) (hshort : ub ≤ 0xFFFF#32) :
    ((ua / ub) <<< 16 + ((ua % ub) <<< 16) / ub).toNat = ua.toNat * 2 ^ 16 / ub.toNat % 2 ^ 32 := by
  rw [BitVec.toNat_add, BitVec.toNat_udiv, rest_shift hb hshort, BitVec.toNat_umod, BitVec.toNat_shiftLeft,
    BitVec.toNat_udiv, Nat.shiftLeft_eq, Nat.mod_add_mod, split_quotient _ _ (toNat_pos hb)]

/-- The long path, in 64 bits. -/
theorem long_path (ua ub : Fixed) :
    (((ua.setWidth 64) <<< 16 / ub.setWidth 64).setWidth 32).toNat = ua.toNat * 2 ^ 16 / ub.toNat % 2 ^ 32 := by
  have hlt := ua.isLt
  rw [BitVec.toNat_setWidth, BitVec.toNat_udiv, BitVec.toNat_shiftLeft, BitVec.toNat_setWidth_of_le (by decide),
    BitVec.toNat_setWidth_of_le (by decide), Nat.shiftLeft_eq, Nat.mod_eq_of_lt (show ua.toNat * 2 ^ 16 < 2 ^ 64 by omega)]

end Quotient

/-! ## The division -/

section FixedDiv

variable {a b : Fixed}

/-- The quotient of the magnitudes with the sign of `a ^ b` is the exact one, in 32 bits. -/
theorem signed_quotient {q : Fixed} (hq : q.toNat = a.toInt.natAbs * 2 ^ 16 / b.toInt.natAbs % 2 ^ 32) :
    (if (a ^^^ b).slt 0 then 0 - q else q) = BitVec.ofInt 32 (exactQuotient a b) := by
  have habs : (a.toInt * 2 ^ 16).natAbs = a.toInt.natAbs * 2 ^ 16 := by
    rw [Int.natAbs_mul]
    rfl
  have hneg : decide (a.toInt * 2 ^ 16 < 0) = decide (a.toInt < 0) := by
    rw [decide_eq_decide]
    omega
  have hword : q = BitVec.ofInt 32 ((a.toInt.natAbs * 2 ^ 16 / b.toInt.natAbs : Nat) : Int) := by
    apply BitVec.eq_of_toNat_eq
    rw [hq, BitVec.ofInt_natCast, BitVec.toNat_ofNat]
  unfold exactQuotient
  rw [tdiv_natAbs, habs, hneg, xor_slt_zero]
  split
  · rw [BitVec.ofInt_neg, ← hword]
    exact BitVec.zero_sub q
  · exact hword

theorem magnitude_ne_zero (hb : b ≠ 0) : magnitude b ≠ 0 := by
  intro h
  have hzero := magnitude_toNat b
  rw [h] at hzero
  exact hb (BitVec.eq_of_toInt_eq (Int.natAbs_eq_zero.mp hzero.symm))

/-- Past the guard, the quotient is exact: its low 32 bits, where it does not fit. -/
theorem wrapFixedDiv_eq (hb : b ≠ 0) (hguard : saturates a b = false) :
    wrapFixedDiv a b = some (BitVec.ofInt 32 (exactQuotient a b)) := by
  have hub := magnitude_ne_zero hb
  have hmag : (magnitude a).toNat * 2 ^ 16 / (magnitude b).toNat = a.toInt.natAbs * 2 ^ 16 / b.toInt.natAbs := by
    rw [magnitude_toNat, magnitude_toNat]
  unfold wrapFixedDiv
  rw [hguard, if_neg Bool.false_ne_true]
  dsimp only
  by_cases hshort : magnitude b ≤ 0xFFFF#32
  · rw [if_pos hshort, shortQuotient_eq hub]
    have hq := short_path (magnitude a) hub hshort
    rw [hmag] at hq
    rw [← signed_quotient hq]
    have hdiv : Checked.udiv ((magnitude a % magnitude b) <<< 16) (magnitude b) =
        some (((magnitude a % magnitude b) <<< 16) / magnitude b) := if_neg hub
    have hshl : ∀ x : Fixed, Checked.ushl x 16 = some (x <<< 16) := fun x => Checked.ushl_eq x (by decide)
    simp only [hshl, hdiv, Option.bind_eq_bind, Option.bind_some, Option.pure_def]
  · rw [if_neg hshort]
    have hq := long_path (magnitude a) (magnitude b)
    rw [hmag] at hq
    rw [← signed_quotient hq]
    have hwide : (magnitude b).setWidth 64 ≠ 0 := by
      intro h
      have hnat := congrArg BitVec.toNat h
      rw [BitVec.toNat_setWidth_of_le (by decide)] at hnat
      exact hub (BitVec.eq_of_toNat_eq hnat)
    have hdiv : Checked.udiv (((magnitude a).setWidth 64) <<< 16) ((magnitude b).setWidth 64) =
        some (((magnitude a).setWidth 64) <<< 16 / (magnitude b).setWidth 64) := if_neg hwide
    have hshl : ∀ x : BitVec 64, Checked.ushl x 16 = some (x <<< 16) := fun x => Checked.ushl_eq x (by decide)
    simp only [hshl, hdiv, Option.bind_eq_bind, Option.bind_some, Option.pure_def]

/-- `FixedDiv` for a divisor other than zero: exact past the guard, where the remainder of the
short path is shifted without loss, and otherwise the largest magnitude with the sign of the
quotient. -/
structure FixedDivExact (a b : Fixed) : Prop where
  exact : saturates a b = false → wrapFixedDiv a b = some (BitVec.ofInt 32 (exactQuotient a b))
  lossless : saturates a b = false → magnitude b ≤ 0xFFFF#32 →
    ∃ whole rest, shortQuotient (magnitude a) (magnitude b) = some (whole, rest) ∧
      (rest <<< 16).toNat = rest.toNat * 2 ^ 16
  saturated : saturates a b = true → wrapFixedDiv a b =
    some (if decide (a.toInt < 0) ≠ decide (b.toInt < 0) then BitVec.intMin 32 else BitVec.intMax 32)

/-- The fixed-point quotient is the exact one, rounded towards zero, where it can be represented,
and the largest value of its sign where not. The step that shifts the remainder loses no bit. -/
theorem wrapFixedDiv_exact (a : Fixed) (hb : b ≠ 0) : FixedDivExact a b where
  exact h := wrapFixedDiv_eq hb h
  lossless _ hshort :=
    ⟨_, _, shortQuotient_eq (magnitude_ne_zero hb), rest_shift (magnitude_ne_zero hb) hshort⟩
  saturated h := by
    unfold wrapFixedDiv
    rw [if_pos h, xor_slt_zero]
    congr 1
    cases decide (a.toInt < 0) <;> cases decide (b.toInt < 0) <;> rfl

/-- One divided by three. -/
theorem wrapFixedDiv_exact_third : FixedDivExact 0x10000#32 0x30000#32 :=
  wrapFixedDiv_exact 0x10000#32 (by decide)

end FixedDiv

end RvO3
