import RvO3.Lib.Checked
import RvO3.Isa.Execute

/-!
# Multiplication and division

The M extension of `execute`, against the integers. `mulDivC` evaluates the C++ expressions of
these cases with the undefined operations marked. It is defined everywhere, and it agrees with
`execute`, which is then compared with exact products and quotients.
-/

set_option autoImplicit false

namespace RvO3

/-- The expressions of the `switch` in `execute`, with `sa` and `sb` the signed operands. -/
def mulDivC (op : Op) (a b : Word) : Option Word :=
  match op with
  | .MUL => some (a * b)
  | .MULH => do
      let p ← Checked.smul (a.signExtend 64) (b.signExtend 64)
      let h ← Checked.sshr p 32
      return h.setWidth 32
  | .MULHSU => do
      let p ← Checked.smul (a.signExtend 64) (b.setWidth 64)
      let h ← Checked.sshr p 32
      return h.setWidth 32
  | .MULHU => do
      let h ← Checked.ushr (a.setWidth 64 * b.setWidth 64) 32
      return h.setWidth 32
  | .DIV =>
      if b = 0 then some 0xFFFFFFFF#32
      else if a = 0x80000000#32 ∧ b = 0xFFFFFFFF#32 then some a
      else Checked.sdiv a b
  | .DIVU => if b = 0 then some 0xFFFFFFFF#32 else Checked.udiv a b
  | .REM =>
      if b = 0 then some a
      else if a = 0x80000000#32 ∧ b = 0xFFFFFFFF#32 then some 0
      else Checked.srem a b
  | .REMU => if b = 0 then some a else Checked.umod a b
  | _ => none

/-- The opcodes of the M extension. -/
def isMulDiv (op : Op) : Bool := fuKindOf op = .MUL || fuKindOf op = .DIV

/-! ## Products -/

section Products

variable (a b : Word)

theorem signed_bound : a.toInt.natAbs ≤ 2 ^ 31 := by
  have hlo := BitVec.le_toInt a
  have hhi := BitVec.toInt_lt (x := a)
  omega

theorem toInt_setWidth_64 : (a.setWidth 64).toInt = a.toNat := by
  have h := a.isLt
  rw [BitVec.toInt_setWidth]
  exact Int.bmod_eq_of_le (by omega) (by omega)

/-- A word of 32 bits out of a signed 64-bit one. -/
theorem high_word (x : BitVec 64) : (x.sshiftRight 32).setWidth 32 = BitVec.ofInt 32 (x.toInt / 2 ^ 32) := by
  have hx : (x.sshiftRight 32).toInt = x.toInt / 2 ^ 32 := by
    rw [BitVec.toInt_sshiftRight, Int.shiftRight_eq_div_pow]
    rfl
  rw [← hx]
  apply BitVec.eq_of_toNat_eq
  rw [BitVec.toNat_setWidth, BitVec.toNat_ofInt, BitVec.toInt_eq_toNat_bmod]
  have hlt := (x.sshiftRight 32).isLt
  rw [Int.bmod_def]
  split <;> omega

/-- The 64-bit product of two numbers is exact where it fits. -/
theorem product_exact {x y : BitVec 64} {p : Int} (hp : x.toInt * y.toInt = p) (hl : -2 ^ 63 ≤ p)
    (hu : p < 2 ^ 63) : Checked.smul x y = some (x * y) ∧ (x * y).toInt = p := by
  subst hp
  refine ⟨Checked.smul_eq hl hu, ?_⟩
  rw [BitVec.toInt_mul]
  exact Int.bmod_eq_of_le (by omega) (by omega)

/-- The low word of a product does not depend on the signs. -/
theorem low_word {i j : Int} (hi : BitVec.ofInt 32 i = a) (hj : BitVec.ofInt 32 j = b) :
    ((a * b).toNat : Int) = i * j % 2 ^ 32 := by
  rw [← hi, ← hj, ← BitVec.ofInt_mul, BitVec.toNat_ofInt]
  have h := Int.emod_nonneg (i * j) (show ((2 ^ 32 : Nat) : Int) ≠ 0 by decide)
  omega

theorem ofInt_toNat : BitVec.ofInt 32 a.toNat = a := by
  rw [BitVec.ofInt_natCast, BitVec.ofNat_toNat, BitVec.setWidth_eq]

/-- Signed by signed. -/
theorem mulh_value : mulDivC .MULH a b = some (BitVec.ofInt 32 (a.toInt * b.toInt / 2 ^ 32)) ∧
    ((a.signExtend 64 * b.signExtend 64).sshiftRight 32).setWidth 32 =
      BitVec.ofInt 32 (a.toInt * b.toInt / 2 ^ 32) := by
  have hbound := Checked.natAbs_mul_le (signed_bound a) (signed_bound b)
  have hfactors : (a.signExtend 64).toInt * (b.signExtend 64).toInt = a.toInt * b.toInt := by
    rw [BitVec.toInt_signExtend_of_le (by decide), BitVec.toInt_signExtend_of_le (by decide)]
  obtain ⟨hmul, hval⟩ := product_exact hfactors (by omega) (by omega)
  have hhigh := high_word (a.signExtend 64 * b.signExtend 64)
  rw [hval] at hhigh
  refine ⟨?_, hhigh⟩
  rw [← hhigh]
  show (Checked.smul _ _).bind _ = _
  rw [hmul]
  rfl

/-- The bounds of the factors alone only give `2 ^ 63`, which is one too many. -/
theorem mulhsu_bound : (a.toInt * b.toNat).natAbs < 2 ^ 63 := by
  rw [Int.natAbs_mul]
  calc a.toInt.natAbs * (b.toNat : Int).natAbs ≤ 2 ^ 31 * (b.toNat : Int).natAbs :=
        Nat.mul_le_mul_right _ (signed_bound a)
    _ < 2 ^ 31 * 2 ^ 32 := Nat.mul_lt_mul_of_pos_left (by have h := b.isLt; omega) (by decide)
    _ = 2 ^ 63 := by decide

/-- Signed by unsigned. -/
theorem mulhsu_value : mulDivC .MULHSU a b = some (BitVec.ofInt 32 (a.toInt * b.toNat / 2 ^ 32)) ∧
    ((a.signExtend 64 * b.setWidth 64).sshiftRight 32).setWidth 32 =
      BitVec.ofInt 32 (a.toInt * b.toNat / 2 ^ 32) := by
  have hbound := mulhsu_bound a b
  have hfactors : (a.signExtend 64).toInt * (b.setWidth 64).toInt = a.toInt * b.toNat := by
    rw [BitVec.toInt_signExtend_of_le (by decide), toInt_setWidth_64]
  obtain ⟨hmul, hval⟩ := product_exact hfactors (by omega) (by omega)
  have hhigh := high_word (a.signExtend 64 * b.setWidth 64)
  rw [hval] at hhigh
  refine ⟨?_, hhigh⟩
  rw [← hhigh]
  show (Checked.smul _ _).bind _ = _
  rw [hmul]
  rfl

/-- Unsigned by unsigned. -/
theorem mulhu_value : (((a.setWidth 64 * b.setWidth 64) >>> 32).setWidth 32).toNat = a.toNat * b.toNat / 2 ^ 32 := by
  have hlt : a.toNat * b.toNat < 2 ^ 64 := by
    calc a.toNat * b.toNat < 2 ^ 32 * 2 ^ 32 := Nat.mul_lt_mul'' a.isLt b.isLt
      _ = 2 ^ 64 := by decide
  rw [BitVec.toNat_setWidth, BitVec.toNat_ushiftRight, BitVec.toNat_mul, BitVec.toNat_setWidth_of_le (by decide),
    BitVec.toNat_setWidth_of_le (by decide), Nat.mod_eq_of_lt hlt, Nat.shiftRight_eq_div_pow]
  exact Nat.mod_eq_of_lt (by omega)

/-- A high word and the low one make up a product that fits 64 bits. -/
theorem words_of_product {p : Int} (hl : -2 ^ 63 ≤ p) (hu : p < 2 ^ 63) :
    (BitVec.ofInt 32 (p / 2 ^ 32)).toInt * 2 ^ 32 + p % 2 ^ 32 = p := by
  rw [BitVec.toInt_ofInt_eq_self (by decide) (by omega) (by omega), Int.mul_comm]
  exact Int.mul_ediv_add_emod p (2 ^ 32)

end Products

/-! ## Divisions -/

/-- A signed quotient and remainder, with the results that the ISA asks for where integers have
none that fit. -/
structure SignedDivision (a b q r : Word) : Prop where
  combine : q * b + r = a
  small : b ≠ 0 → r.toInt.natAbs < b.toInt.natAbs
  sign : b ≠ 0 → r = 0 ∨ (r.toInt < 0 ↔ a.toInt < 0)
  truncated : b ≠ 0 → ¬ (a = BitVec.intMin 32 ∧ b = -1#32) →
    q.toInt = a.toInt.tdiv b.toInt ∧ r.toInt = a.toInt.tmod b.toInt
  overflow : a = BitVec.intMin 32 → b = -1#32 → q = a ∧ r = 0
  byZero : b = 0 → q = BitVec.allOnes 32 ∧ r = a

/-- Quotient and remainder over the naturals, with the values that the ISA gives to a division by
zero. -/
structure UnsignedDivision (a b q r : Word) : Prop where
  combine : q * b + r = a
  small : b ≠ 0 → r.toNat < b.toNat
  quotient : b ≠ 0 → q.toNat = a.toNat / b.toNat
  byZero : b = 0 → q = BitVec.allOnes 32 ∧ r = a

section Division

variable (a b : Word)

theorem tmod_sign {i j : Int} : i.tmod j = 0 ∨ (i.tmod j < 0 ↔ i < 0) := by
  by_cases hi : i < 0
  · -- the remainder of the opposite dividend is not negative
    have hneg := Int.tmod_nonneg j (show 0 ≤ -i by omega)
    rw [Int.neg_tmod] at hneg
    rcases Int.lt_or_eq_of_le (show i.tmod j ≤ 0 by omega) with h | h
    · exact .inr ⟨fun _ => hi, fun _ => h⟩
    · exact .inl h
  · have hpos := Int.tmod_nonneg j (Int.not_lt.mp hi)
    exact .inr ⟨fun h => absurd h (Int.not_lt.mpr hpos), fun h => absurd h hi⟩

theorem signed_division :
    SignedDivision a b
      (if b = 0 then 0xFFFFFFFF#32 else if a = 0x80000000#32 ∧ b = 0xFFFFFFFF#32 then a else a.sdiv b)
      (if b = 0 then a else if a = 0x80000000#32 ∧ b = 0xFFFFFFFF#32 then 0 else a.srem b) := by
  by_cases hb : b = 0
  · subst hb
    rw [if_pos rfl, if_pos rfl]
    exact ⟨by simp, fun h => absurd rfl h, fun h => absurd rfl h, fun h => absurd rfl h,
      fun _ h => absurd h (by decide), fun _ => ⟨rfl, rfl⟩⟩
  · rw [if_neg hb, if_neg hb]
    by_cases hover : a = 0x80000000#32 ∧ b = 0xFFFFFFFF#32
    · -- the one quotient that does not fit
      obtain ⟨rfl, rfl⟩ := hover
      rw [if_pos ⟨rfl, rfl⟩, if_pos ⟨rfl, rfl⟩]
      exact ⟨by decide, fun _ => by decide, fun _ => .inl rfl, fun _ h => absurd ⟨rfl, rfl⟩ h,
        fun _ _ => ⟨rfl, rfl⟩, fun h => absurd h (by decide)⟩
    · rw [if_neg hover, if_neg hover]
      have hne : a ≠ BitVec.intMin 32 ∨ b ≠ -1#32 := by
        rw [← not_and_or]
        exact hover
      have hrem : (a.srem b).toInt = a.toInt.tmod b.toInt := BitVec.toInt_srem a b
      refine ⟨Checked.sdiv_mul_add_srem hne, fun _ => ?_, fun _ => ?_, fun _ _ => ⟨?_, hrem⟩,
        fun h1 h2 => absurd ⟨h1, h2⟩ hover, fun h => absurd h hb⟩
      · have hb' : b.toInt ≠ 0 := fun h => hb (BitVec.eq_of_toInt_eq h)
        rw [hrem, Int.natAbs_tmod]
        exact Nat.mod_lt _ (Int.natAbs_pos.mpr hb')
      · rw [hrem]
        rcases tmod_sign (i := a.toInt) (j := b.toInt) with h | h
        · exact .inl (BitVec.eq_of_toInt_eq (hrem.trans h))
        · exact .inr h
      · exact BitVec.toInt_sdiv_of_ne_or_ne a b hne

theorem unsigned_division :
    UnsignedDivision a b (if b = 0 then 0xFFFFFFFF#32 else a / b) (if b = 0 then a else a % b) := by
  by_cases hb : b = 0
  · subst hb
    rw [if_pos rfl, if_pos rfl]
    exact ⟨by simp, fun h => absurd rfl h, fun h => absurd rfl h, fun _ => ⟨rfl, rfl⟩⟩
  · rw [if_neg hb, if_neg hb]
    refine ⟨Checked.udiv_mul_add_umod, fun _ => ?_, fun _ => BitVec.toNat_udiv, fun h => absurd h hb⟩
    have hpos : 0 < b.toNat := Nat.pos_of_ne_zero fun h => hb (BitVec.eq_of_toNat_eq h)
    rw [BitVec.toNat_umod]
    exact Nat.mod_lt _ hpos

end Division

/-! ## The M extension -/

/-- What `execute` returns for an opcode. -/
def valueOf (I : Instr) (pc a b : Word) (op : Op) : Word := (execute { I with op := op } pc a b).value

/-- The eight instructions against the integers: each high word and the low word make up the
product, and the divisions are as the ISA says. None of their C++ expressions is undefined. -/
structure MulDivExact (I : Instr) (pc a b : Word) : Prop where
  mulh : (valueOf I pc a b .MULH).toInt * 2 ^ 32 + (valueOf I pc a b .MUL).toNat = a.toInt * b.toInt
  mulhsu : (valueOf I pc a b .MULHSU).toInt * 2 ^ 32 + (valueOf I pc a b .MUL).toNat = a.toInt * b.toNat
  mulhu : (valueOf I pc a b .MULHU).toNat * 2 ^ 32 + (valueOf I pc a b .MUL).toNat = a.toNat * b.toNat
  div : SignedDivision a b (valueOf I pc a b .DIV) (valueOf I pc a b .REM)
  divu : UnsignedDivision a b (valueOf I pc a b .DIVU) (valueOf I pc a b .REMU)
  defined : ∀ op, isMulDiv op = true → mulDivC op a b = some (valueOf I pc a b op)

section Main

variable (I : Instr) (pc a b : Word)

theorem valueOf_div : valueOf I pc a b .DIV =
    if b = 0 then 0xFFFFFFFF#32 else if a = 0x80000000#32 ∧ b = 0xFFFFFFFF#32 then a else a.sdiv b := by
  simp only [valueOf, execute, executeOp, isBranch, Bool.false_and, Bool.false_eq_true, if_false]
  split
  · rfl
  · split <;> rfl

theorem valueOf_rem : valueOf I pc a b .REM =
    if b = 0 then a else if a = 0x80000000#32 ∧ b = 0xFFFFFFFF#32 then 0 else a.srem b := by
  simp only [valueOf, execute, executeOp, isBranch, Bool.false_and, Bool.false_eq_true, if_false]
  split
  · rfl
  · split <;> rfl

/-- The C++ expressions are defined, and their values are those of `execute`. -/
theorem mulDivC_defined {op : Op} (h : isMulDiv op = true) : mulDivC op a b = some (valueOf I pc a b op) := by
  have hmin : BitVec.intMin 32 = 0x80000000#32 := by decide
  have hone : (-1#32 : Word) = 0xFFFFFFFF#32 := by decide
  cases op with
  | MUL => rfl
  | MULH =>
      rw [(mulh_value a b).1, ← (mulh_value a b).2]
      rfl
  | MULHSU =>
      rw [(mulhsu_value a b).1, ← (mulhsu_value a b).2]
      rfl
  | MULHU => rfl
  | DIV =>
      rw [valueOf_div]
      unfold mulDivC Checked.sdiv
      dsimp only
      rw [hmin, hone]
      -- the guards of the source exclude the undefined cases
      split
      · rfl
      · rename_i hb
        split
        · rfl
        · rename_i hover
          exact if_neg (not_or.mpr ⟨hb, hover⟩)
  | REM =>
      rw [valueOf_rem]
      unfold mulDivC Checked.srem
      dsimp only
      rw [hmin, hone]
      split
      · rfl
      · rename_i hb
        split
        · rfl
        · rename_i hover
          exact if_neg (not_or.mpr ⟨hb, hover⟩)
  | DIVU =>
      show (if b = 0 then some 0xFFFFFFFF#32 else Checked.udiv a b) = some (if b = 0 then 0xFFFFFFFF#32 else a / b)
      split
      · rfl
      · rename_i hb
        exact if_neg hb
  | REMU =>
      show (if b = 0 then some a else Checked.umod a b) = some (if b = 0 then a else a % b)
      split
      · rfl
      · rename_i hb
        exact if_neg hb
  | _ => cases h

/-- The multiplications and divisions give the exact products, quotients and remainders over the
integers, cut to 32 bits as the ISA says, for all operands. No operation of C++ that this takes is
undefined. -/
theorem mulDiv_exact : MulDivExact I pc a b := by
  have hself : BitVec.ofInt 32 a.toInt = a := BitVec.ofInt_toInt
  have hselfb : BitVec.ofInt 32 b.toInt = b := BitVec.ofInt_toInt
  refine ⟨?_, ?_, ?_, ?_, unsigned_division a b, fun op h => mulDivC_defined I pc a b h⟩
  · have hbound := Checked.natAbs_mul_le (signed_bound a) (signed_bound b)
    have hlow : ((valueOf I pc a b .MUL).toNat : Int) = a.toInt * b.toInt % 2 ^ 32 := low_word a b hself hselfb
    have hhigh : valueOf I pc a b .MULH = BitVec.ofInt 32 (a.toInt * b.toInt / 2 ^ 32) := (mulh_value a b).2
    rw [hlow, hhigh]
    exact words_of_product (by omega) (by omega)
  · have hlow : ((valueOf I pc a b .MUL).toNat : Int) = a.toInt * b.toNat % 2 ^ 32 :=
      low_word a b hself (ofInt_toNat b)
    have hhigh : valueOf I pc a b .MULHSU = BitVec.ofInt 32 (a.toInt * b.toNat / 2 ^ 32) := (mulhsu_value a b).2
    have hbound := mulhsu_bound a b
    rw [hlow, hhigh]
    exact words_of_product (by omega) (by omega)
  · have hhigh : (valueOf I pc a b .MULHU).toNat = a.toNat * b.toNat / 2 ^ 32 := mulhu_value a b
    have hlow : (valueOf I pc a b .MUL).toNat = a.toNat * b.toNat % 2 ^ 32 := BitVec.toNat_mul a b
    rw [hhigh, hlow, Nat.mul_comm]
    exact Nat.div_add_mod _ _
  · rw [valueOf_div, valueOf_rem]
    exact signed_division a b

end Main

end RvO3
