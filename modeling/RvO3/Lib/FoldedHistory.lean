import Mathlib.Data.Nat.Bitwise
import Mathlib.Data.List.Basic

/-!
# Folded bit histories

The newest `len` bits of a history, cut into chunks of `width` bits that are added modulo two:
bit `j` (0 the newest) lands at position `j % width`. When one bit enters and one leaves, every
bit moves one position round the chunk. So the fold of the longer history is the old fold turned
by one, plus the bit that enters, minus the one that leaves (`foldFresh_push`).
-/

set_option autoImplicit false

namespace RvO3

/-- Bit `j` of a history, newest first; what came before the first bit is 0. -/
def histBit (h : List Bool) (j : Nat) : Nat := (h.getD j false).toNat

/-- The fold of the newest `len` bits, from scratch. -/
def foldFresh (h : List Bool) (width : Nat) : Nat → Nat
  | 0 => 0
  | n + 1 => foldFresh h width n ^^^ (histBit h n <<< (n % width))

/-- Bring the bits that left a word of `width` bits back in at the bottom. -/
def wrapTop (width c : Nat) : Nat := (c ^^^ (c >>> width)) &&& ((1 <<< width) - 1)

@[simp] theorem histBit_cons_zero (b : Bool) (h : List Bool) : histBit (b :: h) 0 = b.toNat := rfl

@[simp] theorem histBit_cons_succ (b : Bool) (h : List Bool) (j : Nat) :
    histBit (b :: h) (j + 1) = histBit h j := rfl

@[simp] theorem histBit_nil (j : Nat) : histBit [] j = 0 := rfl

theorem histBit_le (h : List Bool) (j : Nat) : histBit h j ≤ 1 := Bool.toNat_le _

theorem histBit_drop (h : List Bool) (d j : Nat) : histBit (h.drop d) j = histBit h (d + j) := by
  unfold histBit
  rw [List.getD_eq_getElem?_getD, List.getElem?_drop, List.getD_eq_getElem?_getD]

@[simp] theorem foldFresh_nil (width len : Nat) : foldFresh [] width len = 0 := by
  induction len with
  | zero => rfl
  | succ n ih => rw [foldFresh, ih, histBit_nil, Nat.zero_shiftLeft, Nat.xor_self]

/-! ## Turning a word -/

section Wrap

variable {width : Nat}

theorem wrapTop_xor (x y : Nat) : wrapTop width (x ^^^ y) = wrapTop width x ^^^ wrapTop width y := by
  unfold wrapTop
  rw [Nat.shiftRight_xor_distrib, ← Nat.and_xor_distrib_right]
  congr 1
  apply Nat.eq_of_testBit_eq
  intro i
  simp only [Nat.testBit_xor]
  cases x.testBit i <;> cases y.testBit i <;> cases (x >>> width).testBit i <;>
    cases (y >>> width).testBit i <;> rfl

theorem wrapTop_of_lt {x : Nat} (h : x < 2 ^ width) : wrapTop width x = x := by
  have hshift : x >>> width = 0 := by
    rw [Nat.shiftRight_eq_div_pow]
    exact Nat.div_eq_of_lt h
  rw [wrapTop, hshift, Nat.xor_zero, Nat.one_shiftLeft, Nat.and_two_pow_sub_one_eq_mod]
  exact Nat.mod_eq_of_lt h

theorem wrapTop_lt (c : Nat) : wrapTop width c < 2 ^ width := by
  rw [wrapTop, Nat.one_shiftLeft, Nat.and_two_pow_sub_one_eq_mod]
  exact Nat.mod_lt _ (Nat.two_pow_pos _)

theorem bit_shift_lt {b k : Nat} (hb : b ≤ 1) (hk : k < width) : b <<< k < 2 ^ width := by
  rw [Nat.shiftLeft_eq]
  calc b * 2 ^ k ≤ 1 * 2 ^ k := Nat.mul_le_mul_right _ hb
    _ < 2 ^ width := by
      rw [Nat.one_mul]
      exact Nat.pow_lt_pow_right (by decide) hk

/-- A single bit moves one position round the word. -/
theorem wrapTop_bit {b : Nat} (hb : b ≤ 1) (hw : 1 ≤ width) (j : Nat) :
    wrapTop width ((b <<< (j % width)) <<< 1) = b <<< ((j + 1) % width) := by
  have hj : j % width < width := Nat.mod_lt _ hw
  rw [← Nat.shiftLeft_add]
  rcases Nat.lt_or_ge (j % width + 1) width with hlt | hge
  · have hmod : (j + 1) % width = j % width + 1 := by
      rw [Nat.add_mod, Nat.mod_eq_of_lt (a := 1) (by omega), Nat.mod_eq_of_lt hlt]
    rw [hmod, wrapTop_of_lt (bit_shift_lt hb hlt)]
  · -- the top bit comes back in at the bottom
    have htop : j % width + 1 = width := by omega
    have hmod : (j + 1) % width = 0 := by
      rw [Nat.add_mod]
      rcases Nat.eq_or_lt_of_le hw with h1 | h1
      · rw [← h1, Nat.mod_one]
      · rw [Nat.mod_eq_of_lt (a := 1) h1, htop, Nat.mod_self]
    have hback : (b <<< width) >>> width = b := by
      rw [Nat.shiftLeft_eq, Nat.shiftRight_eq_div_pow, Nat.mul_div_cancel _ (Nat.two_pow_pos _)]
    have hlt : b < 2 ^ width := by
      have h2 : 2 ^ 1 ≤ 2 ^ width := Nat.pow_le_pow_right (by decide) hw
      omega
    rw [htop, hmod, Nat.shiftLeft_zero, wrapTop, hback, Nat.one_shiftLeft,
      Nat.and_two_pow_sub_one_eq_mod, Nat.xor_mod_two_pow, Nat.shiftLeft_eq, Nat.mul_mod_left,
      Nat.zero_xor]
    exact Nat.mod_eq_of_lt hlt

end Wrap

/-! ## One bit enters, one leaves -/

section Push

variable {width : Nat} (h : List Bool) (b : Bool)

/-- A bit enters a fold that is one bit shorter than the new one. -/
theorem foldFresh_cons (hw : 1 ≤ width) (n : Nat) :
    foldFresh (b :: h) width (n + 1) = wrapTop width (foldFresh h width n <<< 1) ^^^ b.toNat := by
  induction n with
  | zero =>
      have hzero : wrapTop width 0 = 0 := wrapTop_of_lt (Nat.two_pow_pos _)
      rw [foldFresh, foldFresh, foldFresh, histBit_cons_zero, Nat.zero_mod, Nat.shiftLeft_zero,
        Nat.zero_shiftLeft, hzero]
  | succ n ih =>
      rw [foldFresh, ih, histBit_cons_succ, foldFresh, Nat.shiftLeft_xor_distrib, wrapTop_xor,
        wrapTop_bit (histBit_le h n) hw, Nat.xor_assoc, Nat.xor_assoc]
      congr 1
      exact Nat.xor_comm _ _

/-- The incremental update of a fold of `n + 1` bits. -/
theorem foldFresh_push (hw : 1 ≤ width) (n : Nat) :
    wrapTop width ((foldFresh h width (n + 1) <<< 1) ^^^ b.toNat ^^^ (histBit h n <<< ((n + 1) % width))) =
      foldFresh (b :: h) width (n + 1) := by
  have hbit : b.toNat < 2 ^ width := by
    have hb : b.toNat ≤ 1 := Bool.toNat_le b
    have h2 : 2 ^ 1 ≤ 2 ^ width := Nat.pow_le_pow_right (by decide) hw
    omega
  have hout : histBit h n <<< ((n + 1) % width) < 2 ^ width :=
    bit_shift_lt (histBit_le h n) (Nat.mod_lt _ hw)
  rw [foldFresh_cons h b hw, foldFresh, Nat.shiftLeft_xor_distrib, wrapTop_xor, wrapTop_xor, wrapTop_xor,
    wrapTop_bit (histBit_le h n) hw, wrapTop_of_lt hbit, wrapTop_of_lt hout]
  -- the bit that leaves cancels
  rw [Nat.xor_assoc (wrapTop width (foldFresh h width n <<< 1)), Nat.xor_assoc, Nat.xor_right_comm,
    Nat.xor_self, Nat.zero_xor]

end Push

end RvO3
