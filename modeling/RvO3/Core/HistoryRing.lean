import RvO3.Core.Predictor
import Mathlib.Data.Nat.Bitwise
import Mathlib.Logic.Function.Iterate

/-!
# The size of the history ring

The constructor doubles a 32-bit size from 64 until it reaches a 32-bit bound. As long as the
bound is at most `2 ^ 31` the loop stops, at a power of two that no in-flight history outgrows.
Beyond, it doubles to 0 and goes on for ever, or the bound itself has wrapped and the ring is
too small.
-/

set_option autoImplicit false

namespace RvO3

namespace Predictor

/-! ## The loop -/

/-- The bound of the constructor's loop as an unbounded integer. -/
def ringBound (cfg : SimConfig) : Nat :=
  cfg.tageMaxHist + 2 * (cfg.robSize + cfg.fetchQSize) + 64

/-- The body: `ring <<= 1`. -/
def doubleRing (ring : Nat) : Nat := (ring <<< 1) % 2 ^ 32

/-- The loop leaves after `n` doublings. -/
def StopsAt (bound n : Nat) : Prop :=
  (∀ k < n, doubleRing^[k] 64 < bound) ∧ bound ≤ doubleRing^[n] 64

theorem doubleRing_pow {k : Nat} (hk : k ≤ 30) : doubleRing (2 ^ k) = 2 ^ (k + 1) := by
  have hlt : 2 ^ (k + 1) < 2 ^ 32 := Nat.pow_lt_pow_right (by decide) (by omega)
  rw [doubleRing, Nat.shiftLeft_eq, ← Nat.pow_add, Nat.mod_eq_of_lt hlt]

theorem ring_pow {n : Nat} (hn : n ≤ 25) : doubleRing^[n] 64 = 2 ^ (6 + n) := by
  induction n with
  | zero => rfl
  | succ n ih => rw [Function.iterate_succ_apply', ih (by omega), doubleRing_pow (by omega), Nat.add_assoc]

/-- The doubling that leaves 32 bits. -/
theorem ring_wrapped {n : Nat} (hn : 26 ≤ n) : doubleRing^[n] 64 = 0 := by
  induction n with
  | zero => omega
  | succ n ih =>
      rw [Function.iterate_succ_apply']
      rcases Nat.eq_or_lt_of_le hn with h | h
      · obtain rfl : n = 25 := by omega
        rw [ring_pow (Nat.le_refl _)]
        rfl
      · rw [ih (by omega)]
        rfl

theorem ring_le (n : Nat) : doubleRing^[n] 64 ≤ 2 ^ 31 := by
  rcases Nat.lt_or_ge n 26 with h | h
  · rw [ring_pow (by omega)]
    exact Nat.pow_le_pow_right (by decide) (by omega)
  · rw [ring_wrapped h]
    exact Nat.zero_le _

/-- A bound of at most `2 ^ 31` is reached, before any wrap. -/
theorem exists_stopsAt {bound : Nat} (h : bound ≤ 2 ^ 31) : ∃ n, n ≤ 25 ∧ StopsAt bound n := by
  have hex : ∃ n, bound ≤ doubleRing^[n] 64 := ⟨25, by rw [ring_pow (Nat.le_refl _)]; exact h⟩
  classical
  refine ⟨Nat.find hex, ?_, fun k hk => ?_, Nat.find_spec hex⟩
  · apply Nat.find_le
    rw [ring_pow (Nat.le_refl _)]
    exact h
  · exact Nat.lt_of_not_le (Nat.find_min hex hk)

/-- The model's bounded loop computes what the loop leaves with. -/
theorem ringSize_of_stopsAt {bound n : Nat} (h : StopsAt bound n) (hn : n ≤ 32) :
    ringSize bound 32 64 = doubleRing^[n] 64 := by
  obtain ⟨hbefore, hend⟩ := h
  have hloop : ∀ (n fuel ring : Nat), (∀ k < n, doubleRing^[k] ring < bound) →
      bound ≤ doubleRing^[n] ring → n ≤ fuel → ringSize bound fuel ring = doubleRing^[n] ring := by
    intro n
    induction n with
    | zero =>
        intro fuel ring _ hend _
        have hnot : ¬ ring < bound := Nat.not_lt.mpr hend
        cases fuel with
        | zero => rfl
        | succ fuel => rw [ringSize, if_neg hnot]; rfl
    | succ n ih =>
        intro fuel ring hbefore hend hfuel
        obtain ⟨fuel, rfl⟩ : ∃ m, fuel = m + 1 := ⟨fuel - 1, by omega⟩
        have hlt : ring < bound := hbefore 0 (Nat.succ_pos n)
        rw [ringSize, if_pos hlt, Function.iterate_succ_apply]
        exact ih fuel (doubleRing ring) (fun k hk => hbefore (k + 1) (Nat.succ_lt_succ hk)) hend (by omega)
  exact hloop n 32 64 hbefore hend hn

/-- With a bound of at most `2 ^ 31` the constructor leaves the loop with a power of two. -/
theorem exists_ring {cfg : SimConfig} (ht : cfg.tageTables ≠ 0) (h : ringBound cfg ≤ 2 ^ 31) :
    ∃ n, n ≤ 25 ∧ StopsAt (ringBound cfg % 2 ^ 32) n ∧ doubleRing^[n] 64 = 2 ^ (6 + n) ∧
      ringBound cfg ≤ 2 ^ (6 + n) ∧ ∀ histLen, (init cfg histLen).ringMask = 2 ^ (6 + n) - 1 := by
  have hmod : ringBound cfg % 2 ^ 32 = ringBound cfg := Nat.mod_eq_of_lt (by omega)
  obtain ⟨n, hn, hs⟩ := exists_stopsAt h
  have hpow := ring_pow hn
  have hbound := hs.2
  rw [hpow] at hbound
  refine ⟨n, hn, hmod.symm ▸ hs, hpow, hbound, fun histLen => ?_⟩
  show (if cfg.tageTables = 0 then 0 else ringSize (ringBound cfg % 2 ^ 32) 32 64 - 1) = _
  rw [if_neg ht, hmod, ringSize_of_stopsAt hs (by omega), hpow]

/-! ## Slots of the ring -/

/-- Positions count in 32 bits; the ring's size divides `2 ^ 32`. -/
theorem slot_eq_mod {k : Nat} (hk : k ≤ 32) (pos : Nat) :
    pos % 2 ^ 32 &&& (2 ^ k - 1) = pos % 2 ^ k := by
  rw [Nat.and_two_pow_sub_one_eq_mod, Nat.mod_mod_of_dvd _ (Nat.pow_dvd_pow 2 hk)]

theorem mod_ne_of_lt {r p d : Nat} (hd : 0 < d) (hlt : d < r) : (p + d) % r ≠ p % r := by
  intro h
  have hdvd : r ∣ d := (Nat.modEq_iff_dvd' (Nat.le_add_right p d)).mp h.symm |>.trans (by simp)
  exact absurd (Nat.le_of_dvd hd hdvd) (Nat.not_le_of_lt hlt)

/-! ## When the ring is large enough -/

/-- The loop ends with a power of two that no in-flight history outgrows. -/
structure RingFits (cfg : SimConfig) : Prop where
  stops : ∃ n k, StopsAt (ringBound cfg % 2 ^ 32) n ∧ doubleRing^[n] 64 = 2 ^ k ∧ k ≤ 32 ∧
    cfg.tageMaxHist + cfg.robSize + cfg.fetchQSize ≤ 2 ^ k ∧
    /- the constructor's mask is that of this size -/
    (∀ histLen, (init cfg histLen).ringMask = 2 ^ k - 1) ∧
    /- no push of an in-flight instruction meets the folds of its checkpoint or its window -/
    ∀ pos i j, 1 ≤ i → i ≤ cfg.robSize + cfg.fetchQSize → j < cfg.tageMaxHist →
      (pos + j + i) % 2 ^ 32 &&& (2 ^ k - 1) ≠ pos % 2 ^ 32 &&& (2 ^ k - 1)

theorem ringFits_of_le {cfg : SimConfig} (ht : cfg.tageTables ≠ 0) (h : ringBound cfg ≤ 2 ^ 31) :
    RingFits cfg := by
  obtain ⟨n, hn, hs, hpow, hbound, hmask⟩ := exists_ring ht h
  unfold ringBound at hbound
  refine ⟨n, 6 + n, hs, hpow, by omega, by omega, hmask, fun pos i j hi hle hj => ?_⟩
  rw [slot_eq_mod (by omega), slot_eq_mod (by omega), Nat.add_assoc]
  exact mod_ne_of_lt (by omega) (by omega)

/-- The sizing loop terminates with a large enough power of two exactly when the bound, as an
unbounded integer, is at most `2 ^ 31`. Above that the 32-bit bound may wrap to a smaller one, or
the doubled size to zero. -/
theorem ring_fits (cfg : SimConfig) (ht : cfg.tageTables ≠ 0) : RingFits cfg ↔ ringBound cfg ≤ 2 ^ 31 := by
  refine ⟨fun h => ?_, ringFits_of_le ht⟩
  obtain ⟨n, k, ⟨hbefore, hend⟩, hpow, -, hfit, -⟩ := h.stops
  have hle := ring_le n
  rw [hpow] at hend hle
  rw [← Nat.not_lt]
  intro hbig
  unfold ringBound at *
  -- a bound from 2 ^ 32 on that fits in 32 bits has wrapped to less than one step
  have hwrap : 2 ^ 32 ≤ cfg.tageMaxHist + 2 * (cfg.robSize + cfg.fetchQSize) + 64 := by
    rw [← Nat.not_lt]
    intro hlt
    rw [Nat.mod_eq_of_lt hlt] at hend
    omega
  have hsmall : (cfg.tageMaxHist + 2 * (cfg.robSize + cfg.fetchQSize) + 64) % 2 ^ 32 ≤ 64 := by omega
  have hn : n = 0 := by
    rw [← Nat.le_zero, ← Nat.not_lt]
    intro hpos
    have hlt : 64 < (cfg.tageMaxHist + 2 * (cfg.robSize + cfg.fetchQSize) + 64) % 2 ^ 32 := hbefore 0 hpos
    omega
  rw [hn] at hpow
  have hk : 2 ^ k = 64 := hpow.symm
  omega

theorem ring_fits_tage : RingFits { defaultConfig with tageTables := 4 } :=
  (ring_fits _ (by decide)).mpr (by decide)

/-- TAGE with a fetch queue of `2 ^ 30` entries. -/
def hugeConfig : SimConfig :=
  { defaultConfig with tageTables := 4, fetchQSize := 2 ^ 30 }

/-- A fetch queue of `2 ^ 30` entries is accepted, and the loop that sizes its ring never ends. -/
theorem huge_ring_loops : validateConfig hugeConfig = .ok hugeConfig ∧ hugeConfig.tageTables ≠ 0 ∧
    (∀ n, ¬ StopsAt (ringBound hugeConfig % 2 ^ 32) n) ∧ ¬ RingFits hugeConfig := by
  have hloop : ∀ n, ¬ StopsAt (ringBound hugeConfig % 2 ^ 32) n := by
    rintro n ⟨-, hend⟩
    have hle := ring_le n
    have hb : ringBound hugeConfig % 2 ^ 32 = 2147483904 := by decide
    omega
  refine ⟨by decide, by decide, hloop, fun h => ?_⟩
  obtain ⟨n, k, hs, -⟩ := h.stops
  exact hloop n hs

end Predictor

end RvO3
