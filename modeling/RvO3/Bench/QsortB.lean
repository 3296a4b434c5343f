import Mathlib.Logic.Equiv.Basic
import Mathlib.Tactic.Common
import RvO3.Isa.Instr

/-!
# The quicksort benchmark

`sortrange` of `bench/qsortb.c` sorts a range of an array by Hoare's partition. Neither of its inner
loops tests for the end of the range: they stop at the pivot, or at an element that an earlier
swap left there (`Split.turn`). The first turn swaps, so both parts are smaller than the range.

An access outside the array makes the result `none`, and so does a number of turns or of nested
calls that is not enough. The function sorts every array, with one call for each element
(`sortrange_sorts`).
-/

set_option autoImplicit false

namespace RvO3.Bench

/-! ## The program -/

section Program

variable (n : Int)

/-- `while (a[i] < pivot) i++;` -/
def scanUp (a : Int → Word) (pivot : Word) (i : Int) : Option Int :=
  if 0 ≤ i ∧ i < n then
    if a i < pivot then scanUp a pivot (i + 1) else some i
  else none
  termination_by (n - i).toNat
  decreasing_by omega

/-- `while (a[j] > pivot) j--;` -/
def scanDown (a : Int → Word) (pivot : Word) (j : Int) : Option Int :=
  if 0 ≤ j ∧ j < n then
    if pivot < a j then scanDown a pivot (j - 1) else some j
  else none
  termination_by (j + 1).toNat
  decreasing_by omega

/-- `a[i]` and `a[j]` change places. -/
def swapAt (a : Int → Word) (i j : Int) : Int → Word := Function.update (Function.update a i (a j)) j (a i)

/-- `while (i <= j)`, and a number of turns that is not exceeded. -/
def partitionLoop (pivot : Word) : Nat → (Int → Word) → Int → Int → Option ((Int → Word) × Int × Int)
  | 0, _, _, _ => none
  | turns + 1, a, i, j =>
      if i ≤ j then
        (scanUp n a pivot i).bind fun i => (scanDown n a pivot j).bind fun j =>
          if i ≤ j then partitionLoop pivot turns (swapAt a i j) (i + 1) (j - 1) else partitionLoop pivot turns a i j
      else some (a, i, j)

/-- The range from `lo` to `hi`, and a depth of nested calls that is not exceeded. -/
def sortrange : Nat → (Int → Word) → Int → Int → Option (Int → Word)
  | 0, _, _, _ => none
  | depth + 1, a, lo, hi =>
      if lo ≥ hi then some a
      else
        let mid := lo + (hi - lo).tdiv 2
        if 0 ≤ mid ∧ mid < n then
          (partitionLoop n (a mid) ((hi - lo).toNat + 2) a lo hi).bind fun r =>
            (sortrange depth r.1 lo r.2.2).bind fun a => sortrange depth a r.2.1 hi
        else none

end Program

/-! ## Rearranging a range -/

/-- The elements from `lo` to `hi` are in another order, and the others are as they were. -/
def Rearranged (lo hi : Int) (a a' : Int → Word) : Prop :=
  ∃ e : Equiv.Perm Int, (∀ k, k < lo ∨ hi < k → e k = k) ∧ ∀ k, a' k = a (e k)

section Rearranging

variable {lo hi lo' hi' i j : Int} {a a' a'' : Int → Word}

theorem Rearranged.refl (lo hi : Int) (a : Int → Word) : Rearranged lo hi a a := ⟨Equiv.refl Int, fun _ _ => rfl, fun _ => rfl⟩

theorem Rearranged.trans (h : Rearranged lo hi a a') (h' : Rearranged lo hi a' a'') : Rearranged lo hi a a'' := by
  obtain ⟨e, he, hv⟩ := h
  obtain ⟨e', he', hv'⟩ := h'
  refine ⟨e'.trans e, fun k hk => ?_, fun k => ?_⟩
  · rw [Equiv.trans_apply, he' k hk, he k hk]
  · rw [hv', hv, Equiv.trans_apply]

theorem Rearranged.widen (h : Rearranged lo' hi' a a') (hlo : lo ≤ lo') (hhi : hi' ≤ hi) : Rearranged lo hi a a' := by
  obtain ⟨e, he, hv⟩ := h
  exact ⟨e, fun k hk => he k (by omega), hv⟩

theorem Rearranged.outside (h : Rearranged lo hi a a') {k : Int} (hk : k < lo ∨ hi < k) : a' k = a k := by
  obtain ⟨e, he, hv⟩ := h
  rw [hv, he k hk]

/-- What holds of every element of the range holds of them in any order. -/
theorem Rearranged.all (h : Rearranged lo hi a a') {P : Word → Prop} (hP : ∀ k, lo ≤ k → k ≤ hi → P (a k)) :
    ∀ k, lo ≤ k → k ≤ hi → P (a' k) := by
  obtain ⟨e, he, hv⟩ := h
  intro k hlo hhi
  rw [hv]
  have hin : ¬ (e k < lo ∨ hi < e k) := by
    intro hout
    have hfix := e.injective (he (e k) hout)
    omega
  exact hP (e k) (by omega) (by omega)

theorem swapAt_rearranged (hi₁ : lo ≤ i) (hi₂ : i ≤ hi) (hj₁ : lo ≤ j) (hj₂ : j ≤ hi) :
    Rearranged lo hi a (swapAt a i j) := by
  refine ⟨Equiv.swap i j, fun k hk => Equiv.swap_apply_of_ne_of_ne (by omega) (by omega), fun k => ?_⟩
  rw [swapAt, ← Equiv.comp_swap_eq_update, Equiv.swap_comm, Function.comp_apply]

end Rearranging

/-! ## The inner loops -/

section Scans

variable {n : Int} {a : Int → Word} {pivot : Word} {i j k : Int}

/-- An element that is not below the pivot stops the first loop. -/
theorem scanUp_spec (h0 : 0 ≤ i) (hik : i ≤ k) (hk : k < n) (hstop : pivot ≤ a k) :
    ∃ i', scanUp n a pivot i = some i' ∧ i ≤ i' ∧ i' ≤ k ∧ pivot ≤ a i' ∧ ∀ m, i ≤ m → m < i' → a m ≤ pivot := by
  fun_induction scanUp n a pivot i with
  | case1 i hin hlt ih =>
      have hne : i ≠ k := by
        rintro rfl
        exact BitVec.not_lt.mpr hstop hlt
      obtain ⟨i', he, hle, hik', hp, hbelow⟩ := ih (by omega) (by omega)
      refine ⟨i', he, by omega, hik', hp, fun m hm hmi => ?_⟩
      by_cases hmeq : m = i
      · rw [hmeq]
        exact BitVec.le_of_lt hlt
      · exact hbelow m (by omega) hmi
  | case2 i hin hge =>
      exact ⟨i, rfl, Int.le_refl i, hik, BitVec.not_lt.mp hge, fun m hm hmi => absurd hm (by omega)⟩
  | case3 i hout => exact absurd ⟨h0, by omega⟩ hout

/-- An element that is not above the pivot stops the second loop. -/
theorem scanDown_spec (h0 : 0 ≤ k) (hkj : k ≤ j) (hj : j < n) (hstop : a k ≤ pivot) :
    ∃ j', scanDown n a pivot j = some j' ∧ j' ≤ j ∧ k ≤ j' ∧ a j' ≤ pivot ∧ ∀ m, j' < m → m ≤ j → pivot ≤ a m := by
  fun_induction scanDown n a pivot j with
  | case1 j hin hlt ih =>
      have hne : j ≠ k := by
        rintro rfl
        exact BitVec.not_lt.mpr hstop hlt
      obtain ⟨j', he, hle, hkj', hp, habove⟩ := ih (by omega) (by omega)
      refine ⟨j', he, by omega, hkj', hp, fun m hm hmj => ?_⟩
      by_cases hmeq : m = j
      · rw [hmeq]
        exact BitVec.le_of_lt hlt
      · exact habove m hm (by omega)
  | case2 j hin hge =>
      exact ⟨j, rfl, Int.le_refl j, hkj, BitVec.not_lt.mp hge, fun m hm hmj => absurd hm (by omega)⟩
  | case3 j hout => exact absurd ⟨by omega, hj⟩ hout

end Scans

/-! ## The partition -/

/-- In the middle of the loop: what lies below `i` is at most the pivot, and what lies above `j` at least.
The pivot is still between them, or each part has lost an element. -/
structure Split (lo hi : Int) (pivot : Word) (a₀ a : Int → Word) (i j : Int) : Prop where
  moved : Rearranged lo hi a₀ a
  low : lo ≤ i
  high : j ≤ hi
  below : ∀ k, lo ≤ k → k < i → a k ≤ pivot
  above : ∀ k, j < k → k ≤ hi → pivot ≤ a k
  begun : (lo < i ∧ j < hi) ∨ ∃ k, i ≤ k ∧ k ≤ j ∧ a k = pivot

section Partition

variable {n lo hi i j : Int} {a₀ a : Int → Word} {pivot : Word}

/-- Both inner loops end in the range, and then the elements where they ended are swapped, or the loop
is over. -/
theorem Split.turn (h : Split lo hi pivot a₀ a i j) (h0 : 0 ≤ lo) (hn : hi < n) (hij : i ≤ j) :
    ∃ i' j', scanUp n a pivot i = some i' ∧ scanDown n a pivot j = some j' ∧ i ≤ i' ∧ j' ≤ j ∧
      (i' ≤ j' ∧ Split lo hi pivot a₀ (swapAt a i' j') (i' + 1) (j' - 1) ∨
        j' < i' ∧ Split lo hi pivot a₀ a i' j') := by
  have hlow := h.low
  have hhigh := h.high
  -- an element that stops the scan up, and one that stops the scan down
  have hstops : ∃ u d, (i ≤ u ∧ u ≤ hi ∧ pivot ≤ a u) ∧ (lo ≤ d ∧ d ≤ j ∧ a d ≤ pivot) ∧
      ((lo < i ∧ j < hi) ∨ u ≤ d) := by
    rcases h.begun with ⟨hl, hh⟩ | ⟨k, hik, hkj, hk⟩
    · exact ⟨j + 1, i - 1, ⟨by omega, by omega, h.above _ (by omega) (by omega)⟩,
        ⟨by omega, by omega, h.below _ (by omega) (by omega)⟩, .inl ⟨hl, hh⟩⟩
    · exact ⟨k, k, ⟨hik, by omega, hk ▸ BitVec.le_refl _⟩, ⟨by omega, hkj, hk ▸ BitVec.le_refl _⟩, .inr (Int.le_refl k)⟩
  obtain ⟨u, d, ⟨hiu, huh, hu⟩, ⟨hld, hdj, hd⟩, hor⟩ := hstops
  obtain ⟨i', hup, hii, hiu', hpi, hbelow⟩ := scanUp_spec (n := n) (by omega) hiu (by omega) hu
  obtain ⟨j', hdown, hjj, hdj', hpj, habove⟩ := scanDown_spec (n := n) (by omega) hdj (by omega) hd
  refine ⟨i', j', hup, hdown, hii, hjj, ?_⟩
  have hbelow' : ∀ k, lo ≤ k → k < i' → a k ≤ pivot := by
    intro k hk hki
    by_cases hlt : k < i
    · exact h.below k hk hlt
    · exact hbelow k (by omega) hki
  have habove' : ∀ k, j' < k → k ≤ hi → pivot ≤ a k := by
    intro k hk hkh
    by_cases hlt : j < k
    · exact h.above k hlt hkh
    · exact habove k hk (by omega)
  by_cases hle : i' ≤ j'
  · refine .inl ⟨hle, ?_⟩
    have hmoved := @swapAt_rearranged lo hi i' j' a (by omega) (by omega) (by omega) (by omega)
    have hatj : swapAt a i' j' j' = a i' := by rw [swapAt, Function.update_self]
    have hati : swapAt a i' j' i' = a j' := by
      rw [swapAt, Function.update_apply]
      split
      · rename_i heq
        rw [heq]
      · rw [Function.update_self]
    have hother : ∀ k, k ≠ i' → k ≠ j' → swapAt a i' j' k = a k := by
      intro k hki hkj
      rw [swapAt, Function.update_of_ne hkj, Function.update_of_ne hki]
    constructor
    · exact h.moved.trans hmoved
    · omega
    · omega
    · intro k hk hki
      by_cases heq : k = i'
      · rw [heq, hati]
        exact hpj
      · rw [hother k heq (by omega)]
        exact hbelow' k hk (by omega)
    · intro k hk hkh
      by_cases heq : k = j'
      · rw [heq, hatj]
        exact hpi
      · rw [hother k (by omega) heq]
        exact habove' k (by omega) hkh
    · exact .inl ⟨by omega, by omega⟩
  · refine .inr ⟨by omega, h.moved, by omega, by omega, hbelow', habove', .inl ?_⟩
    omega

/-- The loop ends with the two parts apart, and each smaller than the range. -/
theorem partitionLoop_spec (turns : Nat) (h : Split lo hi pivot a₀ a i j) (h0 : 0 ≤ lo) (hn : hi < n)
    (hturns : (j + 1 - i).toNat < turns) :
    ∃ a' i' j', partitionLoop n pivot turns a i j = some (a', i', j') ∧ Split lo hi pivot a₀ a' i' j' ∧
      j' < i' ∧ lo < i' ∧ j' < hi := by
  induction turns generalizing a i j with
  | zero => exact absurd hturns (Nat.not_lt_zero _)
  | succ turns ih =>
      rw [partitionLoop]
      by_cases hij : i ≤ j
      · obtain ⟨i', j', hup, hdown, hii, hjj, hnext⟩ := h.turn h0 hn hij
        rw [if_pos hij, hup, Option.bind_some, hdown, Option.bind_some]
        rcases hnext with ⟨hle, hs⟩ | ⟨hlt, hs⟩
        · rw [if_pos hle]
          exact ih hs (by omega)
        · rw [if_neg (by omega)]
          exact ih hs (by omega)
      · rw [if_neg hij]
        refine ⟨a, i, j, rfl, h, by omega, ?_⟩
        rcases h.begun with hb | ⟨k, hik, hkj, -⟩
        · exact hb
        · omega

end Partition

/-! ## The sort -/

/-- The range is in order. -/
def Sorted (lo hi : Int) (a : Int → Word) : Prop := ∀ k l, lo ≤ k → k ≤ l → l ≤ hi → a k ≤ a l

section Sorting

variable {n lo hi i j : Int} {a₀ a a₁ a₂ : Int → Word} {pivot : Word}

/-- Two sorted parts of a partition are a sorted range. -/
theorem Split.sorted (h : Split lo hi pivot a₀ a i j) (hji : j < i) (h1 : Rearranged lo j a a₁) (hs1 : Sorted lo j a₁)
    (h2 : Rearranged i hi a₁ a₂) (hs2 : Sorted i hi a₂) : Sorted lo hi a₂ := by
  have hlow := h.low
  have hhigh := h.high
  have hle : ∀ k, lo ≤ k → k < i → a₂ k ≤ pivot := by
    intro k hk hki
    rw [h2.outside (.inl hki)]
    by_cases hkj : k ≤ j
    · exact h1.all (P := (· ≤ pivot)) (fun m hm hmj => h.below m hm (by omega)) k hk hkj
    · rw [h1.outside (.inr (by omega))]
      exact h.below k hk hki
  have hge : ∀ k, j < k → k ≤ hi → pivot ≤ a₂ k := by
    intro k hk hkh
    by_cases hki : i ≤ k
    · refine h2.all (P := (pivot ≤ ·)) (fun m hm hmh => ?_) k hki hkh
      rw [h1.outside (.inr (by omega))]
      exact h.above m (by omega) hmh
    · rw [h2.outside (.inl (by omega)), h1.outside (.inr hk)]
      exact h.above k hk hkh
  intro k l hk hkl hl
  by_cases hlj : l ≤ j
  · rw [h2.outside (.inl (by omega)), h2.outside (.inl (by omega))]
    exact hs1 k l hk hkl hlj
  · by_cases hki : i ≤ k
    · exact hs2 k l hki hkl hl
    · exact BitVec.le_trans (hle k hk (by omega)) (hge l (by omega) hl)

/-- A range within the array is sorted by a depth of calls that is its length. -/
theorem sortrange_spec (depth : Nat) (a : Int → Word) (h0 : 0 ≤ lo) (hn : hi < n) (hdepth : (hi - lo).toNat < depth) :
    ∃ a', sortrange n depth a lo hi = some a' ∧ Rearranged lo hi a a' ∧ Sorted lo hi a' := by
  induction depth generalizing a lo hi with
  | zero => exact absurd hdepth (Nat.not_lt_zero _)
  | succ depth ih =>
      rw [sortrange]
      by_cases hlo : lo ≥ hi
      · rw [if_pos hlo]
        refine ⟨a, rfl, .refl lo hi a, fun k l hk hkl hl => ?_⟩
        have hkl' : k = l := by omega
        rw [hkl']
        exact BitVec.le_refl _
      · rw [if_neg hlo]
        dsimp only
        have hmid : (hi - lo).tdiv 2 = (hi - lo) / 2 := Int.tdiv_eq_ediv_of_nonneg (by omega)
        rw [hmid, if_pos (by omega)]
        have hstart : Split lo hi (a (lo + (hi - lo) / 2)) a a lo hi :=
          ⟨.refl lo hi a, Int.le_refl lo, Int.le_refl hi, fun k hk hlt => absurd hk (by omega),
            fun k hk hle => absurd hk (by omega), .inr ⟨lo + (hi - lo) / 2, by omega, by omega, rfl⟩⟩
        obtain ⟨a', i, j, hpart, hs, hji, hi', hj'⟩ := partitionLoop_spec ((hi - lo).toNat + 2) hstart h0 hn (by omega)
        obtain ⟨a₁, hsort₁, hre₁, hso₁⟩ := @ih lo j a' h0 (by omega) (by omega)
        obtain ⟨a₂, hsort₂, hre₂, hso₂⟩ := @ih i hi a₁ (by omega) hn (by omega)
        rw [hpart, Option.bind_some, hsort₁, Option.bind_some, hsort₂]
        refine ⟨a₂, rfl, ?_, hs.sorted hji hre₁ hso₁ hre₂ hso₂⟩
        exact (hs.moved.trans (hre₁.widen (Int.le_refl lo) (by omega))).trans (hre₂.widen (by omega) (Int.le_refl hi))

/-- **Quicksort.** Every array is sorted, with no access outside it. The inner loops have no bound
of their own: the pivot stops them. A nesting of the length plus one is enough. -/
theorem sortrange_sorts (n : Nat) (a : Int → Word) :
    ∃ a', sortrange n (n + 1) a 0 (n - 1) = some a' ∧ Rearranged 0 (n - 1) a a' ∧ Sorted 0 (n - 1) a' :=
  sortrange_spec (n + 1) a (Int.le_refl 0) (by omega) (by omega)

end Sorting

end RvO3.Bench
