import Mathlib.GroupTheory.Perm.Cycle.Basic
import RvO3.Isa.Instr

/-!
# The pointer-chasing benchmark

`bench/ptrchase.c` links its nodes by Sattolo's shuffle, so that one ring goes through all of
them: a shorter one would stay in the cache. The last turn of the shuffle composes with the ring
of the nodes below it, and takes in one node more (`IsRing.insert`). Whatever the generator
draws, a walk of as many loads as there are nodes reads every node (`chase_ring`).
-/

set_option autoImplicit false

namespace RvO3.Bench

/-! ## The program -/

/-- The state of `lcg`, which is also what it returns. -/
def lcg (state : Word) : Word := state * 1664525#32 + 1013904223#32

/-- `nodes[i].next` and `nodes[j].next` change places. -/
def swapNext (next : Nat → Nat) (i j : Nat) : Nat → Nat :=
  Function.update (Function.update next i (next j)) j (next i)

/-- The shuffle from node `i` down to node `1`, with a generator. -/
def shuffle (gen : Word → Word) : Nat → (Nat → Nat) → Word → (Nat → Nat) × Word
  | 0, next, state => (next, state)
  | i + 1, next, state => shuffle gen i (swapNext next (i + 1) ((gen state).toNat % (i + 1))) (gen state)

/-- The links of nodes `0` to `last`, each of which starts as its own. -/
def links (last : Nat) (state : Word) : Nat → Nat := (shuffle lcg last id state).1

/-- The walk: the node read last, and the sum. -/
def chase (next : Nat → Nat) : Nat → Nat × Word
  | 0 => (0, 0)
  | s + 1 => (next (chase next s).1, (chase next s).2 + BitVec.ofNat 32 (next (chase next s).1))

/-! ## Rings -/

open Equiv (swap Perm)

/-- The nodes up to `k` are one ring, and no other node is linked. -/
structure IsRing (k : Nat) (c : Perm Nat) : Prop where
  fixed : ∀ x, k < x → c x = x
  same : ∀ x ≤ k, c.SameCycle x 0

section Rings

variable {k j : Nat} {c g : Perm Nat}

/-- What holds along each link holds around a ring. -/
theorem sameCycle_mono {x y : Nat} (hstep : ∀ x, g.SameCycle x (c x)) (h : c.SameCycle x y) :
    g.SameCycle x y := by
  obtain ⟨n, rfl⟩ := h
  induction n using Int.induction_on with
  | zero => exact .refl g x
  | succ n ih =>
      rw [add_comm, zpow_add, zpow_one, Perm.mul_apply]
      exact ih.trans (hstep _)
  | pred n ih =>
      have hback : c ((c ^ (-(n : Int) - 1)) x) = (c ^ (-(n : Int))) x := by
        rw [← Perm.mul_apply, ← zpow_one_add]
        congr 2
        omega
      have hlink := hstep ((c ^ (-(n : Int) - 1)) x)
      rw [hback] at hlink
      exact ih.trans hlink.symm

theorem IsRing.one : IsRing 0 1 where
  fixed _ _ := rfl
  same x hx := by
    rw [Nat.le_zero.mp hx]

/-- Node `k + 1` is taken in before any node of the ring. -/
theorem IsRing.insert (h : IsRing k c) (hj : j ≤ k) : IsRing (k + 1) (swap (k + 1) j * c) := by
  have hnew : (swap (k + 1) j * c) (k + 1) = j := by
    rw [Perm.mul_apply, h.fixed _ (Nat.lt_succ_self k), Equiv.swap_apply_left]
  have hstep : ∀ x, (swap (k + 1) j * c).SameCycle x (c x) := by
    intro x
    by_cases hx : x = k + 1
    · rw [hx, h.fixed _ (Nat.lt_succ_self k)]
    · have hne : c x ≠ k + 1 := by
        intro he
        exact hx (c.injective (he.trans (h.fixed _ (Nat.lt_succ_self k)).symm))
      by_cases hcx : c x = j
      · -- the new node stands between `x` and `c x`
        have hgx : (swap (k + 1) j * c) x = k + 1 := by
          rw [Perm.mul_apply, hcx, Equiv.swap_apply_right]
        have htwo : (swap (k + 1) j * c).SameCycle x ((swap (k + 1) j * c) ((swap (k + 1) j * c) x)) :=
          Equiv.Perm.sameCycle_apply_right.mpr (Equiv.Perm.sameCycle_apply_right.mpr .rfl)
        rw [hgx, hnew] at htwo
        rw [hcx]
        exact htwo
      · have hgx : (swap (k + 1) j * c) x = c x := by
          rw [Perm.mul_apply, Equiv.swap_apply_of_ne_of_ne hne hcx]
        rw [← hgx]
        exact Equiv.Perm.sameCycle_apply_right.mpr .rfl
  constructor
  · intro x hx
    rw [Perm.mul_apply, h.fixed x (by omega), Equiv.swap_apply_of_ne_of_ne (by omega) (by omega)]
  · intro x hx
    rcases Nat.lt_or_eq_of_le hx with hlt | rfl
    · exact sameCycle_mono hstep (h.same x (Nat.le_of_lt_succ hlt))
    · rw [← Equiv.Perm.sameCycle_apply_left, hnew]
      exact sameCycle_mono hstep (h.same j hj)

/-- Nodes of the ring link to nodes of the ring. -/
theorem IsRing.isCycleOn (h : IsRing k c) : c.IsCycleOn (Finset.range (k + 1)) := by
  refine ⟨Equiv.bijOn _ fun x => ?_, fun x hx y hy => ?_⟩
  · rw [Finset.mem_coe, Finset.mem_coe, Finset.mem_range, Finset.mem_range]
    by_cases hx : k < x
    · rw [h.fixed x hx]
    · refine iff_of_true ?_ (by omega)
      by_contra hcx
      have hfix := c.injective (h.fixed (c x) (by omega))
      omega
  · rw [Finset.mem_coe, Finset.mem_range] at hx hy
    exact (h.same x (by omega)).trans (h.same y (by omega)).symm

end Rings

/-! ## The shuffle links a ring -/

section Shuffle

variable {next : Nat → Nat}

theorem swapNext_eq (next : Nat → Nat) (i j : Nat) : swapNext next i j = next ∘ swap i j := by
  rw [Equiv.swap_comm, Equiv.comp_swap_eq_update, swapNext]

/-- The turns from node `k` on compose a ring with the links there were. -/
theorem shuffle_ring (gen : Word → Word) (k : Nat) (next : Nat → Nat) (state : Word) :
    ∃ c, IsRing k c ∧ (shuffle gen k next state).1 = next ∘ c := by
  induction k generalizing next state with
  | zero => exact ⟨1, .one, rfl⟩
  | succ k ih =>
      have hj : (gen state).toNat % (k + 1) ≤ k := Nat.le_of_lt_succ (Nat.mod_lt _ (Nat.succ_pos k))
      rw [shuffle]
      generalize (gen state).toNat % (k + 1) = j at hj
      obtain ⟨c, hring, heq⟩ := ih (swapNext next (k + 1) j) (gen state)
      refine ⟨_, hring.insert hj, ?_⟩
      rw [heq, swapNext_eq, Function.comp_assoc, Equiv.Perm.coe_mul]

theorem chase_fst (next : Nat → Nat) (s : Nat) : (chase next s).1 = next^[s] 0 := by
  induction s with
  | zero => rfl
  | succ s ih => rw [Function.iterate_succ_apply', ← ih]; rfl

/-- **Pointer chasing.** The walk reads the same node again after exactly as many loads as there are
nodes, and it reads all of them in between. -/
theorem chase_ring (last : Nat) (state : Word) :
    (∀ s t, (chase (links last state) s).1 = (chase (links last state) t).1 ↔ s ≡ t [MOD last + 1]) ∧
      ∀ node ≤ last, ∃ s ≤ last, (chase (links last state) s).1 = node := by
  obtain ⟨c, hring, heq⟩ := shuffle_ring lcg last id state
  have hcycle := hring.isCycleOn
  have hzero : 0 ∈ Finset.range (last + 1) := Finset.mem_range.mpr (Nat.succ_pos last)
  have hwalk : ∀ s, (chase (links last state) s).1 = (c ^ s) 0 := by
    intro s
    rw [chase_fst, ← Equiv.Perm.iterate_eq_pow]
    exact congrArg (fun f => f^[s] 0) heq
  constructor
  · intro s t
    rw [hwalk, hwalk, hcycle.pow_apply_eq_pow_apply hzero, Finset.card_range]
  · intro node hnode
    obtain ⟨s, hs, hsn⟩ := hcycle.exists_pow_eq hzero (Finset.mem_range.mpr (Nat.lt_succ_of_le hnode))
    rw [Finset.card_range] at hs
    exact ⟨s, Nat.le_of_lt_succ hs, (hwalk s).trans hsn⟩

end Shuffle

end RvO3.Bench
