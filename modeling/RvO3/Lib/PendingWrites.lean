import Mathlib.Order.Lattice

/-!
# Writes that wait before a memory

A memory with writers before it that have not reached it. A writer says for each location
that it leaves the location alone, that it will write it but does not know what yet, or
what it writes. A reader of a given age sees the youngest older writer of a location, or
the memory when there is none (`Reads`); it sees nothing as long as that writer does not
know what it writes.

What a reader saw stays right when writers come and go around it (`Reads.keep`), and when
the oldest writer reaches the memory (`Reads.retire`). `overlays` is the memory that partial
writes lead to.
-/

set_option autoImplicit false

namespace RvO3

variable {ι α β τ : Type}

/-! ## Partial writes in order -/

/-- The memory after a write to some locations. -/
def overlay (mem : α → β) (p : α → Option β) : α → β := fun x => (p x).getD (mem x)

/-- The memory after several writes, the oldest first. -/
def overlays (mem : α → β) (ps : List (α → Option β)) : α → β := ps.foldl overlay mem

section Overlays

variable {mem : α → β} {p : α → Option β} {ps qs : List (α → Option β)} {x : α} {v : β}

theorem overlays_append (mem : α → β) (ps qs : List (α → Option β)) :
    overlays mem (ps ++ qs) = overlays (overlays mem ps) qs := List.foldl_append

/-- Writes elsewhere leave a location as it is. -/
theorem overlays_of_none (h : ∀ p ∈ ps, p x = none) : overlays mem ps x = mem x := by
  induction ps generalizing mem with
  | nil => rfl
  | cons p ps ih =>
      have hrest : overlays (overlay mem p) ps x = overlay mem p x :=
        ih fun q hq => h q (List.mem_cons_of_mem _ hq)
      apply hrest.trans
      rw [overlay, h p List.mem_cons_self, Option.getD_none]

/-- The last write of a location is what it holds. -/
theorem overlays_last (hp : p x = some v) (h : ∀ q ∈ qs, q x = none) :
    overlays mem (ps ++ p :: qs) x = v := by
  rw [overlays_append]
  have hlater : overlays (overlay (overlays mem ps) p) qs x = overlay (overlays mem ps) p x := overlays_of_none h
  apply hlater.trans
  rw [overlay, hp, Option.getD_some]

end Overlays

/-! ## Writers that wait -/

/-- The writers: which of them there are, how old each is, and what each does to a location. -/
structure Pending (ι α β τ : Type) where
  live : ι → Prop
  age : ι → τ
  /-- Nothing, a value that is not known yet, or a value. -/
  put : ι → α → Option (Option β)

namespace Pending

variable [LinearOrder τ] {W W' : Pending ι α β τ} {mem mem' : α → β} {n : τ} {x : α} {v : β} {o : ι}

/-- A writer of location `x` that is older than `n`. -/
structure Before (W : Pending ι α β τ) (n : τ) (x : α) (i : ι) : Prop where
  live : W.live i
  older : W.age i < n
  touches : W.put i x ≠ none

/-- A reader of age `n` sees the value `v` at location `x`. -/
inductive Reads (W : Pending ι α β τ) (mem : α → β) (n : τ) (x : α) : β → Prop
  | pending {i : ι} {v : β} : W.live i → W.age i < n → W.put i x = some (some v) →
      (∀ j, W.Before n x j → W.age j ≤ W.age i) → Reads W mem n x v
  | memory : (∀ j, ¬ W.Before n x j) → Reads W mem n x (mem x)

/-- With no writer before it, a reader sees the memory. -/
theorem Reads.of_none (h : W.Reads mem n x v) (hno : ∀ j, ¬ W.Before n x j) : v = mem x := by
  cases h with
  | pending hl ha hp _ => exact absurd ⟨hl, ha, by rw [hp]; exact Option.some_ne_none _⟩ (hno _)
  | memory _ => rfl

/-- What was seen stays right as long as the writers that know what they write stay, and no
writer comes in before the reader. -/
theorem Reads.keep (h : W.Reads mem n x v)
    (hk : ∀ i u, W.live i → W.age i < n → W.put i x = some (some u) →
      W'.live i ∧ W'.age i = W.age i ∧ W'.put i x = some (some u))
    (hb : ∀ j, W'.Before n x j → W.Before n x j ∧ W'.age j = W.age j)
    (hm : mem' x = mem x) : W'.Reads mem' n x v := by
  cases h with
  | @pending i v hl ha hp hlast =>
      obtain ⟨hl', ha', hp'⟩ := hk i v hl ha hp
      refine .pending hl' (by rw [ha']; exact ha) hp' fun j hj => ?_
      obtain ⟨hj', hage⟩ := hb j hj
      rw [hage, ha']
      exact hlast j hj'
  | memory hno =>
      rw [← hm]
      exact .memory fun j hj => hno j (hb j hj).1

/-- The oldest writer reaches the memory. -/
theorem Reads.retire (h : W.Reads mem n x v) (hlive : W.live o) (hage : W.age o < n)
    (hfirst : ∀ j, W.live j → j ≠ o → W.age o < W.age j)
    (hstay : ∀ j, W'.live j ↔ W.live j ∧ j ≠ o) (hsame : ∀ j, W.live j → j ≠ o →
      W'.age j = W.age j ∧ W'.put j x = W.put j x)
    (hknown : W.put o x ≠ some none) (hmem : ∀ u, W.put o x = some (some u) → mem' x = u)
    (hother : W.put o x = none → mem' x = mem x) : W'.Reads mem' n x v := by
  have hback : ∀ j, W'.Before n x j → W.Before n x j ∧ j ≠ o ∧ W'.age j = W.age j := by
    intro j hj
    obtain ⟨hl, hne⟩ := (hstay j).mp hj.live
    obtain ⟨ha, hp⟩ := hsame j hl hne
    refine ⟨⟨hl, ?_, ?_⟩, hne, ha⟩
    · rw [← ha]
      exact hj.older
    · rw [← hp]
      exact hj.touches
  cases h with
  | @pending i v hl ha hp hlast =>
      by_cases hi : i = o
      · -- the value seen is the one that reached the memory
        subst hi
        rw [← hmem v hp]
        refine .memory fun j hj => ?_
        obtain ⟨hj', hne, -⟩ := hback j hj
        exact absurd (hlast j hj') (not_le.mpr (hfirst j hj'.live hne))
      · obtain ⟨ha', hp'⟩ := hsame i hl hi
        refine .pending ((hstay i).mpr ⟨hl, hi⟩) (by rw [ha']; exact ha) (hp'.trans hp) fun j hj => ?_
        obtain ⟨hj', -, hage'⟩ := hback j hj
        rw [hage', ha']
        exact hlast j hj'
  | memory hno =>
      have hnone : W.put o x = none := by
        by_contra hne
        exact hno o ⟨hlive, hage, hne⟩
      rw [← hother hnone]
      exact .memory fun j hj => hno j (hback j hj).1

end Pending

end RvO3
