import Mathlib.Data.BitVec

/-!
# Loops over a word

`for (a = 0; a < bound; a++) check(a)`, where the counter and its bound are words of one width and
`check` may end the loop. The words that the loop visits are those from the first one up to the
bound (`mem_sweep`). A bound that is narrowed to the width of the counter is narrowed before the
loop, which then never sees what was cut off.
-/

set_option autoImplicit false

namespace RvO3

section Sweep

variable {w : Nat} {ε : Type} {check : BitVec w → Except ε Unit} {bound a x : BitVec w}
  {visited : List (BitVec w)}

/-- Below a bound of its own width, the counter does not wrap. -/
theorem next_toNat (h : a < bound) : (a + 1#w).toNat = a.toNat + 1 := by
  have hlt := BitVec.lt_def.mp h
  have hbound := bound.isLt
  have hone : (1#w).toNat = 1 := by
    rw [BitVec.toNat_ofNat]
    exact Nat.mod_eq_of_lt (by omega)
  rw [BitVec.toNat_add_of_lt (by omega), hone]

/-- The loop, and the words that it has visited when it ends. -/
def sweep (check : BitVec w → Except ε Unit) (bound a : BitVec w) : Except ε (List (BitVec w)) :=
  if _h : a < bound then
    match check a with
    | .error e => .error e
    | .ok _ =>
        match sweep check bound (a + 1#w) with
        | .error e => .error e
        | .ok visited => .ok (a :: visited)
  else .ok []
  termination_by bound.toNat - a.toNat
  decreasing_by
    have hlt := BitVec.lt_def.mp _h
    rw [next_toNat _h]
    omega

/-- One turn. -/
theorem sweep_next (h : sweep check bound a = .ok visited) (hlt : a < bound) :
    ∃ rest, visited = a :: rest ∧ check a = .ok () ∧ sweep check bound (a + 1#w) = .ok rest := by
  rw [sweep, dif_pos hlt] at h
  cases hc : check a with
  | error e =>
      rw [hc] at h
      cases h
  | ok u =>
      rw [hc] at h
      dsimp only at h
      cases hr : sweep check bound (a + 1#w) with
      | error e =>
          rw [hr] at h
          cases h
      | ok rest =>
          rw [hr] at h
          cases h
          exact ⟨rest, rfl, rfl, rfl⟩

theorem sweep_stop (hge : ¬ a < bound) : sweep check bound a = .ok [] := by
  rw [sweep, dif_neg hge]

/-- The words visited are those from the first one up to the bound. -/
theorem mem_sweep (h : sweep check bound a = .ok visited) :
    x ∈ visited ↔ a.toNat ≤ x.toNat ∧ x.toNat < bound.toNat := by
  -- on the distance to the bound
  induction hn : bound.toNat - a.toNat using Nat.strong_induction_on generalizing a visited with
  | _ n ih =>
      subst hn
      by_cases hlt : a < bound
      · obtain ⟨rest, rfl, -, hrest⟩ := sweep_next h hlt
        have hnat := BitVec.lt_def.mp hlt
        have hnext := next_toNat hlt
        have hrec := ih (bound.toNat - (a + 1#w).toNat) (by omega) hrest rfl
        rw [List.mem_cons, hrec, hnext]
        constructor
        · rintro (rfl | hx)
          · exact ⟨Nat.le_refl _, hnat⟩
          · omega
        · intro hx
          rcases Nat.eq_or_lt_of_le hx.1 with heq | hgt
          · exact .inl (BitVec.eq_of_toNat_eq heq.symm)
          · exact .inr ⟨hgt, hx.2⟩
      · rw [sweep_stop hlt] at h
        cases h
        have hnat := fun hge => hlt (BitVec.lt_def.mpr hge)
        constructor
        · intro hx
          cases hx
        · intro hx
          exact absurd (Nat.lt_of_le_of_lt hx.1 hx.2) hnat

/-- Every word visited passes. -/
theorem sweep_checked (h : sweep check bound a = .ok visited) (hx : x ∈ visited) : check x = .ok () := by
  induction hn : bound.toNat - a.toNat using Nat.strong_induction_on generalizing a visited with
  | _ n ih =>
      subst hn
      by_cases hlt : a < bound
      · obtain ⟨rest, rfl, hcheck, hrest⟩ := sweep_next h hlt
        have hnat := BitVec.lt_def.mp hlt
        have hnext := next_toNat hlt
        rcases List.mem_cons.mp hx with rfl | hx
        · exact hcheck
        · exact ih (bound.toNat - (a + 1#w).toNat) (by omega) hrest hx rfl
      · rw [sweep_stop hlt] at h
        cases h
        cases hx

end Sweep

end RvO3
