import Mathlib.Data.List.Basic
import Mathlib.Data.Int.Init

/-!
# Well-nested calls and returns

A sequence of calls and returns, with other events between, is well nested when every call is
matched by the first return after a well-nested sequence. `Nested s h` also gives the height `h`,
the most calls that are open at once.
-/

set_option autoImplicit false

namespace RvO3

/-- A call with its data, a return with its data, or anything else. -/
inductive CallEvent (α β : Type) where
  | call (a : α)
  | ret (b : β)
  | other
  deriving DecidableEq

open CallEvent

/-- A well-nested sequence with its height. `enclose` is a call, what it encloses, its return, and
what follows. -/
inductive Nested {α β : Type} : List (CallEvent α β) → Nat → Prop
  | empty : Nested [] 0
  | skip {s : List (CallEvent α β)} {h : Nat} : Nested s h → Nested (other :: s) h
  | enclose {w s : List (CallEvent α β)} {h h' : Nat} (a : α) (b : β) : Nested w h → Nested s h' →
      Nested (call a :: (w ++ ret b :: s)) (max (h + 1) h')

section Levels

variable {α β : Type} {s t u w : List (CallEvent α β)} {h h' : Nat}

/-- Calls minus returns. -/
def level : List (CallEvent α β) → Int
  | [] => 0
  | call _ :: s => level s + 1
  | ret _ :: s => level s - 1
  | other :: s => level s

theorem level_append (s t : List (CallEvent α β)) : level (s ++ t) = level s + level t := by
  induction s with
  | nil => exact (Int.zero_add _).symm
  | cons e s ih =>
      cases e with
      | call a =>
          show level (s ++ t) + 1 = level s + 1 + level t
          omega
      | ret b =>
          show level (s ++ t) - 1 = level s - 1 + level t
          omega
      | other => exact ih

theorem Nested.level_eq (hs : Nested s h) : level s = 0 := by
  induction hs with
  | empty => rfl
  | skip _ ih => exact ih
  | @enclose w s _ _ a b _ _ ihw ihs =>
      show level (w ++ ret b :: s) + 1 = 0
      have hret : level (ret b :: s) = level s - 1 := rfl
      rw [level_append, hret]
      omega

theorem prefix_append_cases {α : Type} {u w t : List α} (hu : u <+: w ++ t) :
    u <+: w ∨ ∃ t', u = w ++ t' ∧ t' <+: t := by
  obtain ⟨v, hv⟩ := hu
  rcases List.append_eq_append_iff.mp hv with ⟨a, rfl, -⟩ | ⟨a, rfl, ha⟩
  · exact .inl (List.prefix_append u a)
  · exact .inr ⟨a, rfl, v, ha.symm⟩

/-- No prefix is below the start or above the height. -/
theorem Nested.level_le (hs : Nested s h) : ∀ u, u <+: s → 0 ≤ level u ∧ level u ≤ h := by
  induction hs with
  | empty =>
      intro u hu
      rw [List.prefix_nil.mp hu]
      exact ⟨Int.le_refl 0, Int.le_refl 0⟩
  | @skip s h _ ih =>
      intro u hu
      rcases List.prefix_cons_iff.mp hu with rfl | ⟨u', rfl, hu'⟩
      · exact ⟨Int.le_refl 0, Int.natCast_nonneg h⟩
      · exact ih u' hu'
  | @enclose w s h h' a b hw _ ihw ihs =>
      intro u hu
      rcases List.prefix_cons_iff.mp hu with rfl | ⟨u', rfl, hu'⟩
      · exact ⟨Int.le_refl 0, Int.natCast_nonneg _⟩
      · show 0 ≤ level u' + 1 ∧ level u' + 1 ≤ (max (h + 1) h' : Nat)
        rcases prefix_append_cases hu' with hin | ⟨t, rfl, ht⟩
        · have := ihw u' hin
          omega
        · rw [level_append, hw.level_eq]
          rcases List.prefix_cons_iff.mp ht with rfl | ⟨t', rfl, ht'⟩
          · have hnil : level ([] : List (CallEvent α β)) = 0 := rfl
            omega
          · have hret : level (ret b :: t') = level t' - 1 := rfl
            have := ihs t' ht'
            omega

/-- Some prefix reaches the height. -/
theorem Nested.exists_peak (hs : Nested s h) : ∃ u, u <+: s ∧ level u = h := by
  induction hs with
  | empty => exact ⟨[], List.prefix_refl _, rfl⟩
  | @skip s h _ ih =>
      obtain ⟨u, hu, hl⟩ := ih
      exact ⟨other :: u, List.cons_prefix_cons.mpr ⟨rfl, hu⟩, hl⟩
  | @enclose w s h h' a b hw _ ihw ihs =>
      rcases Nat.le_total (h + 1) h' with hle | hle
      · obtain ⟨u, hu, hl⟩ := ihs
        refine ⟨call a :: (w ++ ret b :: u), ?_, ?_⟩
        · exact List.cons_prefix_cons.mpr ⟨rfl, (List.prefix_append_right_inj w).mpr
            (List.cons_prefix_cons.mpr ⟨rfl, hu⟩)⟩
        · show level (w ++ ret b :: u) + 1 = _
          have hret : level (ret b :: u) = level u - 1 := rfl
          rw [level_append, hw.level_eq, hret, Nat.max_eq_right hle]
          omega
      · obtain ⟨u, hu, hl⟩ := ihw
        refine ⟨call a :: u, List.cons_prefix_cons.mpr ⟨rfl, hu.trans (List.prefix_append _ _)⟩, ?_⟩
        show level u + 1 = _
        rw [Nat.max_eq_left hle]
        omega

/-- A call is open throughout what it encloses. -/
theorem Nested.height_le (hs : Nested s h') {a : α} (hw : Nested w h) (heq : s = u ++ call a :: (w ++ t)) :
    0 ≤ level u ∧ level u + 1 + h ≤ h' := by
  obtain ⟨v, ⟨v', rfl⟩, hl⟩ := hw.exists_peak
  have hu : u <+: s := ⟨call a :: (v ++ v' ++ t), heq.symm⟩
  have hv : u ++ call a :: v <+: s := ⟨v' ++ t, by rw [heq]; simp⟩
  have h1 := hs.level_le u hu
  have h2 := hs.level_le _ hv
  have hcall : level (call a :: v) = level v + 1 := rfl
  rw [level_append, hcall] at h2
  omega

/-- Every return has its call. -/
theorem Nested.exists_call (hs : Nested s h) : ∀ {u v : List (CallEvent α β)} {b : β}, s = u ++ ret b :: v →
    ∃ u' a w h', u = u' ++ call a :: w ∧ Nested w h' := by
  induction hs with
  | empty =>
      intro u v b heq
      cases u <;> cases heq
  | @skip s h _ ih =>
      intro u v b heq
      rcases List.cons_eq_append_iff.mp heq with ⟨-, hbad⟩ | ⟨u', rfl, heq'⟩
      · cases hbad
      · obtain ⟨u₀, a, w, h', rfl, hw⟩ := ih heq'
        exact ⟨other :: u₀, a, w, h', rfl, hw⟩
  | @enclose w s h h' a b hw _ ihw ihs =>
      intro u v b' heq
      rcases List.cons_eq_append_iff.mp heq with ⟨-, hbad⟩ | ⟨u', rfl, heq'⟩
      · cases hbad
      · rcases List.append_eq_append_iff.mp heq' with ⟨t, rfl, hrest⟩ | ⟨t, rfl, hrest⟩
        · -- the return is that of the call, or after it
          rcases List.cons_eq_append_iff.mp hrest with ⟨rfl, -⟩ | ⟨t', rfl, hrest'⟩
          · exact ⟨[], a, w, h, by rw [List.append_nil]; rfl, hw⟩
          · obtain ⟨u₀, a₀, w₀, h₀, rfl, hw₀⟩ := ihs hrest'
            exact ⟨call a :: (w ++ ret b :: u₀), a₀, w₀, h₀, by simp, hw₀⟩
        · rcases List.cons_eq_append_iff.mp hrest with ⟨rfl, -⟩ | ⟨t', rfl, -⟩
          · rw [List.append_nil] at hw
            exact ⟨[], a, u', h, rfl, hw⟩
          · obtain ⟨u₀, a₀, w₀, h₀, rfl, hw₀⟩ := ihw rfl
            exact ⟨call a :: u₀, a₀, w₀, h₀, rfl, hw₀⟩

end Levels

end RvO3
