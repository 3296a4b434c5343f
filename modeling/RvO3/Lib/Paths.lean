import Mathlib.Data.List.Basic

/-!
# Paths of legs

A leg is a pair of points. A list of legs is a path when each leg starts where the one before
it ends. The last leg may be turned to another end, and what lies behind a leg may be dropped.

Some points may be places where a traveller can go astray. Up to the first leg from such a point the
legs are a path, and behind it they may be anything (`FollowsUntil`).
-/

set_option autoImplicit false

namespace RvO3

section Paths

variable {α : Type} {a b m p q : α} {l l' : List (α × α)}

/-- The legs lead from `a` to `b`. -/
def Follows (a : α) : List (α × α) → α → Prop
  | [], b => a = b
  | leg :: l, b => leg.1 = a ∧ Follows leg.2 l b

theorem follows_append : Follows a (l ++ l') b ↔ ∃ m, Follows a l m ∧ Follows m l' b := by
  induction l generalizing a with
  | nil =>
      constructor
      · exact fun h => ⟨a, rfl, h⟩
      · rintro ⟨m, rfl, h⟩
        exact h
  | cons leg l ih =>
      rw [List.cons_append, Follows, ih]
      constructor
      · rintro ⟨h1, m, h2, h3⟩
        exact ⟨m, ⟨h1, h2⟩, h3⟩
      · rintro ⟨m, ⟨h1, h2⟩, h3⟩
        exact ⟨h1, m, h2, h3⟩

/-- A path leads to one point. -/
theorem Follows.unique (h : Follows a l b) (h' : Follows a l m) : b = m := by
  induction l generalizing a with
  | nil => exact h.symm.trans h'
  | cons leg l ih => exact ih h.2 h'.2

/-- The last leg starts where the path before it ends. -/
theorem follows_concat : Follows a (l ++ [(p, q)]) b ↔ Follows a l p ∧ q = b := by
  rw [follows_append]
  constructor
  · rintro ⟨m, h1, rfl, h2⟩
    exact ⟨h1, h2⟩
  · rintro ⟨h1, h2⟩
    exact ⟨p, h1, rfl, h2⟩

/-- The path up to one of its legs. -/
theorem Follows.start (h : Follows a (l ++ (p, q) :: l') b) : Follows a l p := by
  obtain ⟨m, h1, rfl, -⟩ := follows_append.mp h
  exact h1

/-- Two legs in a row. -/
theorem Follows.next {x y : α × α} (h : Follows a (l ++ x :: y :: l') b) : y.1 = x.2 := by
  obtain ⟨m, -, -, h2, -⟩ := follows_append.mp h
  exact h2

end Paths

/-! ## Paths that may be left -/

section Astray

variable {α : Type} {stray stray' : α → Prop} {a b m p q r : α} {l l' : List (α × α)}

/-- The legs lead from `a` to `b`, if none of them starts at a stray point; else they lead to the first
that does. -/
def FollowsUntil (stray : α → Prop) (a : α) : List (α × α) → α → Prop
  | [], b => a = b
  | leg :: l, b => leg.1 = a ∧ (stray leg.1 ∨ FollowsUntil stray leg.2 l b)

/-- With more stray points less is known. -/
theorem FollowsUntil.mono (hs : ∀ x, stray x → stray' x) (h : FollowsUntil stray a l b) :
    FollowsUntil stray' a l b := by
  induction l generalizing a with
  | nil => exact h
  | cons leg l ih => exact ⟨h.1, h.2.imp (hs _) fun h' => ih h'⟩

/-- One more leg, from where the path ends. -/
theorem FollowsUntil.concat (h : FollowsUntil stray a l p) (q : α) : FollowsUntil stray a (l ++ [(p, q)]) q := by
  induction l generalizing a with
  | nil =>
      obtain rfl : a = p := h
      exact ⟨rfl, .inr rfl⟩
  | cons leg l ih => exact ⟨h.1, h.2.imp_right fun h' => ih h'⟩

/-- The path up to one of its legs. -/
theorem FollowsUntil.start (h : FollowsUntil stray a (l ++ (p, q) :: l') b) : FollowsUntil stray a l p := by
  induction l generalizing a with
  | nil => exact h.1.symm
  | cons leg l ih => exact ⟨h.1, h.2.imp_right fun h' => ih h'⟩

/-- Where a leg from a stray point leads makes no difference. -/
theorem FollowsUntil.turn (hs : stray p) (h : FollowsUntil stray a (l ++ (p, q) :: l') b) (r : α) :
    FollowsUntil stray a (l ++ (p, r) :: l') b := by
  induction l generalizing a with
  | nil => exact ⟨h.1, .inl hs⟩
  | cons leg l ih => exact ⟨h.1, h.2.imp_right fun h' => ih h'⟩

end Astray

end RvO3
