import Mathlib.Data.List.Basic
import Mathlib.Data.List.Pairwise
import Mathlib.Data.List.TakeWhile

/-!
# Delay lines

A queue whose items are each due at some time, entered in the order of their times. At each tick
its front leaves, as far as it is due. Whatever enters later is due later, so nothing that is due
waits behind something that is not (`staying_late`).

`Delayed` follows all the items that have entered: those that have left are the ones whose time has
come, in the order in which they entered (`Delayed.out_eq`).
-/

set_option autoImplicit false

namespace RvO3

variable {α : Type} {due : α → Nat} {delay now : Nat} {l : List α} {x : α}

/-- The front of a line, as far as it is due. -/
def leaving (due : α → Nat) (now : Nat) (l : List α) : List α := l.takeWhile fun x => due x ≤ now

/-- What stays behind it. -/
def staying (due : α → Nat) (now : Nat) (l : List α) : List α := l.dropWhile fun x => due x ≤ now

theorem leaving_append_staying (due : α → Nat) (now : Nat) (l : List α) :
    leaving due now l ++ staying due now l = l := List.takeWhile_append_dropWhile

theorem staying_cons (a : α) : staying due now (a :: l) = if due a ≤ now then staying due now l else a :: l := by
  simp [staying, List.dropWhile_cons]

/-- Nothing that is due waits behind something that is not. -/
theorem staying_late (h : l.Pairwise fun x y => due x ≤ due y) (now : Nat) :
    ∀ x ∈ staying due now l, now < due x := by
  induction l with
  | nil => exact fun x hx => absurd hx List.not_mem_nil
  | cons a l ih =>
      obtain ⟨ha, hl⟩ := List.pairwise_cons.mp h
      intro x hx
      rw [staying_cons] at hx
      split at hx
      · exact ih hl x hx
      · rcases List.mem_cons.mp hx with rfl | hx
        · omega
        · have := ha x hx
          omega

theorem leaving_due (due : α → Nat) (now : Nat) (l : List α) : ∀ x ∈ leaving due now l, due x ≤ now := by
  intro x hx
  have hdue : decide (due x ≤ now) = true := List.mem_takeWhile_imp (p := fun x => decide (due x ≤ now)) hx
  exact of_decide_eq_true hdue

/-- The part of a list that has a property, if it comes first. -/
theorem filter_of_split {p : α → Bool} {a b : List α} (ha : ∀ x ∈ a, p x = true) (hb : ∀ x ∈ b, p x = false) :
    (a ++ b).filter p = a ∧ (a ++ b).filter (fun x => !p x) = b := by
  rw [List.filter_append, List.filter_append, List.filter_eq_self.mpr ha]
  have hb' : b.filter p = [] := by
    apply List.filter_eq_nil_iff.mpr
    simpa using hb
  have ha' : a.filter (fun x => !p x) = [] := by
    apply List.filter_eq_nil_iff.mpr
    simpa using ha
  have hself : b.filter (fun x => !p x) = b := by
    apply List.filter_eq_self.mpr
    simpa using hb
  rw [hb', ha', hself]
  exact ⟨List.append_nil _, rfl⟩

/-! ## Lines in time -/

/-- A line at the time `now`: its items are due in order, later than now, but at most by `delay`. -/
structure InLine (due : α → Nat) (delay now : Nat) (l : List α) : Prop where
  order : l.Pairwise fun x y => due x ≤ due y
  late : ∀ x ∈ l, now < due x
  soon : ∀ x ∈ l, due x ≤ now + delay

theorem InLine.nil : InLine due delay now [] := by
  constructor <;> simp

theorem InLine.enter (h : InLine due delay now l) (hd : 0 < delay) (hx : due x = now + delay) :
    InLine due delay now (l ++ [x]) := by
  refine ⟨?_, ?_, ?_⟩
  · apply List.pairwise_append.mpr
    refine ⟨h.order, List.pairwise_singleton _ _, fun a ha b hb => ?_⟩
    rw [List.mem_singleton.mp hb, hx]
    exact h.soon a ha
  · intro y hy
    rcases List.mem_append.mp hy with hy | hy
    · exact h.late y hy
    · rw [List.mem_singleton.mp hy]
      omega
  · intro y hy
    rcases List.mem_append.mp hy with hy | hy
    · exact h.soon y hy
    · rw [List.mem_singleton.mp hy]
      omega

theorem InLine.tick (h : InLine due delay now l) : InLine due delay (now + 1) (staying due (now + 1) l) := by
  refine ⟨h.order.sublist (List.dropWhile_sublist _), staying_late h.order _, fun x hx => ?_⟩
  have := h.soon x ((List.dropWhile_sublist _).mem hx)
  omega

/-- A line without a delay is empty. -/
theorem InLine.eq_nil (h : InLine due 0 now l) : l = [] := by
  apply List.eq_nil_iff_forall_not_mem.mpr
  intro x hx
  have hlate := h.late x hx
  have hsoon := h.soon x hx
  omega

/-! ## All that has entered -/

variable {sent out : List α}

/-- Of all that has entered a line, `out` has left it and `l` has not. -/
structure Delayed (due : α → Nat) (delay now : Nat) (sent out l : List α) : Prop where
  split : sent = out ++ l
  gone : ∀ x ∈ out, due x ≤ now
  line : InLine due delay now l

theorem Delayed.start : Delayed due delay now [] [] [] := ⟨rfl, by simp, .nil⟩

theorem Delayed.enter (h : Delayed due delay now sent out l) (hd : 0 < delay) (hx : due x = now + delay) :
    Delayed due delay now (sent ++ [x]) out (l ++ [x]) :=
  ⟨by rw [h.split, List.append_assoc], h.gone, h.line.enter hd hx⟩

/-- Without a delay what enters has left. -/
theorem Delayed.pass (h : Delayed due 0 now sent out l) (hx : due x = now) :
    Delayed due 0 now (sent ++ [x]) (out ++ [x]) l := by
  have hl : l = [] := h.line.eq_nil
  subst hl
  refine ⟨by rw [h.split, List.append_nil, List.append_nil], fun y hy => ?_, .nil⟩
  rcases List.mem_append.mp hy with hy | hy
  · exact h.gone y hy
  · rw [List.mem_singleton.mp hy]
    exact Nat.le_of_eq hx

theorem Delayed.tick (h : Delayed due delay now sent out l) :
    Delayed due delay (now + 1) sent (out ++ leaving due (now + 1) l) (staying due (now + 1) l) := by
  refine ⟨?_, fun x hx => ?_, h.line.tick⟩
  · rw [List.append_assoc, leaving_append_staying]
    exact h.split
  · rcases List.mem_append.mp hx with hx | hx
    · exact Nat.le_succ_of_le (h.gone x hx)
    · exact leaving_due due _ l x hx

/-- What has left is what is due, in the order in which it entered, and the line is the rest. -/
theorem Delayed.out_eq (h : Delayed due delay now sent out l) :
    out = sent.filter (fun x => due x ≤ now) ∧ l = sent.filter fun x => !decide (due x ≤ now) := by
  have hsplit := filter_of_split (p := fun x => decide (due x ≤ now))
    (fun x hx => decide_eq_true (h.gone x hx))
    (fun x hx => decide_eq_false (Nat.not_le.mpr (h.line.late x hx)))
  rw [h.split]
  exact ⟨hsplit.1.symm, hsplit.2.symm⟩

end RvO3
