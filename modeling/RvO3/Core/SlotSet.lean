import RvO3.Core.Ring

/-!
# Sets of ring slots

`core/slot_set.h`, seen as sets: a set of ring slots that can be visited in age order
from the ring's head slot, wrapping once. A set is its membership predicate, one bit of
the source's bitmap for each slot. Visitors only ever remove the slot they are given, so
a visit walks the members present when it starts.
-/

set_option autoImplicit false

namespace RvO3

/-- A set of ring slots, as its membership predicate. -/
abbrev SlotSet := Nat → Bool

namespace SlotSet

/-- The empty set. -/
def none : SlotSet := fun _ => false

/-- Put a slot in. -/
def set (s : SlotSet) (slot : Nat) : SlotSet := Function.update s slot true

/-- Take a slot out. -/
def reset (s : SlotSet) (slot : Nat) : SlotSet := Function.update s slot false

@[simp] theorem set_apply (s : SlotSet) (i j : Nat) :
    s.set i j = if j = i then true else s j := by
  simp [set, Function.update_apply]

@[simp] theorem reset_apply (s : SlotSet) (i j : Nat) :
    s.reset i j = if j = i then false else s j := by
  simp [reset, Function.update_apply]

/-- All slots in ring order from `head`: `[head, capacity)`, then `[0, head)`. -/
def ringOrder (head capacity : Nat) : List Nat :=
  (List.range (capacity - head)).map (head + ·) ++ List.range head

/-- The members in ring order from `head`: what `visit` presents. -/
def visit (s : SlotSet) (head capacity : Nat) : List Nat := (ringOrder head capacity).filter s

/-- The members of `[lo, hi)`, highest first: what `reverse` presents. -/
def reverse (s : SlotSet) (lo hi : Nat) : List Nat :=
  ((List.range (hi - lo)).map (lo + ·)).reverse.filter s

/-- The members strictly older than `fin`, newest first: what `visitOlder` presents. -/
def visitOlder (s : SlotSet) (head fin capacity : Nat) : List Nat :=
  if fin ≥ head then s.reverse head fin else s.reverse 0 fin ++ s.reverse head capacity

end SlotSet

/-! ## Visits of a set of live slots -/

namespace Ring

variable {α : Type} {r : Ring α}

/-- Ring order from the head lists `indexOf 0`, `indexOf 1`, and so on. -/
theorem ringOrder_eq (h : r.Wf) :
    SlotSet.ringOrder r.headIdx r.capacity = (List.range r.capacity).map r.indexOf := by
  have hh := h.headIdx_lt
  obtain ⟨d, hd⟩ : ∃ d, r.capacity = (r.capacity - r.headIdx) + d ∧ d = r.headIdx :=
    ⟨r.headIdx, by omega, rfl⟩
  have hsplit : List.range r.capacity =
      List.range (r.capacity - r.headIdx) ++
        (List.range r.headIdx).map ((r.capacity - r.headIdx) + ·) := by
    conv_lhs => rw [hd.1, List.range_add, hd.2]
  rw [hsplit, SlotSet.ringOrder, List.map_append, List.map_map]
  congr 1
  · apply List.map_congr_left
    intro k hk
    have := List.mem_range.mp hk
    simp only [indexOf]
    rw [if_pos this]
  · conv_lhs => rw [← List.map_id (List.range r.headIdx)]
    apply List.map_congr_left
    intro k hk
    have := List.mem_range.mp hk
    simp only [indexOf, Function.comp, id]
    rw [if_neg (by omega)]
    omega

/-- The live slots are the first `n` in ring order. -/
theorem slots_eq_take (h : r.Wf) :
    r.slots = (SlotSet.ringOrder r.headIdx r.capacity).take r.n := by
  rw [ringOrder_eq h, ← List.map_take, List.take_range, Nat.min_eq_left h.n_le]
  rfl

theorem ringOrder_nodup (h : r.Wf) : (SlotSet.ringOrder r.headIdx r.capacity).Nodup := by
  rw [ringOrder_eq h]
  refine List.Nodup.map_on ?_ List.nodup_range
  intro i hi j hj he
  exact indexOf_inj h (List.mem_range.mp hi) (List.mem_range.mp hj) he

/-- A visit of a set of live slots walks the live slots in age order. -/
theorem visit_eq (h : r.Wf) {s : SlotSet} (hs : ∀ i, s i = true → i ∈ r.slots) :
    s.visit r.headIdx r.capacity = r.slots.filter s := by
  have hn := h.n_le
  have hnd := ringOrder_nodup h
  rw [SlotSet.visit, slots_eq_take h]
  conv_lhs => rw [← List.take_append_drop r.n (SlotSet.ringOrder r.headIdx r.capacity)]
  rw [List.filter_append]
  have hdrop : ((SlotSet.ringOrder r.headIdx r.capacity).drop r.n).filter s = [] := by
    rw [List.filter_eq_nil_iff]
    intro i hi hsi
    have hmem := hs i hsi
    rw [slots_eq_take h] at hmem
    have := List.disjoint_take_drop hnd (le_refl r.n)
    exact this hmem hi
  rw [hdrop, List.append_nil]

/-- The live slots older than the one at position `k` are visited newest first. -/
theorem visitOlder_eq (h : r.Wf) (s : SlotSet) {k : Nat} (hk : k < r.n) :
    s.visitOlder r.headIdx (r.indexOf k) r.capacity = ((r.slots.take k).filter s).reverse := by
  have hn := h.n_le
  have hh := h.headIdx_lt
  have htake : r.slots.take k = (List.range k).map r.indexOf := by
    rw [slots, ← List.map_take, List.take_range, Nat.min_eq_left (by omega)]
  rw [htake, ← List.filter_reverse, SlotSet.visitOlder]
  by_cases hw : k < r.capacity - r.headIdx
  · have hi : r.indexOf k = r.headIdx + k := by
      simp only [indexOf]
      rw [if_pos hw]
    rw [hi, if_pos (by omega), SlotSet.reverse, Nat.add_sub_cancel_left]
    congr 2
    apply List.map_congr_left
    intro j hj
    have := List.mem_range.mp hj
    simp only [indexOf]
    rw [if_pos (by omega)]
  · have hi : r.indexOf k = k - (r.capacity - r.headIdx) := by
      simp only [indexOf]
      rw [if_neg hw]
    rw [hi, if_neg (by omega), SlotSet.reverse, SlotSet.reverse, ← List.filter_append,
      ← List.reverse_append]
    congr 2
    have hsplit : List.range k = List.range (r.capacity - r.headIdx) ++
        (List.range (k - (r.capacity - r.headIdx))).map ((r.capacity - r.headIdx) + ·) := by
      rw [← List.range_add]
      congr 1
      omega
    rw [hsplit, List.map_append, List.map_map, Nat.sub_zero]
    congr 1
    · apply List.map_congr_left
      intro j hj
      have := List.mem_range.mp hj
      simp only [indexOf]
      rw [if_pos this]
    · apply List.map_congr_left
      intro j hj
      have := List.mem_range.mp hj
      simp only [indexOf, Function.comp, Nat.zero_add]
      rw [if_neg (by omega)]
      omega

end Ring

end RvO3
