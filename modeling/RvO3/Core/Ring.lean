import Mathlib.Data.List.Nodup
import Mathlib.Data.List.Range
import Mathlib.Logic.Function.Basic
import Mathlib.Tactic.Common

/-!
# Fixed-capacity rings

`core/ring.h`: entries at stable indices, oldest at the head; allocate at the tail,
retire from the head, squash from the tail. `slots` lists the live indices from the
oldest to the youngest, and the lemmas below say what each operation does to it.
-/

set_option autoImplicit false

namespace RvO3

/-- A ring of `capacity` entries (`Ring<T>` of `core/ring.h`). The `n` live ones follow one another
from `headIdx`, around the end; an index stays the name of its entry while the entry lives. -/
structure Ring (α : Type) where
  e : Nat → α
  capacity : Nat
  headIdx : Nat := 0
  n : Nat := 0

namespace Ring

variable {α : Type}

/-- The constructor: every entry is `T{}`. -/
def init [Inhabited α] (capacity : Nat) : Ring α := { e := fun _ => default, capacity := capacity }

/-- No live entry. -/
def empty (r : Ring α) : Bool := r.n == 0

/-- Every slot is taken. -/
def full (r : Ring α) : Bool := r.n == r.capacity

/-- The number of live entries. -/
def count (r : Ring α) : Nat := r.n

/-- The ring index of the `k`-th oldest entry: around the end once, with no division. -/
def indexOf (r : Ring α) (k : Nat) : Nat :=
  let toEnd := r.capacity - r.headIdx
  if k < toEnd then r.headIdx + k else k - toEnd

/-- The entry at a ring index, live or not. -/
def at' (r : Ring α) (idx : Nat) : α := r.e idx

/-- Overwrite the entry at a ring index. -/
def set (r : Ring α) (idx : Nat) (v : α) : Ring α := { r with e := Function.update r.e idx v }

/-- The index `alloc` takes: the slot after the tail. -/
def allocIdx (r : Ring α) : Nat := r.indexOf r.n

/-- Take the slot after the tail and reset it. The source returns its index, which is `allocIdx`
here. -/
def alloc [Inhabited α] (r : Ring α) : Ring α :=
  { r with e := Function.update r.e r.allocIdx default, n := r.n + 1 }

/-- Take the slot after the tail for a value. -/
def push (r : Ring α) (v : α) : Ring α :=
  { r with e := Function.update r.e r.allocIdx v, n := r.n + 1 }

/-- The oldest entry. -/
def head (r : Ring α) : α := r.e r.headIdx

/-- The index of the youngest entry. -/
def tailIdx (r : Ring α) : Nat := r.indexOf (r.n - 1)

/-- The youngest entry. -/
def tail (r : Ring α) : α := r.e r.tailIdx

/-- The `k`-th oldest entry. -/
def nth (r : Ring α) (k : Nat) : α := r.e (r.indexOf k)

/-- Is this ring index currently occupied by a live entry? -/
def live (r : Ring α) (idx : Nat) : Bool :=
  let distance := if idx ≥ r.headIdx then idx - r.headIdx else r.capacity - (r.headIdx - idx)
  decide (idx < r.capacity) && decide (distance < r.n)

/-- The oldest entry leaves. Its value stays in the storage and is read by nobody. -/
def popHead (r : Ring α) : Ring α := { r with headIdx := r.indexOf 1, n := r.n - 1 }

/-- The youngest entry leaves. -/
def popTail (r : Ring α) : Ring α := { r with n := r.n - 1 }

/-- All entries leave, and the head goes back to the first slot. -/
def clear (r : Ring α) : Ring α := { r with headIdx := 0, n := 0 }

/-! ## The live slots in age order -/

/-- The live indices, oldest first. -/
def slots (r : Ring α) : List Nat := (List.range r.n).map r.indexOf

/-- The live entries, oldest first. -/
def entries (r : Ring α) : List α := r.slots.map r.e

/-- The representation invariant: the head is a slot, and no more are live than there are. -/
structure Wf (r : Ring α) : Prop where
  headIdx_lt : r.headIdx < r.capacity
  n_le : r.n ≤ r.capacity

variable {r : Ring α}

theorem wf_init [Inhabited α] {c : Nat} (hc : 0 < c) : (init c : Ring α).Wf := ⟨hc, Nat.zero_le _⟩

theorem indexOf_lt (h : r.Wf) {k : Nat} (hk : k < r.capacity) : r.indexOf k < r.capacity := by
  obtain ⟨h1, h2⟩ := h
  simp only [indexOf]
  split <;> omega

/-- Two ages less than the capacity have different slots. -/
theorem indexOf_inj (h : r.Wf) {i j : Nat} (hi : i < r.capacity) (hj : j < r.capacity)
    (he : r.indexOf i = r.indexOf j) : i = j := by
  obtain ⟨h1, h2⟩ := h
  simp only [indexOf] at he
  split at he <;> split at he <;> omega

@[simp] theorem length_slots (r : Ring α) : r.slots.length = r.n := by simp [slots]

/-- No slot is live twice. -/
theorem slots_nodup (h : r.Wf) : r.slots.Nodup := by
  refine List.Nodup.map_on ?_ List.nodup_range
  intro i hi j hj he
  have hn := h.n_le
  exact indexOf_inj h (by have := List.mem_range.mp hi; omega)
    (by have := List.mem_range.mp hj; omega) he

theorem mem_slots_lt (h : r.Wf) {i : Nat} (hi : i ∈ r.slots) : i < r.capacity := by
  obtain ⟨k, hk, rfl⟩ := List.mem_map.mp hi
  have := List.mem_range.mp hk
  have := h.n_le
  exact indexOf_lt h (by omega)

/-- `live` is membership in `slots`. -/
theorem live_iff (h : r.Wf) {i : Nat} : r.live i = true ↔ i ∈ r.slots := by
  have hn := h.n_le
  have hh := h.headIdx_lt
  simp only [live, slots, List.mem_map, List.mem_range, Bool.and_eq_true, decide_eq_true_eq,
    indexOf]
  constructor
  · rintro ⟨h1, h2⟩
    by_cases hge : i ≥ r.headIdx
    · rw [if_pos hge] at h2
      exact ⟨i - r.headIdx, h2, by rw [if_pos (by omega)]; omega⟩
    · rw [if_neg hge] at h2
      exact ⟨r.capacity - (r.headIdx - i), h2, by rw [if_neg (by omega)]; omega⟩
  · rintro ⟨k, hk, rfl⟩
    split
    · constructor
      · omega
      · rw [if_pos (by omega)]; omega
    · constructor
      · omega
      · rw [if_neg (by omega)]; omega

theorem empty_iff (r : Ring α) : r.empty = true ↔ r.slots = [] := by
  simp [empty, slots]

/-! ## What each operation does to the entries and the live slots -/

@[simp] theorem set_e (r : Ring α) (i : Nat) (v : α) : (r.set i v).e = Function.update r.e i v := rfl

@[simp] theorem alloc_e [Inhabited α] (r : Ring α) :
    r.alloc.e = Function.update r.e r.allocIdx default := rfl

@[simp] theorem push_e (r : Ring α) (v : α) :
    (r.push v).e = Function.update r.e r.allocIdx v := rfl

@[simp] theorem set_set (r : Ring α) (i : Nat) (v w : α) : (r.set i v).set i w = r.set i w := by
  simp [set]

@[simp] theorem set_self_e (r : Ring α) (i : Nat) (v : α) : (r.set i v).e i = v := by simp

@[simp] theorem popHead_e (r : Ring α) : r.popHead.e = r.e := rfl

@[simp] theorem popTail_e (r : Ring α) : r.popTail.e = r.e := rfl

/-- `slots` reads the head, the capacity and the count, never the entries. -/
theorem slots_congr {β : Type} {q : Ring β} {r : Ring α} (hh : q.headIdx = r.headIdx)
    (hc : q.capacity = r.capacity) (hn : q.n = r.n) : q.slots = r.slots := by
  have : q.indexOf = r.indexOf := by
    funext k
    simp only [indexOf, hh, hc]
  simp only [slots, this, hn]

@[simp] theorem slots_set (r : Ring α) (i : Nat) (v : α) : (r.set i v).slots = r.slots :=
  slots_congr rfl rfl rfl

theorem slots_succ (r : Ring α) {e : Nat → α} :
    ({ r with e := e, n := r.n + 1 } : Ring α).slots = r.slots ++ [r.allocIdx] := by
  simp only [slots, List.range_succ, List.map_append, List.map_cons, List.map_nil]
  rfl

@[simp] theorem slots_alloc [Inhabited α] (r : Ring α) :
    r.alloc.slots = r.slots ++ [r.allocIdx] := slots_succ r

@[simp] theorem slots_push (r : Ring α) (v : α) :
    (r.push v).slots = r.slots ++ [r.allocIdx] := slots_succ r

/-- The slot the next entry takes is not live. -/
theorem allocIdx_notMem (h : r.Wf) (hf : r.full = false) : r.allocIdx ∉ r.slots := by
  have hn := h.n_le
  have hne : r.n ≠ r.capacity := by
    simpa [full] using hf
  intro hm
  obtain ⟨k, hk, he⟩ := List.mem_map.mp hm
  have hk := List.mem_range.mp hk
  have := indexOf_inj h (by omega) (by omega) he
  omega

theorem allocIdx_lt (h : r.Wf) (hf : r.full = false) : r.allocIdx < r.capacity := by
  have hn := h.n_le
  have hne : r.n ≠ r.capacity := by simpa [full] using hf
  exact indexOf_lt h (by omega)

@[simp] theorem slots_popTail (r : Ring α) : r.popTail.slots = r.slots.dropLast := by
  have h : (List.range (r.n - 1)) = (List.range r.n).dropLast := by
    cases r.n with
    | zero => rfl
    | succ k => simp [List.range_succ]
  show (List.range (r.n - 1)).map r.indexOf = _
  rw [h, slots, List.map_dropLast]

/-- Popping the head takes the first live slot off. -/
theorem slots_popHead (h : r.Wf) : r.popHead.slots = r.slots.tail := by
  have hh := h.headIdx_lt
  have hn := h.n_le
  show (List.range (r.n - 1)).map (r.popHead.indexOf) = _
  rw [slots, List.range_eq_range', List.range_eq_range']
  rcases hr : r.n with _ | k
  · rfl
  · rw [List.range'_succ, List.map_cons, List.tail_cons, Nat.add_sub_cancel, Nat.zero_add,
      List.range'_eq_map_range, List.range'_eq_map_range, List.map_map, List.map_map]
    apply List.map_congr_left
    intro j hj
    have hj := List.mem_range.mp hj
    simp only [Function.comp, indexOf, popHead]
    repeat' split
    all_goals omega

@[simp] theorem slots_clear (r : Ring α) : r.clear.slots = [] := rfl

@[simp] theorem slots_init [Inhabited α] (c : Nat) : (init c : Ring α).slots = [] := rfl

theorem headIdx_eq (h : r.Wf) : r.indexOf 0 = r.headIdx := by
  have := h.headIdx_lt
  simp only [indexOf]
  rw [if_pos (by omega)]
  omega

/-- The oldest slot is the head. -/
theorem slots_eq_cons (h : r.Wf) (he : r.empty = false) :
    ∃ rest, r.slots = r.headIdx :: rest := by
  have hne : r.n ≠ 0 := by simpa [empty] using he
  obtain ⟨k, hk⟩ : ∃ k, r.n = k + 1 := ⟨r.n - 1, by omega⟩
  refine ⟨r.popHead.slots, ?_⟩
  rw [slots_popHead h]
  have : r.slots = r.indexOf 0 :: r.slots.tail := by
    rw [slots, hk, List.range_succ_eq_map]
    rfl
  rw [headIdx_eq h] at this
  exact this

/-- The youngest slot is the tail. -/
theorem slots_eq_append (he : r.n ≠ 0) : r.slots = r.popTail.slots ++ [r.tailIdx] := by
  obtain ⟨k, hk⟩ : ∃ k, r.n = k + 1 := ⟨r.n - 1, by omega⟩
  rw [slots_popTail, tailIdx, slots, hk, List.range_succ]
  simp

/-! ## The representation invariant is kept -/

theorem Wf.set (h : r.Wf) (i : Nat) (v : α) : (r.set i v).Wf := ⟨h.1, h.2⟩

theorem Wf.alloc [Inhabited α] (h : r.Wf) (hf : r.full = false) : r.alloc.Wf := by
  have hne : r.n ≠ r.capacity := by simpa [full] using hf
  exact ⟨h.1, by have := h.2; show r.n + 1 ≤ r.capacity; omega⟩

theorem Wf.push (h : r.Wf) (hf : r.full = false) (v : α) : (r.push v).Wf := by
  have hne : r.n ≠ r.capacity := by simpa [full] using hf
  exact ⟨h.1, by have := h.2; show r.n + 1 ≤ r.capacity; omega⟩

theorem Wf.popHead (h : r.Wf) : r.popHead.Wf := by
  obtain ⟨h1, h2⟩ := h
  refine ⟨?_, by show r.n - 1 ≤ r.capacity; omega⟩
  show r.indexOf 1 < r.capacity
  simp only [indexOf]
  split <;> omega

theorem Wf.popTail (h : r.Wf) : r.popTail.Wf :=
  ⟨h.1, by have := h.2; show r.n - 1 ≤ r.capacity; omega⟩

theorem Wf.clear (h : r.Wf) : r.clear.Wf :=
  ⟨by have := h.1; show 0 < r.capacity; omega, Nat.zero_le _⟩

/-! ## Contents -/

@[simp] theorem length_entries (r : Ring α) : r.entries.length = r.n := by simp [entries]

theorem mem_entries {x : α} : x ∈ r.entries ↔ ∃ i ∈ r.slots, r.e i = x := List.mem_map

/-- A push adds the entry at the end. -/
theorem entries_push (h : r.Wf) (hf : r.full = false) (v : α) :
    (r.push v).entries = r.entries ++ [v] := by
  have hn := allocIdx_notMem h hf
  rw [entries, slots_push, List.map_append, List.map_singleton, push_e, Function.update_self,
    entries]
  congr 1
  apply List.map_congr_left
  intro i hi
  have : i ≠ r.allocIdx := fun he => hn (he ▸ hi)
  exact Function.update_of_ne this _ _

theorem entries_popHead (h : r.Wf) : r.popHead.entries = r.entries.tail := by
  rw [entries, slots_popHead h, popHead_e, entries, List.map_tail]

/-- The head is the first entry, and a pop leaves the others. -/
theorem entries_eq_cons (h : r.Wf) (he : r.empty = false) :
    r.entries = r.head :: r.popHead.entries := by
  obtain ⟨rest, hr⟩ := slots_eq_cons h he
  rw [entries_popHead h, entries, hr]
  rfl

/-- Pushing a list that fits appends it. -/
theorem foldl_push (l : List α) : ∀ {r : Ring α}, r.Wf → r.n + l.length ≤ r.capacity →
    (l.foldl push r).Wf ∧ (l.foldl push r).capacity = r.capacity ∧
      (l.foldl push r).entries = r.entries ++ l := by
  induction l with
  | nil => exact fun h _ => ⟨h, rfl, (List.append_nil _).symm⟩
  | cons a l ih =>
      intro r h hl
      rw [List.length_cons] at hl
      have hf : r.full = false := by
        rw [full, beq_eq_false_iff_ne]
        omega
      obtain ⟨h1, h2, h3⟩ := ih (h.push hf a) (by show r.n + 1 + l.length ≤ r.capacity; omega)
      refine ⟨h1, h2, ?_⟩
      rw [List.foldl_cons, h3, entries_push h hf, List.append_assoc]
      rfl

end Ring

end RvO3
