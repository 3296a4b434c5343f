import RvO3.Core.Ring
import RvO3.Lib.Checked

/-!
# Rings as double-ended queues

`core/ring.h` on its own types: 32-bit counts and indices over a vector. Every sum and
difference is checked for wrapping and every access for the bounds of the storage, so an
operation that returns has done neither. `Queue` is what the class is for: a double-ended
queue whose elements keep the handle they were given when they entered.

`ring_refines_queue` runs the two side by side. The lemmas about `Ring`, whose indices are
natural numbers, carry the argument; `RingVec.toRing` forgets the widths.
-/

set_option autoImplicit false

namespace RvO3

open Checked

/-! ## Queues with handles -/

/-- The operations of both. `assign` writes through the reference that `at` returns. -/
inductive QueueOp (ι α : Type) where
  | alloc
  | push (v : α)
  | assign (i : ι) (v : α)
  | popHead
  | popTail
  | clear

/-- The live elements with their handles, oldest first. -/
abbrev Queue (ι α : Type) := List (ι × α)

namespace Queue

variable {ι α : Type}

/-- The handles of the live elements, oldest first. -/
def handles (q : Queue ι α) : List ι := q.map Prod.fst

/-- What an operation does to the queue; an element that enters gets the handle `i`. This is the
meaning that the ring is compared with, and knows nothing of slots. -/
def apply [DecidableEq ι] [Inhabited α] (q : Queue ι α) (i : ι) : QueueOp ι α → Queue ι α
  | .alloc => q ++ [(i, default)]
  | .push v => q ++ [(i, v)]
  | .assign j v => q.map fun p => if p.1 = j then (p.1, v) else p
  | .popHead => q.tail
  | .popTail => q.dropLast
  | .clear => []

/-- No operation moves a handle: what stays is a stretch of what there was. -/
theorem handles_apply [DecidableEq ι] [Inhabited α] (q : Queue ι α) (i : ι) (op : QueueOp ι α) :
    (q.apply i op).handles <:+: q.handles ++ [i] := by
  have hold : q.handles <:+: q.handles ++ [i] := (List.prefix_append _ _).isInfix
  have henter (v : α) : (q ++ [(i, v)] : Queue ι α).handles = q.handles ++ [i] := List.map_append
  cases op with
  | alloc => rw [apply, henter]
  | push v => rw [apply, henter]
  | assign j v =>
      have hsame : (q.apply i (.assign j v)).handles = q.handles := by
        unfold handles apply
        rw [List.map_map]
        apply List.map_congr_left
        intro p _
        rw [Function.comp_apply]
        split <;> rfl
      rw [hsame]
      exact hold
  | popHead =>
      have htail : (q.apply i .popHead).handles = q.handles.tail := List.map_tail
      rw [htail]
      exact (List.tail_suffix _).isInfix.trans hold
  | popTail =>
      have hlast : (q.apply i .popTail).handles = q.handles.dropLast := List.map_dropLast
      rw [hlast]
      exact (List.dropLast_prefix _).isInfix.trans hold
  | clear => exact List.nil_infix

end Queue

/-! ## The ring -/

/-- The ring on the types of the source: a vector of `capacity` entries with a 32-bit head and
count. -/
structure RingVec (α : Type) (capacity : BitVec 32) where
  e : Vector α capacity.toNat
  headIdx : BitVec 32 := 0
  n : BitVec 32 := 0

namespace RingVec

variable {α : Type} {capacity : BitVec 32}

/-- Every entry is the default one. -/
def init [Inhabited α] (capacity : BitVec 32) : RingVec α capacity := { e := Vector.replicate _ default }

/-- No live entry. -/
def empty (r : RingVec α capacity) : Bool := r.n == 0

/-- Every slot is taken. -/
def full (r : RingVec α capacity) : Bool := r.n == capacity

/-- The number of live entries. -/
def count (r : RingVec α capacity) : BitVec 32 := r.n

/-- The ring index of the `k`-th oldest entry. Neither the sum nor the differences may wrap. -/
def indexOf (r : RingVec α capacity) (k : BitVec 32) : Option (BitVec 32) := do
  let toEnd ← usub capacity r.headIdx
  if k < toEnd then uadd r.headIdx k else usub k toEnd

/-- `e[idx]`, inside the storage. -/
def at' (r : RingVec α capacity) (idx : BitVec 32) : Option α := r.e[idx.toNat]?

/-- `e[idx] = v`, inside the storage. -/
def set (r : RingVec α capacity) (idx : BitVec 32) (v : α) : Option (RingVec α capacity) :=
  if h : idx.toNat < capacity.toNat then some { r with e := r.e.set idx.toNat v h } else none

/-- Take the slot after the tail, reset it and return its index. -/
def alloc [Inhabited α] (r : RingVec α capacity) : Option (RingVec α capacity × BitVec 32) := do
  let idx ← r.indexOf r.n
  let r' ← r.set idx default
  let n ← uadd r.n 1
  return ({ r' with n := n }, idx)

/-- `alloc`, and write the value through the index. -/
def push [Inhabited α] (r : RingVec α capacity) (v : α) : Option (RingVec α capacity) := do
  let (r', idx) ← r.alloc
  r'.set idx v

/-- The oldest entry. -/
def head (r : RingVec α capacity) : Option α := r.at' r.headIdx

/-- The youngest entry: `count - 1` may not wrap, so the ring may not be empty. -/
def tail (r : RingVec α capacity) : Option α := do
  let k ← usub r.n 1
  let idx ← r.indexOf k
  r.at' idx

/-- The `k`-th oldest entry. -/
def nth (r : RingVec α capacity) (k : BitVec 32) : Option α := do
  let idx ← r.indexOf k
  r.at' idx

/-- How far an index is from the head, in ring order. -/
def distance (r : RingVec α capacity) (idx : BitVec 32) : Option (BitVec 32) :=
  if idx ≥ r.headIdx then usub idx r.headIdx
  else do
    let back ← usub r.headIdx idx
    usub capacity back

/-- Is this ring index currently occupied by a live entry? -/
def live (r : RingVec α capacity) (idx : BitVec 32) : Option Bool := do
  let distance ← r.distance idx
  return decide (idx < capacity) && decide (distance < r.n)

/-- The oldest entry leaves. -/
def popHead (r : RingVec α capacity) : Option (RingVec α capacity) := do
  let headIdx ← r.indexOf 1
  let n ← usub r.n 1
  return { r with headIdx := headIdx, n := n }

/-- The youngest entry leaves. -/
def popTail (r : RingVec α capacity) : Option (RingVec α capacity) := do
  let n ← usub r.n 1
  return { r with n := n }

/-- All entries leave. -/
def clear (r : RingVec α capacity) : RingVec α capacity := { r with headIdx := 0, n := 0 }

/-! ## Forgetting the widths -/

section ToRing

variable [Inhabited α] {r : RingVec α capacity}

/-- The ring over natural numbers. -/
def toRing (r : RingVec α capacity) : Ring α where
  e := fun i => (r.e[i]?).getD default
  capacity := capacity.toNat
  headIdx := r.headIdx.toNat
  n := r.n.toNat

theorem toRing_init : (init capacity : RingVec α capacity).toRing = Ring.init capacity.toNat := by
  unfold toRing init Ring.init
  congr 1
  funext i
  rw [Vector.getElem?_replicate]
  split <;> rfl

theorem at'_eq {idx : BitVec 32} (h : idx.toNat < capacity.toNat) : r.at' idx = some (r.toRing.e idx.toNat) := by
  unfold at' toRing
  dsimp only
  rw [Vector.getElem?_eq_getElem h]
  rfl

theorem set_eq {idx : BitVec 32} (h : idx.toNat < capacity.toNat) (v : α) :
    ∃ r', r.set idx v = some r' ∧ r'.toRing = r.toRing.set idx.toNat v ∧ r'.n = r.n := by
  refine ⟨{ r with e := r.e.set idx.toNat v h }, dif_pos h, ?_, rfl⟩
  unfold toRing Ring.set
  congr 1
  funext i
  dsimp only
  rw [Vector.getElem?_set, Function.update_apply]
  by_cases hi : idx.toNat = i
  · rw [if_pos hi, if_pos hi.symm]
    rfl
  · rw [if_neg hi, if_neg (Ne.symm hi)]

/-- No index computation wraps. -/
theorem indexOf_eq (h : r.toRing.Wf) (k : BitVec 32) :
    ∃ idx, r.indexOf k = some idx ∧ idx.toNat = r.toRing.indexOf k.toNat := by
  have hh : r.headIdx.toNat < capacity.toNat := h.headIdx_lt
  have hc := capacity.isLt
  obtain ⟨toEnd, h1, h2⟩ := usub_eq (Nat.le_of_lt hh)
  have hind : r.indexOf k = if k < toEnd then uadd r.headIdx k else usub k toEnd := by
    rw [indexOf, h1]
    rfl
  have hring : r.toRing.indexOf k.toNat =
      if k.toNat < toEnd.toNat then r.headIdx.toNat + k.toNat else k.toNat - toEnd.toNat := by
    rw [h2]
    rfl
  rw [hind, hring]
  -- either the sum stays below the capacity, or the difference is not negative
  by_cases hk : k.toNat < toEnd.toNat
  · rw [if_pos (BitVec.lt_def.mpr hk), if_pos hk]
    exact uadd_eq (by omega)
  · rw [if_neg (mt BitVec.lt_def.mp hk), if_neg hk]
    exact usub_eq (by omega)

theorem full_iff : r.full = r.toRing.full := by
  rw [Bool.eq_iff_iff, full, Ring.full, beq_iff_eq, beq_iff_eq]
  exact BitVec.toNat_inj.symm

theorem empty_iff : r.empty = r.toRing.empty := by
  rw [Bool.eq_iff_iff, empty, Ring.empty, beq_iff_eq, beq_iff_eq]
  exact BitVec.toNat_inj.symm

/-- Allocation with the code's 32-bit arithmetic is the ring's, when there is room. -/
theorem alloc_eq (h : r.toRing.Wf) (hf : r.full = false) :
    ∃ r' idx, r.alloc = some (r', idx) ∧ r'.toRing = r.toRing.alloc ∧ idx.toNat = r.toRing.allocIdx := by
  rw [full_iff] at hf
  have hlt := Ring.allocIdx_lt h hf
  have hn : r.n.toNat ≤ capacity.toNat := h.n_le
  have hne : r.n.toNat ≠ capacity.toNat := by simpa [Ring.full, toRing] using hf
  have hc := capacity.isLt
  obtain ⟨idx, h1, h2⟩ := indexOf_eq h r.n
  have h2 : idx.toNat = r.toRing.allocIdx := h2
  obtain ⟨r', h3, h4, h5⟩ := set_eq (r := r) (by rw [h2]; exact hlt) default
  -- the ring is not full, so the new count is at most the capacity
  obtain ⟨n, h6, h7⟩ := uadd_eq (x := r.n) (y := 1) (by show r.n.toNat + 1 < 2 ^ 32; omega)
  refine ⟨{ r' with n := n }, idx, ?_, ?_, h2⟩
  · rw [alloc, h1]
    show (do let r' ← r.set idx default; let n ← uadd r.n 1; return ({ r' with n := n }, idx)) = _
    rw [h3, h6]
    rfl
  · calc ({ r' with n := n } : RingVec α capacity).toRing
        = { r'.toRing with n := n.toNat } := rfl
      _ = r.toRing.alloc := by
        rw [h4, h2, h7]
        rfl

theorem push_eq (h : r.toRing.Wf) (hf : r.full = false) (v : α) :
    ∃ r' idx, r.push v = some r' ∧ r.alloc = some idx ∧ r'.toRing = r.toRing.push v ∧
      idx.2.toNat = r.toRing.allocIdx := by
  obtain ⟨r', idx, h1, h2, h3⟩ := alloc_eq h hf
  have hlt := Ring.allocIdx_lt h (full_iff.symm.trans hf)
  obtain ⟨r'', h4, h5, -⟩ := set_eq (r := r') (by rw [h3]; exact hlt) v
  refine ⟨r'', (r', idx), ?_, h1, ?_, h3⟩
  · rw [push, h1]
    exact h4
  · rw [h5, h2, h3, Ring.set, Ring.alloc_e, Function.update_idem]
    rfl

/-- The entry at an age, with the code's wrapped index, is the ring's. -/
theorem nth_eq (h : r.toRing.Wf) {k : BitVec 32} (hk : k.toNat < capacity.toNat) :
    r.nth k = some (r.toRing.nth k.toNat) := by
  obtain ⟨idx, h1, h2⟩ := indexOf_eq h k
  rw [nth, h1]
  show r.at' idx = _
  rw [at'_eq (by rw [h2]; exact Ring.indexOf_lt h hk), h2]
  rfl

theorem head_eq (h : r.toRing.Wf) : r.head = some r.toRing.head := at'_eq h.headIdx_lt

theorem tail_eq (h : r.toRing.Wf) (he : r.n.toNat ≠ 0) : r.tail = some r.toRing.tail := by
  have hn : r.n.toNat ≤ capacity.toNat := h.n_le
  obtain ⟨k, h1, h2⟩ := usub_eq (x := r.n) (y := 1) (by show 1 ≤ r.n.toNat; omega)
  have h2 : k.toNat = r.n.toNat - 1 := h2
  have htail : r.tail = r.nth k := by
    rw [tail, h1]
    rfl
  rw [htail, nth_eq h (by omega), h2]
  rfl

/-- Inside 32 bits for every index, also one outside the storage. -/
theorem distance_eq (h : r.toRing.Wf) (idx : BitVec 32) :
    ∃ d, r.distance idx = some d ∧
      d.toNat = if idx.toNat ≥ r.headIdx.toNat then idx.toNat - r.headIdx.toNat
        else capacity.toNat - (r.headIdx.toNat - idx.toNat) := by
  have hh : r.headIdx.toNat < capacity.toNat := h.headIdx_lt
  rw [distance]
  by_cases hge : idx.toNat ≥ r.headIdx.toNat
  · rw [if_pos (BitVec.le_def.mpr hge), if_pos hge]
    exact usub_eq hge
  · rw [if_neg (mt BitVec.le_def.mp hge), if_neg hge]
    obtain ⟨back, h1, h2⟩ := usub_eq (x := r.headIdx) (y := idx) (by omega)
    obtain ⟨d, h3, h4⟩ := usub_eq (x := capacity) (y := back) (by omega)
    refine ⟨d, ?_, by rw [h4, h2]⟩
    rw [h1]
    exact h3

theorem live_eq (h : r.toRing.Wf) (idx : BitVec 32) : r.live idx = some (r.toRing.live idx.toNat) := by
  -- the distance is also computed for an index outside, where it is not used
  obtain ⟨d, h1, h2⟩ := distance_eq h idx
  rw [live, h1]
  show some (decide (idx.toNat < capacity.toNat) && decide (d.toNat < r.n.toNat)) = _
  rw [h2]
  rfl

theorem n_ne_zero (he : r.empty = false) : r.n.toNat ≠ 0 := by
  rw [empty_iff] at he
  simpa [Ring.empty, toRing] using he

theorem popHead_eq (h : r.toRing.Wf) (he : r.empty = false) :
    ∃ r', r.popHead = some r' ∧ r'.toRing = r.toRing.popHead := by
  have hne := n_ne_zero he
  obtain ⟨headIdx, h1, h2⟩ := indexOf_eq h 1
  obtain ⟨n, h3, h4⟩ := usub_eq (x := r.n) (y := 1) (by show 1 ≤ r.n.toNat; omega)
  refine ⟨{ r with headIdx := headIdx, n := n }, ?_, ?_⟩
  · rw [popHead, h1, h3]
    rfl
  · show ({ r.toRing with headIdx := headIdx.toNat, n := n.toNat } : Ring α) = _
    rw [h2, h4]
    rfl

/-- Popping the tail with the code's arithmetic is the ring's, when there is an entry. -/
theorem popTail_eq (he : r.empty = false) :
    ∃ r', r.popTail = some r' ∧ r'.toRing = r.toRing.popTail := by
  have hne := n_ne_zero he
  obtain ⟨n, h3, h4⟩ := usub_eq (x := r.n) (y := 1) (by show 1 ≤ r.n.toNat; omega)
  refine ⟨{ r with n := n }, ?_, ?_⟩
  · rw [popTail, h3]
    rfl
  · show ({ r.toRing with n := n.toNat } : Ring α) = _
    rw [h4]
    rfl

end ToRing

/-! ## Runs -/

section Runs

variable [Inhabited α]

/-- The index that `alloc` takes. -/
def allocIdx (r : RingVec α capacity) : Option (BitVec 32) := r.indexOf r.n

/-- The operations on the ring, `none` where one would wrap or leave the storage. -/
def exec (r : RingVec α capacity) : QueueOp (BitVec 32) α → Option (RingVec α capacity)
  | .alloc => r.alloc.map Prod.fst
  | .push v => r.push v
  | .assign i v => r.set i v
  | .popHead => r.popHead
  | .popTail => r.popTail
  | .clear => some r.clear

/-- What the callers check first. -/
def Allowed (r : RingVec α capacity) : QueueOp (BitVec 32) α → Prop
  | .alloc | .push _ => r.full = false
  | .assign i _ => r.live i = some true
  | .popHead | .popTail => r.empty = false
  | .clear => True

/-- A ring and the queue it stands for, after the same operations. -/
inductive Run : RingVec α capacity → Queue (BitVec 32) α → Prop
  | init : Run (RingVec.init capacity) []
  | step {r r' : RingVec α capacity} {q : Queue (BitVec 32) α} {i : BitVec 32} {op : QueueOp (BitVec 32) α} :
      Run r q → r.Allowed op → r.exec op = some r' → r.allocIdx = some i → Run r' (q.apply i op)

/-- The simulation relation. -/
structure Sim (r : RingVec α capacity) (q : Queue (BitVec 32) α) : Prop where
  wf : r.toRing.Wf
  slots : q.handles.map BitVec.toNat = r.toRing.slots
  values : ∀ p ∈ q, r.toRing.e p.1.toNat = p.2

variable {r r' : RingVec α capacity} {q : Queue (BitVec 32) α}

theorem sim_init (hc : capacity ≠ 0) : Sim (RingVec.init capacity : RingVec α capacity) [] := by
  have hpos : 0 < capacity.toNat := by
    have : capacity.toNat ≠ 0 := fun h => hc (BitVec.eq_of_toNat_eq h)
    omega
  refine ⟨?_, ?_, fun p hp => nomatch hp⟩
  · rw [toRing_init]
    exact Ring.wf_init hpos
  · rw [toRing_init]
    rfl

theorem Sim.mem_slots (h : Sim r q) {p : BitVec 32 × α} (hp : p ∈ q) : p.1.toNat ∈ r.toRing.slots := by
  rw [← h.slots]
  exact List.mem_map_of_mem (List.mem_map_of_mem hp)

/-- An element enters with the handle of the slot after the tail. -/
theorem Sim.enter (h : Sim r q) (hf : r.full = false) {i : BitVec 32} (hi : i.toNat = r.toRing.allocIdx) {v : α}
    (hr : r'.toRing = r.toRing.push v) : Sim r' (q ++ [(i, v)]) := by
  rw [full_iff] at hf
  have hnot := Ring.allocIdx_notMem h.wf hf
  refine ⟨hr ▸ h.wf.push hf v, ?_, ?_⟩
  · rw [hr, Ring.slots_push, ← h.slots, ← hi, Queue.handles, List.map_append, List.map_append]
    rfl
  · intro p hp
    rw [hr, Ring.push_e]
    rcases List.mem_append.mp hp with hp | hp
    · have hne : p.1.toNat ≠ r.toRing.allocIdx := fun he => hnot (he ▸ h.mem_slots hp)
      rw [Function.update_of_ne hne]
      exact h.values p hp
    · obtain rfl := List.mem_singleton.mp hp
      rw [← hi, Function.update_self]

/-- One operation: the ring returns, and stands for what the queue has become. -/
theorem Sim.step (h : Sim r q) {op : QueueOp (BitVec 32) α} (hop : r.Allowed op) :
    ∃ r' i, r.exec op = some r' ∧ r.allocIdx = some i ∧ Sim r' (q.apply i op) := by
  obtain ⟨i, hi1, hi2⟩ := indexOf_eq h.wf r.n
  have hi2 : i.toNat = r.toRing.allocIdx := hi2
  cases op with
  | alloc =>
      obtain ⟨r', j, h1, h2, h3⟩ := alloc_eq h.wf hop
      exact ⟨r', i, congrArg (Option.map Prod.fst) h1, hi1, h.enter hop hi2 h2⟩
  | push v =>
      obtain ⟨r', -, h1, -, h2, -⟩ := push_eq h.wf hop v
      exact ⟨r', i, h1, hi1, h.enter hop hi2 h2⟩
  | assign j v =>
      -- a write through a handle of the caller: `live` has said that it names a slot
      have hj : j.toNat ∈ r.toRing.slots := by
        have hlive := (live_eq h.wf j).symm.trans hop
        exact (Ring.live_iff h.wf).mp (Option.some.inj hlive)
      obtain ⟨r', h1, h2, -⟩ := set_eq (Ring.mem_slots_lt h.wf hj) v
      refine ⟨r', i, h1, hi1, h2 ▸ h.wf.set _ _, ?_, ?_⟩
      · rw [h2, Ring.slots_set, ← h.slots]
        unfold Queue.handles Queue.apply
        rw [List.map_map, List.map_map, List.map_map]
        apply List.map_congr_left
        intro p _
        simp only [Function.comp_apply]
        split <;> rfl
      · intro p hp
        obtain ⟨p', hp', rfl⟩ := List.mem_map.mp hp
        rw [h2, Ring.set_e]
        by_cases he : p'.1 = j
        · rw [if_pos he, he, Function.update_self]
        · -- another handle is another slot: handles are told apart by their numbers
          rw [if_neg he, Function.update_of_ne fun h => he (BitVec.eq_of_toNat_eq h)]
          exact h.values p' hp'
  | popHead =>
      obtain ⟨r', h1, h2⟩ := popHead_eq h.wf hop
      -- the head moves on and takes the oldest handle away; the storage is not written
      refine ⟨r', i, h1, hi1, h2 ▸ h.wf.popHead, ?_, ?_⟩
      · rw [h2, Ring.slots_popHead h.wf, ← h.slots]
        unfold Queue.handles Queue.apply
        rw [List.map_tail, List.map_tail]
      · intro p hp
        rw [h2, Ring.popHead_e]
        exact h.values p (List.mem_of_mem_tail hp)
  | popTail =>
      obtain ⟨r', h1, h2⟩ := popTail_eq (r := r) hop
      -- the other end: the head stays, and with it every handle but the youngest
      refine ⟨r', i, h1, hi1, h2 ▸ h.wf.popTail, ?_, ?_⟩
      · rw [h2, Ring.slots_popTail, ← h.slots]
        unfold Queue.handles Queue.apply
        rw [List.map_dropLast, List.map_dropLast]
      · intro p hp
        rw [h2, Ring.popTail_e]
        exact h.values p (List.mem_of_mem_dropLast hp)
  | clear => exact ⟨r.clear, i, rfl, hi1, h.wf.clear, rfl, fun p hp => nomatch hp⟩

/-- Every run of the vector simulates a run of the queue, handle by handle. -/
theorem Run.sim (hc : capacity ≠ 0) (h : Run r q) : Sim r q := by
  induction h with
  | init => exact sim_init hc
  | step _ hop hexec hidx ih =>
      -- the step that was taken is the one that `Sim.step` gives
      obtain ⟨r'', j, h1, h2, h3⟩ := ih.step hop
      obtain rfl := Option.some.inj (h1.symm.trans hexec)
      obtain rfl := Option.some.inj (h2.symm.trans hidx)
      exact h3

/-- What the ring shows is what the queue holds. -/
structure Agrees (r : RingVec α capacity) (q : Queue (BitVec 32) α) : Prop where
  count : r.count.toNat = q.length
  empty : r.empty = true ↔ q = []
  full : r.full = true ↔ q.length = capacity.toNat
  indexOf : ∀ k : BitVec 32, k.toNat < q.length → r.indexOf k = q[k.toNat]?.map Prod.fst
  nth : ∀ k : BitVec 32, k.toNat < q.length → r.nth k = q[k.toNat]?.map Prod.snd
  head : q ≠ [] → r.head = q.head?.map Prod.snd
  tail : q ≠ [] → r.tail = q.getLast?.map Prod.snd
  live : ∀ i : BitVec 32, r.live i = some (decide (i ∈ q.handles))
  distinct : q.handles.Nodup
  alloc : r.full = false → ∃ r' i, r.alloc = some (r', i) ∧ r.allocIdx = some i ∧ i ∉ q.handles

theorem Sim.length (h : Sim r q) : q.length = r.n.toNat := by
  have hl := congrArg List.length h.slots
  rw [List.length_map, Ring.length_slots, Queue.handles, List.length_map] at hl
  exact hl

theorem Sim.getElem? (h : Sim r q) {k : Nat} (hk : k < q.length) :
    ∃ p, q[k]? = some p ∧ p.1.toNat = r.toRing.indexOf k := by
  refine ⟨q[k], List.getElem?_eq_getElem hk, ?_⟩
  have hs : (q.handles.map BitVec.toNat)[k]? = r.toRing.slots[k]? := by rw [h.slots]
  have hn := h.length
  rw [Queue.handles, Ring.slots, List.getElem?_map, List.getElem?_map, List.getElem?_map,
    List.getElem?_eq_getElem hk, List.getElem?_range (by show k < r.n.toNat; omega)] at hs
  exact Option.some.inj hs

/-- The handles are the live indices. -/
theorem Sim.mem_handles (h : Sim r q) (i : BitVec 32) : i ∈ q.handles ↔ i.toNat ∈ r.toRing.slots := by
  rw [← h.slots, List.mem_map]
  constructor
  · exact fun hi => ⟨i, hi, rfl⟩
  · rintro ⟨j, hj, he⟩
    exact BitVec.eq_of_toNat_eq he ▸ hj

theorem Sim.nth (h : Sim r q) (k : BitVec 32) (hk : k.toNat < q.length) : r.nth k = q[k.toNat]?.map Prod.snd := by
  obtain ⟨p, h1, h2⟩ := h.getElem? hk
  have hlt : k.toNat < capacity.toNat := by
    have := h.length
    have : r.n.toNat ≤ capacity.toNat := h.wf.n_le
    omega
  rw [nth_eq h.wf hlt, h1, Ring.nth, ← h2, h.values p (List.mem_of_getElem? h1)]
  rfl

/-- A vector that simulates a queue answers every query as the queue does. -/
theorem Sim.agrees (h : Sim r q) : Agrees r q where
  count := h.length.symm
  empty := by
    rw [empty_iff, Ring.empty_iff, ← h.slots, List.map_eq_nil_iff, Queue.handles, List.map_eq_nil_iff]
  full := by
    rw [full_iff, Ring.full, beq_iff_eq, h.length]
    rfl
  indexOf := by
    intro k hk
    obtain ⟨p, h1, h2⟩ := h.getElem? hk
    obtain ⟨idx, h3, h4⟩ := indexOf_eq h.wf k
    rw [h1, h3, BitVec.eq_of_toNat_eq (h4.trans h2.symm)]
    rfl
  nth := h.nth
  head := by
    intro hq
    obtain ⟨p, h1, h2⟩ := h.getElem? (List.length_pos_iff.mpr hq)
    rw [Ring.headIdx_eq h.wf] at h2
    rw [head_eq h.wf, List.head?_eq_getElem?, h1, Ring.head, ← h2, h.values p (List.mem_of_getElem? h1)]
    rfl
  tail := by
    intro hq
    have hpos := List.length_pos_iff.mpr hq
    have hn := h.length
    obtain ⟨p, h1, h2⟩ := h.getElem? (k := q.length - 1) (by omega)
    have hidx : r.toRing.tailIdx = p.1.toNat := by
      rw [h2, hn]
      rfl
    rw [tail_eq h.wf (by omega), List.getLast?_eq_getElem?, h1, Ring.tail, hidx, h.values p (List.mem_of_getElem? h1)]
    rfl
  live := by
    intro i
    rw [live_eq h.wf, Option.some_inj, Bool.eq_iff_iff, Ring.live_iff h.wf, decide_eq_true_eq, h.mem_handles]
  distinct := by
    have hnd := Ring.slots_nodup h.wf
    rw [← h.slots] at hnd
    exact List.Nodup.of_map _ hnd
  alloc := by
    intro hf
    obtain ⟨r', i, h1, -, h3⟩ := alloc_eq h.wf hf
    -- the index is the same whether it is read before or taken
    obtain ⟨j, h4, h5⟩ := indexOf_eq h.wf r.n
    obtain rfl : j = i := BitVec.eq_of_toNat_eq (h5.trans h3.symm)
    refine ⟨r', j, h1, h4, ?_⟩
    rw [h.mem_handles, h3]
    exact Ring.allocIdx_notMem h.wf (full_iff.symm.trans hf)

end Runs

/-! ## Main result -/

/-- **Rings.** For every capacity from 1 on, after every sequence of operations whose callers
checked `full`, `empty` or `live` first: the ring shows what the queue holds, and the next such
operation returns, without a wrapped index and inside the storage. A handle stays with its
element. -/
theorem ring_refines_queue [Inhabited α] (hc : capacity ≠ 0) {r : RingVec α capacity} {q : Queue (BitVec 32) α}
    (h : Run r q) :
    Agrees r q ∧
      ∀ op, r.Allowed op →
        ∃ r' i, r.exec op = some r' ∧ r.allocIdx = some i ∧ Run r' (q.apply i op) ∧
          (q.apply i op).handles <:+: q.handles ++ [i] := by
  have hs := h.sim hc
  refine ⟨hs.agrees, ?_⟩
  intro op hop
  obtain ⟨r', i, h1, h2, -⟩ := hs.step hop
  exact ⟨r', i, h1, h2, h.step hop h1 h2, q.handles_apply i op⟩

/-- Three slots: one entry allocated, one pushed, the oldest retired. -/
theorem ring_refines_queue_three : ∃ r : RingVec Nat 3, Agrees r [(1, 7)] := by
  have h1 : Run _ (Queue.apply [] 0 .alloc) := (Run.init : Run (RingVec.init 3 : RingVec Nat 3) []).step rfl rfl rfl
  have h2 : Run _ (Queue.apply _ 1 (.push 7)) := h1.step rfl rfl rfl
  have h3 : Run _ (Queue.apply _ 2 .popHead) := h2.step rfl rfl rfl
  exact ⟨_, (ring_refines_queue (by decide) h3).1⟩

end RingVec

end RvO3
