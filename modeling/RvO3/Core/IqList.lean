import RvO3.Core.InvSquash
import RvO3.Core.IqBits

/-!
# The issue queue is a list

What the bitmaps stand for: a list of waiting instructions, oldest first, each with the
registers its two sources still wait on. `IqRun` runs the bitmap queue and the list side by
side under the core's discipline, in which slots are those of a ring whose sequence
numbers increase from the head; the two agree on everything that can be observed.
-/

set_option autoImplicit false

namespace RvO3

/-! ## The list -/

/-- A waiting instruction. A source is `none` once it has its value. -/
structure Waiter where
  entry : IqEntry
  pending1 : Option Nat
  pending2 : Option Nat

namespace Waiter

/-- The ROB slot of a waiting instruction. -/
def slot (x : Waiter) : Nat := x.entry.robIdx

/-- Its age. -/
def seq (x : Waiter) : Nat := x.entry.seq

/-- It waits for neither source. -/
def ready (x : Waiter) : Bool := x.pending1.isNone && x.pending2.isNone

/-- An instruction that enters with these sources ready. -/
def dispatched (v : IqEntry) (ready1 ready2 : Bool) : Waiter :=
  { entry := v
    pending1 := if ready1 then none else some v.ps1
    pending2 := if ready2 then none else some v.ps2 }

/-- A register is written. -/
def wake (preg : Nat) (x : Waiter) : Waiter :=
  { x with
    pending1 := if x.pending1 = some preg then none else x.pending1
    pending2 := if x.pending2 = some preg then none else x.pending2 }

/-- One visit of the list, as `IqBits.visitEntry` is one of the bitmap queue. -/
def visitEntry {σ : Type} (f : IqVisitor σ) (x : Waiter) (s : List Waiter × σ) :
    (List Waiter × σ) × Bool :=
  let r := f x.entry s.2
  ((if r.2.1 then s.1.filter fun y => decide (y.slot ≠ x.slot) else s.1, r.1), r.2.2)

/-- The entries with no pending source, oldest first. -/
def visitReady {σ : Type} (f : IqVisitor σ) (s : List Waiter × σ) : (List Waiter × σ) × Bool :=
  walk (visitEntry f) (s.1.filter ready) s

end Waiter

/-! ## Side by side -/

/-- The ROB squash, on the sequence numbers of the ROB. -/
def squashSeqs (seq : Nat) : Nat → Ring Nat → Ring Nat
  | 0, r => r
  | n + 1, r => if r.n ≠ 0 ∧ r.tail > seq then squashSeqs seq n r.popTail else r

/-- Runs of the bitmap queue, beside the ring of sequence numbers that gives it its slots
and beside the list. -/
inductive IqRun (robSize iqSize physRegs : Nat) : Ring Nat → IqBits → List Waiter → Prop
  | init : IqRun robSize iqSize physRegs (Ring.init robSize) (IqBits.init iqSize robSize) []
  /-- An instruction takes the next slot and waits in the queue. -/
  | dispatch {r : Ring Nat} {q q' : IqBits} {l : List Waiter} (v : IqEntry)
      (ready1 ready2 : Bool) : IqRun robSize iqSize physRegs r q l → r.full = false →
      (∀ s ∈ r.slots, r.e s < v.seq) → v.robIdx = r.allocIdx → v.ps1 < physRegs →
      v.ps2 < physRegs → q.enqueue v ready1 ready2 = some q' →
      IqRun robSize iqSize physRegs (r.push v.seq) q' (l ++ [Waiter.dispatched v ready1 ready2])
  /-- An instruction takes the next slot but does not wait in the queue. -/
  | skip {r : Ring Nat} {q : IqBits} {l : List Waiter} (seq : Nat) :
      IqRun robSize iqSize physRegs r q l → r.full = false → (∀ s ∈ r.slots, r.e s < seq) →
      IqRun robSize iqSize physRegs (r.push seq) q l
  /-- The oldest slot is freed, once its instruction has left the queue. -/
  | retire {r : Ring Nat} {q : IqBits} {l : List Waiter} :
      IqRun robSize iqSize physRegs r q l → r.empty = false → (∀ x ∈ l, x.slot ≠ r.headIdx) →
      IqRun robSize iqSize physRegs r.popHead q l
  | wakeup {r : Ring Nat} {q : IqBits} {l : List Waiter} (preg : Nat) :
      IqRun robSize iqSize physRegs r q l → preg < physRegs →
      IqRun robSize iqSize physRegs r (q.wakeup preg) (l.map (Waiter.wake preg))
  | release {r : Ring Nat} {q : IqBits} {l : List Waiter} {x : Waiter} :
      IqRun robSize iqSize physRegs r q l → x ∈ l →
      IqRun robSize iqSize physRegs r (q.release x.slot)
        (l.filter fun y => decide (y.slot ≠ x.slot))
  | flush {r : Ring Nat} {q : IqBits} {l : List Waiter} (seq : Nat) :
      IqRun robSize iqSize physRegs r q l →
      IqRun robSize iqSize physRegs (squashSeqs seq r.n r) (q.flushYounger seq)
        (l.filter fun y => decide (y.seq ≤ seq))
  | visit {r : Ring Nat} {q : IqBits} {l : List Waiter} {σ : Type} (f : IqVisitor σ) (s : σ) :
      IqRun robSize iqSize physRegs r q l →
      IqRun robSize iqSize physRegs r (IqBits.visitReady f (r.indexOf 0) (q, s)).1.1
        (Waiter.visitReady f (l, s)).1.1

/-- What the bitmap queue lets one observe is what the list says. -/
structure IqExact (iqSize physRegs : Nat) (r : Ring Nat) (q : IqBits) (l : List Waiter) : Prop where
  count : q.count = l.length
  full : q.full = (l.length == iqSize)
  sourceReady : ∀ x ∈ l, q.sourceReady x.slot false = x.pending1.isNone ∧
    q.sourceReady x.slot true = x.pending2.isNone
  oldestFirst : (l.map Waiter.seq).Pairwise (· < ·)
  /-- A visit from the ROB head shows the visitor the same entries in the same order, and
  ends in the same way. -/
  visit : ∀ {σ : Type} (f : IqVisitor σ) (s : σ),
    (IqBits.visitReady f (r.indexOf 0) (q, s)).1.2 = (Waiter.visitReady f (l, s)).1.2 ∧
    (IqBits.visitReady f (r.indexOf 0) (q, s)).2 = (Waiter.visitReady f (l, s)).2
  /-- No bit is set for a slot that nothing waits in. -/
  bits : ∀ w k, (q.occupied w).getLsbD k = true ∨ (q.ready w).getLsbD k = true ∨
    (q.blocked1 w).getLsbD k = true ∨ (q.blocked2 w).getLsbD k = true →
    ∃ x ∈ l, x.slot = w * 64 + k
  wait1 : ∀ i < physRegs * q.words, ∀ k, (q.wait1 i).getLsbD k = true →
    ∃ x ∈ l, x.slot = i % q.words * 64 + k ∧ x.pending1 = some (i / q.words)
  wait2 : ∀ i < physRegs * q.words, ∀ k, (q.wait2 i).getLsbD k = true →
    ∃ x ∈ l, x.slot = i % q.words * 64 + k ∧ x.pending2 = some (i / q.words)

/-! ## The queue as sets, in ring order -/

/-- What the queue says of an occupied slot. -/
def waiterAt (q : IssueQueue) (s : Nat) : Waiter :=
  { entry := q.e s
    pending1 := if q.blocked1 s then some (q.e s).ps1 else none
    pending2 := if q.blocked2 s then some (q.e s).ps2 else none }

/-- The occupied slots in ring order. -/
def waiters (r : Ring Nat) (q : IssueQueue) : List Waiter :=
  (r.slots.filter q.occupied).map (waiterAt q)

/-- The queue counts its entries. -/
def IssueQueue.Counted (q : IssueQueue) : Prop :=
  q.n = ((List.range q.robSize).filter q.occupied).length

/-- The discipline, as an invariant. -/
structure IqOrdered (r : Ring Nat) (q : IssueQueue) : Prop where
  ring : r.Wf
  wf : q.Wf
  robSize : q.robSize = r.capacity
  sorted : (r.slots.map r.e).Pairwise (· < ·)
  live : ∀ s, q.occupied s = true → s ∈ r.slots
  names : ∀ s, q.occupied s = true → (q.e s).robIdx = s ∧ (q.e s).seq = r.e s
  counted : q.Counted

section Ordered

variable {r : Ring Nat} {q : IssueQueue}

theorem mem_waiters {x : Waiter} :
    x ∈ waiters r q ↔ ∃ s ∈ r.slots, q.occupied s = true ∧ waiterAt q s = x := by
  rw [waiters, List.mem_map]
  constructor
  · rintro ⟨s, hs, rfl⟩
    obtain ⟨h1, h2⟩ := List.mem_filter.mp hs
    exact ⟨s, h1, h2, rfl⟩
  · rintro ⟨s, h1, h2, rfl⟩
    exact ⟨s, List.mem_filter.mpr ⟨h1, h2⟩, rfl⟩

theorem IqOrdered.waiterAt_slot (h : IqOrdered r q) {s : Nat} (hs : q.occupied s = true) :
    (waiterAt q s).slot = s := (h.names s hs).1

theorem IqOrdered.mem_of_occupied (h : IqOrdered r q) {s : Nat} (hs : q.occupied s = true) :
    waiterAt q s ∈ waiters r q := mem_waiters.mpr ⟨s, h.live s hs, hs, rfl⟩

/-- An entry of the list is what the queue says of its slot. -/
theorem IqOrdered.of_mem (h : IqOrdered r q) {x : Waiter} (hx : x ∈ waiters r q) :
    x.slot ∈ r.slots ∧ q.occupied x.slot = true ∧ waiterAt q x.slot = x := by
  obtain ⟨s, hs, ho, rfl⟩ := mem_waiters.mp hx
  rw [h.waiterAt_slot ho]
  exact ⟨hs, ho, rfl⟩

/-- Two lists of slots with the same members, each member once. -/
theorem IqOrdered.length_waiters (h : IqOrdered r q) : (waiters r q).length = q.n := by
  rw [waiters, List.length_map, h.counted]
  apply List.Perm.length_eq
  refine (List.perm_ext_iff_of_nodup ((Ring.slots_nodup h.ring).filter _)
    (List.nodup_range.filter _)).mpr ?_
  intro s
  rw [List.mem_filter, List.mem_filter, List.mem_range]
  exact ⟨fun hs => ⟨h.wf.occ_lt s hs.2, hs.2⟩, fun hs => ⟨h.live s hs.2, hs.2⟩⟩

/-- Read along the ROB the waiters come oldest first. -/
theorem IqOrdered.sorted_waiters (h : IqOrdered r q) :
    ((waiters r q).map Waiter.seq).Pairwise (· < ·) := by
  have heq : (waiters r q).map Waiter.seq = (r.slots.filter q.occupied).map r.e := by
    rw [waiters, List.map_map]
    apply List.map_congr_left
    intro s hs
    exact (h.names s (List.mem_filter.mp hs).2).2
  rw [heq]
  exact h.sorted.sublist (List.filter_sublist.map _)

/-- The ready slots in ring order are those of the entries with no pending source. -/
theorem IqOrdered.visitReady (h : IqOrdered r q) :
    q.visitReady (r.indexOf 0) = ((waiters r q).filter Waiter.ready).map Waiter.slot := by
  have hlive : ∀ s, q.ready s = true → s ∈ r.slots :=
    fun s hs => h.live s ((h.wf.ready_iff s).mp hs).1
  rw [IssueQueue.visitReady, Ring.headIdx_eq h.ring, h.robSize, Ring.visit_eq h.ring hlive,
    waiters, List.filter_map, List.filter_filter, List.map_map]
  have hid : ((r.slots.filter fun s => (Waiter.ready ∘ waiterAt q) s && q.occupied s).map
      (Waiter.slot ∘ waiterAt q)) =
      (r.slots.filter fun s => (Waiter.ready ∘ waiterAt q) s && q.occupied s) := by
    refine (List.map_congr_left fun s hs => ?_).trans (List.map_id _)
    have ho := (List.mem_filter.mp hs).2
    rw [Bool.and_eq_true] at ho
    exact h.waiterAt_slot ho.2
  rw [hid]
  apply List.filter_congr
  intro s _
  rw [Bool.eq_iff_iff, h.wf.ready_iff, Bool.and_eq_true]
  cases h1 : q.blocked1 s <;> cases h2 : q.blocked2 s <;>
    simp [Waiter.ready, waiterAt, h1, h2]

/-! ### Counting -/

/-- Taking one member out of a set that counts it. -/
theorem length_filter_reset {l : List Nat} (hl : l.Nodup) {p : SlotSet} {s : Nat} (hs : s ∈ l)
    (hp : p s = true) : (l.filter (p.reset s)).length + 1 = (l.filter p).length := by
  have heq : l.filter (p.reset s) = (l.filter p).erase s := by
    rw [(hl.filter p).erase_eq_filter, List.filter_filter]
    apply List.filter_congr
    intro t _
    rw [SlotSet.reset_apply]
    by_cases ht : t = s
    · simp [ht]
    · simp [ht]
  have hmem : s ∈ l.filter p := List.mem_filter.mpr ⟨hs, hp⟩
  have hpos := List.length_pos_of_mem hmem
  rw [heq, List.length_erase_of_mem hmem]
  omega

theorem Counted.release (h : q.Counted) (hlt : ∀ s, q.occupied s = true → s < q.robSize) {s : Nat}
    (hs : q.occupied s = true) : (q.release s).Counted := by
  have hlen := length_filter_reset List.nodup_range (List.mem_range.mpr (hlt s hs)) hs
  unfold IssueQueue.Counted at h ⊢
  show q.n - 1 = ((List.range q.robSize).filter (q.occupied.reset s)).length
  omega

theorem Counted.enqueue (h : q.Counted) {v : IqEntry} (hv : q.occupied v.robIdx = false)
    (hlt : v.robIdx < q.robSize) (r1 r2 : Bool) : (q.enqueue v r1 r2).Counted := by
  have hset : (q.occupied.set v.robIdx).reset v.robIdx = q.occupied := by
    funext t
    rw [SlotSet.reset_apply, SlotSet.set_apply]
    by_cases ht : t = v.robIdx
    · rw [if_pos ht, ht, hv]
    · rw [if_neg ht, if_neg ht]
  have hlen := length_filter_reset List.nodup_range (List.mem_range.mpr hlt)
    (p := q.occupied.set v.robIdx) (by rw [SlotSet.set_apply, if_pos rfl])
  rw [hset] at hlen
  unfold IssueQueue.Counted at h ⊢
  show q.n + 1 = ((List.range q.robSize).filter (q.occupied.set v.robIdx)).length
  omega

theorem counted_foldl_flushSlot (seq : Nat) (l : List Nat) : ∀ q : IssueQueue, q.Wf → q.Counted →
    (l.foldl (IssueQueue.flushSlot seq) q).Counted := by
  induction l with
  | nil => exact fun _ _ h => h
  | cons t l ih =>
      intro q hwf h
      rw [List.foldl_cons]
      apply ih _ (hwf.flushSlot seq t)
      unfold IssueQueue.flushSlot
      split
      · rename_i hc
        exact Counted.release h hwf.occ_lt hc.1
      · exact h

/-! ### What each operation does to the list -/

/-- Slots whose occupancy and contents stay give the same entries. -/
theorem waiters_congr {l : List Nat} {q q' : IssueQueue}
    (ho : ∀ s ∈ l, q'.occupied s = q.occupied s)
    (hw : ∀ s ∈ l, q.occupied s = true → waiterAt q' s = waiterAt q s) :
    (l.filter q'.occupied).map (waiterAt q') = (l.filter q.occupied).map (waiterAt q) := by
  rw [List.filter_congr ho]
  apply List.map_congr_left
  intro s hs
  exact hw s (List.mem_filter.mp hs).1 (List.mem_filter.mp hs).2

/-- A new youngest slot. -/
theorem IqOrdered.push_ring (h : IqOrdered r q) (hf : r.full = false) {seq : Nat}
    (hnew : ∀ s ∈ r.slots, r.e s < seq) :
    (r.push seq).Wf ∧ ((r.push seq).slots.map (r.push seq).e).Pairwise (· < ·) ∧
      ∀ s ∈ r.slots, (r.push seq).e s = r.e s := by
  have hold : ∀ s ∈ r.slots, (r.push seq).e s = r.e s := by
    intro s hs
    have hne : s ≠ r.allocIdx := fun he => Ring.allocIdx_notMem h.ring hf (he ▸ hs)
    rw [Ring.push_e, Function.update_of_ne hne]
  refine ⟨h.ring.push hf seq, ?_, hold⟩
  rw [Ring.slots_push, List.map_append, List.map_congr_left hold, List.map_singleton,
    Ring.push_e, Function.update_self, List.pairwise_append]
  refine ⟨h.sorted, List.pairwise_singleton _ _, ?_⟩
  intro a ha b hb
  obtain ⟨s, hs, rfl⟩ := List.mem_map.mp ha
  rw [List.mem_singleton.mp hb]
  exact hnew s hs

theorem IqOrdered.skip (h : IqOrdered r q) (hf : r.full = false) {seq : Nat}
    (hnew : ∀ s ∈ r.slots, r.e s < seq) :
    IqOrdered (r.push seq) q ∧ waiters (r.push seq) q = waiters r q := by
  obtain ⟨hwf, hsorted, hold⟩ := h.push_ring hf hnew
  have hfree : q.occupied r.allocIdx = false := by
    rw [← Bool.not_eq_true]
    exact fun ho => Ring.allocIdx_notMem h.ring hf (h.live _ ho)
  refine ⟨⟨hwf, h.wf, h.robSize, hsorted, ?_, ?_, h.counted⟩, ?_⟩
  · intro s hs
    rw [Ring.slots_push]
    exact List.mem_append_left _ (h.live s hs)
  · intro s hs
    rw [hold s (h.live s hs)]
    exact h.names s hs
  · unfold waiters
    rw [Ring.slots_push, List.filter_append, List.filter_cons_of_neg (by rw [hfree]; simp),
      List.filter_nil, List.append_nil]

/-- An instruction that enters with the newest number is the last of the waiters. -/
theorem IqOrdered.enqueue (h : IqOrdered r q) (hf : r.full = false) {v : IqEntry}
    (hnew : ∀ s ∈ r.slots, r.e s < v.seq) (hslot : v.robIdx = r.allocIdx) (r1 r2 : Bool) :
    IqOrdered (r.push v.seq) (q.enqueue v r1 r2) ∧
      waiters (r.push v.seq) (q.enqueue v r1 r2) = waiters r q ++ [Waiter.dispatched v r1 r2] := by
  obtain ⟨hwf, hsorted, hold⟩ := h.push_ring hf hnew
  -- the slot that the ROB takes is free, so the queue holds nothing there
  have hfresh := Ring.allocIdx_notMem h.ring hf
  rw [← hslot] at hfresh
  have hfree : q.occupied v.robIdx = false := by
    rw [← Bool.not_eq_true]
    exact fun ho => hfresh (h.live _ ho)
  have hlt : v.robIdx < q.robSize := by
    rw [hslot, h.robSize]
    exact Ring.allocIdx_lt h.ring hf
  have hb1 := IssueQueue.enqueue_blocked1 h.wf hfree r1 r2
  have hb2 := IssueQueue.enqueue_blocked2 h.wf hfree r1 r2
  have hocc : ∀ s, (q.enqueue v r1 r2).occupied s = if s = v.robIdx then true else q.occupied s :=
    fun s => by rw [IssueQueue.enqueue_occupied, SlotSet.set_apply]
  have hne : ∀ s ∈ r.slots, s ≠ v.robIdx := fun s hs he => hfresh (he ▸ hs)
  refine ⟨⟨hwf, h.wf.enqueue hfree hlt r1 r2, h.robSize, hsorted, ?_, ?_,
    Counted.enqueue h.counted hfree hlt r1 r2⟩, ?_⟩
  · intro s hs
    rw [Ring.slots_push]
    rw [hocc] at hs
    by_cases hsv : s = v.robIdx
    · rw [hsv, hslot]
      exact List.mem_append_right _ List.mem_cons_self
    · rw [if_neg hsv] at hs
      exact List.mem_append_left _ (h.live s hs)
  · intro s hs
    rw [hocc] at hs
    rw [IssueQueue.enqueue_e]
    by_cases hsv : s = v.robIdx
    · rw [hsv, Function.update_self, Ring.push_e, hslot, Function.update_self]
      exact ⟨rfl, rfl⟩
    · rw [if_neg hsv] at hs
      rw [Function.update_of_ne hsv, hold s (h.live s hs)]
      exact h.names s hs
  · unfold waiters
    -- the old waiters in their order, and the new one at the end
    rw [Ring.slots_push, List.filter_append, List.map_append]
    congr 1
    · apply waiters_congr
      · intro s hs
        rw [hocc, if_neg (hne s hs)]
      · intro s hs _
        have hsv := hne s hs
        unfold waiterAt
        rw [hb1, hb2, IssueQueue.enqueue_e, Function.update_of_ne hsv, if_neg hsv, if_neg hsv]
    · rw [← hslot, List.filter_cons_of_pos (by rw [hocc, if_pos rfl]), List.filter_nil,
        List.map_singleton]
      unfold waiterAt Waiter.dispatched
      rw [hb1, hb2, IssueQueue.enqueue_e, Function.update_self, if_pos rfl, if_pos rfl]
      cases r1 <;> cases r2 <;> rfl

/-- Retiring the ROB's head leaves the waiters alone, for the head waits no more. -/
theorem IqOrdered.retire (h : IqOrdered r q) (he : r.empty = false)
    (hfree : ∀ x ∈ waiters r q, x.slot ≠ r.headIdx) :
    IqOrdered r.popHead q ∧ waiters r.popHead q = waiters r q := by
  obtain ⟨rest, hrest⟩ := Ring.slots_eq_cons h.ring he
  have hpop : r.popHead.slots = rest := by
    rw [Ring.slots_popHead h.ring, hrest]
    rfl
  have hhead : q.occupied r.headIdx = false := by
    rw [← Bool.not_eq_true]
    intro ho
    exact hfree _ (h.mem_of_occupied ho) (h.waiterAt_slot ho)
  refine ⟨⟨h.ring.popHead, h.wf, h.robSize, ?_, ?_, h.names, h.counted⟩, ?_⟩
  · rw [hpop]
    have hs := h.sorted
    rw [hrest, List.map_cons, List.pairwise_cons] at hs
    exact hs.2
  · intro s hs
    rw [hpop]
    have hmem := h.live s hs
    rw [hrest] at hmem
    rcases List.mem_cons.mp hmem with rfl | hm
    · rw [hhead] at hs
      cases hs
    · exact hm
  · unfold waiters
    rw [hpop, hrest, List.filter_cons_of_neg (by rw [hhead]; simp)]

/-- A wakeup marks the register ready in every waiter that reads it. -/
theorem IqOrdered.wakeup (h : IqOrdered r q) (preg : Nat) :
    IqOrdered r (q.wakeup preg) ∧
      waiters r (q.wakeup preg) = (waiters r q).map (Waiter.wake preg) := by
  refine ⟨⟨h.ring, h.wf.wakeup preg, h.robSize, h.sorted, h.live, h.names, h.counted⟩, ?_⟩
  unfold waiters
  rw [List.map_map, IssueQueue.wakeup_occupied]
  apply List.map_congr_left
  intro s _
  unfold waiterAt Waiter.wake
  rw [Function.comp_apply, IssueQueue.wakeup_blocked1 h.wf, IssueQueue.wakeup_blocked2 h.wf,
    IssueQueue.wakeup_e]
  cases q.blocked1 s <;> cases q.blocked2 s <;>
    by_cases h1 : (q.e s).ps1 = preg <;> by_cases h2 : (q.e s).ps2 = preg <;> simp [h1, h2]

/-- Releasing a slot takes its waiter out of the list. -/
theorem IqOrdered.release (h : IqOrdered r q) {s : Nat} (hs : q.occupied s = true) :
    IqOrdered r (q.release s) ∧
      waiters r (q.release s) = (waiters r q).filter fun y => decide (y.slot ≠ s) := by
  have hocc : ∀ t, (q.release s).occupied t = if t = s then false else q.occupied t :=
    fun t => SlotSet.reset_apply _ _ _
  refine ⟨⟨h.ring, h.wf.release s, h.robSize, h.sorted, ?_, ?_,
    Counted.release h.counted h.wf.occ_lt hs⟩, ?_⟩
  · intro t ht
    rw [hocc] at ht
    split at ht
    · cases ht
    · exact h.live t ht
  · intro t ht
    rw [hocc] at ht
    split at ht
    · cases ht
    · rename_i hts
      have hn := h.names t ht
      unfold IssueQueue.release
      dsimp only
      rw [Function.update_of_ne hts]
      exact hn
  · unfold waiters
    rw [List.filter_map, List.filter_filter]
    -- the released slot leaves the list, the others keep their place
    have hfil : (r.slots.filter (q.release s).occupied) =
        r.slots.filter fun t => ((fun y => decide (y.slot ≠ s)) ∘ waiterAt q) t && q.occupied t := by
      apply List.filter_congr
      intro t _
      rw [hocc]
      cases ho : q.occupied t with
      | true =>
          rw [Function.comp_apply, h.waiterAt_slot ho]
          by_cases hts : t = s <;> simp [hts]
      | false => by_cases hts : t = s <;> simp [hts]
    rw [hfil]
    apply List.map_congr_left
    intro t ht
    have hts : t ≠ s := by
      have hp := (List.mem_filter.mp ht).2
      rw [Bool.and_eq_true, Function.comp_apply] at hp
      rw [h.waiterAt_slot hp.2] at hp
      exact of_decide_eq_true hp.1
    unfold waiterAt IssueQueue.release
    simp only [Function.update_of_ne hts, SlotSet.reset_apply, if_neg hts]

theorem squashSeqs_spec (seq n : Nat) : ∀ r : Ring Nat, r.Wf → r.n ≤ n →
    (r.slots.map r.e).Pairwise (· < ·) → Cut r.e seq r (squashSeqs seq n r) := by
  induction n with
  | zero => exact fun r h hn hs => Cut.refl_of_last h hs (Or.inl (by omega))
  | succ n ih =>
      intro r h hn hs
      unfold squashSeqs
      split
      · rename_i hc
        refine Cut.of_popTail hc.1 hc.2 (ih r.popTail h.popTail ?_ (sorted_popTail hc.1 hs))
        have := hc.1
        show r.n - 1 ≤ n
        omega
      · rename_i hc
        apply Cut.refl_of_last h hs
        by_cases hz : r.n = 0
        · exact Or.inl hz
        · exact Or.inr (Nat.le_of_not_lt fun hgt => hc ⟨hz, hgt⟩)

/-- A flush leaves the waiters up to `seq`, in their order. -/
theorem IqOrdered.flush (h : IqOrdered r q) (seq : Nat) :
    IqOrdered (squashSeqs seq r.n r) (q.flushYounger seq) ∧
      waiters (squashSeqs seq r.n r) (q.flushYounger seq) =
        (waiters r q).filter fun y => decide (y.seq ≤ seq) := by
  have hcut := squashSeqs_spec seq r.n r h.ring (Nat.le_refl _) h.sorted
  have hfl := IssueQueue.flushYounger_spec h.wf seq
  have hwf := h.wf.flushYounger seq
  -- a slot that stays was occupied by an older instruction
  have hkeep : ∀ s, (q.flushYounger seq).occupied s = true →
      q.occupied s = true ∧ r.e s ≤ seq := by
    intro s hs
    rw [(hfl s).occupied, Bool.and_eq_true, decide_eq_true_eq] at hs
    rw [(h.names s hs.1).2] at hs
    exact hs
  refine ⟨⟨hcut.wf, hwf, ?_, ?_, ?_, ?_, counted_foldl_flushSlot seq _ q h.wf h.counted⟩, ?_⟩
  · rw [IssueQueue.flushYounger_robSize, h.robSize, hcut.capacity]
  · rw [hcut.slots, hcut.e]
    exact h.sorted.sublist (List.filter_sublist.map _)
  · intro s hs
    obtain ⟨ho, hle⟩ := hkeep s hs
    exact hcut.mem.mpr ⟨h.live s ho, hle⟩
  · intro s hs
    rw [(hfl s).entry hs, hcut.e]
    exact h.names s (hkeep s hs).1
  · unfold waiters
    rw [hcut.slots, List.filter_filter, List.filter_map, List.filter_filter]
    -- the list loses the younger ones, wherever the ring is cut
    have hfil : (r.slots.filter fun s => (q.flushYounger seq).occupied s && decide (r.e s ≤ seq)) =
        r.slots.filter fun s => ((fun y => decide (y.seq ≤ seq)) ∘ waiterAt q) s && q.occupied s := by
      apply List.filter_congr
      intro s _
      rw [(hfl s).occupied, Function.comp_apply]
      cases ho : q.occupied s with
      | true =>
          rw [show (waiterAt q s).seq = r.e s from (h.names s ho).2, (h.names s ho).2]
          simp
      | false => simp
    rw [hfil]
    apply List.map_congr_left
    intro s hs
    have hp := (List.mem_filter.mp hs).2
    rw [Bool.and_eq_true, Function.comp_apply, decide_eq_true_eq] at hp
    have hle : (q.e s).seq ≤ seq := hp.1
    have ho : (q.flushYounger seq).occupied s = true := by
      rw [(hfl s).occupied, hp.2, decide_eq_true hle]
      rfl
    unfold waiterAt
    rw [(hfl s).entry ho, (hfl s).blocked1, (hfl s).blocked2, decide_eq_true hle, Bool.and_true,
      Bool.and_true]

end Ordered

/-! ## The bitmaps and the list in step -/

/-- The bitmaps and the list show the same queue: the list is read off the bitmaps, in ROB order. -/
structure IqRel (iqSize : Nat) (r : Ring Nat) (q : IqBits) (l : List Waiter) : Prop where
  sized : q.Sized
  capacity : q.capacity = iqSize
  ordered : IqOrdered r q.sets
  list : l = waiters r q.sets

section Rel

variable {robSize iqSize physRegs : Nat} {r : Ring Nat} {q : IqBits} {l : List Waiter}

/-- An entry of the list is in its slot. -/
theorem IqRel.of_mem (h : IqRel iqSize r q l) {x : Waiter} (hx : x ∈ l) :
    x.slot < q.robSize ∧ q.sets.occupied x.slot = true ∧ waiterAt q.sets x.slot = x := by
  rw [h.list] at hx
  obtain ⟨-, h2, h3⟩ := h.ordered.of_mem hx
  exact ⟨h.ordered.wf.occ_lt _ h2, h2, h3⟩

theorem IqRel.release (h : IqRel iqSize r q l) {x : Waiter} (hx : x ∈ l) :
    IqRel iqSize r (q.release x.slot) (l.filter fun y => decide (y.slot ≠ x.slot)) := by
  obtain ⟨hlt, ho, -⟩ := h.of_mem hx
  obtain ⟨h1, h2⟩ := h.ordered.release ho
  have hsets := IqBits.sets_release h.sized hlt
  exact ⟨h.sized, h.capacity, hsets ▸ h1, by rw [h.list, hsets, h2]⟩

/-- The two visits of a list of entries, the bitmap queue's and the list's. What is still to
be visited is still there, because a visitor releases only the entry it is given. -/
theorem IqRel.walk {σ : Type} (f : IqVisitor σ) (xs : List Waiter) (hnd : (xs.map Waiter.slot).Nodup) :
    ∀ {q : IqBits} {l : List Waiter} (s : σ), IqRel iqSize r q l → (∀ x ∈ xs, x ∈ l) →
    IqRel iqSize r (walk (IqBits.visitEntry f) (xs.map Waiter.slot) (q, s)).1.1
        (walk (Waiter.visitEntry f) xs (l, s)).1.1 ∧
      (walk (IqBits.visitEntry f) (xs.map Waiter.slot) (q, s)).1.2 =
        (walk (Waiter.visitEntry f) xs (l, s)).1.2 ∧
      (walk (IqBits.visitEntry f) (xs.map Waiter.slot) (q, s)).2 =
        (walk (Waiter.visitEntry f) xs (l, s)).2 := by
  induction xs with
  | nil => exact fun s h _ => ⟨h, rfl, rfl⟩
  | cons x xs ih =>
      intro q l s h hmem
      rw [List.map_cons, List.nodup_cons] at hnd
      obtain ⟨hx, hnd'⟩ := hnd
      have hxl := hmem x List.mem_cons_self
      have hentry : q.e x.slot = x.entry := congrArg Waiter.entry (h.of_mem hxl).2.2
      rw [List.map_cons, RvO3.walk, RvO3.walk, IqBits.visitEntry, Waiter.visitEntry]
      dsimp only
      rw [hentry]
      generalize f x.entry s = a
      obtain ⟨s', rel, go⟩ := a
      dsimp only
      cases go with
      | false =>
          cases rel with
          | false => exact ⟨h, rfl, rfl⟩
          | true => exact ⟨h.release hxl, rfl, rfl⟩
      | true =>
          cases rel with
          | false => exact ih hnd' s' h fun y hy => hmem y (List.mem_cons_of_mem _ hy)
          | true =>
              refine ih hnd' s' (h.release hxl) fun y hy => ?_
              rw [if_pos rfl, List.mem_filter, decide_eq_true_eq]
              refine ⟨hmem y (List.mem_cons_of_mem _ hy), fun he => hx ?_⟩
              rw [← he]
              exact List.mem_map_of_mem hy

/-- Visiting the bitmap from the ROB's head visits the ready waiters of the list in order. -/
theorem IqRel.visit (h : IqRel iqSize r q l) {σ : Type} (f : IqVisitor σ) (s : σ) :
    IqRel iqSize r (IqBits.visitReady f (r.indexOf 0) (q, s)).1.1 (Waiter.visitReady f (l, s)).1.1 ∧
      (IqBits.visitReady f (r.indexOf 0) (q, s)).1.2 = (Waiter.visitReady f (l, s)).1.2 ∧
      (IqBits.visitReady f (r.indexOf 0) (q, s)).2 = (Waiter.visitReady f (l, s)).2 := by
  have ho := h.ordered
  have hhead : r.indexOf 0 < q.robSize := by
    rw [Ring.headIdx_eq ho.ring, show q.robSize = r.capacity from ho.robSize]
    exact ho.ring.headIdx_lt
  rw [IqBits.visitReady_eq f h.sized ho.wf hhead, ho.visitReady, ← h.list]
  apply IqRel.walk
  · have hslots : l.map Waiter.slot = r.slots.filter q.sets.occupied := by
      rw [h.list, waiters, List.map_map]
      refine (List.map_congr_left fun t ht => ?_).trans (List.map_id _)
      exact ho.waiterAt_slot (List.mem_filter.mp ht).2
    apply List.Nodup.sublist (List.filter_sublist.map _)
    rw [hslots]
    exact (Ring.slots_nodup ho.ring).filter _
  · exact h
  · exact fun x hx => (List.mem_filter.mp hx).1

/-- Every run keeps the queue related to its list. By induction on the run. -/
theorem IqRun.rel (hsize : 1 ≤ robSize) (h : IqRun robSize iqSize physRegs r q l) :
    IqRel iqSize r q l := by
  induction h with
  | init =>
      refine ⟨rfl, rfl, ?_, rfl⟩
      rw [IqBits.sets_init]
      refine ⟨Ring.wf_init hsize, IssueQueue.wf_init _ _, rfl, List.Pairwise.nil, nofun, nofun, ?_⟩
      unfold IssueQueue.Counted IssueQueue.init SlotSet.none
      simp
  -- the checked allocation succeeds only below the capacity
  | @dispatch r q q' l v ready1 ready2 _ hf hnew hslot _ _ he ih =>
      have hlt : v.robIdx < q.robSize := by
        rw [hslot, show q.robSize = r.capacity from ih.ordered.robSize]
        exact Ring.allocIdx_lt ih.ordered.ring hf
      obtain ⟨-, hsets⟩ := IqBits.sets_enqueue ih.sized hlt he
      obtain ⟨h1, h2⟩ := ih.ordered.enqueue hf hnew hslot ready1 ready2
      obtain ⟨q₀, hq₀, rfl⟩ := Option.map_eq_some_iff.mp he
      have hsame : q₀.Sized ∧ q₀.capacity = iqSize := by
        unfold IqBits.allocate at hq₀
        split at hq₀
        · cases hq₀
        · cases hq₀
          exact ⟨ih.sized, ih.capacity⟩
      exact ⟨hsame.1, hsame.2, hsets ▸ h1, by rw [hsets, h2, ih.list]⟩
  | skip seq _ hf hnew ih =>
      obtain ⟨h1, h2⟩ := ih.ordered.skip hf hnew
      exact ⟨ih.sized, ih.capacity, h1, by rw [h2, ih.list]⟩
  -- what retires is not waiting: the list is the same
  | retire _ he hfree ih =>
      obtain ⟨h1, h2⟩ := ih.ordered.retire he (ih.list ▸ hfree)
      exact ⟨ih.sized, ih.capacity, h1, by rw [h2, ih.list]⟩
  | @wakeup r q l preg _ _ ih =>
      obtain ⟨h1, h2⟩ := ih.ordered.wakeup preg
      have hsets := IqBits.sets_wakeup q preg
      have hsame : (q.wakeup preg).Sized ∧ (q.wakeup preg).capacity = q.capacity := by
        unfold IqBits.wakeup
        rw [IqBits.foldl_wakeupWord q preg (Nat.le_refl _)]
        exact ⟨ih.sized, rfl⟩
      exact ⟨hsame.1, hsame.2.trans ih.capacity, hsets ▸ h1, by rw [hsets, h2, ih.list]⟩
  | release _ hx ih => exact ih.release hx
  | @flush r q l seq _ ih =>
      obtain ⟨h1, h2⟩ := ih.ordered.flush seq
      obtain ⟨hsets, hwords⟩ := IqBits.sets_flushYounger ih.sized ih.ordered.wf seq
      refine ⟨?_, ?_, hsets ▸ h1, by rw [hsets, h2, ih.list]⟩
      · have hrob : (q.flushYounger seq).robSize = q.robSize :=
          (congrArg IssueQueue.robSize hsets).trans (IssueQueue.flushYounger_robSize _ _)
        rw [IqBits.Sized, hwords, hrob]
        exact ih.sized
      · have hcap : (q.flushYounger seq).capacity = q.sets.capacity :=
          (congrArg IssueQueue.capacity hsets).trans (IssueQueue.flushYounger_capacity _ _)
        exact hcap.trans ih.capacity
  | visit f s _ ih => exact (ih.visit f s).1

/-- A bit of a set that holds occupied slots only stands for an entry. -/
theorem IqRel.of_bit (h : IqRel iqSize r q l) {b : Nat → BitVec 64}
    (hb : ∀ s, bitmapMem b s = true → q.sets.occupied s = true) {w k : Nat}
    (hbit : (b w).getLsbD k = true) : ∃ x ∈ l, x.slot = w * 64 + k := by
  have hk := BitVec.lt_of_getLsbD hbit
  rw [← bitmapMem_word (by omega) b w hk] at hbit
  have ho := hb _ hbit
  refine ⟨waiterAt q.sets (w * 64 + k), ?_, h.ordered.waiterAt_slot ho⟩
  rw [h.list]
  exact h.ordered.mem_of_occupied ho

/-- A bit of a wait row stands for an occupied slot that waits on the row's register. -/
theorem row_bit {m : Nat → BitVec 64} {blocked : SlotSet} {source : IqEntry → Nat}
    (hm : ∀ p s, IqBits.rows q.words m p s = true ↔ blocked s = true ∧ source (q.e s) = p)
    (hb : ∀ s, blocked s = true → q.sets.occupied s = true) {i : Nat}
    (hi : i < physRegs * q.words) {k : Nat} (hbit : (m i).getLsbD k = true) :
    ∃ s, s = i % q.words * 64 + k ∧ q.sets.occupied s = true ∧ blocked s = true ∧
      source (q.e s) = i / q.words := by
  have hk := BitVec.lt_of_getLsbD hbit
  have hwords : 0 < q.words := by
    rcases Nat.eq_zero_or_pos q.words with h0 | h0
    · rw [h0, Nat.mul_zero] at hi
      cases hi
    · exact h0
  have hdiv : (i % q.words * 64 + k) / 64 = i % q.words := by omega
  have hmod : (i % q.words * 64 + k) % 64 = k := by omega
  have hrow : IqBits.rows q.words m (i / q.words) (i % q.words * 64 + k) = true := by
    unfold IqBits.rows bitAt
    rw [hdiv, hmod, Nat.mul_comm, Nat.div_add_mod, hbit, decide_eq_true (Nat.mod_lt i hwords)]
    rfl
  obtain ⟨h1, h2⟩ := (hm _ _).mp hrow
  exact ⟨_, rfl, hb _ h1, h1, h2⟩

/-- A queue that is related to a list answers as the list does. -/
theorem IqRel.exact (h : IqRel iqSize r q l) : IqExact iqSize physRegs r q l := by
  have ho := h.ordered
  have hlen : l.length = q.n := by
    rw [h.list]
    exact ho.length_waiters
  exact {
    count := hlen.symm
    full := by rw [hlen, ← h.capacity]; rfl
    sourceReady := by
      intro x hx
      obtain ⟨-, -, h3⟩ := h.of_mem hx
      rw [← IqBits.sets_sourceReady, ← IqBits.sets_sourceReady, ← h3]
      have hslot : (waiterAt q.sets x.slot).slot = x.slot := congrArg Waiter.slot h3
      rw [hslot]
      unfold waiterAt IssueQueue.sourceReady
      refine ⟨?_, ?_⟩
      · cases hb : q.sets.blocked1 x.slot <;> simp [hb]
      · cases hb : q.sets.blocked2 x.slot <;> simp [hb]
    oldestFirst := by
      rw [h.list]
      exact ho.sorted_waiters
    visit := fun f s => (h.visit f s).2
    bits := by
      rintro w k (hb | hb | hb | hb)
      · exact h.of_bit (fun s hs => hs) hb
      · exact h.of_bit (fun s hs => ((ho.wf.ready_iff s).mp hs).1) hb
      · exact h.of_bit ho.wf.blocked1_occ hb
      · exact h.of_bit ho.wf.blocked2_occ hb
    wait1 := by
      intro i hi k hb
      -- a set bit is a waiter blocked on that very register
      obtain ⟨s, hs, hocc, hblk, hsrc⟩ := row_bit ho.wf.wait1_iff
        ho.wf.blocked1_occ hi hb
      refine ⟨waiterAt q.sets s, ?_, (ho.waiterAt_slot hocc).trans hs, ?_⟩
      · rw [h.list]
        exact ho.mem_of_occupied hocc
      · unfold waiterAt
        rw [if_pos hblk]
        exact congrArg some hsrc
    wait2 := by
      intro i hi k hb
      obtain ⟨s, hs, hocc, hblk, hsrc⟩ := row_bit ho.wf.wait2_iff
        ho.wf.blocked2_occ hi hb
      refine ⟨waiterAt q.sets s, ?_, (ho.waiterAt_slot hocc).trans hs, ?_⟩
      · rw [h.list]
        exact ho.mem_of_occupied hocc
      · unfold waiterAt
        rw [if_pos hblk]
        exact congrArg some hsrc }

/-! ### The queue without slots -/

/-- A walk over words that are all zero visits nothing. -/
theorem walkSegs_zero {σ : Type} {read : σ → Nat → BitVec 64} {s : σ} (hz : ∀ i, read s i = 0)
    (f : Nat → σ → σ × Bool) (segs : List (Nat × BitVec 64)) :
    walkSegs read f segs s = (s, true) := by
  induction segs with
  | nil => rfl
  | cons seg segs ih =>
      have hx : (0 : BitVec 64) &&& seg.2 = 0#64 := BitVec.zero_and
      rw [walkSegs, hz, hx, walkBits_eq, members_zero, walk]
      exact ih

theorem visitReady_zero {σ : Type} (f : IqVisitor σ) (head : Nat) (s : σ) :
    IqBits.visitReady f head (IqBits.init iqSize 0, s) = ((IqBits.init iqSize 0, s), true) :=
  walkSegs_zero (fun _ => rfl) _ _

/-- A ROB of no slots never holds an instruction. -/
theorem IqRun.eq_init (h : IqRun 0 iqSize physRegs r q l) :
    r = Ring.init 0 ∧ q = IqBits.init iqSize 0 ∧ l = [] := by
  induction h with
  | init => exact ⟨rfl, rfl, rfl⟩
  | dispatch v ready1 ready2 _ hf _ _ _ _ _ ih =>
      rw [ih.1] at hf
      cases hf
  | skip seq _ hf _ ih =>
      rw [ih.1] at hf
      cases hf
  | retire _ he _ ih =>
      rw [ih.1] at he
      cases he
  | wakeup preg _ _ ih =>
      obtain ⟨rfl, rfl, rfl⟩ := ih
      exact ⟨rfl, rfl, rfl⟩
  | release _ hx ih =>
      rw [ih.2.2] at hx
      cases hx
  | flush seq _ ih =>
      obtain ⟨rfl, rfl, rfl⟩ := ih
      exact ⟨rfl, rfl, rfl⟩
  | visit f s _ ih =>
      obtain ⟨rfl, rfl, rfl⟩ := ih
      rw [visitReady_zero]
      exact ⟨rfl, rfl, rfl⟩

theorem iqExact_zero : IqExact iqSize physRegs (Ring.init 0) (IqBits.init iqSize 0) [] where
  count := rfl
  full := rfl
  sourceReady := nofun
  oldestFirst := List.Pairwise.nil
  visit f s := by
    rw [visitReady_zero]
    exact ⟨rfl, rfl⟩
  bits w k hb := by
    simp [IqBits.init] at hb
  wait1 i hi := absurd hi (Nat.not_lt_zero i)
  wait2 i hi := absurd hi (Nat.not_lt_zero i)

/-! ### Every size -/

/-- The bitmap issue queue behaves as the list of its entries, in any disciplined run of any size:
the same slots are occupied, each source is ready in both or in neither, and a visit presents the
ready entries oldest first, whatever the visitor releases. -/
theorem issue_queue_refines (h : IqRun robSize iqSize physRegs r q l) :
    IqExact iqSize physRegs r q l := by
  rcases Nat.eq_zero_or_pos robSize with rfl | hsize
  · obtain ⟨rfl, rfl, rfl⟩ := h.eq_init
    exact iqExact_zero
  · exact (h.rel hsize).exact

/-- One instruction waits twice on the same register, is woken and is released by a visit. -/
theorem issue_queue_refines_woken :
    ∃ q l, IqRun 2 2 64 ((Ring.init 2).push 0) q l ∧ l = [] ∧
      IqExact 2 64 ((Ring.init 2).push 0) q l := by
  have h1 : IqRun 2 2 64 ((Ring.init 2).push 0) _ _ :=
    .dispatch { ps1 := 40, ps2 := 40, valid := true } false false .init rfl nofun rfl
      (by decide) (by decide) rfl
  have h2 := IqRun.visit (fun e (s : List Nat) => (s ++ [e.robIdx], true, true)) []
    (h1.wakeup 40 (by decide))
  exact ⟨_, _, h2, rfl, issue_queue_refines h2⟩

end Rel

end RvO3
