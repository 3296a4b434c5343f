import RvO3.Core.SlotSet
import RvO3.Isa.Instr

/-!
# The issue queue

`core/iq.h`: entries live at their ROB slot, and their state is kept as bitmaps over
those slots. A bitmap is modelled as a set of slots, and the wait rows as one such set
for each physical register.
-/

set_option autoImplicit false

namespace RvO3

/-- One waiting instruction: where it is in the ROB and the LSQ, its unit, and the physical
registers of its sources. -/
structure IqEntry where
  seq : Nat := 0
  robIdx : Nat := 0
  lsqIdx : Nat := 0
  ps1 : Nat := 0
  ps2 : Nat := 0
  unit : FuKind := .NONE
  valid : Bool := false
  deriving DecidableEq, Repr

instance : Inhabited IqEntry := ⟨{}⟩

/-- The issue queue with its bitmaps read as sets of slots. `blocked1` and `blocked2` hold the slots
that wait for their first and second source, and row `p` of `wait1` and `wait2` those that wait for
register `p`; `ready` holds those that wait for nothing. -/
structure IssueQueue where
  e : Nat → IqEntry := fun _ => {}
  robSize : Nat
  capacity : Nat
  occupied : SlotSet := SlotSet.none
  ready : SlotSet := SlotSet.none
  blocked1 : SlotSet := SlotSet.none
  blocked2 : SlotSet := SlotSet.none
  wait1 : Nat → SlotSet := fun _ => SlotSet.none
  wait2 : Nat → SlotSet := fun _ => SlotSet.none
  n : Nat := 0

namespace IssueQueue

/-- An empty queue for a ROB of `robSize` entries. -/
def init (capacity robSize : Nat) : IssueQueue := { robSize := robSize, capacity := capacity }

/-- `capacity` limits the entries in use, whatever the size of the bitmaps. -/
def full (q : IssueQueue) : Bool := q.n == q.capacity

/-- `allocate` on a queue that is not full. -/
def allocate (q : IssueQueue) (robIdx : Nat) : IssueQueue :=
  { q with
    e := Function.update q.e robIdx { valid := true, robIdx := robIdx }
    occupied := q.occupied.set robIdx
    n := q.n + 1 }

/-- Overwrite an entry: the field assignments through the pointer `allocate` returns. -/
def setEntry (q : IssueQueue) (slot : Nat) (v : IqEntry) : IssueQueue :=
  { q with e := Function.update q.e slot v }

/-- A source that is not ready is recorded against the register it waits on. An entry that waits for
neither is ready at once. -/
def track (q : IssueQueue) (slot : Nat) (ready1 ready2 : Bool) : IssueQueue :=
  let p1 := (q.e slot).ps1
  let p2 := (q.e slot).ps2
  { q with
    wait1 := if ready1 then q.wait1 else Function.update q.wait1 p1 ((q.wait1 p1).set slot)
    blocked1 := if ready1 then q.blocked1 else q.blocked1.set slot
    wait2 := if ready2 then q.wait2 else Function.update q.wait2 p2 ((q.wait2 p2).set slot)
    blocked2 := if ready2 then q.blocked2 else q.blocked2.set slot
    ready := if ready1 && ready2 then q.ready.set slot else q.ready }

/-- Does the entry no longer wait for this source? -/
def sourceReady (q : IssueQueue) (slot : Nat) (second : Bool) : Bool :=
  !(if second then q.blocked2 else q.blocked1) slot

/-- Remove an entry from every bitmap: it has issued or was squashed. Only the rows it waits in are
touched. -/
def release (q : IssueQueue) (slot : Nat) : IssueQueue :=
  let p1 := (q.e slot).ps1
  let p2 := (q.e slot).ps2
  { q with
    e := Function.update q.e slot { q.e slot with valid := false }
    wait1 := if q.blocked1 slot then Function.update q.wait1 p1 ((q.wait1 p1).reset slot)
      else q.wait1
    wait2 := if q.blocked2 slot then Function.update q.wait2 p2 ((q.wait2 p2).reset slot)
      else q.wait2
    blocked1 := q.blocked1.reset slot
    blocked2 := q.blocked2.reset slot
    occupied := q.occupied.reset slot
    ready := q.ready.reset slot
    n := q.n - 1 }

/-- The ready slots in program order from the ROB head. An entry lives at its ROB slot, so ring
order is age order. -/
def visitReady (q : IssueQueue) (robHead : Nat) : List Nat := q.ready.visit robHead q.robSize

/-- Writeback of `preg` unblocks its waiters and readies those with nothing outstanding. The two
rows of the register are emptied. -/
def wakeup (q : IssueQueue) (preg : Nat) : IssueQueue :=
  let first := q.wait1 preg
  let second := q.wait2 preg
  let blocked1 : SlotSet := fun s => q.blocked1 s && !first s
  let blocked2 : SlotSet := fun s => q.blocked2 s && !second s
  { q with
    wait1 := Function.update q.wait1 preg SlotSet.none
    wait2 := Function.update q.wait2 preg SlotSet.none
    blocked1 := blocked1
    blocked2 := blocked2
    ready := fun s => q.ready s || ((first s || second s) && !(blocked1 s || blocked2 s)) }

/-- One slot of `flushYounger`. -/
def flushSlot (seq : Nat) (q : IssueQueue) (slot : Nat) : IssueQueue :=
  if q.occupied slot ∧ (q.e slot).seq > seq then q.release slot else q

/-- Release every entry that is younger than `seq`. -/
def flushYounger (q : IssueQueue) (seq : Nat) : IssueQueue :=
  (List.range q.robSize).foldl (flushSlot seq) q

/-! ## The bitmap invariant -/

/-- Each bitmap says what its comment claims, and no bit is set for a free slot. -/
structure Wf (q : IssueQueue) : Prop where
  wait1_iff : ∀ p s, q.wait1 p s = true ↔ q.blocked1 s = true ∧ (q.e s).ps1 = p
  wait2_iff : ∀ p s, q.wait2 p s = true ↔ q.blocked2 s = true ∧ (q.e s).ps2 = p
  ready_iff : ∀ s, q.ready s = true ↔
    q.occupied s = true ∧ q.blocked1 s = false ∧ q.blocked2 s = false
  blocked1_occ : ∀ s, q.blocked1 s = true → q.occupied s = true
  blocked2_occ : ∀ s, q.blocked2 s = true → q.occupied s = true
  occ_lt : ∀ s, q.occupied s = true → s < q.robSize

variable {q : IssueQueue}

theorem wf_init (capacity robSize : Nat) : (init capacity robSize).Wf := by
  constructor <;> simp [init, SlotSet.none]

/-! ### One source

The queue keeps two copies of the same bitmaps, one for each source. -/

/-- A row of `wait` holds the slots that are blocked on its register. -/
def Waits (wait : Nat → SlotSet) (blocked : SlotSet) (src : Nat → Nat) : Prop :=
  ∀ p s, wait p s = true ↔ blocked s = true ∧ src s = p

namespace Waits

variable {wait : Nat → SlotSet} {blocked : SlotSet} {src : Nat → Nat}

/-- A slot that is released is taken out of its own row. -/
theorem release (h : Waits wait blocked src) (slot : Nat) :
    Waits (if blocked slot then Function.update wait (src slot) ((wait (src slot)).reset slot) else wait)
      (blocked.reset slot) src := by
  intro p s
  rw [SlotSet.reset_apply]
  by_cases hb : blocked slot = true
  · rw [if_pos hb, Function.update_apply]
    by_cases hs : s = slot
    · rw [if_pos hs, hs]
      by_cases hp : p = src slot
      · simp [hp]
      · -- in the other rows it never was
        have := h p slot
        simp [hp, this, Ne.symm hp]
    · rw [if_neg hs]
      by_cases hp : p = src slot
      · simp [hp, hs, h (src slot) s]
      · simp [hp, h p s]
  · rw [if_neg hb]
    by_cases hs : s = slot
    · simp [hs, h p slot, hb]
    · rw [if_neg hs]
      exact h p s

/-- The row of the register is emptied, and its slots are blocked no longer. -/
theorem wakeup (h : Waits wait blocked src) (preg : Nat) :
    Waits (Function.update wait preg SlotSet.none) (fun s => blocked s && !wait preg s) src := by
  intro p s
  have hrow := h preg s
  rw [Function.update_apply]
  by_cases hp : p = preg
  · rw [if_pos hp, hp]
    simp only [SlotSet.none, Bool.false_eq_true, false_iff, Bool.and_eq_true, Bool.not_eq_true']
    rintro ⟨⟨hb, hw⟩, hsrc⟩
    rw [hrow.mpr ⟨hb, hsrc⟩] at hw
    cases hw
  · rw [if_neg hp, h p s]
    have hout : src s = p → wait preg s = false := by
      intro hsrc
      rw [← Bool.not_eq_true, hrow, hsrc]
      exact fun hand => hp hand.2
    constructor
    · rintro ⟨hb, hsrc⟩
      refine ⟨?_, hsrc⟩
      show (blocked s && !wait preg s) = true
      rw [hb, hout hsrc]
      rfl
    · rintro ⟨hb, hsrc⟩
      exact ⟨(Bool.and_eq_true _ _ ▸ hb).1, hsrc⟩

theorem blocked_wakeup (h : Waits wait blocked src) (preg s : Nat) :
    (blocked s && !wait preg s) = (blocked s && decide (src s ≠ preg)) := by
  rw [Bool.eq_iff_iff]
  simp only [Bool.and_eq_true, Bool.not_eq_true', decide_eq_true_eq, ← Bool.not_eq_true (wait preg s), h preg s]
  constructor
  · rintro ⟨hb, hn⟩
    exact ⟨hb, fun hsrc => hn ⟨hb, hsrc⟩⟩
  · rintro ⟨hb, hn⟩
    exact ⟨hb, fun hand => hn hand.2⟩

/-- A free slot enters the row of the register it is to wait on. -/
theorem track (h : Waits wait blocked src) {slot : Nat} (hfree : blocked slot = false) (preg : Nat) (ready : Bool) :
    Waits (if ready then wait else Function.update wait preg ((wait preg).set slot))
      (if ready then blocked else blocked.set slot) (Function.update src slot preg) := by
  intro p s
  have hno : wait p slot = false := by
    rw [← Bool.not_eq_true, h p slot, hfree]
    exact fun hand => Bool.false_ne_true hand.1
  by_cases hs : s = slot
  · rw [hs, Function.update_self]
    cases ready with
    | true => simp [hno, hfree]
    | false =>
        by_cases hp : p = preg
        · simp [hp]
        · simp [hp, hno, Ne.symm hp]
  · rw [Function.update_of_ne hs]
    cases ready with
    | true => exact h p s
    | false =>
        by_cases hp : p = preg
        · simp [hp, hs, h preg s]
        · simp [hp, hs, h p s]

end Waits

/-! ### The operations -/

theorem Wf.waits1 (h : q.Wf) : Waits q.wait1 q.blocked1 fun s => (q.e s).ps1 := h.wait1_iff
theorem Wf.waits2 (h : q.Wf) : Waits q.wait2 q.blocked2 fun s => (q.e s).ps2 := h.wait2_iff

/-- Releasing an entry clears `valid`, and keeps its sources. -/
theorem release_src (q : IssueQueue) (slot s : Nat) :
    ((q.release slot).e s).ps1 = (q.e s).ps1 ∧ ((q.release slot).e s).ps2 = (q.e s).ps2 := by
  show (Function.update q.e slot { q.e slot with valid := false } s).ps1 = _ ∧
    (Function.update q.e slot { q.e slot with valid := false } s).ps2 = _
  rw [Function.update_apply]
  split
  · next hs => exact hs ▸ ⟨rfl, rfl⟩
  · exact ⟨rfl, rfl⟩

theorem Wf.release (h : q.Wf) (slot : Nat) : (q.release slot).Wf := by
  constructor
  · intro p s
    rw [(release_src q slot s).1]
    exact h.waits1.release slot p s
  · intro p s
    rw [(release_src q slot s).2]
    exact h.waits2.release slot p s
  · intro s
    by_cases hs : s = slot <;> simp [IssueQueue.release, hs, h.ready_iff]
  · intro s
    by_cases hs : s = slot
    · simp [IssueQueue.release, hs]
    · simpa [IssueQueue.release, hs] using h.blocked1_occ s
  · intro s
    by_cases hs : s = slot
    · simp [IssueQueue.release, hs]
    · simpa [IssueQueue.release, hs] using h.blocked2_occ s
  · intro s
    by_cases hs : s = slot
    · simp [IssueQueue.release, hs]
    · simpa [IssueQueue.release, hs] using h.occ_lt s

theorem Wf.wakeup (h : q.Wf) (preg : Nat) : (q.wakeup preg).Wf := by
  constructor
  · exact h.waits1.wakeup preg
  · exact h.waits2.wakeup preg
  · intro s
    -- a slot of either row becomes ready when neither source blocks it any more
    have a1 := h.waits1 preg s
    have a2 := h.waits2 preg s
    have a3 := h.ready_iff s
    have a4 := h.blocked1_occ s
    have a5 := h.blocked2_occ s
    simp only [IssueQueue.wakeup]
    grind
  · intro s hs
    exact h.blocked1_occ s (Bool.and_eq_true _ _ ▸ hs).1
  · intro s hs
    exact h.blocked2_occ s (Bool.and_eq_true _ _ ▸ hs).1
  · exact h.occ_lt

/-- Wakeup of `preg` clears exactly the first-source bits that waited on it. -/
theorem wakeup_blocked1 (h : q.Wf) (preg s : Nat) :
    (q.wakeup preg).blocked1 s = (q.blocked1 s && decide ((q.e s).ps1 ≠ preg)) :=
  h.waits1.blocked_wakeup preg s

theorem wakeup_blocked2 (h : q.Wf) (preg s : Nat) :
    (q.wakeup preg).blocked2 s = (q.blocked2 s && decide ((q.e s).ps2 ≠ preg)) :=
  h.waits2.blocked_wakeup preg s

@[simp] theorem wakeup_e (q : IssueQueue) (p : Nat) : (q.wakeup p).e = q.e := rfl
@[simp] theorem wakeup_occupied (q : IssueQueue) (p : Nat) :
    (q.wakeup p).occupied = q.occupied := rfl

/-! ## Dispatch into the queue -/

/-- `allocate`, the field assignments and `track`, as dispatch makes them. -/
def enqueue (q : IssueQueue) (v : IqEntry) (ready1 ready2 : Bool) : IssueQueue :=
  ((q.allocate v.robIdx).setEntry v.robIdx v).track v.robIdx ready1 ready2

@[simp] theorem enqueue_e (q : IssueQueue) (v : IqEntry) (r1 r2 : Bool) :
    (q.enqueue v r1 r2).e = Function.update q.e v.robIdx v := by
  simp [enqueue, allocate, setEntry, track]

@[simp] theorem enqueue_occupied (q : IssueQueue) (v : IqEntry) (r1 r2 : Bool) :
    (q.enqueue v r1 r2).occupied = q.occupied.set v.robIdx := rfl

@[simp] theorem enqueue_robSize (q : IssueQueue) (v : IqEntry) (r1 r2 : Bool) :
    (q.enqueue v r1 r2).robSize = q.robSize := rfl

theorem enqueue_blocked1 (h : q.Wf) {v : IqEntry} (hv : q.occupied v.robIdx = false)
    (r1 r2 : Bool) (s : Nat) :
    (q.enqueue v r1 r2).blocked1 s = if s = v.robIdx then !r1 else q.blocked1 s := by
  have := h.blocked1_occ v.robIdx
  cases r1 <;> by_cases hs : s = v.robIdx <;>
    simp [enqueue, allocate, setEntry, track, hs]
  grind

theorem enqueue_blocked2 (h : q.Wf) {v : IqEntry} (hv : q.occupied v.robIdx = false)
    (r1 r2 : Bool) (s : Nat) :
    (q.enqueue v r1 r2).blocked2 s = if s = v.robIdx then !r2 else q.blocked2 s := by
  have := h.blocked2_occ v.robIdx
  cases r2 <;> by_cases hs : s = v.robIdx <;>
    simp [enqueue, allocate, setEntry, track, hs]
  grind

/-- The registers of the new entry, and of the others as they were. -/
theorem enqueue_src (q : IssueQueue) (v : IqEntry) (r1 r2 : Bool) :
    (fun s => ((q.enqueue v r1 r2).e s).ps1) = Function.update (fun s => (q.e s).ps1) v.robIdx v.ps1 ∧
      (fun s => ((q.enqueue v r1 r2).e s).ps2) = Function.update (fun s => (q.e s).ps2) v.robIdx v.ps2 := by
  rw [enqueue_e]
  constructor
  · funext s
    rw [Function.update_apply, Function.update_apply]
    split <;> rfl
  · funext s
    rw [Function.update_apply, Function.update_apply]
    split <;> rfl

theorem Wf.enqueue (h : q.Wf) {v : IqEntry} (hv : q.occupied v.robIdx = false)
    (hlt : v.robIdx < q.robSize) (r1 r2 : Bool) : (q.enqueue v r1 r2).Wf := by
  have e1 := enqueue_blocked1 h hv r1 r2
  have e2 := enqueue_blocked2 h hv r1 r2
  have n1 : q.blocked1 v.robIdx = false := by
    rw [← Bool.not_eq_true]
    exact fun hb => Bool.false_ne_true (hv.symm.trans (h.blocked1_occ _ hb))
  have n2 : q.blocked2 v.robIdx = false := by
    rw [← Bool.not_eq_true]
    exact fun hb => Bool.false_ne_true (hv.symm.trans (h.blocked2_occ _ hb))
  have hsrc := enqueue_src q v r1 r2
  constructor
  · intro p s
    have hwait : (q.enqueue v r1 r2).wait1 =
        if r1 then q.wait1 else Function.update q.wait1 v.ps1 ((q.wait1 v.ps1).set v.robIdx) := by
      simp [IssueQueue.enqueue, allocate, setEntry, IssueQueue.track]
    have hw := h.waits1.track n1 v.ps1 r1
    rw [← hsrc.1] at hw
    rw [hwait]
    exact hw p s
  · intro p s
    have hwait : (q.enqueue v r1 r2).wait2 =
        if r2 then q.wait2 else Function.update q.wait2 v.ps2 ((q.wait2 v.ps2).set v.robIdx) := by
      simp [IssueQueue.enqueue, allocate, setEntry, IssueQueue.track]
    have hw := h.waits2.track n2 v.ps2 r2
    rw [← hsrc.2] at hw
    rw [hwait]
    exact hw p s
  · intro s
    rw [e1, e2]
    have hr := h.ready_iff s
    have hready : (q.enqueue v r1 r2).ready =
        if r1 && r2 then q.ready.set v.robIdx else q.ready := by
      simp [IssueQueue.enqueue, allocate, setEntry, IssueQueue.track]
    rw [hready]
    cases r1 <;> cases r2 <;> by_cases hs : s = v.robIdx <;> simp_all
  · intro s
    rw [e1]
    by_cases hs : s = v.robIdx
    · simp [hs]
    · simpa [hs] using h.blocked1_occ s
  · intro s
    rw [e2]
    by_cases hs : s = v.robIdx
    · simp [hs]
    · simpa [hs] using h.blocked2_occ s
  · intro s
    by_cases hs : s = v.robIdx
    · simp [hs, hlt]
    · simpa [hs] using h.occ_lt s

/-! ## Squash -/

/-- What a squash leaves at one slot. -/
structure Flushed (seq : Nat) (q q' : IssueQueue) (s : Nat) : Prop where
  occupied : q'.occupied s = (q.occupied s && decide ((q.e s).seq ≤ seq))
  blocked1 : q'.blocked1 s = (q.blocked1 s && decide ((q.e s).seq ≤ seq))
  blocked2 : q'.blocked2 s = (q.blocked2 s && decide ((q.e s).seq ≤ seq))
  entry : q'.occupied s = true → q'.e s = q.e s

/-- The slot keeps its entry and its bits. -/
structure SameAt (q q' : IssueQueue) (s : Nat) : Prop where
  occupied : q'.occupied s = q.occupied s
  blocked1 : q'.blocked1 s = q.blocked1 s
  blocked2 : q'.blocked2 s = q.blocked2 s
  entry : q'.e s = q.e s

theorem sameAt_flushSlot (q : IssueQueue) (seq : Nat) {s t : Nat} (hst : s ≠ t) : SameAt q (q.flushSlot seq t) s := by
  unfold flushSlot
  split
  · constructor <;> simp [release, hst]
  · exact ⟨rfl, rfl, rfl, rfl⟩

theorem Wf.flushSlot (h : q.Wf) (seq t : Nat) : (q.flushSlot seq t).Wf := by
  unfold IssueQueue.flushSlot
  split
  · exact h.release t
  · exact h

theorem flushed_flushSlot (h : q.Wf) (seq t : Nat) : Flushed seq q (q.flushSlot seq t) t := by
  have h1 := h.blocked1_occ t
  have h2 := h.blocked2_occ t
  unfold flushSlot
  split
  · rename_i hc
    have : ¬ (q.e t).seq ≤ seq := by omega
    constructor <;> simp [release, this]
  · rename_i hc
    constructor <;> grind

/-- After the loop every slot it visited is flushed and the others are unchanged. -/
theorem flushed_foldl (seq : Nat) (l : List Nat) (hl : l.Nodup) : ∀ q : IssueQueue, q.Wf →
    (l.foldl (flushSlot seq) q).Wf ∧
      (∀ s ∈ l, Flushed seq q (l.foldl (flushSlot seq) q) s) ∧
      (∀ s, s ∉ l → SameAt q (l.foldl (flushSlot seq) q) s) := by
  induction l with
  | nil =>
      intro q h
      exact ⟨h, by simp, fun s _ => ⟨rfl, rfl, rfl, rfl⟩⟩
  | cons t l ih =>
      intro q h
      obtain ⟨ht, hl'⟩ := List.nodup_cons.mp hl
      obtain ⟨hw, hin, hout⟩ := ih hl' (q.flushSlot seq t) (h.flushSlot seq t)
      refine ⟨hw, ?_, ?_⟩
      · intro s hs
        by_cases hst : s = t
        · subst hst
          have h1 := flushed_flushSlot h seq s
          have h2 := hout s ht
          exact ⟨h2.occupied.trans h1.occupied, h2.blocked1.trans h1.blocked1,
            h2.blocked2.trans h1.blocked2, fun ho =>
              h2.entry.trans (h1.entry (by rw [List.foldl_cons, h2.occupied] at ho; exact ho))⟩
        · have h1 := sameAt_flushSlot q seq hst
          have h2 := hin s (List.mem_of_ne_of_mem hst hs)
          refine ⟨?_, ?_, ?_, fun ho => (h2.entry ho).trans h1.entry⟩
          · rw [List.foldl_cons, h2.occupied, h1.occupied, h1.entry]
          · rw [List.foldl_cons, h2.blocked1, h1.blocked1, h1.entry]
          · rw [List.foldl_cons, h2.blocked2, h1.blocked2, h1.entry]
      · intro s hs
        have hne : s ≠ t := fun he => hs (he ▸ List.mem_cons_self)
        have h1 := sameAt_flushSlot q seq hne
        have h2 := hout s fun hm => hs (List.mem_cons_of_mem _ hm)
        exact ⟨h2.occupied.trans h1.occupied, h2.blocked1.trans h1.blocked1,
          h2.blocked2.trans h1.blocked2, h2.entry.trans h1.entry⟩

theorem Wf.flushYounger (h : q.Wf) (seq : Nat) : (q.flushYounger seq).Wf :=
  (flushed_foldl seq _ List.nodup_range q h).1

/-- `flushYounger` removes exactly the younger entries. -/
theorem flushYounger_spec (h : q.Wf) (seq s : Nat) : Flushed seq q (q.flushYounger seq) s := by
  obtain ⟨-, hin, hout⟩ := flushed_foldl seq (List.range q.robSize) List.nodup_range q h
  by_cases hs : s ∈ List.range q.robSize
  · exact hin s hs
  · have hno : q.occupied s = false := by
      cases ho : q.occupied s with
      | false => rfl
      | true => exact absurd (List.mem_range.mpr (h.occ_lt s ho)) hs
    have h1 := hout s hs
    have b1 := h.blocked1_occ s
    have b2 := h.blocked2_occ s
    have o := h1.occupied
    have x1 := h1.blocked1
    have x2 := h1.blocked2
    unfold flushYounger
    constructor <;> grind

@[simp] theorem release_robSize (q : IssueQueue) (s : Nat) : (q.release s).robSize = q.robSize := rfl

theorem foldl_flushSlot_robSize (seq : Nat) (l : List Nat) : ∀ q : IssueQueue,
    (l.foldl (flushSlot seq) q).robSize = q.robSize := by
  induction l with
  | nil => exact fun _ => rfl
  | cons t l ih =>
      intro q
      rw [List.foldl_cons, ih]
      unfold flushSlot
      split <;> rfl

theorem foldl_flushSlot_capacity (seq : Nat) (l : List Nat) : ∀ q : IssueQueue,
    (l.foldl (flushSlot seq) q).capacity = q.capacity := by
  induction l with
  | nil => exact fun _ => rfl
  | cons t l ih =>
      intro q
      rw [List.foldl_cons, ih]
      unfold flushSlot
      split <;> rfl

theorem flushYounger_capacity (q : IssueQueue) (seq : Nat) :
    (q.flushYounger seq).capacity = q.capacity := foldl_flushSlot_capacity seq _ q

@[simp] theorem flushYounger_robSize (q : IssueQueue) (seq : Nat) :
    (q.flushYounger seq).robSize = q.robSize := foldl_flushSlot_robSize seq _ q

end IssueQueue

end RvO3
