import RvO3.Core.Iq
import RvO3.Lib.Bitmap

/-!
# The issue queue as the source stores it

`core/iq.h` word by word: five bitmaps over the ROB slots, 64 to a word, and two wait
matrices with one row of words for each physical register. `sets` reads the bitmaps as
sets of slots, and every operation is then the one of `IssueQueue`.
-/

set_option autoImplicit false

namespace RvO3

/-- The issue queue as `core/iq.h` stores it: bitmaps of `words` 64-bit words, and two matrices of
such rows, one row for each physical register, in one array each. -/
structure IqBits where
  e : Nat → IqEntry := fun _ => {}
  robSize : Nat
  capacity : Nat
  words : Nat
  occupied : Nat → BitVec 64 := fun _ => 0
  ready : Nat → BitVec 64 := fun _ => 0
  blocked1 : Nat → BitVec 64 := fun _ => 0
  blocked2 : Nat → BitVec 64 := fun _ => 0
  wait1 : Nat → BitVec 64 := fun _ => 0
  wait2 : Nat → BitVec 64 := fun _ => 0
  n : Nat := 0

/-- A visitor of ready entries: given the entry it may ask for its release, and it says
whether the walk goes on. -/
abbrev IqVisitor (σ : Type) := IqEntry → σ → σ × Bool × Bool

namespace IqBits

/-- An empty queue. A bitmap has as many words as the ROB slots need. -/
def init (capacity robSize : Nat) : IqBits :=
  { robSize := robSize, capacity := capacity, words := (robSize + 63) / 64 }

/-- No entry is left. -/
def full (q : IqBits) : Bool := q.n == q.capacity

/-- The entries in use. -/
def count (q : IqBits) : Nat := q.n

/-- Take the entry of a ROB slot, and reset it; `none` for the source's null pointer. -/
def allocate (q : IqBits) (robIdx : Nat) : Option IqBits :=
  if q.full then none
  else some { q with
    e := Function.update q.e robIdx { valid := true, robIdx := robIdx }
    occupied := setBit q.occupied (robIdx / 64) (robIdx % 64)
    n := q.n + 1 }

/-- The field assignments through the pointer `allocate` returns. -/
def setEntry (q : IqBits) (slot : Nat) (v : IqEntry) : IqBits :=
  { q with e := Function.update q.e slot v }

/-- Set the bit of a source that is not ready in its row and in its bitmap. With both sources ready
the entry goes to the ready bitmap. -/
def track (q : IqBits) (slot : Nat) (ready1 ready2 : Bool) : IqBits :=
  let p1 := (q.e slot).ps1
  let p2 := (q.e slot).ps2
  let w := slot / 64
  let k := slot % 64
  { q with
    wait1 := if ready1 then q.wait1 else setBit q.wait1 (p1 * q.words + w) k
    blocked1 := if ready1 then q.blocked1 else setBit q.blocked1 w k
    wait2 := if ready2 then q.wait2 else setBit q.wait2 (p2 * q.words + w) k
    blocked2 := if ready2 then q.blocked2 else setBit q.blocked2 w k
    ready := if ready1 && ready2 then setBit q.ready w k else q.ready }

/-- The bit of the slot among those blocked on this source is clear. -/
def sourceReady (q : IqBits) (slot : Nat) (second : Bool) : Bool :=
  !bitAt (if second then q.blocked2 else q.blocked1) (slot / 64) (slot % 64)

/-- Clear the bits of an entry that leaves: in the rows where it waits, and in the five bitmaps. -/
def release (q : IqBits) (slot : Nat) : IqBits :=
  let p1 := (q.e slot).ps1
  let p2 := (q.e slot).ps2
  let w := slot / 64
  let k := slot % 64
  { q with
    e := Function.update q.e slot { q.e slot with valid := false }
    wait1 := if bitAt q.blocked1 w k then clearBit q.wait1 (p1 * q.words + w) k else q.wait1
    wait2 := if bitAt q.blocked2 w k then clearBit q.wait2 (p2 * q.words + w) k else q.wait2
    blocked1 := clearBit q.blocked1 w k
    blocked2 := clearBit q.blocked2 w k
    occupied := clearBit q.occupied w k
    ready := clearBit q.ready w k
    n := q.n - 1 }

/-- One visit: the visitor sees the entry, which is released if it asks for that. -/
def visitEntry {σ : Type} (f : IqVisitor σ) (slot : Nat) (s : IqBits × σ) : (IqBits × σ) × Bool :=
  let r := f (s.1.e slot) s.2
  ((if r.2.1 then s.1.release slot else s.1, r.1), r.2.2)

/-- The words `visitReady` walks: the head word's upper bits, the following words, the
words before it, and the head word's lower bits. -/
def readySegs (words robHead : Nat) : List (Nat × BitVec 64) :=
  let headWord := robHead / 64
  let upper := BitVec.allOnes 64 <<< (robHead % 64)
  [(headWord, upper)] ++
    (List.range' (headWord + 1) (words - (headWord + 1))).map (·, BitVec.allOnes 64) ++
    (List.range headWord).map (·, BitVec.allOnes 64) ++ [(headWord, ~~~upper)]

/-- The walk over the ready entries, from the ROB head in ring order, until the visitor ends it. -/
def visitReady {σ : Type} (f : IqVisitor σ) (robHead : Nat) (s : IqBits × σ) :
    (IqBits × σ) × Bool :=
  walkSegs (fun s => s.1.ready) (visitEntry f) (readySegs s.1.words robHead) s

/-- One word of `wakeup`. -/
def wakeupWord (preg : Nat) (q : IqBits) (w : Nat) : IqBits :=
  let idx := preg * q.words + w
  let first := q.wait1 idx
  let second := q.wait2 idx
  let blocked1 := q.blocked1 w &&& ~~~first
  let blocked2 := q.blocked2 w &&& ~~~second
  { q with
    wait1 := Function.update q.wait1 idx 0
    wait2 := Function.update q.wait2 idx 0
    blocked1 := Function.update q.blocked1 w blocked1
    blocked2 := Function.update q.blocked2 w blocked2
    ready := Function.update q.ready w
      (q.ready w ||| ((first ||| second) &&& ~~~(blocked1 ||| blocked2))) }

/-- A register is written: word by word, its rows are emptied and the slots in them unblocked. -/
def wakeup (q : IqBits) (preg : Nat) : IqBits := (List.range q.words).foldl (wakeupWord preg) q

/-- One slot of `flushYounger`. -/
def flushSlot (seq slot : Nat) (q : IqBits) : IqBits × Bool :=
  (if (q.e slot).seq > seq then q.release slot else q, true)

/-- The walk over the occupied slots that releases those younger than `seq`. -/
def flushYounger (q : IqBits) (seq : Nat) : IqBits :=
  (walkSegs (fun q => q.occupied) (flushSlot seq)
    ((List.range q.words).map (·, BitVec.allOnes 64)) q).1

/-- `allocate`, the field assignments and `track`, as dispatch makes them. -/
def enqueue (q : IqBits) (v : IqEntry) (ready1 ready2 : Bool) : Option IqBits :=
  (q.allocate v.robIdx).map fun q => (q.setEntry v.robIdx v).track v.robIdx ready1 ready2

/-! ## The bitmaps as sets -/

/-- A wait matrix as a set of slots for each register. -/
def rows (words : Nat) (m : Nat → BitVec 64) : Nat → SlotSet :=
  fun p s => decide (s / 64 < words) && bitAt m (p * words + s / 64) (s % 64)

/-- The queue with its bitmaps read as sets of slots. -/
def sets (q : IqBits) : IssueQueue :=
  { e := q.e
    robSize := q.robSize
    capacity := q.capacity
    occupied := bitmapMem q.occupied
    ready := bitmapMem q.ready
    blocked1 := bitmapMem q.blocked1
    blocked2 := bitmapMem q.blocked2
    wait1 := rows q.words q.wait1
    wait2 := rows q.words q.wait2
    n := q.n }

/-- The number of words fits the ROB. -/
def Sized (q : IqBits) : Prop := q.words = (q.robSize + 63) / 64

variable {q : IqBits}

theorem Sized.word_lt (h : q.Sized) {slot : Nat} (hs : slot < q.robSize) : slot / 64 < q.words := by
  unfold Sized at h
  omega

/-! ### One slot -/

theorem bitmapMem_setSlot (b : Nat → BitVec 64) (slot : Nat) :
    bitmapMem (setBit b (slot / 64) (slot % 64)) = SlotSet.set (bitmapMem b) slot := by
  funext t
  rw [bitmapMem_setBit (by omega), SlotSet.set_apply]
  by_cases ht : t = slot
  · simp [ht]
  · simp [ht]

theorem bitmapMem_clearSlot (b : Nat → BitVec 64) (slot : Nat) :
    bitmapMem (clearBit b (slot / 64) (slot % 64)) = SlotSet.reset (bitmapMem b) slot := by
  funext t
  rw [bitmapMem_clearBit, SlotSet.reset_apply]
  by_cases ht : t = slot
  · simp [ht]
  · simp [ht]

/-- Different rows are at different words. -/
theorem row_inj {words p p' w w' : Nat} (hw : w < words) (hw' : w' < words) :
    p * words + w = p' * words + w' ↔ p = p' ∧ w = w' := by
  constructor
  · intro h
    have hp : p = p' := by
      have h1 : (p * words + w) / words = p := by
        rw [Nat.mul_comm, Nat.mul_add_div (by omega), Nat.div_eq_of_lt hw, Nat.add_zero]
      have h2 : (p' * words + w') / words = p' := by
        rw [Nat.mul_comm, Nat.mul_add_div (by omega), Nat.div_eq_of_lt hw', Nat.add_zero]
      rw [← h1, h, h2]
    subst hp
    exact ⟨rfl, by omega⟩
  · rintro ⟨rfl, rfl⟩
    rfl

theorem slot_eq_iff {s t : Nat} : s = t ↔ s / 64 = t / 64 ∧ s % 64 = t % 64 := by
  constructor
  · rintro rfl
    exact ⟨rfl, rfl⟩
  · rintro ⟨h1, h2⟩
    rw [← Nat.div_add_mod s 64, ← Nat.div_add_mod t 64, h1, h2]

theorem rows_setBit {words slot : Nat} (hw : slot / 64 < words) (m : Nat → BitVec 64) (p : Nat) :
    rows words (setBit m (p * words + slot / 64) (slot % 64)) =
      Function.update (rows words m) p ((rows words m p).set slot) := by
  funext p' t
  unfold rows
  rw [bitAt_setBit m (by omega : slot % 64 < 64)]
  by_cases ht : t / 64 < words
  · have hrow := @row_inj words p' p (t / 64) (slot / 64) ht hw
    by_cases hp : p' = p
    · subst hp
      rw [Function.update_self, SlotSet.set_apply]
      by_cases hts : t = slot
      · simp [hts, hw]
      · have hne : ¬ (p' * words + t / 64 = p' * words + slot / 64 ∧ t % 64 = slot % 64) :=
          fun h => hts (slot_eq_iff.mpr ⟨(hrow.mp h.1).2, h.2⟩)
        rw [decide_eq_false hne, Bool.or_false, if_neg hts]
    · have hne : ¬ (p' * words + t / 64 = p * words + slot / 64 ∧ t % 64 = slot % 64) :=
        fun h => hp (hrow.mp h.1).1
      rw [decide_eq_false hne, Bool.or_false, Function.update_of_ne hp]
  · have hts : t ≠ slot := fun h => ht (h ▸ hw)
    by_cases hp : p' = p
    · subst hp
      simp [ht, hts]
    · simp [ht, hp]

theorem rows_clearBit {words slot : Nat} (hw : slot / 64 < words) (m : Nat → BitVec 64) (p : Nat) :
    rows words (clearBit m (p * words + slot / 64) (slot % 64)) =
      Function.update (rows words m) p ((rows words m p).reset slot) := by
  funext p' t
  unfold rows
  rw [bitAt_clearBit]
  by_cases ht : t / 64 < words
  · have hrow := @row_inj words p' p (t / 64) (slot / 64) ht hw
    by_cases hp : p' = p
    · subst hp
      rw [Function.update_self, SlotSet.reset_apply]
      by_cases hts : t = slot
      · simp [hts]
      · have hne : ¬ (p' * words + t / 64 = p' * words + slot / 64 ∧ t % 64 = slot % 64) :=
          fun h => hts (slot_eq_iff.mpr ⟨(hrow.mp h.1).2, h.2⟩)
        rw [decide_eq_false hne, Bool.not_false, Bool.and_true, if_neg hts]
    · have hne : ¬ (p' * words + t / 64 = p * words + slot / 64 ∧ t % 64 = slot % 64) :=
        fun h => hp (hrow.mp h.1).1
      rw [decide_eq_false hne, Bool.not_false, Bool.and_true, Function.update_of_ne hp]
  · have hts : t ≠ slot := fun h => ht (h ▸ hw)
    by_cases hp : p' = p
    · subst hp
      simp [ht]
    · simp [ht, hp]

/-! ### The operations on one slot -/

theorem sets_init (capacity robSize : Nat) :
    (init capacity robSize).sets = IssueQueue.init capacity robSize := by
  have hmem : bitmapMem (fun _ => (0 : BitVec 64)) = SlotSet.none := by
    funext s
    simp [bitmapMem, bitAt, SlotSet.none]
  have hrows : rows ((robSize + 63) / 64) (fun _ => 0) = fun _ => SlotSet.none := by
    funext p s
    simp [rows, bitAt, SlotSet.none]
  unfold sets init IssueQueue.init
  simp only [hmem, hrows]

theorem sets_sourceReady (q : IqBits) (slot : Nat) (second : Bool) :
    q.sets.sourceReady slot second = q.sourceReady slot second := by
  cases second <;> rfl

theorem sets_release (h : q.Sized) {slot : Nat} (hs : slot < q.robSize) :
    (q.release slot).sets = q.sets.release slot := by
  have hw := h.word_lt hs
  have h1 : rows q.words (q.release slot).wait1 = (q.sets.release slot).wait1 := by
    show rows q.words (if bitAt q.blocked1 (slot / 64) (slot % 64) then _ else q.wait1) =
      if bitmapMem q.blocked1 slot then _ else _
    unfold bitmapMem
    split
    · exact rows_clearBit hw q.wait1 _
    · rfl
  have h2 : rows q.words (q.release slot).wait2 = (q.sets.release slot).wait2 := by
    show rows q.words (if bitAt q.blocked2 (slot / 64) (slot % 64) then _ else q.wait2) =
      if bitmapMem q.blocked2 slot then _ else _
    unfold bitmapMem
    split
    · exact rows_clearBit hw q.wait2 _
    · rfl
  unfold sets
  simp only [show (q.release slot).words = q.words from rfl, h1, h2]
  simp only [release, IssueQueue.release, bitmapMem_clearSlot, sets]
  rfl

theorem sets_track (h : q.Sized) {slot : Nat} (hs : slot < q.robSize) (ready1 ready2 : Bool) :
    (q.track slot ready1 ready2).sets = q.sets.track slot ready1 ready2 := by
  have hw := h.word_lt hs
  have h1 : rows q.words (q.track slot ready1 ready2).wait1 =
      (q.sets.track slot ready1 ready2).wait1 := by
    cases ready1 with
    | true => rfl
    | false => exact rows_setBit hw q.wait1 _
  have h2 : rows q.words (q.track slot ready1 ready2).wait2 =
      (q.sets.track slot ready1 ready2).wait2 := by
    cases ready2 with
    | true => rfl
    | false => exact rows_setBit hw q.wait2 _
  unfold sets
  simp only [show (q.track slot ready1 ready2).words = q.words from rfl, h1, h2]
  cases ready1 <;> cases ready2 <;>
    simp [track, IssueQueue.track, bitmapMem_setSlot, sets]

theorem sets_enqueue (h : q.Sized) {v : IqEntry} (hs : v.robIdx < q.robSize) {r1 r2 : Bool}
    {q' : IqBits} (he : q.enqueue v r1 r2 = some q') :
    q.full = false ∧ q'.sets = q.sets.enqueue v r1 r2 := by
  unfold enqueue allocate at he
  split at he
  · cases he
  · rename_i hf
    cases he
    refine ⟨by simpa using hf, ?_⟩
    dsimp only
    rw [sets_track]
    rotate_left
    · exact h
    · exact hs
    unfold IssueQueue.enqueue
    congr 1
    unfold sets IssueQueue.setEntry IssueQueue.allocate setEntry
    simp only [bitmapMem_setSlot]

/-! ### Wakeup -/

/-- One more index done. -/
theorem update_done {α : Type} (done todo : Nat → α) (n : Nat) :
    Function.update (fun i => if i < n then done i else todo i) n (done n) =
      fun i => if i < n + 1 then done i else todo i := by
  funext i
  by_cases hi : i = n
  · subst hi
    rw [Function.update_self, if_pos (Nat.lt_succ_self i)]
  · rw [Function.update_of_ne hi]
    by_cases hlt : i < n
    · rw [if_pos hlt, if_pos (by omega)]
    · rw [if_neg hlt, if_neg (by omega)]

/-- One more word of a row cleared. -/
theorem update_row (m : Nat → BitVec 64) (base n : Nat) :
    Function.update (fun i => if base ≤ i ∧ i < base + n then 0 else m i) (base + n) 0 =
      fun i => if base ≤ i ∧ i < base + (n + 1) then 0 else m i := by
  funext i
  by_cases hi : i = base + n
  · subst hi
    rw [Function.update_self, if_pos (by omega)]
  · rw [Function.update_of_ne hi]
    by_cases hin : base ≤ i ∧ i < base + n
    · rw [if_pos hin, if_pos (by omega)]
    · rw [if_neg hin, if_neg (by omega)]

/-- The words of `wakeup` before the `n`-th, done. -/
theorem foldl_wakeupWord (q : IqBits) (preg : Nat) {n : Nat} (hn : n ≤ q.words) :
    (List.range n).foldl (wakeupWord preg) q = { q with
      wait1 := fun i =>
        if preg * q.words ≤ i ∧ i < preg * q.words + n then 0 else q.wait1 i
      wait2 := fun i =>
        if preg * q.words ≤ i ∧ i < preg * q.words + n then 0 else q.wait2 i
      blocked1 := fun w =>
        if w < n then q.blocked1 w &&& ~~~q.wait1 (preg * q.words + w) else q.blocked1 w
      blocked2 := fun w =>
        if w < n then q.blocked2 w &&& ~~~q.wait2 (preg * q.words + w) else q.blocked2 w
      ready := fun w =>
        if w < n then
          q.ready w ||| ((q.wait1 (preg * q.words + w) ||| q.wait2 (preg * q.words + w)) &&&
            ~~~((q.blocked1 w &&& ~~~q.wait1 (preg * q.words + w)) |||
              (q.blocked2 w &&& ~~~q.wait2 (preg * q.words + w))))
        else q.ready w } := by
  induction n with
  | zero =>
      have hno : ∀ i, ¬ (preg * q.words ≤ i ∧ i < preg * q.words + 0) := by omega
      simp only [List.range_zero, List.foldl_nil, hno, Nat.not_lt_zero, if_false]
  | succ n ih =>
      rw [List.range_succ, List.foldl_concat, ih (by omega), wakeupWord]
      -- the word being woken has not been touched yet
      simp only [Nat.lt_irrefl, and_false, if_false]
      congr 1
      · exact update_done (fun w => q.ready w |||
          ((q.wait1 (preg * q.words + w) ||| q.wait2 (preg * q.words + w)) &&&
            ~~~((q.blocked1 w &&& ~~~q.wait1 (preg * q.words + w)) |||
              (q.blocked2 w &&& ~~~q.wait2 (preg * q.words + w))))) q.ready n
      · exact update_done (fun w => q.blocked1 w &&& ~~~q.wait1 (preg * q.words + w)) q.blocked1 n
      · exact update_done (fun w => q.blocked2 w &&& ~~~q.wait2 (preg * q.words + w)) q.blocked2 n
      · exact update_row q.wait1 _ n
      · exact update_row q.wait2 _ n

/-- Waking a register clears its row and no other. -/
theorem rows_wakeup (words preg : Nat) (m : Nat → BitVec 64) :
    rows words (fun i => if preg * words ≤ i ∧ i < preg * words + words then 0 else m i) =
      Function.update (rows words m) preg SlotSet.none := by
  funext p s
  unfold rows bitAt
  by_cases hs : s / 64 < words
  · by_cases hp : p = preg
    · subst hp
      have hin : p * words ≤ p * words + s / 64 ∧ p * words + s / 64 < p * words + words := by omega
      rw [Function.update_self]
      simp [SlotSet.none, hin]
    · have hne : ¬ (preg * words ≤ p * words + s / 64 ∧
          p * words + s / 64 < preg * words + words) := by
        rintro ⟨h1, h2⟩
        have hrow := @row_inj words p preg (s / 64) (p * words + s / 64 - preg * words) hs (by omega)
        exact hp (hrow.mp (by omega)).1
      dsimp only
      rw [if_neg hne, Function.update_of_ne hp]
  · by_cases hp : p = preg
    · subst hp
      simp [hs, SlotSet.none]
    · simp [hs, hp]

theorem sets_wakeup (q : IqBits) (preg : Nat) : (q.wakeup preg).sets = q.sets.wakeup preg := by
  unfold wakeup
  rw [foldl_wakeupWord q preg (Nat.le_refl _)]
  unfold sets IssueQueue.wakeup
  dsimp only
  rw [rows_wakeup, rows_wakeup]
  have hrow : ∀ (m : Nat → BitVec 64) (s : Nat), rows q.words m preg s =
      (decide (s / 64 < q.words) && (m (preg * q.words + s / 64)).getLsbD (s % 64)) := fun _ _ => rfl
  have hlt : ∀ s : Nat, s % 64 < 64 := fun s => Nat.mod_lt s (by omega)
  congr 1
  · funext s
    unfold bitmapMem bitAt
    rw [hrow, hrow]
    by_cases hs : s / 64 < q.words
    · simp only [if_pos hs, BitVec.getLsbD_or, BitVec.getLsbD_and, BitVec.getLsbD_not,
        decide_eq_true (hlt s), decide_eq_true hs, Bool.true_and]
    · simp only [if_neg hs, decide_eq_false hs, Bool.false_and, Bool.or_false]
  · funext s
    unfold bitmapMem bitAt
    rw [hrow]
    by_cases hs : s / 64 < q.words
    · simp only [if_pos hs, BitVec.getLsbD_and, BitVec.getLsbD_not, decide_eq_true (hlt s),
        decide_eq_true hs, Bool.true_and]
    · simp only [if_neg hs, decide_eq_false hs, Bool.false_and, Bool.not_false, Bool.and_true]
  · funext s
    unfold bitmapMem bitAt
    rw [hrow]
    by_cases hs : s / 64 < q.words
    · simp only [if_pos hs, BitVec.getLsbD_and, BitVec.getLsbD_not, decide_eq_true (hlt s),
        decide_eq_true hs, Bool.true_and]
    · simp only [if_neg hs, decide_eq_false hs, Bool.false_and, Bool.not_false, Bool.and_true]

/-! ### Walks -/

theorem segPositions_all (i : Nat) :
    segPositions (i, BitVec.allOnes 64) = List.range' (i * 64) 64 := by
  have hall : members (BitVec.allOnes 64) = List.range 64 := by
    rw [members, List.filter_eq_self]
    intro k hk
    rw [BitVec.getLsbD_allOnes, decide_eq_true (List.mem_range.mp hk)]
  rw [segPositions, hall, List.range'_eq_map_range]

theorem segPositions_upper (i : Nat) {k : Nat} (hk : k < 64) :
    segPositions (i, BitVec.allOnes 64 <<< k) = List.range' (i * 64 + k) (64 - k) := by
  have hmem : members (BitVec.allOnes 64 <<< k) = List.range' k (64 - k) := by
    apply (members_pairwise _).eq_of_mem_iff List.pairwise_lt_range'
    intro j
    rw [mem_members, BitVec.getLsbD_shiftLeft, BitVec.getLsbD_allOnes, List.mem_range'_1]
    simp only [Bool.and_eq_true, decide_eq_true_eq, Bool.not_eq_true', decide_eq_false_iff_not]
    omega
  rw [segPositions, hmem, List.map_add_range']

theorem segPositions_lower (i : Nat) {k : Nat} (hk : k < 64) :
    segPositions (i, ~~~(BitVec.allOnes 64 <<< k)) = List.range' (i * 64) k := by
  have hmem : members (~~~(BitVec.allOnes 64 <<< k)) = List.range' 0 k := by
    apply (members_pairwise _).eq_of_mem_iff List.pairwise_lt_range'
    intro j
    rw [mem_members, BitVec.getLsbD_not, BitVec.getLsbD_shiftLeft, BitVec.getLsbD_allOnes,
      List.mem_range'_1]
    simp only [Bool.and_eq_true, decide_eq_true_eq, Bool.not_eq_true', Bool.and_eq_false_iff,
      decide_eq_false_iff_not, Bool.not_eq_false']
    omega
  rw [segPositions, hmem, List.map_add_range', Nat.add_zero]

/-- Consecutive whole words cover consecutive positions. -/
theorem wordPositions (n : Nat) : ∀ i, ((List.range' i n).map (·, BitVec.allOnes 64)).flatMap
    segPositions = List.range' (i * 64) (n * 64) := by
  induction n with
  | zero =>
      intro i
      rw [Nat.zero_mul]
      rfl
  | succ n ih =>
      intro i
      rw [List.range'_succ, List.map_cons, List.flatMap_cons, ih, segPositions_all,
        show (i + 1) * 64 = i * 64 + 64 by omega, List.range'_append_1]
      congr 1
      omega

/-- The walk of `visitReady` covers every slot once, in ring order from the head. -/
theorem readyPositions {words head : Nat} (hh : head / 64 < words) :
    (readySegs words head).flatMap segPositions =
      List.range' head (words * 64 - head) ++ List.range' 0 head := by
  have hk : head % 64 < 64 := Nat.mod_lt head (by omega)
  unfold readySegs
  simp only [List.flatMap_append, List.flatMap_cons, List.flatMap_nil, List.append_nil]
  rw [segPositions_upper _ hk, segPositions_lower _ hk, wordPositions, List.range_eq_range',
    wordPositions, List.append_assoc]
  congr 1
  · rw [show head / 64 * 64 + head % 64 = head by omega,
      show (head / 64 + 1) * 64 = head + (64 - head % 64) by omega, List.range'_append_1]
    congr 1
    omega
  · have happ := @List.range'_append_1 0 (head / 64 * 64) (head % 64)
    rw [Nat.zero_add] at happ
    rw [Nat.zero_mul, happ]
    congr 1
    omega

theorem ownBit_visitEntry {σ : Type} (f : IqVisitor σ) :
    OwnBit (fun s : IqBits × σ => s.1.ready) (visitEntry f) := by
  intro a s j hj
  unfold visitEntry
  dsimp only
  split
  · show bitmapMem (clearBit s.1.ready (a / 64) (a % 64)) j = _
    rw [bitmapMem_clearBit, decide_eq_false hj, Bool.not_false, Bool.and_true]
  · rfl

/-- A set of slots below `n`, listed from `i`, ends there. -/
theorem filter_range'_le {p : Nat → Bool} {n : Nat} (hp : ∀ s, p s = true → s < n) {i m : Nat}
    (hi : i ≤ n) (hm : n ≤ i + m) :
    (List.range' i m).filter p = (List.range' i (n - i)).filter p := by
  have hsplit : List.range' i m = List.range' i (n - i) ++ List.range' n (m - (n - i)) := by
    have happ := @List.range'_append_1 i (n - i) (m - (n - i))
    rw [show i + (n - i) = n by omega, show n - i + (m - (n - i)) = m by omega] at happ
    exact happ.symm
  have hnil : (List.range' n (m - (n - i))).filter p = [] := by
    rw [List.filter_eq_nil_iff]
    intro s hs hps
    have h1 := hp s hps
    have h2 := (List.mem_range'_1.mp hs).1
    omega
  rw [hsplit, List.filter_append, hnil, List.append_nil]

/-- `visitReady` presents the ready slots in ring order from the head. -/
theorem visitReady_eq {σ : Type} (f : IqVisitor σ) (h : q.Sized) (hwf : q.sets.Wf) {head : Nat}
    (hh : head < q.robSize) (s : σ) :
    visitReady f head (q, s) = walk (visitEntry f) (q.sets.visitReady head) (q, s) := by
  have hhw := h.word_lt hh
  have hlt : ∀ j, bitmapMem q.ready j = true → j < q.robSize :=
    fun j hj => hwf.occ_lt j ((hwf.ready_iff j).mp hj).1
  have hpos := readyPositions hhw
  have hnd : ((readySegs q.words head).flatMap segPositions).Nodup := by
    rw [hpos]
    refine List.nodup_append.mpr ⟨List.nodup_range', List.nodup_range', ?_⟩
    intro a ha b hb
    have h1 := (List.mem_range'_1.mp ha).1
    have h2 := (List.mem_range'_1.mp hb).2
    omega
  rw [visitReady, walkSegs_eq (ownBit_visitEntry f) hnd, hpos]
  congr 1
  unfold IssueQueue.visitReady SlotSet.visit SlotSet.ringOrder
  have hsize : q.robSize ≤ head + (q.words * 64 - head) := by
    unfold Sized at h
    omega
  rw [List.filter_append, List.filter_append, filter_range'_le hlt (Nat.le_of_lt hh) hsize,
    List.range'_eq_map_range, ← List.range_eq_range']
  rfl

/-! ### Squash -/

theorem ownBit_flushSlot (seq : Nat) :
    OwnBit (fun q : IqBits => q.occupied) (flushSlot seq) := by
  intro a q j hj
  unfold flushSlot
  dsimp only
  split
  · show bitmapMem (clearBit q.occupied (a / 64) (a % 64)) j = _
    rw [bitmapMem_clearBit, decide_eq_false hj, Bool.not_false, Bool.and_true]
  · rfl

/-- A squash walk from state to state: it sees the same slots as the set-level loop. -/
theorem walk_flushSlot (seq : Nat) (l : List Nat) (hnd : l.Nodup) : ∀ {q : IqBits}, q.Sized →
    (∀ s ∈ l, s < q.robSize) →
    (walk (flushSlot seq) (l.filter (bitmapMem q.occupied)) q).1.sets =
        l.foldl (IssueQueue.flushSlot seq) q.sets ∧
      (walk (flushSlot seq) (l.filter (bitmapMem q.occupied)) q).1.words = q.words := by
  induction l with
  | nil => exact fun _ _ => ⟨rfl, rfl⟩
  | cons t l ih =>
      intro q h hl
      obtain ⟨ht, hnd'⟩ := List.nodup_cons.mp hnd
      have hrest : ∀ s ∈ l, s < q.robSize := fun s hs => hl s (List.mem_cons_of_mem _ hs)
      have hts := hl t List.mem_cons_self
      rw [List.foldl_cons]
      cases ho : bitmapMem q.occupied t with
      | false =>
          have hno : IssueQueue.flushSlot seq q.sets t = q.sets := by
            unfold IssueQueue.flushSlot
            rw [if_neg fun hc => by rw [show q.sets.occupied t = false from ho] at hc; cases hc.1]
          rw [List.filter_cons_of_neg (by rw [ho]; simp), hno]
          exact ih hnd' h hrest
      | true =>
          rw [List.filter_cons_of_pos ho, walk]
          by_cases hseq : (q.e t).seq > seq
          · have hyes : IssueQueue.flushSlot seq q.sets t = (q.release t).sets := by
              unfold IssueQueue.flushSlot
              rw [if_pos ⟨ho, hseq⟩, sets_release h hts]
            have hfil : l.filter (bitmapMem q.occupied) =
                l.filter (bitmapMem (q.release t).occupied) := by
              apply List.filter_congr
              intro j hj
              have hjt : j ≠ t := fun he => ht (he ▸ hj)
              show _ = bitmapMem (clearBit q.occupied (t / 64) (t % 64)) j
              rw [bitmapMem_clearBit, decide_eq_false hjt, Bool.not_false, Bool.and_true]
            rw [flushSlot, if_pos hseq, hyes, hfil]
            exact @ih hnd' (q.release t) h hrest
          · have hno : IssueQueue.flushSlot seq q.sets t = q.sets := by
              unfold IssueQueue.flushSlot
              rw [if_neg fun hc => hseq hc.2]
            rw [flushSlot, if_neg hseq, hno]
            exact ih hnd' h hrest

theorem sets_flushYounger (h : q.Sized) (hwf : q.sets.Wf) (seq : Nat) :
    (q.flushYounger seq).sets = q.sets.flushYounger seq ∧
      (q.flushYounger seq).words = q.words := by
  have hpos : ((List.range q.words).map (·, BitVec.allOnes 64)).flatMap segPositions =
      List.range' 0 (q.words * 64) := by
    rw [List.range_eq_range', wordPositions, Nat.zero_mul]
  have hsize : q.robSize ≤ 0 + q.words * 64 := by
    unfold Sized at h
    omega
  have hlt : ∀ j, bitmapMem q.occupied j = true → j < q.robSize := hwf.occ_lt
  unfold flushYounger
  rw [walkSegs_eq (ownBit_flushSlot seq) (by rw [hpos]; exact List.nodup_range'), hpos,
    filter_range'_le hlt (Nat.zero_le _) hsize, Nat.sub_zero, ← List.range_eq_range']
  exact walk_flushSlot seq _ List.nodup_range h fun s hs => List.mem_range.mp hs

end IqBits

end RvO3
