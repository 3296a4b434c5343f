import RvO3.Core.Reset
import Mathlib.Algebra.Order.BigOperators.Group.List
import Mathlib.Algebra.Order.Ring.Nat

/-!
# The LSQ work sets are exact

`LsqOp` are the state changes the core makes to its LSQ, with the condition under which
it makes each of them. After any sequence of them every visit yields the live entries its
question is about, in age order, the counters agree with the sets, and no counter has
been decremented at zero.
-/

set_option autoImplicit false

namespace RvO3

open OoOCore

/-! ## Sequences of operations -/

/-- One state change of the LSQ. `dispatch` is `alloc`, the field assignments and, for a
store, `setStoreSource`; `resolve` fills in the address and calls `resolveAddress`. -/
inductive LsqOp where
  | dispatch (e : RobEntry) (robIdx ps2 : Nat) (prf : PhysRegFile)
  | resolve (slot : Nat) (addr : Word) (size : Nat)
  | capture (slot : Nat) (value : Word)
  | issueLoad (slot : Nat)
  | completeLoad (slot : Nat) (value : Word)
  | reportLoad (slot : Nat)
  | popHead
  | popTail

namespace LsqOp

/-- The queue after one change. -/
def run : LsqOp → LSQ → LSQ
  | dispatch e robIdx ps2 prf, q => dispatchLsq q e robIdx ps2 prf
  | resolve slot addr size, q =>
      (q.setEntry slot { q.at' slot with addr := addr, size := size }).resolveAddress slot
  | capture slot v, q => q.captureStoreData slot v
  | issueLoad slot, q => q.issueLoad slot
  | completeLoad slot v, q => q.completeLoad slot v
  | reportLoad slot, q => q.reportLoad slot
  | popHead, q => q.popHead
  | popTail, q => q.popTail

/-- When the core makes this change. -/
def Allowed : LsqOp → LSQ → Prop
  | dispatch e _ _ _, q => q.ring.full = false ∧ ∀ j ∈ q.ring.slots, (q.at' j).seq < e.seq
  | resolve slot _ size, q =>
      slot ∈ q.ring.slots ∧ (q.at' slot).addrValid = false ∧ 1 ≤ size ∧ size ≤ 4
  | capture slot _, q => slot ∈ q.ring.slots ∧ (q.at' slot).isWaiting = true
  | issueLoad slot, q => slot ∈ q.ring.slots ∧ (q.at' slot).isCandidate = true
  | completeLoad slot _, q => slot ∈ q.ring.slots ∧
      ((q.at' slot).isCandidate = true ∨ (q.at' slot).isPending = true)
  | reportLoad slot, q => slot ∈ q.ring.slots ∧ (q.at' slot).isUnreported = true
  | popHead, q => q.ring.empty = false
  | popTail, q => q.ring.empty = false

/-- What taking an entry out of the sets decrements is not zero. -/
structure RemoveSafe (q : LSQ) (slot : Nat) : Prop where
  first : (q.at' slot).isKnownStore = true → 1 ≤ q.storeWords (wordBucket (q.at' slot).addr)
  second : (q.at' slot).isKnownStore = true →
    wordBucket (q.at' slot).addr ≠ wordBucket (q.at' slot).lastByte →
    1 ≤ q.storeWords (wordBucket (q.at' slot).lastByte)
  pending : (q.at' slot).issued = true → (q.at' slot).done = false → 1 ≤ q.pendingLoads
  unreported : (q.at' slot).isUnreported = true → 1 ≤ q.unreportedLoads
  waiting : (q.at' slot).isWaiting = true → 1 ≤ q.waitingStores

/-- No counter that the change decrements is zero. -/
def NoUnderflow : LsqOp → LSQ → Prop
  | completeLoad slot _, q => (q.at' slot).issued = true → 1 ≤ q.pendingLoads
  | reportLoad _, q => 1 ≤ q.unreportedLoads
  | capture _ _, q => 1 ≤ q.waitingStores
  | popHead, q => RemoveSafe q q.ring.headIdx
  | popTail, q => RemoveSafe q q.ring.tailIdx
  | _, _ => True

end LsqOp

/-- The states of an LSQ of the given size that the core's changes lead to. -/
inductive LsqRun (size : Nat) : LSQ → Prop
  | init : LsqRun size (LSQ.init size)
  | step {q : LSQ} (op : LsqOp) : LsqRun size q → op.Allowed q → LsqRun size (op.run q)

instance (op : LsqOp) (q : LSQ) : Decidable (op.Allowed q) :=
  match op with
  | .dispatch _ _ _ _ => inferInstanceAs (Decidable (_ ∧ _))
  | .resolve _ _ _ => inferInstanceAs (Decidable (_ ∧ _))
  | .capture _ _ => inferInstanceAs (Decidable (_ ∧ _))
  | .issueLoad _ => inferInstanceAs (Decidable (_ ∧ _))
  | .completeLoad _ _ => inferInstanceAs (Decidable (_ ∧ _))
  | .reportLoad _ => inferInstanceAs (Decidable (_ ∧ _))
  | .popHead => inferInstanceAs (Decidable (_ = _))
  | .popTail => inferInstanceAs (Decidable (_ = _))

/-- The changes in this order, if each of them is allowed where it is made. -/
def LsqOp.runAll : List LsqOp → LSQ → Option LSQ
  | [], q => some q
  | op :: ops, q => if op.Allowed q then runAll ops (op.run q) else none

theorem LsqRun.runAll {size : Nat} (ops : List LsqOp) : ∀ {q q' : LSQ}, LsqRun size q →
    LsqOp.runAll ops q = some q' → LsqRun size q' := by
  induction ops with
  | nil =>
      intro q q' h hs
      cases hs
      exact h
  | cons op ops ih =>
      intro q q' h hs
      unfold LsqOp.runAll at hs
      by_cases ha : op.Allowed q
      · rw [if_pos ha] at hs
        exact ih (h.step op ha) hs
      · rw [if_neg ha] at hs
        cases hs

/-! ## What the sets must say -/

/-- Byte by byte, the access touches the aligned word of `addr`. -/
def LsqEntry.touchesWord (le : LsqEntry) (addr : Word) : Prop :=
  ∃ k < le.size, (le.addr + BitVec.ofNat 32 k) >>> 2 = addr >>> 2

/-- What every question of the core about the LSQ is answered with: exactly the entries that it asks
for, in order of age. -/
structure WorkSetsExact (q : LSQ) : Prop where
  candidates : q.visitCandidates = q.ring.slots.filter fun j => (q.at' j).isCandidate
  updates : q.visitUpdates = q.ring.slots.filter fun j => (q.at' j).isUpdate
  accessed : q.visitAccessedLoads = q.ring.slots.filter fun j => (q.at' j).isAccessed
  /-- From any live slot, newest first. -/
  older : ∀ k < q.ring.n, q.visitOlderStores (q.ring.indexOf k) =
    ((q.ring.slots.take k).filter fun j => (q.at' j).isKnownStore).reverse
  oldestUnknown : q.oldestUnknownStore =
    ((q.ring.slots.filter fun j => (q.at' j).isUnknownStore).map fun j => (q.at' j).seq).min?
  oldestPending : q.oldestPendingLoad =
    ((q.ring.slots.filter fun j => (q.at' j).isPending).map fun j => (q.at' j).seq).min?
  hasPending : q.hasPendingLoads = true ↔ ∃ j ∈ q.ring.slots, (q.at' j).isPending = true
  needsUpdate : q.needsUpdate = true ↔ ∃ j ∈ q.ring.slots, (q.at' j).isUpdate = true
  /-- The word filter never hides a store. -/
  wordFilter : ∀ addr, q.mayStoreToWord addr = false → ∀ j ∈ q.ring.slots,
    (q.at' j).isKnownStore = true → ¬ (q.at' j).touchesWord addr
  /-- The counters stay within the capacity, so they do not wrap upwards either. -/
  counters : q.pendingLoads ≤ q.ring.capacity ∧ q.unreportedLoads ≤ q.ring.capacity ∧
    q.waitingStores ≤ q.ring.capacity ∧ ∀ b, q.storeWords b ≤ q.ring.capacity

/-! ## The invariant of the operations -/

/-- The work sets are exact, and the entries ascend in age from the head. -/
structure LSQ.Ordered (q : LSQ) : Prop where
  wf : q.Wf
  flags : ∀ j ∈ q.ring.slots, (q.at' j).Local
  sorted : (q.ring.slots.map fun j => (q.at' j).seq).Pairwise (· < ·)
  sizes : ∀ j ∈ q.ring.slots, (q.at' j).addrValid = true → 1 ≤ (q.at' j).size ∧ (q.at' j).size ≤ 4

section Ordered

variable {q q' : LSQ}

/-- Rewriting one live entry keeps the order. -/
theorem LSQ.Ordered.set (h : q.Ordered) {slot : Nat} {le : LsqEntry}
    (hring : q'.ring = q.ring.set slot le) (hwf : q'.Wf) (hseq : le.seq = (q.at' slot).seq)
    (hl : le.Local) (hsize : le.addrValid = true → 1 ≤ le.size ∧ le.size ≤ 4) : q'.Ordered := by
  have hslots : q'.ring.slots = q.ring.slots := by rw [hring, Ring.slots_set]
  have hentry : ∀ j, q'.at' j = if j = slot then le else q.at' j := by
    intro j
    rw [LSQ.at', hring, Ring.set_e, Function.update_apply]
    rfl
  have hseqs : ∀ j, (q'.at' j).seq = (q.at' j).seq := by
    intro j
    rw [hentry]
    by_cases hj : j = slot
    · rw [if_pos hj, hseq, hj]
    · rw [if_neg hj]
  refine ⟨hwf, ?_, ?_, ?_⟩
  · rw [hslots]
    intro j hj
    rw [hentry]
    by_cases hjs : j = slot
    · rw [if_pos hjs]
      exact hl
    · rw [if_neg hjs]
      exact h.flags j hj
  · rw [hslots, List.map_congr_left fun j _ => hseqs j]
    exact h.sorted
  · rw [hslots]
    intro j hj
    rw [hentry]
    by_cases hjs : j = slot
    · rw [if_pos hjs]
      exact hsize
    · rw [if_neg hjs]
      exact h.sizes j hj

/-- Taking an end off the ring keeps the order. -/
theorem LSQ.Ordered.sublist (h : q.Ordered) (hwf : q'.Wf) (he : q'.ring.e = q.ring.e)
    (hsub : List.Sublist q'.ring.slots q.ring.slots) : q'.Ordered := by
  have hentry : ∀ j, q'.at' j = q.at' j := fun j => congrFun he j
  refine ⟨hwf, ?_, ?_, ?_⟩
  · intro j hj
    rw [hentry]
    exact h.flags j (hsub.subset hj)
  · rw [List.map_congr_left fun j _ => congrArg LsqEntry.seq (hentry j)]
    exact h.sorted.sublist (hsub.map _)
  · intro j hj
    rw [hentry]
    exact h.sizes j (hsub.subset hj)

theorem LSQ.Ordered.dispatch (h : q.Ordered) (hf : q.ring.full = false) {e : RobEntry}
    (hseq : ∀ j ∈ q.ring.slots, (q.at' j).seq < e.seq) (robIdx ps2 : Nat) (prf : PhysRegFile) :
    (dispatchLsq q e robIdx ps2 prf).Ordered := by
  have hp := pushedLsq h.wf hf e robIdx ps2 prf
  have hmem : ∀ j ∈ (dispatchLsq q e robIdx ps2 prf).ring.slots,
      (j ∈ q.ring.slots ∧ (dispatchLsq q e robIdx ps2 prf).at' j = q.at' j) ∨
        (dispatchLsq q e robIdx ps2 prf).at' j = dispatchedEntry q e robIdx ps2 prf := by
    intro j hj
    rw [hp.slots] at hj
    rcases List.mem_append.mp hj with hj | hj
    · exact Or.inl ⟨hj, hp.old j hj⟩
    · rw [List.mem_singleton.mp hj]
      exact Or.inr hp.new
  refine ⟨hp.wf, ?_, ?_, ?_⟩
  · intro j hj
    rcases hmem j hj with ⟨hj', heq⟩ | heq
    · rw [heq]
      exact h.flags j hj'
    · rw [heq]
      exact ⟨fun _ => ⟨rfl, rfl, rfl⟩, nofun, nofun, nofun⟩
  · rw [hp.slots, List.map_append, List.pairwise_append]
    refine ⟨?_, List.pairwise_singleton _ _, ?_⟩
    · rw [List.map_congr_left fun j hj => congrArg LsqEntry.seq (hp.old j hj)]
      exact h.sorted
    · intro a ha b hb
      obtain ⟨j, hj, rfl⟩ := List.mem_map.mp ha
      have hb' : b = e.seq := by
        rw [List.map_singleton, List.mem_singleton, hp.new] at hb
        exact hb
      rw [hp.old j hj, hb']
      exact hseq j hj
  · intro j hj ha
    rcases hmem j hj with ⟨hj', heq⟩ | heq
    · rw [heq] at ha ⊢
      exact h.sizes j hj' ha
    · rw [heq] at ha
      cases ha

theorem LSQ.Ordered.resolve (h : q.Ordered) {slot : Nat} (hs : slot ∈ q.ring.slots)
    (ha : (q.at' slot).addrValid = false) (addr : Word) {size : Nat} (hsize : 1 ≤ size ∧ size ≤ 4) :
    ((q.setEntry slot { q.at' slot with addr := addr, size := size }).resolveAddress
      slot).Ordered := by
  have hl := h.flags slot hs
  have hidle : (q.at' slot).isStore = false → (q.at' slot).issued = false ∧
      (q.at' slot).done = false := by
    intro _
    refine ⟨?_, ?_⟩
    · rw [← Bool.not_eq_true]
      intro hi
      rw [hl.load_issued hi] at ha
      cases ha
    · rw [← Bool.not_eq_true]
      intro hd
      rw [hl.load_done hd] at ha
      cases ha
  have hring : ((q.setEntry slot { q.at' slot with addr := addr, size := size }).resolveAddress
      slot).ring = q.ring.set slot { q.at' slot with addr := addr, size := size, addrValid := true } := by
    unfold LSQ.resolveAddress
    dsimp only
    split <;> simp [LSQ.setEntry, LSQ.at']
  exact h.set hring (h.wf.resolve hs ha hidle addr size) rfl
    ⟨hl.store, fun _ => rfl, fun _ => rfl, hl.load_reported⟩ fun _ => hsize

theorem LSQ.Ordered.init {size : Nat} (h : (LSQ.init size).Wf) : (LSQ.init size).Ordered := by
  have hnil : (LSQ.init size).ring.slots = [] := Ring.slots_init size
  refine ⟨h, ?_, ?_, ?_⟩
  · rw [hnil]
    exact nofun
  · rw [hnil]
    exact List.Pairwise.nil
  · rw [hnil]
    exact nofun

theorem LSQ.Ordered.run (h : q.Ordered) {op : LsqOp} (ha : op.Allowed q) : (op.run q).Ordered := by
  cases op with
  | dispatch e robIdx ps2 prf => exact h.dispatch ha.1 ha.2 robIdx ps2 prf
  | resolve slot addr size => exact h.resolve ha.1 ha.2.1 addr ha.2.2
  | capture slot v =>
      have hl := h.flags slot ha.1
      have hwf := h.wf.captureStoreData ha.1 ha.2 v
      exact h.set rfl hwf rfl ⟨hl.store, hl.load_issued, hl.load_done, hl.load_reported⟩
        (h.sizes slot ha.1)
  | issueLoad slot =>
      have hl := h.flags slot ha.1
      have hwf := h.wf.issueLoad ha.1 ha.2
      have hc := ha.2
      simp only [LsqEntry.isCandidate, Bool.and_eq_true, Bool.not_eq_true'] at hc
      refine h.set rfl hwf rfl ⟨fun hst => ?_, fun _ => hc.1.1.2, hl.load_done, hl.load_reported⟩
        (h.sizes slot ha.1)
      rw [show (q.at' slot).isStore = true from hst] at hc
      exact absurd hc.1.1.1 (by simp)
  | completeLoad slot v =>
      have hl := h.flags slot ha.1
      -- a candidate or a pending load; either has its address and is not done
      have hload : (q.at' slot).isStore = false ∧ (q.at' slot).done = false ∧
          (q.at' slot).addrValid = true := by
        rcases ha.2 with hc | hp
        · simp only [LsqEntry.isCandidate, Bool.and_eq_true, Bool.not_eq_true'] at hc
          exact ⟨hc.1.1.1, hc.2, hc.1.1.2⟩
        · simp only [LsqEntry.isPending, Bool.and_eq_true, Bool.not_eq_true'] at hp
          exact ⟨hp.1.1, hp.2, hl.load_issued hp.1.2⟩
      -- what is not done has not been reported
      have hrep : (q.at' slot).reported = false := by
        rw [← Bool.not_eq_true]
        intro hr
        rw [hl.load_reported hr] at hload
        exact absurd hload.2.1 (by simp)
      refine h.set rfl (h.wf.completeLoad ha.1 hload.1 hload.2.1 hrep v) rfl
        ⟨fun hst => ?_, hl.load_issued, fun _ => hload.2.2, fun _ => rfl⟩ (h.sizes slot ha.1)
      rw [show (q.at' slot).isStore = true from hst] at hload
      exact absurd hload.1 (by simp)
  | reportLoad slot =>
      have hl := h.flags slot ha.1
      have hu := ha.2
      simp only [LsqEntry.isUnreported, Bool.and_eq_true, Bool.not_eq_true'] at hu
      refine h.set rfl (h.wf.reportLoad ha.1 ha.2) rfl
        ⟨fun hst => ?_, hl.load_issued, hl.load_done, fun _ => hu.1.2⟩ (h.sizes slot ha.1)
      rw [show (q.at' slot).isStore = true from hst] at hu
      exact absurd hu.1.1 (by simp)
  | popHead =>
      have he : q.ring.empty = false := ha
      obtain ⟨rest, hrest⟩ := Ring.slots_eq_cons h.wf.ring he
      have hmem : q.ring.headIdx ∈ q.ring.slots := by
        rw [hrest]
        exact List.mem_cons_self
      refine h.sublist (h.wf.popHead he fun hst => ((h.flags _ hmem).store hst).1) rfl ?_
      show List.Sublist q.ring.popHead.slots q.ring.slots
      rw [Ring.slots_popHead h.wf.ring]
      exact List.tail_sublist _
  | popTail =>
      have hn : q.ring.n ≠ 0 := by
        have he : q.ring.empty = false := ha
        simpa [Ring.empty] using he
      have hmem : q.ring.tailIdx ∈ q.ring.slots := by
        rw [Ring.slots_eq_append hn]
        exact List.mem_append_right _ List.mem_cons_self
      refine h.sublist (h.wf.popTail hn fun hst => ((h.flags _ hmem).store hst).1) rfl ?_
      show List.Sublist q.ring.popTail.slots q.ring.slots
      rw [Ring.slots_eq_append hn]
      exact List.sublist_append_left _ _

end Ordered

/-! ## Visits -/

section Exact

variable {q : LSQ}

/-- A visit of the live entries with a property walks them in age order. -/
theorem LSQ.visit_liveSet (h : q.ring.Wf) (p : LsqEntry → Bool) :
    (q.liveSet p).visit (q.ring.indexOf 0) q.ring.capacity =
      q.ring.slots.filter fun j => p (q.at' j) := by
  rw [Ring.headIdx_eq h, Ring.visit_eq h]
  · apply List.filter_congr
    intro j hj
    rw [LSQ.liveSet, decide_eq_true hj, Bool.true_and]
    rfl
  · intro j hj
    rw [LSQ.liveSet, Bool.and_eq_true, decide_eq_true_eq] at hj
    exact hj.1

/-- In a queue that is in program order the oldest member has the least number. -/
theorem LSQ.Ordered.oldestSeq (h : q.Ordered) (p : LsqEntry → Bool) :
    q.oldestSeq (q.liveSet p) =
      ((q.ring.slots.filter fun j => p (q.at' j)).map fun j => (q.at' j).seq).min? := by
  rw [LSQ.oldestSeq, LSQ.visit_liveSet h.wf.ring, List.min?_eq_head?, List.head?_map]
  refine (h.sorted.sublist (List.filter_sublist.map _)).imp fun hlt => ?_
  exact Nat.min_eq_left (Nat.le_of_lt hlt)

theorem LSQ.liveCount_ne_zero {p : LsqEntry → Bool} :
    q.liveCount p ≠ 0 ↔ ∃ j ∈ q.ring.slots, p (q.at' j) = true := by
  rw [LSQ.liveCount, ← Nat.pos_iff_ne_zero, List.length_pos_iff_exists_mem]
  constructor
  · rintro ⟨j, hj⟩
    exact ⟨j, List.mem_filter.mp hj⟩
  · rintro ⟨j, hj, hp⟩
    exact ⟨j, List.mem_filter.mpr ⟨hj, hp⟩⟩

theorem LSQ.liveCount_le (h : q.ring.Wf) (p : LsqEntry → Bool) : q.liveCount p ≤ q.ring.capacity := by
  have h1 : q.liveCount p ≤ q.ring.slots.length := List.length_filter_le _ _
  rw [Ring.length_slots] at h1
  exact h1.trans h.n_le

/-! ## The word filter -/

/-- The bucket of a byte depends only on its word. -/
theorem wordBucket_congr {a b : Word} (h : a >>> 2 = b >>> 2) : wordBucket a = wordBucket b := by
  rw [wordBucket, wordBucket, h]

/-- An access of at most four bytes touches the word of its first byte and that of its
last byte, and no other; the addresses may wrap. -/
theorem LsqEntry.word_of_byte {le : LsqEntry} (h1 : 1 ≤ le.size) (h4 : le.size ≤ 4) {k : Nat}
    (hk : k < le.size) :
    (le.addr + BitVec.ofNat 32 k) >>> 2 = le.addr >>> 2 ∨
      (le.addr + BitVec.ofNat 32 k) >>> 2 = le.lastByte >>> 2 := by
  have hlast : le.lastByte = le.addr + BitVec.ofNat 32 (le.size - 1) := by
    obtain ⟨n, hn⟩ : ∃ n, le.size = n + 1 := ⟨le.size - 1, by omega⟩
    rw [LsqEntry.lastByte, hn, Nat.add_sub_cancel, BitVec.ofNat_add, ← BitVec.add_assoc]
    simp
  rw [hlast]
  have hlt := le.addr.isLt
  have e1 : ∀ n, n < 4 → ((le.addr + BitVec.ofNat 32 n) >>> 2).toNat =
      ((le.addr.toNat + n) % 2 ^ 32) / 4 := by
    intro n hn
    rw [BitVec.toNat_ushiftRight, BitVec.toNat_add, BitVec.toNat_ofNat, Nat.shiftRight_eq_div_pow,
      Nat.mod_eq_of_lt (show n < 2 ^ 32 by omega)]
  have e0 : (le.addr >>> 2).toNat = le.addr.toNat / 4 := by
    rw [BitVec.toNat_ushiftRight, Nat.shiftRight_eq_div_pow]
  have hcases : ((le.addr.toNat + k) % 2 ^ 32) / 4 = le.addr.toNat / 4 ∨
      ((le.addr.toNat + k) % 2 ^ 32) / 4 = ((le.addr.toNat + (le.size - 1)) % 2 ^ 32) / 4 := by
    omega
  rcases hcases with hc | hc
  · exact Or.inl (BitVec.eq_of_toNat_eq (by rw [e1 k (by omega), e0, hc]))
  · exact Or.inr (BitVec.eq_of_toNat_eq (by rw [e1 k (by omega), e1 _ (by omega), hc]))

/-- A resolved store is counted in the bucket of every word it touches. -/
theorem LsqEntry.wordsIn_pos {le : LsqEntry} (h1 : 1 ≤ le.size) (h4 : le.size ≤ 4)
    (hs : le.isKnownStore = true) {addr : Word} (ht : le.touchesWord addr) :
    1 ≤ le.wordsIn (wordBucket addr) := by
  obtain ⟨k, hk, hw⟩ := ht
  have hs' : (le.isStore && le.addrValid) = true := hs
  rw [LsqEntry.wordsIn, if_pos hs']
  rcases LsqEntry.word_of_byte h1 h4 hk with hb | hb
  · have heq : wordBucket le.addr = wordBucket addr := wordBucket_congr (hb.symm.trans hw)
    rw [if_pos heq]
    omega
  · have heq : wordBucket le.lastByte = wordBucket addr := wordBucket_congr (hb.symm.trans hw)
    by_cases hsame : wordBucket le.addr = wordBucket le.lastByte
    · rw [if_pos (hsame.trans heq)]
      omega
    · have hboth := And.intro hsame heq
      rw [if_pos hboth]
      omega

theorem LSQ.wordsIn_le_wordCount {j : Nat} (hj : j ∈ q.ring.slots) (b : Nat) :
    (q.at' j).wordsIn b ≤ q.wordCount b :=
  List.single_le_sum (fun _ _ => Nat.zero_le _) _ (List.mem_map_of_mem hj)

/-- Each entry is counted at most once in a bucket. -/
theorem LSQ.wordCount_le (h : q.ring.Wf) (b : Nat) : q.wordCount b ≤ q.ring.capacity := by
  have hone : ∀ le : LsqEntry, le.wordsIn b ≤ 1 := by
    intro le
    unfold LsqEntry.wordsIn
    split
    · by_cases h1 : wordBucket le.addr = b
      · have h2 : ¬ (wordBucket le.addr ≠ wordBucket le.lastByte ∧ wordBucket le.lastByte = b) :=
          fun hh => hh.1 (h1.trans hh.2.symm)
        rw [if_pos h1, if_neg h2]
      · rw [if_neg h1]
        split <;> omega
    · omega
  have hsum := List.sum_le_card_nsmul (q.ring.slots.map fun i => (q.ring.e i).wordsIn b) 1 (by
    intro x hx
    obtain ⟨i, -, rfl⟩ := List.mem_map.mp hx
    exact hone _)
  rw [List.length_map, Ring.length_slots, nsmul_eq_mul, Nat.mul_one, Nat.cast_id] at hsum
  exact hsum.trans h.n_le

/-! ## The result -/

theorem LSQ.Ordered.workSetsExact (h : q.Ordered) : WorkSetsExact q := by
  have hwf := h.wf
  exact {
    candidates := by
      rw [LSQ.visitCandidates, hwf.candidates, LSQ.visit_liveSet hwf.ring]
    updates := by
      rw [LSQ.visitUpdates, hwf.updates, LSQ.visit_liveSet hwf.ring]
    accessed := by
      rw [LSQ.visitAccessedLoads, hwf.accessedLoads, LSQ.visit_liveSet hwf.ring]
    older := by
      intro k hk
      rw [LSQ.visitOlderStores, hwf.knownStores, Ring.headIdx_eq hwf.ring,
        Ring.visitOlder_eq hwf.ring _ hk]
      congr 1
      apply List.filter_congr
      intro j hj
      -- the older slots are live, so the set is the filter
      rw [LSQ.liveSet, decide_eq_true (List.mem_of_mem_take hj), Bool.true_and]
      rfl
    oldestUnknown := by
      rw [LSQ.oldestUnknownStore, hwf.unknownStores, h.oldestSeq]
    oldestPending := by
      rw [LSQ.oldestPendingLoad, hwf.pending, h.oldestSeq]
    hasPending := by
      rw [LSQ.hasPendingLoads, bne_iff_ne, hwf.pendingLoads, LSQ.liveCount_ne_zero]
    needsUpdate := by
      rw [LSQ.needsUpdate, Bool.or_eq_true, bne_iff_ne, bne_iff_ne, hwf.unreportedLoads,
        hwf.waitingStores, LSQ.liveCount_ne_zero, LSQ.liveCount_ne_zero]
      constructor
      · rintro (⟨j, hj, hu⟩ | ⟨j, hj, hw⟩)
        · exact ⟨j, hj, by rw [LsqEntry.isUpdate, hu, Bool.true_or]⟩
        · exact ⟨j, hj, by rw [LsqEntry.isUpdate, hw, Bool.or_true]⟩
      · rintro ⟨j, hj, hu⟩
        rw [LsqEntry.isUpdate, Bool.or_eq_true] at hu
        exact hu.imp (fun h1 => ⟨j, hj, h1⟩) fun h2 => ⟨j, hj, h2⟩
    wordFilter := by
      intro addr hno j hj hs ht
      have hav : (q.at' j).addrValid = true := by
        rw [LsqEntry.isKnownStore, Bool.and_eq_true] at hs
        exact hs.2
      obtain ⟨h1, h4⟩ := h.sizes j hj hav
      -- a store that reaches the word is counted there at least once
      have hpos := LsqEntry.wordsIn_pos h1 h4 hs ht
      have hle := LSQ.wordsIn_le_wordCount hj (wordBucket addr)
      rw [LSQ.mayStoreToWord, bne_eq_false_iff_eq, hwf.storeWords] at hno
      omega
    counters := by
      rw [hwf.pendingLoads, hwf.unreportedLoads, hwf.waitingStores, hwf.storeWords]
      exact ⟨LSQ.liveCount_le hwf.ring _, LSQ.liveCount_le hwf.ring _, LSQ.liveCount_le hwf.ring _,
        LSQ.wordCount_le hwf.ring⟩ }

theorem LSQ.Ordered.removeSafe (h : q.Ordered) {slot : Nat} (hs : slot ∈ q.ring.slots) :
    LsqOp.RemoveSafe q slot := by
  have hwf := h.wf
  have hcount : ∀ p : LsqEntry → Bool, p (q.at' slot) = true → 1 ≤ q.liveCount p := by
    intro p hp
    have hle := LSQ.toNat_le_liveCount hs p
    rw [hp] at hle
    exact hle
  have hword : ∀ b, 1 ≤ (q.at' slot).wordsIn b → 1 ≤ q.storeWords b := by
    intro b hb
    rw [hwf.storeWords]
    exact hb.trans (LSQ.wordsIn_le_wordCount hs b)
  refine ⟨fun hk => hword _ ?_, fun hk hne => hword _ ?_, fun hi hd => ?_, fun hu => ?_, fun hw => ?_⟩
  · have hk' : ((q.at' slot).isStore && (q.at' slot).addrValid) = true := hk
    rw [LsqEntry.wordsIn, if_pos hk', if_pos rfl]
    omega
  · have hk' : ((q.at' slot).isStore && (q.at' slot).addrValid) = true := hk
    have hboth := And.intro hne (Eq.refl (wordBucket (q.at' slot).lastByte))
    rw [LsqEntry.wordsIn, if_pos hk', if_pos hboth]
    omega
  · rw [hwf.pendingLoads]
    apply hcount _
    -- an issued entry is a load
    have hst : (q.at' slot).isStore = false := by
      rw [← Bool.not_eq_true]
      intro hst
      rw [((h.flags slot hs).store hst).1] at hi
      cases hi
    rw [LsqEntry.isPending, hst, hi, hd]
    rfl
  · rw [hwf.unreportedLoads]
    exact hcount _ hu
  · rw [hwf.waitingStores]
    exact hcount _ hw

theorem LSQ.Ordered.noUnderflow (h : q.Ordered) {op : LsqOp} (ha : op.Allowed q) :
    op.NoUnderflow q := by
  cases op with
  | dispatch e robIdx ps2 prf => trivial
  | resolve slot addr size => trivial
  | issueLoad slot => trivial
  | capture slot v => exact (h.removeSafe ha.1).waiting ha.2
  | reportLoad slot => exact (h.removeSafe ha.1).unreported ha.2
  | completeLoad slot v =>
      intro hi
      have hd : (q.at' slot).done = false := by
        rcases ha.2 with hc | hp
        · simp only [LsqEntry.isCandidate, Bool.and_eq_true, Bool.not_eq_true'] at hc
          exact hc.2
        · simp only [LsqEntry.isPending, Bool.and_eq_true, Bool.not_eq_true'] at hp
          exact hp.2
      exact (h.removeSafe ha.1).pending hi hd
  | popHead =>
      obtain ⟨rest, hrest⟩ := Ring.slots_eq_cons h.wf.ring ha
      exact h.removeSafe (hrest ▸ List.mem_cons_self)
  | popTail =>
      have hn : q.ring.n ≠ 0 := by
        have he : q.ring.empty = false := ha
        simpa [Ring.empty] using he
      apply h.removeSafe
      rw [Ring.slots_eq_append hn]
      exact List.mem_append_right _ List.mem_cons_self

theorem LsqRun.ordered {size : Nat} (hsize : 1 ≤ size) (h : LsqRun size q) : q.Ordered := by
  induction h with
  | init => exact LSQ.Ordered.init (LSQ.wf_init hsize)
  | step op _ ha ih => exact ih.run ha

/-! ### The queue without slots -/

/-- No change is possible in an LSQ of no entries: it is both empty and full. -/
theorem LsqOp.not_allowed_zero (op : LsqOp) : ¬ op.Allowed (LSQ.init 0) := by
  intro ha
  cases op with
  | dispatch e robIdx ps2 prf => cases ha.1
  | resolve slot addr size => cases ha.1
  | capture slot v => cases ha.1
  | issueLoad slot => cases ha.1
  | completeLoad slot v => cases ha.1
  | reportLoad slot => cases ha.1
  | popHead => cases ha
  | popTail => cases ha

theorem LsqRun.eq_init (h : LsqRun 0 q) : q = LSQ.init 0 := by
  induction h with
  | init => rfl
  | step op _ ha ih =>
      rw [ih] at ha
      exact absurd ha op.not_allowed_zero

theorem workSetsExact_zero : WorkSetsExact (LSQ.init 0) where
  candidates := rfl
  updates := rfl
  accessed := rfl
  older := nofun
  oldestUnknown := rfl
  oldestPending := rfl
  hasPending := ⟨nofun, nofun⟩
  needsUpdate := ⟨nofun, nofun⟩
  wordFilter := nofun
  counters := ⟨Nat.le_refl _, Nat.le_refl _, Nat.le_refl _, fun _ => Nat.le_refl _⟩

/-! ### Every capacity -/

/-- After any sequence of these changes the work sets of the LSQ are exact, and the next change
decrements no counter at zero. -/
theorem LsqRun.exact {size : Nat} (h : LsqRun size q) :
    WorkSetsExact q ∧ ∀ op : LsqOp, op.Allowed q → op.NoUnderflow q := by
  rcases Nat.eq_zero_or_pos size with rfl | hsize
  · rw [h.eq_init]
    exact ⟨workSetsExact_zero, fun op ha => absurd ha op.not_allowed_zero⟩
  · have ho := h.ordered hsize
    exact ⟨ho.workSetsExact, fun _ ha => ho.noUnderflow ha⟩

end Exact

end RvO3
