import RvO3.Core.Lsq
import Mathlib.Algebra.BigOperators.Group.List.Basic

/-!
# The work sets of the LSQ are kept

Each LSQ operation rewrites one entry and adjusts the sets and counters at that slot. One
lemma says when such an adjustment keeps `LSQ.Wf`, one says what taking a slot out of the
ring needs, and each operation is an instance.
-/

set_option autoImplicit false

namespace RvO3

namespace LSQ

variable {q : LSQ}

/-! ## Changing one live entry -/

/-- A function of the entries, after one entry changed. -/
theorem update_comp {α β : Type} (f : α → β) (e : Nat → α) (i : Nat) (v : α) :
    (fun j => f (Function.update e i v j)) = Function.update (fun j => f (e j)) i (f v) := by
  funext j
  by_cases hj : j = i
  · subst hj
    simp
  · simp [hj]

theorem liveSet_set {slot : Nat} (hs : slot ∈ q.ring.slots) (le : LsqEntry)
    (p : LsqEntry → Bool) :
    (q.setEntry slot le).liveSet p = Function.update (q.liveSet p) slot (p le) := by
  funext j
  by_cases hj : j = slot
  · subst hj
    simp [liveSet, setEntry, hs]
  · simp [liveSet, setEntry, hj]

/-- A sum over distinct slots, after the summand changed at one of them. -/
theorem sum_update {l : List Nat} (hl : l.Nodup) {s : Nat} (hs : s ∈ l) (f : Nat → Nat) (v : Nat) :
    (l.map (Function.update f s v)).sum + f s = (l.map f).sum + v := by
  induction l with
  | nil => cases hs
  | cons a l ih =>
      obtain ⟨ha, hl'⟩ := List.nodup_cons.mp hl
      simp only [List.map_cons, List.sum_cons]
      by_cases has : a = s
      · subst has
        have hrest : l.map (Function.update f a v) = l.map f := by
          apply List.map_congr_left
          intro x hx
          exact Function.update_of_ne (fun he : x = a => ha (he ▸ hx)) _ _
        rw [hrest, Function.update_self]
        omega
      · have hs' : s ∈ l := by
          rcases List.mem_cons.mp hs with rfl | h
          · exact absurd rfl has
          · exact h
        have := ih hl' hs'
        rw [Function.update_of_ne has]
        omega

theorem liveCount_eq_sum (q : LSQ) (p : LsqEntry → Bool) :
    q.liveCount p = (q.ring.slots.map fun i => (p (q.ring.e i)).toNat).sum := by
  unfold liveCount
  induction q.ring.slots with
  | nil => rfl
  | cons a l ih =>
      cases hp : p (q.ring.e a) with
      | true => simp [hp, ih]; omega
      | false => simp [hp, ih]

theorem liveCount_set (h : q.ring.Wf) {slot : Nat} (hs : slot ∈ q.ring.slots) (le : LsqEntry)
    (p : LsqEntry → Bool) :
    (q.setEntry slot le).liveCount p + (p (q.at' slot)).toNat = q.liveCount p + (p le).toNat := by
  rw [liveCount_eq_sum, liveCount_eq_sum]
  have := sum_update (Ring.slots_nodup h) hs (fun i => (p (q.ring.e i)).toNat) (p le).toNat
  rw [← update_comp (fun x => (p x).toNat)] at this
  simpa [setEntry, at'] using this

theorem wordCount_set (h : q.ring.Wf) {slot : Nat} (hs : slot ∈ q.ring.slots) (le : LsqEntry)
    (b : Nat) :
    (q.setEntry slot le).wordCount b + (q.at' slot).wordsIn b = q.wordCount b + le.wordsIn b := by
  have := sum_update (Ring.slots_nodup h) hs (fun i => (q.ring.e i).wordsIn b) (le.wordsIn b)
  rw [← update_comp (fun x : LsqEntry => x.wordsIn b)] at this
  simpa [setEntry, wordCount, at'] using this

/-- An operation that rewrites one live entry keeps the invariant when it adjusts each set
at that slot and each counter by the difference. -/
theorem Wf.update (h : q.Wf) {slot : Nat} (hs : slot ∈ q.ring.slots) {le : LsqEntry} {q' : LSQ}
    (hring : q'.ring = q.ring.set slot le)
    (hcand : q'.candidates = Function.update q.candidates slot le.isCandidate)
    (hpend : q'.pending = Function.update q.pending slot le.isPending)
    (hupd : q'.updates = Function.update q.updates slot le.isUpdate)
    (hknown : q'.knownStores = Function.update q.knownStores slot le.isKnownStore)
    (hunk : q'.unknownStores = Function.update q.unknownStores slot le.isUnknownStore)
    (hacc : q'.accessedLoads = Function.update q.accessedLoads slot le.isAccessed)
    (hwords : ∀ b, q'.storeWords b + (q.at' slot).wordsIn b = q.storeWords b + le.wordsIn b)
    (hp : q'.pendingLoads + (q.at' slot).isPending.toNat = q.pendingLoads + le.isPending.toNat)
    (hu : q'.unreportedLoads + (q.at' slot).isUnreported.toNat =
      q.unreportedLoads + le.isUnreported.toNat)
    (hw : q'.waitingStores + (q.at' slot).isWaiting.toNat =
      q.waitingStores + le.isWaiting.toNat) : q'.Wf := by
  -- the sets and counts of the new state are those of the ring with one entry replaced
  have hset : ∀ p, q'.liveSet p = (q.setEntry slot le).liveSet p := by
    intro p
    funext j
    simp only [liveSet, setEntry, hring]
    rfl
  have hcount : ∀ p, q'.liveCount p = (q.setEntry slot le).liveCount p := by
    intro p
    simp only [liveCount, setEntry, hring]
  have hwc : ∀ b, q'.wordCount b = (q.setEntry slot le).wordCount b := by
    intro b
    simp only [wordCount, setEntry, hring]
  constructor
  · rw [hring]
    exact h.ring.set slot le
  · rw [hcand, hset, liveSet_set hs, h.candidates]
  · rw [hpend, hset, liveSet_set hs, h.pending]
  · rw [hupd, hset, liveSet_set hs, h.updates]
  · rw [hknown, hset, liveSet_set hs, h.knownStores]
  · rw [hunk, hset, liveSet_set hs, h.unknownStores]
  · rw [hacc, hset, liveSet_set hs, h.accessedLoads]
  · funext b
    have h1 := hwords b
    -- the counters move by the difference, stated without subtraction
    have h2 := wordCount_set h.ring hs le b
    rw [h.storeWords] at h1
    rw [hwc]
    omega
  · have h2 := liveCount_set h.ring hs le LsqEntry.isPending
    rw [h.pendingLoads] at hp
    rw [hcount]
    omega
  · have h2 := liveCount_set h.ring hs le LsqEntry.isUnreported
    rw [h.unreportedLoads] at hu
    rw [hcount]
    omega
  · have h2 := liveCount_set h.ring hs le LsqEntry.isWaiting
    rw [h.waitingStores] at hw
    rw [hcount]
    omega

/-! ## The sets at one slot -/

theorem liveSet_apply {slot : Nat} (hs : slot ∈ q.ring.slots) (p : LsqEntry → Bool) :
    q.liveSet p slot = p (q.at' slot) := by
  simp [liveSet, hs, at']

/-- A set that already answers `b` at a slot is its own update there. -/
theorem update_same {s : SlotSet} {p : LsqEntry → Bool} {slot : Nat} {b : Bool}
    (hset : s = q.liveSet p) (hs : slot ∈ q.ring.slots) (hb : p (q.at' slot) = b) :
    s = Function.update s slot b := by
  have : s slot = b := by rw [hset, liveSet_apply hs, hb]
  subst this
  simp

/-- A live entry with the property is counted. -/
theorem toNat_le_liveCount {slot : Nat} (hs : slot ∈ q.ring.slots) (p : LsqEntry → Bool) :
    (p (q.at' slot)).toNat ≤ q.liveCount p := by
  cases hp : p (q.at' slot) with
  | false => exact Nat.zero_le _
  | true =>
      have hmem : slot ∈ q.ring.slots.filter fun i => p (q.ring.e i) :=
        List.mem_filter.mpr ⟨hs, hp⟩
      exact List.length_pos_of_mem hmem

/-! ## The operations on a live entry -/

theorem Wf.issueLoad (h : q.Wf) {slot : Nat} (hs : slot ∈ q.ring.slots)
    (hc : (q.at' slot).isCandidate = true) : (q.issueLoad slot).Wf := by
  simp only [LsqEntry.isCandidate, Bool.and_eq_true, Bool.not_eq_true'] at hc
  obtain ⟨⟨⟨hst, hav⟩, his⟩, hd⟩ := hc
  have hnu : (q.at' slot).isUpdate = false := by
    simp [LsqEntry.isUpdate, LsqEntry.isUnreported, LsqEntry.isWaiting, hst, hd]
  refine h.update hs (rfl : _ = q.ring.set slot { q.at' slot with issued := true }) ?_ ?_ ?_ ?_ ?_ ?_ ?_ ?_ ?_ ?_
  · simp [LSQ.issueLoad, SlotSet.reset, LsqEntry.isCandidate]
  · simp [LSQ.issueLoad, SlotSet.set, LsqEntry.isPending, hst, hd]
  · exact update_same h.updates hs (hnu.trans hnu.symm)
  · exact update_same h.knownStores hs rfl
  · exact update_same h.unknownStores hs rfl
  · simp [LSQ.issueLoad, SlotSet.set, LsqEntry.isAccessed, hst]
  · exact fun b => rfl
  · simp [LSQ.issueLoad, LsqEntry.isPending, hst, hd, his]
  · rfl
  · rfl

theorem Wf.completeLoad (h : q.Wf) {slot : Nat} (hs : slot ∈ q.ring.slots)
    (hst : (q.at' slot).isStore = false) (hd : (q.at' slot).done = false)
    (hr : (q.at' slot).reported = false) (v : Word) : (q.completeLoad slot v).Wf := by
  have hle := toNat_le_liveCount hs LsqEntry.isPending
  rw [← h.pendingLoads] at hle
  refine h.update hs (rfl : _ = q.ring.set slot { q.at' slot with value := v, done := true })
    ?_ ?_ ?_ ?_ ?_ ?_ ?_ ?_ ?_ ?_
  · simp [LSQ.completeLoad, SlotSet.reset, LsqEntry.isCandidate]
  · simp [LSQ.completeLoad, SlotSet.reset, LsqEntry.isPending]
  · simp [LSQ.completeLoad, SlotSet.set, LsqEntry.isUpdate, LsqEntry.isUnreported, hst, hr]
  · exact update_same h.knownStores hs rfl
  · exact update_same h.unknownStores hs rfl
  · simp [LSQ.completeLoad, SlotSet.set, LsqEntry.isAccessed, hst]
  · exact fun b => rfl
  · cases hi : (q.at' slot).issued with
    | true =>
        simp [LsqEntry.isPending, hst, hd, hi] at hle
        simp [LSQ.completeLoad, LsqEntry.isPending, hst, hd, hi]
        omega
    | false => simp [LSQ.completeLoad, LsqEntry.isPending, hst, hi]
  · simp [LSQ.completeLoad, LsqEntry.isUnreported, hst, hd, hr]
  · rfl

theorem Wf.reportLoad (h : q.Wf) {slot : Nat} (hs : slot ∈ q.ring.slots)
    (hu : (q.at' slot).isUnreported = true) : (q.reportLoad slot).Wf := by
  have hle := toNat_le_liveCount hs LsqEntry.isUnreported
  rw [← h.unreportedLoads, hu] at hle
  have hst : (q.at' slot).isStore = false := by
    simp only [LsqEntry.isUnreported, Bool.and_eq_true, Bool.not_eq_true'] at hu
    exact hu.1.1
  refine h.update hs (rfl : _ = q.ring.set slot { q.at' slot with reported := true })
    ?_ ?_ ?_ ?_ ?_ ?_ ?_ ?_ ?_ ?_
  · exact update_same h.candidates hs rfl
  · exact update_same h.pending hs rfl
  · simp [LSQ.reportLoad, SlotSet.reset, LsqEntry.isUpdate, LsqEntry.isUnreported,
      LsqEntry.isWaiting, hst]
  · exact update_same h.knownStores hs rfl
  · exact update_same h.unknownStores hs rfl
  · exact update_same h.accessedLoads hs rfl
  · exact fun b => rfl
  · rfl
  · rw [hu]
    simp [LSQ.reportLoad, LsqEntry.isUnreported] at hle ⊢
    omega
  · rfl

theorem Wf.captureStoreData (h : q.Wf) {slot : Nat} (hs : slot ∈ q.ring.slots)
    (hw : (q.at' slot).isWaiting = true) (v : Word) : (q.captureStoreData slot v).Wf := by
  have hle := toNat_le_liveCount hs LsqEntry.isWaiting
  rw [← h.waitingStores, hw] at hle
  have hst : (q.at' slot).isStore = true := by
    simp only [LsqEntry.isWaiting, Bool.and_eq_true] at hw
    exact hw.1
  refine h.update hs (rfl : _ = q.ring.set slot { q.at' slot with data := v, dataReady := true })
    ?_ ?_ ?_ ?_ ?_ ?_ ?_ ?_ ?_ ?_
  · exact update_same h.candidates hs rfl
  · exact update_same h.pending hs rfl
  · simp [LSQ.captureStoreData, SlotSet.reset, LsqEntry.isUpdate, LsqEntry.isUnreported,
      LsqEntry.isWaiting, hst]
  · exact update_same h.knownStores hs rfl
  · exact update_same h.unknownStores hs rfl
  · exact update_same h.accessedLoads hs rfl
  · exact fun b => rfl
  · rfl
  · rfl
  · rw [hw]
    simp [LSQ.captureStoreData, LsqEntry.isWaiting] at hle ⊢
    omega

/-- Counting a resolved store adds one to each word bucket it touches. -/
theorem countWords_apply (words : Nat → Nat) (le : LsqEntry) (h : le.isStore = true)
    (ha : le.addrValid = true) (b : Nat) :
    countWords words le b = words b + le.wordsIn b := by
  have hb : (le.isStore && le.addrValid) = true := by rw [h, ha]; rfl
  unfold countWords LsqEntry.wordsIn
  rw [if_pos hb]
  generalize wordBucket le.addr = x
  generalize wordBucket le.lastByte = y
  by_cases hxy : x = y
  · subst hxy
    by_cases hbx : b = x
    · simp [hbx]
    · simp [hbx, Ne.symm hbx]
  · rw [if_pos hxy]
    by_cases hby : b = y
    · subst hby
      simp [Ne.symm hxy, hxy]
    · by_cases hbx : b = x
      · subst hbx
        simp [hby, Ne.symm hby]
      · simp [hby, hbx, Ne.symm hby, Ne.symm hbx]

/-- Uncounting is the reverse, where the store was counted. -/
theorem uncountWords_apply (words : Nat → Nat) (le : LsqEntry) (h : le.isStore = true)
    (ha : le.addrValid = true) (b : Nat) :
    uncountWords words le b = words b - le.wordsIn b := by
  have hb : (le.isStore && le.addrValid) = true := by rw [h, ha]; rfl
  unfold uncountWords LsqEntry.wordsIn
  rw [if_pos hb]
  generalize wordBucket le.addr = x
  generalize wordBucket le.lastByte = y
  by_cases hxy : x = y
  · subst hxy
    by_cases hbx : b = x
    · simp [hbx]
    · simp [hbx, Ne.symm hbx]
  · rw [if_pos hxy]
    by_cases hby : b = y
    · subst hby
      simp [Ne.symm hxy, hxy]
    · by_cases hbx : b = x
      · subst hbx
        simp [hby, Ne.symm hby]
      · simp [hby, hbx, Ne.symm hby, Ne.symm hbx]

/-- Filling in an address and resolving it. -/
theorem Wf.resolve (h : q.Wf) {slot : Nat} (hs : slot ∈ q.ring.slots)
    (ha : (q.at' slot).addrValid = false)
    (hl : (q.at' slot).isStore = false → (q.at' slot).issued = false ∧ (q.at' slot).done = false)
    (addr : Word) (size : Nat) :
    ((q.setEntry slot { q.at' slot with addr := addr, size := size }).resolveAddress slot).Wf := by
  have hat : (q.setEntry slot { q.at' slot with addr := addr, size := size }).at' slot =
      { q.at' slot with addr := addr, size := size } := by
    simp [setEntry, at']
  -- an entry without an address is counted in no word
  have hw0 : ∀ b, (q.at' slot).wordsIn b = 0 := by
    intro b
    simp [LsqEntry.wordsIn, ha]
  unfold resolveAddress
  rw [hat]
  dsimp only
  -- a store becomes known, and its words are counted; a load becomes a candidate
  by_cases hst : (q.at' slot).isStore = true
  · rw [if_pos hst]
    refine @Wf.update _ h _ hs { q.at' slot with addr := addr, size := size, addrValid := true } _
      ?_ ?_ ?_ ?_ ?_ ?_ ?_ ?_ ?_ ?_ ?_
    · simp [setEntry, Ring.set]
    · exact update_same h.candidates hs (by simp [LsqEntry.isCandidate, hst])
    · exact update_same h.pending hs rfl
    · exact update_same h.updates hs rfl
    · simp [SlotSet.set, LsqEntry.isKnownStore, hst, setEntry]
    · simp [SlotSet.reset, LsqEntry.isUnknownStore, setEntry]
    · exact update_same h.accessedLoads hs rfl
    · intro b
      have := countWords_apply q.storeWords
        { q.at' slot with addr := addr, size := size, addrValid := true } hst rfl b
      rw [hw0]
      exact this
    · rfl
    · rfl
    · rfl
  · rw [if_neg hst]
    have hst' : (q.at' slot).isStore = false := by simpa using hst
    obtain ⟨hi, hd⟩ := hl hst'
    refine @Wf.update _ h _ hs { q.at' slot with addr := addr, size := size, addrValid := true } _
      ?_ ?_ ?_ ?_ ?_ ?_ ?_ ?_ ?_ ?_ ?_
    · simp [setEntry, Ring.set]
    · simp [SlotSet.set, LsqEntry.isCandidate, hst', hi, hd, setEntry]
    · exact update_same h.pending hs rfl
    · exact update_same h.updates hs rfl
    · exact update_same h.knownStores hs (by simp [LsqEntry.isKnownStore, hst'])
    · exact update_same h.unknownStores hs (by simp [LsqEntry.isUnknownStore, hst'])
    · exact update_same h.accessedLoads hs rfl
    · intro b
      rw [hw0]
      show q.storeWords b + 0 = q.storeWords b + LsqEntry.wordsIn _ b
      simp [LsqEntry.wordsIn, hst']
    · rfl
    · rfl
    · rfl

/-! ## Allocation -/

/-- A set of live slots answers no at the slot `alloc` takes. -/
theorem update_fresh (h : q.Wf) (hf : q.ring.full = false) {s : SlotSet} {p : LsqEntry → Bool}
    (hset : s = q.liveSet p) : s = Function.update s q.ring.allocIdx false := by
  have hn := Ring.allocIdx_notMem h.ring hf
  have : s q.ring.allocIdx = false := by
    rw [hset]
    simp [liveSet, hn]
  rw [← this]
  simp

/-- A live slot is not the one `alloc` takes. -/
theorem ne_allocIdx (h : q.Wf) (hf : q.ring.full = false) {j : Nat} (hj : j ∈ q.ring.slots) :
    j ≠ q.ring.allocIdx :=
  fun he => Ring.allocIdx_notMem h.ring hf (he ▸ hj)

theorem map_pushed {α : Type} (h : q.Wf) (hf : q.ring.full = false) (le : LsqEntry)
    (f : LsqEntry → α) :
    (q.ring.slots ++ [q.ring.allocIdx]).map
        (fun i => f (Function.update q.ring.e q.ring.allocIdx le i)) =
      (q.ring.slots.map fun i => f (q.ring.e i)) ++ [f le] := by
  rw [List.map_append]
  congr 1
  · apply List.map_congr_left
    intro j hj
    rw [Function.update_of_ne (ne_allocIdx h hf hj)]
  · simp

/-- An operation that appends one entry keeps the invariant when it adjusts each set at the
new slot and each counter. -/
theorem Wf.pushed (h : q.Wf) (hf : q.ring.full = false) {le : LsqEntry} {q' : LSQ}
    (hring : q'.ring = q.ring.alloc.set q.ring.allocIdx le)
    (hcand : q'.candidates = Function.update q.candidates q.ring.allocIdx le.isCandidate)
    (hpend : q'.pending = Function.update q.pending q.ring.allocIdx le.isPending)
    (hupd : q'.updates = Function.update q.updates q.ring.allocIdx le.isUpdate)
    (hknown : q'.knownStores = Function.update q.knownStores q.ring.allocIdx le.isKnownStore)
    (hunk : q'.unknownStores = Function.update q.unknownStores q.ring.allocIdx le.isUnknownStore)
    (hacc : q'.accessedLoads = Function.update q.accessedLoads q.ring.allocIdx le.isAccessed)
    (hwords : ∀ b, q'.storeWords b = q.storeWords b + le.wordsIn b)
    (hp : q'.pendingLoads = q.pendingLoads + le.isPending.toNat)
    (hu : q'.unreportedLoads = q.unreportedLoads + le.isUnreported.toNat)
    (hw : q'.waitingStores = q.waitingStores + le.isWaiting.toNat) : q'.Wf := by
  have hslots : q'.ring.slots = q.ring.slots ++ [q.ring.allocIdx] := by
    rw [hring, Ring.slots_set, Ring.slots_alloc]
  have he : q'.ring.e = Function.update q.ring.e q.ring.allocIdx le := by
    rw [hring]
    simp
  -- the new slot was not live, so its old bits do not matter
  have hset : ∀ p, q'.liveSet p = Function.update (q.liveSet p) q.ring.allocIdx (p le) := by
    intro p
    funext j
    simp only [liveSet, hslots, he]
    by_cases hj : j = q.ring.allocIdx
    · subst hj
      simp
    · simp [hj, liveSet]
  have hcount : ∀ p, q'.liveCount p = q.liveCount p + (p le).toNat := by
    intro p
    rw [liveCount_eq_sum, liveCount_eq_sum, hslots, he, map_pushed h hf le fun x => (p x).toNat,
      List.sum_append]
    simp
  constructor
  · rw [hring]
    exact (h.ring.alloc hf).set _ _
  · rw [hcand, hset, h.candidates]
  · rw [hpend, hset, h.pending]
  · rw [hupd, hset, h.updates]
  · rw [hknown, hset, h.knownStores]
  · rw [hunk, hset, h.unknownStores]
  · rw [hacc, hset, h.accessedLoads]
  · funext b
    rw [hwords, h.storeWords, wordCount, wordCount, hslots, he,
      map_pushed h hf le fun x => x.wordsIn b, List.sum_append]
    simp
  · rw [hp, hcount, h.pendingLoads]
  · rw [hu, hcount, h.unreportedLoads]
  · rw [hw, hcount, h.waitingStores]

/-! ## Removal -/

/-- `remove` and a pop of the same slot keep the invariant. -/
theorem Wf.removed (h : q.Wf) {slot : Nat} {r : Ring LsqEntry} (hr : r.Wf)
    (he : r.e = q.ring.e) (hsl : q.ring.slots.Perm (slot :: r.slots))
    (hst : (q.at' slot).isStore = true → (q.at' slot).issued = false) :
    ({ q.remove slot with ring := r } : LSQ).Wf := by
  have hnot : slot ∉ r.slots := (List.nodup_cons.mp (hsl.nodup (Ring.slots_nodup h.ring))).1
  have hmem : ∀ j, j ≠ slot → (j ∈ q.ring.slots ↔ j ∈ r.slots) := by
    intro j hj
    rw [hsl.mem_iff, List.mem_cons]
    exact ⟨fun hh => hh.resolve_left hj, Or.inr⟩
  -- what is left is live in the same way, and the slot itself no longer is
  have hset : ∀ (s : SlotSet) (p : LsqEntry → Bool), s = q.liveSet p →
      s.reset slot = ({ q.remove slot with ring := r } : LSQ).liveSet p := by
    intro s p hsp
    funext j
    rw [SlotSet.reset_apply, hsp]
    by_cases hj : j = slot
    · subst hj
      simp [liveSet, hnot]
    · simp [liveSet, hj, hmem j hj, he]
  have hcount : ∀ p : LsqEntry → Bool, q.liveCount p =
      ({ q.remove slot with ring := r } : LSQ).liveCount p + (p (q.at' slot)).toNat := by
    intro p
    rw [liveCount_eq_sum, liveCount_eq_sum, (hsl.map _).sum_eq]
    simp [he, at']
    omega
  have hword : ∀ b, q.wordCount b =
      ({ q.remove slot with ring := r } : LSQ).wordCount b + (q.at' slot).wordsIn b := by
    intro b
    simp only [wordCount, (hsl.map _).sum_eq]
    simp [he, at']
    omega
  constructor
  · exact hr
  · exact hset _ _ h.candidates
  · exact hset _ _ h.pending
  · exact hset _ _ h.updates
  · exact hset _ _ h.knownStores
  · exact hset _ _ h.unknownStores
  · exact hset _ _ h.accessedLoads
  · funext b
    have hb := hword b
    rw [← h.storeWords] at hb
    show (if (q.at' slot).isStore && (q.at' slot).addrValid then
      uncountWords q.storeWords (q.at' slot) else q.storeWords) b = _
    by_cases hc : ((q.at' slot).isStore && (q.at' slot).addrValid) = true
    · rw [if_pos hc]
      simp only [Bool.and_eq_true] at hc
      -- the store's words were counted, so the subtraction does not truncate
      rw [uncountWords_apply _ _ hc.1 hc.2]
      omega
    · rw [if_neg hc]
      have h0 : (q.at' slot).wordsIn b = 0 := if_neg hc
      omega
  · have hb := hcount LsqEntry.isPending
    rw [← h.pendingLoads] at hb
    -- the code tests `issued` alone: a store here has not been issued
    have hp : (q.at' slot).isPending = ((q.at' slot).issued && !(q.at' slot).done) := by
      cases hs : (q.at' slot).isStore with
      | true => simp [LsqEntry.isPending, hs, hst hs]
      | false => simp [LsqEntry.isPending, hs]
    rw [hp] at hb
    show (if (q.at' slot).issued && !(q.at' slot).done then q.pendingLoads - 1
      else q.pendingLoads) = _
    cases hc : (q.at' slot).issued && !(q.at' slot).done <;> simp [hc] at hb ⊢ <;> omega
  · have hb := hcount LsqEntry.isUnreported
    rw [← h.unreportedLoads] at hb
    show (if (q.at' slot).isUnreported then q.unreportedLoads - 1 else q.unreportedLoads) = _
    cases hc : (q.at' slot).isUnreported <;> simp [hc] at hb ⊢ <;> omega
  · have hb := hcount LsqEntry.isWaiting
    rw [← h.waitingStores] at hb
    show (if (q.at' slot).isWaiting then q.waitingStores - 1 else q.waitingStores) = _
    cases hc : (q.at' slot).isWaiting <;> simp [hc] at hb ⊢ <;> omega

theorem Wf.popHead (h : q.Wf) (he : q.ring.empty = false)
    (hst : (q.at' q.ring.headIdx).isStore = true → (q.at' q.ring.headIdx).issued = false) :
    q.popHead.Wf := by
  obtain ⟨rest, hrest⟩ := Ring.slots_eq_cons h.ring he
  refine h.removed h.ring.popHead rfl ?_ hst
  show q.ring.slots.Perm (q.ring.headIdx :: q.ring.popHead.slots)
  rw [Ring.slots_popHead h.ring, hrest]
  exact List.Perm.refl _

theorem Wf.popTail (h : q.Wf) (hn : q.ring.n ≠ 0)
    (hst : (q.at' q.ring.tailIdx).isStore = true → (q.at' q.ring.tailIdx).issued = false) :
    q.popTail.Wf := by
  refine h.removed h.ring.popTail rfl ?_ hst
  show q.ring.slots.Perm (q.ring.tailIdx :: q.ring.popTail.slots)
  rw [Ring.slots_eq_append hn]
  exact List.perm_append_singleton _ _

@[simp] theorem popHead_ring (q : LSQ) : q.popHead.ring = q.ring.popHead := rfl

@[simp] theorem popTail_ring (q : LSQ) : q.popTail.ring = q.ring.popTail := rfl

end LSQ

end RvO3
