import RvO3.Core.Inv
import RvO3.Lib.Lists

/-!
# The back-end invariant under LSQ operations

One lemma for the change of one live LSQ entry, and from it the actions of the memory
engine: a load completes, is sent or is reported, a store captures its data.
-/

set_option autoImplicit false

namespace RvO3

open OoOCore

/-! ## Changing one live LSQ entry -/

section Change

variable {r : Ring RobEntry} {q q' : LSQ} {j : Nat} {le : LsqEntry}

theorem lsqAt_change (hring : q'.ring = q.ring.set j le) (i : Nat) :
    q'.at' i = if i = j then le else q.at' i := by
  unfold LSQ.at'
  rw [hring, Ring.set_e, Function.update_apply]

theorem lsqAt_self (hring : q'.ring = q.ring.set j le) : q'.at' j = le := by
  rw [lsqAt_change hring, if_pos rfl]

theorem lsqAt_ne (hring : q'.ring = q.ring.set j le) {i : Nat} (hi : i ≠ j) :
    q'.at' i = q.at' i := by
  rw [lsqAt_change hring, if_neg hi]

theorem lsqRob_change (hring : q'.ring = q.ring.set j le)
    (hrob : le.robIdx = (q.at' j).robIdx) : lsqRob q' = lsqRob q := by
  funext i
  unfold lsqRob
  by_cases hi : i = j
  · subst hi
    rw [lsqAt_self hring, hrob]
  · rw [lsqAt_ne hring hi]

/-- An entry may change in place when it keeps its ROB index and still matches its ROB entry. -/
theorem LsqOk.change (h : LsqOk r q) (hring : q'.ring = q.ring.set j le) (hwf : q'.Wf)
    (hrob : le.robIdx = (q.at' j).robIdx) (hm : LsqMatch (r.e (lsqRob q j)) le)
    (hl : le.Local) : LsqOk r q' := by
  have hslots : q'.ring.slots = q.ring.slots := by rw [hring, Ring.slots_set]
  have hrobs := lsqRob_change hring hrob
  refine ⟨hwf, ?_, ?_, ?_⟩
  · rw [hslots, hrobs]
    exact h.slots
  · rw [hslots, hrobs]
    intro i hi
    by_cases hij : i = j
    · subst hij
      rw [lsqAt_self hring]
      exact hm
    · rw [lsqAt_ne hring hij]
      exact h.agrees i hi
  · rw [hslots]
    intro i hi
    by_cases hij : i = j
    · subst hij
      rw [lsqAt_self hring]
      exact hl
    · rw [lsqAt_ne hring hij]
      exact h.flags i hi

/-- A name of an unresolved entry survives unless that entry is the one resolved. -/
theorem LsqNames.change {robIdx i : Nat} (h : LsqNames q robIdx i)
    (hring : q'.ring = q.ring.set j le) (hrob : le.robIdx = (q.at' j).robIdx)
    (ha : i = j → le.addrValid = (q.at' j).addrValid) : LsqNames q' robIdx i := by
  refine ⟨?_, ?_, ?_⟩
  · rw [hring, Ring.slots_set]
    exact h.live
  · rw [lsqRob_change hring hrob]
    exact h.robIdx
  · by_cases hij : i = j
    · rw [lsqAt_change hring, if_pos hij, ha hij, ← hij]
      exact h.unresolved
    · rw [lsqAt_ne hring hij]
      exact h.unresolved

theorem IqOk.change {iq : IssueQueue} (h : IqOk r q iq) (hring : q'.ring = q.ring.set j le)
    (hrob : le.robIdx = (q.at' j).robIdx)
    (ha : ∀ s, iq.occupied s = true → (r.e s).isMem = true → (iq.e s).lsqIdx = j →
      le.addrValid = (q.at' j).addrValid) : IqOk r q' iq := by
  refine ⟨h.wf, h.robSize, ?_⟩
  intro s ho
  have hn := h.names s ho
  exact { hn with lsq := fun hm => (hn.lsq hm).change hring hrob (ha s ho hm) }

theorem AgusOk.change {us : List FuUnit} (h : AgusOk r q us) (hring : q'.ring = q.ring.set j le)
    (hrob : le.robIdx = (q.at' j).robIdx)
    (ha : ∀ u ∈ us, ∀ op ∈ u.ops, op.lsqIdx = j → le.addrValid = (q.at' j).addrValid) :
    AgusOk r q' us :=
  ⟨h.wf, fun u hu op hop =>
    ⟨(h.names u hu op hop).1, (h.names u hu op hop).2.change hring hrob (ha u hu op hop)⟩⟩

theorem LoadsOk.change {outs : List FuOp} (h : LoadsOk r q outs)
    (hring : q'.ring = q.ring.set j le) (hrob : le.robIdx = (q.at' j).robIdx)
    (hrep : (q.at' j).reported = true → le.reported = true ∧ le.value = (q.at' j).value) :
    LoadsOk r q' outs := by
  intro op hop hv
  have hn := h op hop hv
  obtain ⟨i, hi, hri, hrp, hva⟩ := hn.lsq
  refine ⟨hn.names, hn.load, i, ?_, ?_, ?_⟩
  · rw [hring, Ring.slots_set]
    exact hi
  · rw [lsqRob_change hring hrob]
    exact hri
  · by_cases hij : i = j
    · subst hij
      rw [lsqAt_self hring]
      exact ⟨(hrep hrp).1, (hrep hrp).2.trans hva⟩
    · rw [lsqAt_ne hring hij]
      exact ⟨hrp, hva⟩

/-- The tally of the LSQ moves by the entry that changed. -/
theorem lsqHeld_change (hwf : q.Wf) (hj : j ∈ q.ring.slots) (hring : q'.ring = q.ring.set j le)
    (hseq : le.seq = (q.at' j).seq) :
    lsqHeld q' + single (q.at' j).holds (q.at' j).seq =
      lsqHeld q + single le.holds (q.at' j).seq := by
  have hslots : q'.ring.slots = q.ring.slots := by rw [hring, Ring.slots_set]
  unfold lsqHeld
  rw [hslots]
  have := tally_change (Ring.slots_nodup hwf.ring) hj (p := fun i => (q.at' i).holds)
    (q := fun i => (q'.at' i).holds) (f := fun i => (q.at' i).seq)
    (g := fun i => (q'.at' i).seq) ?_
  · rw [this, lsqAt_self hring, hseq]
  · intro i _ hij
    rw [lsqAt_ne hring hij]
    exact ⟨rfl, rfl⟩

/-- Nothing moves when the entry holds its instruction before and after. -/
theorem lsqHeld_same (hwf : q.Wf) (hj : j ∈ q.ring.slots) (hring : q'.ring = q.ring.set j le)
    (hseq : le.seq = (q.at' j).seq) (hh : le.holds = (q.at' j).holds) :
    lsqHeld q' = lsqHeld q := by
  have := lsqHeld_change hwf hj hring hseq
  rw [hh] at this
  exact add_right_cancel this

end Change

/-! ## Slots and indices -/

section Names

variable {r : Ring RobEntry} {q : LSQ} {seqCtr : Nat}

/-- The ROB entry of an LSQ slot is live and a memory operation. -/
theorem LsqOk.rob_mem (h : LsqOk r q) {j : Nat} (hj : j ∈ q.ring.slots) :
    lsqRob q j ∈ r.slots ∧ (r.e (lsqRob q j)).isMem = true := by
  have hmem : lsqRob q j ∈ q.ring.slots.map (lsqRob q) := List.mem_map_of_mem hj
  rw [h.slots] at hmem
  exact List.mem_filter.mp hmem

theorem LsqOk.seq_eq (h : LsqOk r q) {j : Nat} (hj : j ∈ q.ring.slots) :
    (q.at' j).seq = robSeq r (lsqRob q j) := (h.agrees j hj).seq

/-- Distinct slots belong to distinct ROB entries. -/
theorem LsqOk.rob_inj (h : LsqOk r q) (hr : r.Wf) {i j : Nat} (hi : i ∈ q.ring.slots)
    (hj : j ∈ q.ring.slots) (he : lsqRob q i = lsqRob q j) : i = j := by
  have hnd : (q.ring.slots.map (lsqRob q)).Nodup := by
    rw [h.slots]
    exact (Ring.slots_nodup hr).filter _
  exact List.inj_on_of_nodup_map hnd hi hj he

end Names

/-! ## The memory engine -/

section Engine

variable {M : Type} {c : OoOCore M} {j : Nat}

/-- A load completes: a cache reply, a forward, or a faulted load's zero. -/
theorem BackOk.completeLoad (h : BackOk c) (hj : j ∈ c.lsq.ring.slots)
    (hst : (c.lsq.at' j).isStore = false) (ha : (c.lsq.at' j).addrValid = true)
    (hd : (c.lsq.at' j).done = false) (v : Word) :
    BackOk { c with lsq := c.lsq.completeLoad j v } := by
  have hfl := h.lsq.flags j hj
  have hag := h.lsq.agrees j hj
  have hrep : (c.lsq.at' j).reported = false := by
    cases hr : (c.lsq.at' j).reported with
    | false => rfl
    | true => rw [hfl.load_reported hr] at hd; cases hd
  have hwf := h.lsq.wf.completeLoad hj hst hd hrep v
  have hring : (c.lsq.completeLoad j v).ring =
      c.lsq.ring.set j { c.lsq.at' j with value := v, done := true } := rfl
  -- it held its instruction as a candidate or as pending, and now as unreported
  have hheld : lsqHeld (c.lsq.completeLoad j v) = lsqHeld c.lsq := by
    apply lsqHeld_same h.lsq.wf hj hring rfl
    cases hi : (c.lsq.at' j).issued <;>
      simp [LsqEntry.holds, LsqEntry.isCandidate, LsqEntry.isPending, LsqEntry.isUnreported, hst,
        ha, hd, hi, hrep]
  refine { h with lsq := ?_, iq := ?_, agus := ?_, loads := ?_, held := ?_ }
  · refine h.lsq.change hring hwf rfl { hag with store_done := ?_ } ⟨?_, ?_, ?_, ?_⟩
    · intro hs
      rw [show (c.lsq.at' j).isStore = true from hs] at hst
      cases hst
    · intro hs
      rw [show (c.lsq.at' j).isStore = true from hs] at hst
      cases hst
    · exact fun _ => ha
    · exact fun _ => ha
    · exact fun _ => rfl
  · exact h.iq.change hring rfl fun _ _ _ _ => rfl
  · exact h.agus.change hring rfl fun _ _ _ _ _ => rfl
  · apply h.loads.change hring rfl
    intro hr
    rw [hrep] at hr
    cases hr
  · have := h.held
    unfold Held heldBy at this ⊢
    rw [hheld]
    exact this

/-- Completing a candidate by forwarding keeps the back end's invariant. -/
theorem BackOk.completeCandidate (h : BackOk c) (hc : c.lsq.candidates j = true) (v : Word) :
    BackOk { c with lsq := c.lsq.completeLoad j v } := by
  rw [h.lsq.wf.candidates] at hc
  simp only [LSQ.liveSet, Bool.and_eq_true, decide_eq_true_eq, LsqEntry.isCandidate,
    Bool.not_eq_true'] at hc
  obtain ⟨hj, ⟨⟨hst, ha⟩, -⟩, hd⟩ := hc
  exact h.completeLoad hj hst ha hd v

/-- A load is sent to the cache. -/
theorem BackOk.issueLoad (h : BackOk c) (hc : c.lsq.candidates j = true) :
    BackOk { c with lsq := c.lsq.issueLoad j } := by
  rw [h.lsq.wf.candidates] at hc
  simp only [LSQ.liveSet, Bool.and_eq_true, decide_eq_true_eq] at hc
  obtain ⟨hj, hcand⟩ := hc
  have hwf := h.lsq.wf.issueLoad hj hcand
  have hag := h.lsq.agrees j hj
  have hfl := h.lsq.flags j hj
  have hcand' : (c.lsq.at' j).isCandidate = true := hcand
  simp only [LsqEntry.isCandidate, Bool.and_eq_true, Bool.not_eq_true'] at hcand'
  obtain ⟨⟨⟨hst, ha⟩, his⟩, hd⟩ := hcand'
  have hring : (c.lsq.issueLoad j).ring =
      c.lsq.ring.set j { c.lsq.at' j with issued := true } := rfl
  have hheld : lsqHeld (c.lsq.issueLoad j) = lsqHeld c.lsq := by
    apply lsqHeld_same h.lsq.wf hj hring rfl
    simp [LsqEntry.holds, LsqEntry.isCandidate, LsqEntry.isPending, hst, ha, hd, his]
  refine { h with lsq := ?_, iq := ?_, agus := ?_, loads := ?_, held := ?_ }
  · refine h.lsq.change hring hwf rfl { hag with } ⟨?_, ?_, ?_, ?_⟩
    · intro hs
      rw [show (c.lsq.at' j).isStore = true from hs] at hst
      cases hst
    · exact fun _ => ha
    · exact hfl.load_done
    · exact hfl.load_reported
  · exact h.iq.change hring rfl fun _ _ _ _ => rfl
  · exact h.agus.change hring rfl fun _ _ _ _ _ => rfl
  · exact h.loads.change hring rfl fun hr => ⟨hr, rfl⟩
  · have := h.held
    unfold Held heldBy at this ⊢
    rw [hheld]
    exact this

/-! ### A store captures its data -/

/-- A label that one container and the unfinished entries lose together. -/
theorem Held.drop_lsq {r r' : Ring RobEntry} {q q' : LSQ} {iq : IssueQueue}
    {us agus : List FuUnit} {outs : List FuOp} (h : Held r q iq us agus outs)
    {s : Multiset Nat} (hq : lsqHeld q' + s = lsqHeld q) (hr : unfinished r' + s = unfinished r) :
    Held r' q' iq us agus outs := by
  unfold Held heldBy at h ⊢
  rw [← hq, ← hr, ← add_assoc] at h
  exact add_right_cancel h

/-- Capturing a store's data keeps the back end's invariant. -/
theorem BackOk.captureStore (h : BackOk c) (hj : j ∈ c.lsq.ring.slots) :
    BackOk (c.captureStore j) := by
  unfold OoOCore.captureStore
  dsimp only
  split
  · rename_i hcond
    simp only [Bool.and_eq_true, Bool.not_eq_true'] at hcond
    obtain ⟨⟨hst, hdr⟩, -⟩ := hcond
    have hag := h.lsq.agrees j hj
    have hfl := h.lsq.flags j hj
    obtain ⟨hlive, hmem⟩ := h.lsq.rob_mem hj
    generalize c.prf.val (c.lsq.at' j).dataPreg = v
    have hwf := h.lsq.wf.captureStoreData hj (v := v) (by simp [LsqEntry.isWaiting, hst, hdr])
    have hring : (c.lsq.captureStoreData j v).ring =
        c.lsq.ring.set j { c.lsq.at' j with data := v, dataReady := true } := rfl
    have hmove := lsqHeld_change h.lsq.wf hj hring rfl
    obtain ⟨h1, h2, h3⟩ := hfl.store hst
    -- with its data the store holds nothing; before, it did if its address was known
    have hnew : ({ c.lsq.at' j with data := v, dataReady := true } : LsqEntry).holds = false := by
      simp [LsqEntry.holds, LsqEntry.isCandidate, LsqEntry.isPending, LsqEntry.isUnreported,
        LsqEntry.isWaiting, hst]
    have hold : (c.lsq.at' j).holds = (c.lsq.at' j).addrValid := by
      simp [LsqEntry.holds, LsqEntry.isCandidate, LsqEntry.isPending, LsqEntry.isUnreported,
        LsqEntry.isWaiting, hst, hdr]
    rw [hnew, hold, single_false, add_zero] at hmove
    -- a store without data cannot have been done
    have hnd : (c.rob.e (lsqRob c.lsq j)).done = false := by
      cases hd : (c.rob.e (lsqRob c.lsq j)).done with
      | false => rfl
      | true =>
          have := (hag.store_done hst hd).2
          rw [hdr] at this
          cases this
    have hq : LsqOk c.rob (c.lsq.captureStoreData j v) := by
      refine h.lsq.change hring hwf rfl { hag with store_done := fun _ hd => ?_ } { hfl with }
      rw [hnd] at hd
      cases hd
    have hiq : IqOk c.rob (c.lsq.captureStoreData j v) c.iq := h.iq.change hring rfl fun _ _ _ _ => rfl
    have hau : AgusOk c.rob (c.lsq.captureStoreData j v) c.agus := h.agus.change hring rfl
      fun _ _ _ _ _ => rfl
    have hlo : LoadsOk c.rob (c.lsq.captureStoreData j v) c.loadOuts := h.loads.change hring rfl
      fun hr => ⟨hr, rfl⟩
    -- with the address known the instruction is done; without it, it moves on when it drains
    by_cases ha : (c.lsq.at' j).addrValid = true
    · rw [if_pos ha]
      have hsame : SameStatic c.rob (c.rob.set (lsqRob c.lsq j)
          { c.rob.e (lsqRob c.lsq j) with done := true }) := SameStatic.set rfl
      have hrob := unfinished_set h.rob.wf (e := { c.rob.e (lsqRob c.lsq j) with done := true })
        hlive rfl
      rw [hnd] at hrob
      simp only [Bool.not_false, single_true, Bool.not_true, single_false, add_zero] at hrob
      rw [ha, single_true, hag.seq] at hmove
      exact {
        rob := h.rob.set rfl fun _ => rfl
        lsq := hq.set rfl fun i hi hij _ => by
          have hij : i = j := by
            rw [lsqRob_change hring rfl] at hij
            rw [hring, Ring.slots_set] at hi
            exact h.lsq.rob_inj h.rob.wf hi hj hij
          subst hij
          rw [lsqAt_self hring]
          refine ⟨fun _ => ⟨ha, rfl⟩, fun hl => ?_⟩
          rw [show (c.lsq.at' i).isStore = false from hl] at hst
          cases hst
        iq := hiq.same hsame
        units := h.units.same hsame
        agus := hau.same hsame
        loads := hlo.same hsame
        ready := h.ready
        held := h.held.drop_lsq hmove hrob }
    · rw [if_neg ha]
      rw [show (c.lsq.at' j).addrValid = false by simpa using ha, single_false, add_zero] at hmove
      refine { h with lsq := hq, iq := hiq, agus := hau, loads := hlo, held := ?_ }
      exact h.held.drop_lsq (s := 0) (by rw [add_zero]; exact hmove) (by rw [add_zero]; rfl)
  · exact h

/-! ### A completed load is reported -/

theorem nextOutput_spec {outs : List FuOp} {k : Nat} (hk : k ≤ outs.length) :
    nextOutput outs k ≤ outs.length ∧
      (nextOutput outs k ≠ outs.length →
        ∃ op, outs[nextOutput outs k]? = some op ∧ op.valid = false) := by
  unfold nextOutput
  have hlen : ((outs.drop k).takeWhile (·.valid)).length ≤ (outs.drop k).length :=
    (List.takeWhile_sublist _).length_le
  rw [List.length_drop] at hlen
  refine ⟨by omega, fun hne => ?_⟩
  obtain ⟨op, hop, hv⟩ := getElem?_length_takeWhile (fun op : FuOp => op.valid)
    (l := outs.drop k) (by rw [List.length_drop]; omega)
  rw [List.getElem?_drop] at hop
  exact ⟨op, hop, hv⟩

/-- A label moves from the LSQ to the load outputs. -/
theorem Held.lsq_to_outs {r : Ring RobEntry} {q q' : LSQ} {iq : IssueQueue}
    {us agus : List FuUnit} {outs outs' : List FuOp} (h : Held r q iq us agus outs)
    {s : Multiset Nat} (hq : lsqHeld q' + s = lsqHeld q) (ho : outsHeld outs' = outsHeld outs + s) :
    Held r q' iq us agus outs' := by
  unfold Held heldBy at h ⊢
  rw [← h, ho, ← hq]
  abel

/-- A load that is surfaced passes from the LSQ to an empty output, and waits for writeback there.
-/
theorem BackOk.surfaceLoad (h : BackOk c) (hj : j ∈ c.lsq.ring.slots) {k : Nat}
    (hk : k ≤ c.loadOuts.length) : BackOk (c.surfaceLoad j k).1 := by
  unfold OoOCore.surfaceLoad
  dsimp only
  split
  · rename_i hcond
    have hun : (c.lsq.at' j).isUnreported = true := hcond
    simp only [Bool.and_eq_true, Bool.not_eq_true'] at hcond
    obtain ⟨⟨hst, hd⟩, hrp⟩ := hcond
    obtain ⟨-, hslot⟩ := nextOutput_spec hk
    split
    · exact h
    · rename_i hne
      -- the output that takes the result is free
      obtain ⟨old, hold, hinv⟩ := hslot hne
      generalize nextOutput c.loadOuts k = n at hold
      have hag := h.lsq.agrees j hj
      have hfl := h.lsq.flags j hj
      obtain ⟨hlive, hmem⟩ := h.lsq.rob_mem hj
      have hwf := h.lsq.wf.reportLoad hj hun
      have hring : (c.lsq.reportLoad j).ring =
          c.lsq.ring.set j { c.lsq.at' j with reported := true } := rfl
      have hmove := lsqHeld_change h.lsq.wf hj hring rfl
      have hnew : ({ c.lsq.at' j with reported := true } : LsqEntry).holds = false := by
        simp [LsqEntry.holds, LsqEntry.isCandidate, LsqEntry.isPending, LsqEntry.isUnreported,
          LsqEntry.isWaiting, hst, hd]
      have hol : (c.lsq.at' j).holds = true := by
        simp [LsqEntry.holds, hun]
      -- the instruction moves from the LSQ to the output
      rw [hnew, hol, single_false, single_true, add_zero] at hmove
      have hlt : n < c.loadOuts.length := (List.getElem?_eq_some_iff.mp hold).1
      have houts := bag_set (fun op : FuOp => single op.valid op.seq) hold
        { (c.loadOuts[n]?.getD {}) with
          valid := true, seq := (c.lsq.at' j).seq, robIdx := (c.lsq.at' j).robIdx,
          pdst := (c.lsq.at' j).pdst, value := (c.lsq.at' j).value }
      rw [hinv, single_false, add_zero, single_true] at houts
      -- an entry that is no store belongs to a load
      have hload : isLoad (c.rob.e (lsqRob c.lsq j)).ins.op = true := by
        have h1 := (h.rob.consistent _ hlive).isMem
        rw [hmem] at h1
        have h2 : isStore (c.rob.e (lsqRob c.lsq j)).ins.op = false := by
          rw [← hag.isStore]
          exact hst
        simpa [isMemOp, h2] using h1.symm
      refine { h with lsq := ?_, iq := ?_, agus := ?_, loads := ?_, ready := ?_, held := ?_ }
      · exact h.lsq.change hring hwf rfl { hag with load_done := fun _ _ => rfl }
          { hfl with
            store := fun hs => by
              rw [show (c.lsq.at' j).isStore = true from hs] at hst
              cases hst
            load_reported := fun _ => hd }
      · exact h.iq.change hring rfl fun _ _ _ _ => rfl
      · exact h.agus.change hring rfl fun _ _ _ _ _ => rfl
      · have hlo : LoadsOk c.rob (c.lsq.reportLoad j) c.loadOuts := h.loads.change hring rfl fun _ => ⟨rfl, rfl⟩
        intro op hop hv
        rcases List.mem_or_eq_of_mem_set hop with hop | rfl
        · exact hlo op hop hv
        · exact {
            names := ⟨hlive, hag.seq.symm, hag.pdst.symm⟩
            load := hload
            lsq := ⟨j, by rw [hring, Ring.slots_set]; exact hj,
              congrFun (lsqRob_change hring rfl) j, by rw [lsqAt_self hring],
              by rw [lsqAt_self hring]⟩ }
      · -- a free output is not in the list of results
        have hnot : OutSlot.load n ∉ c.wbReady := by
          rw [h.ready.mem_load, hold]
          simp [hinv]
        refine ⟨?_, ?_, ?_⟩
        · rw [List.nodup_append]
          refine ⟨h.ready.nodup, List.nodup_singleton _, ?_⟩
          intro a ha b hb hab
          rw [List.mem_singleton] at hb
          subst hb
          subst hab
          exact hnot ha
        · intro i
          rw [← h.ready.mem_unit i]
          simp
        · intro i
          rw [List.mem_append, List.mem_singleton, h.ready.mem_load i]
          by_cases hin : i = n
          · subst hin
            simp [hlt]
          · simp [Ne.symm hin, hin]
      · exact h.held.lsq_to_outs hmove houts
  · exact h

/-! ### Responses and sends -/

/-- A response keeps the back end's invariant: it completes a pending load, or marks a store
acknowledged. -/
theorem BackOk.dataResponse (h : BackOk c) (r : MemResponse Nat) :
    BackOk (c.dataResponse r) := by
  unfold OoOCore.dataResponse
  split
  · exact { h with }
  · unfold loadReply
    dsimp only
    split
    · rename_i hcond
      obtain ⟨hlive, hst, his, hd, -⟩ := hcond
      have hj := (Ring.live_iff h.lsq.wf.ring).mp hlive
      exact h.completeLoad hj (by simpa using hst) ((h.lsq.flags _ hj).load_issued his)
        (by simpa using hd) _
    · exact h

variable [MemPorts Nat M]

/-- Sending a candidate keeps the back end's invariant. -/
theorem BackOk.sendLoad (h : BackOk c) (hc : c.lsq.candidates j = true) {c' : OoOCore M}
    (hs : c.sendLoad j = .ok c') : BackOk c' := by
  unfold OoOCore.sendLoad at hs
  dsimp only at hs
  split at hs
  · cases hs
  · cases hs
    exact { h.issueLoad hc with }

theorem BackOk.sendStore (h : BackOk c) {slot : Nat} {c' : OoOCore M}
    (hs : c.sendStore slot = .ok c') : BackOk c' := by
  unfold OoOCore.sendStore at hs
  dsimp only at hs
  split at hs
  · cases hs
  · cases hs
    exact { h with }

end Engine

end RvO3
