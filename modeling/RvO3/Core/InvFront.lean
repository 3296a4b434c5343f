import RvO3.Core.InvExec

/-!
# The back-end invariant under dispatch and commit

Both ends of the reorder buffer: an instruction enters every structure at once, and the
oldest leaves after the last of them let go of it.
-/

set_option autoImplicit false

namespace RvO3

open OoOCore

/-! ## Commit -/

section Commit

variable {M : Type} {c : OoOCore M}

/-- The state after the head left the ROB and, if it is a memory operation, the LSQ. -/
def OoOCore.popHeads (c : OoOCore M) : OoOCore M :=
  { c with
    rob := c.rob.popHead
    lsq := if c.rob.head.isMem then c.lsq.popHead else c.lsq }

/-- A finished head: its slot, and the slots behind it. -/
structure HeadDone (c : OoOCore M) (rest : List Nat) : Prop where
  slots : c.rob.slots = c.rob.headIdx :: rest
  popped : c.rob.popHead.slots = rest
  notMem : c.rob.headIdx ∉ rest
  done : (c.rob.e c.rob.headIdx).done = true

/-- A done head is the first live slot, and the slots after a pop are the rest. -/
theorem BackOk.headDone (h : BackOk c) (hne : c.rob.empty = false)
    (hd : c.rob.head.done = true) : ∃ rest, HeadDone c rest := by
  obtain ⟨rest, hr⟩ := Ring.slots_eq_cons h.rob.wf hne
  have hnd := Ring.slots_nodup h.rob.wf
  rw [hr] at hnd
  refine ⟨rest, hr, ?_, (List.nodup_cons.mp hnd).1, hd⟩
  rw [Ring.slots_popHead h.rob.wf, hr]
  rfl

/-- A record in flight is not the head's. -/
theorem BackOk.ne_head (h : BackOk c) {rest : List Nat} (hh : HeadDone c rest) {op : FuOp}
    (hn : OpNames c.rob op) (hm : op.seq ∈ heldBy c.lsq c.iq c.units c.agus c.loadOuts) :
    op.robIdx ∈ rest := by
  have hnd := h.unfinished_of_mem hn hm
  have hlive := hn.live
  rw [hh.slots] at hlive
  rcases List.mem_cons.mp hlive with he | hr
  · rw [he, hh.done] at hnd
    cases hnd
  · exact hr

theorem OpNames.popHead {r : Ring RobEntry} {op : FuOp} (h : OpNames r op)
    (hm : op.robIdx ∈ r.popHead.slots) : OpNames r.popHead op := ⟨hm, h.seq, h.pdst⟩

/-- The ROB without its head keeps the ROB's invariant. -/
theorem RobOk.popHead {r : Ring RobEntry} {seqCtr : Nat} (h : RobOk r seqCtr)
    {rest : List Nat} (hs : r.slots = r.headIdx :: rest) (hp : r.popHead.slots = rest) :
    RobOk r.popHead seqCtr := by
  have hmem : ∀ i ∈ rest, i ∈ r.slots := fun i hi => by
    rw [hs]
    exact List.mem_cons_of_mem _ hi
  refine ⟨h.wf.popHead, ?_, ?_, ?_, ?_⟩
  · rw [hp]
    have := h.sorted
    rw [hs, List.map_cons, List.pairwise_cons] at this
    exact this.2
  · rw [hp]
    exact fun i hi => h.seq_lt i (hmem i hi)
  · rw [hp]
    exact fun i hi => h.consistent i (hmem i hi)
  · rw [hp]
    intro i hi hsys
    have := h.alone i (hmem i hi) hsys
    rw [hs] at this
    cases this
    cases hi

/-- The LSQ head belongs to the ROB head when that is a memory operation. -/
theorem LsqOk.head_slot {r : Ring RobEntry} {q : LSQ} (h : LsqOk r q) {rest : List Nat}
    (hs : r.slots = r.headIdx :: rest) (hm : (r.e r.headIdx).isMem = true) :
    ∃ qrest, q.ring.slots = q.ring.headIdx :: qrest ∧ lsqRob q q.ring.headIdx = r.headIdx ∧
      qrest.map (lsqRob q) = rest.filter fun i => (r.e i).isMem := by
  have hmap := h.slots
  rw [hs, List.filter_cons_of_pos (by simpa using hm)] at hmap
  have hne : q.ring.empty = false := by
    cases he : q.ring.empty with
    | false => rfl
    | true =>
        rw [(Ring.empty_iff q.ring).mp he] at hmap
        cases hmap
  obtain ⟨qrest, hq⟩ := Ring.slots_eq_cons h.wf.ring hne
  rw [hq, List.map_cons, List.cons.injEq] at hmap
  exact ⟨qrest, hq, hmap.1, hmap.2⟩

/-- The queue after commit, with what its live slots became. -/
structure HeadLeft (c : OoOCore M) (q' : LSQ) (rest : List Nat) : Prop where
  ok : LsqOk c.rob.popHead q'
  at_eq : q'.at' = c.lsq.at'
  mem : ∀ j, j ∈ q'.ring.slots ↔ j ∈ c.lsq.ring.slots ∧ lsqRob c.lsq j ∈ rest
  held : lsqHeld q' = lsqHeld c.lsq

theorem BackOk.headLeft (h : BackOk c) {rest : List Nat} (hh : HeadDone c rest) :
    HeadLeft c (if c.rob.head.isMem then c.lsq.popHead else c.lsq) rest := by
  -- the LSQ head leaves with a memory operation, and only then
  by_cases hm : c.rob.head.isMem = true
  · rw [if_pos hm]
    obtain ⟨qrest, hq, hrob, hmap⟩ := h.lsq.head_slot hh.slots hm
    have hj : c.lsq.ring.headIdx ∈ c.lsq.ring.slots := by
      rw [hq]
      exact List.mem_cons_self
    have hne : c.lsq.ring.empty = false := by
      cases he : c.lsq.ring.empty with
      | false => rfl
      | true =>
          rw [(Ring.empty_iff c.lsq.ring).mp he] at hq
          cases hq
    have hp : c.lsq.popHead.ring.slots = qrest := by
      rw [LSQ.popHead_ring, Ring.slots_popHead h.lsq.wf.ring, hq]
      rfl
    have hat : c.lsq.popHead.at' = c.lsq.at' := rfl
    have hmemq : ∀ j ∈ qrest, j ∈ c.lsq.ring.slots := fun j hj => by
      rw [hq]
      exact List.mem_cons_of_mem _ hj
    refine ⟨⟨?_, ?_, ?_, ?_⟩, hat, ?_, ?_⟩
    · exact h.lsq.wf.popHead hne fun hst => ((h.lsq.flags _ hj).store hst).1
    · rw [hp, hh.popped]
      exact hmap
    · rw [hp]
      exact fun j hj => h.lsq.agrees j (hmemq j hj)
    · rw [hp]
      exact fun j hj => h.lsq.flags j (hmemq j hj)
    · intro j
      rw [hp]
      constructor
      · intro hjq
        refine ⟨hmemq j hjq, ?_⟩
        have : lsqRob c.lsq j ∈ qrest.map (lsqRob c.lsq) := List.mem_map_of_mem hjq
        rw [hmap] at this
        exact (List.mem_filter.mp this).1
      · rintro ⟨hjs, hjr⟩
        rw [hq] at hjs
        rcases List.mem_cons.mp hjs with he | hjq
        · rw [he, hrob] at hjr
          exact absurd hjr hh.notMem
        · exact hjq
    · unfold lsqHeld
      rw [hat, hp]
      conv_rhs => rw [hq, tally_cons]
      -- the head is done, so nothing holds it any longer
      have hno : (c.lsq.at' c.lsq.ring.headIdx).holds = false := by
        cases hhold : (c.lsq.at' c.lsq.ring.headIdx).holds with
        | false => rfl
        | true =>
            have hmem : (c.lsq.at' c.lsq.ring.headIdx).seq ∈ lsqHeld c.lsq :=
              mem_tally.mpr ⟨_, hj, hhold, rfl⟩
            have hheld : heldBy c.lsq c.iq c.units c.agus c.loadOuts = unfinished c.rob := h.held
            have hun : (c.lsq.at' c.lsq.ring.headIdx).seq ∈ unfinished c.rob := by
              rw [← hheld]
              simp only [heldBy, Multiset.mem_add]
              tauto
            rw [h.lsq.seq_eq hj, hrob, h.rob.mem_unfinished_iff
              (by rw [hh.slots]; exact List.mem_cons_self), hh.done] at hun
            cases hun
      rw [hno, single_false, zero_add]
  · rw [if_neg hm]
    have hmf : (c.rob.e c.rob.headIdx).isMem = false := Bool.eq_false_iff.mpr hm
    have hmap := h.lsq.slots
    rw [hh.slots, List.filter_cons_of_neg (by simp [hmf])] at hmap
    refine ⟨⟨h.lsq.wf, ?_, h.lsq.agrees, h.lsq.flags⟩, rfl, ?_, rfl⟩
    · rw [hh.popped]
      exact hmap
    · intro j
      constructor
      · intro hj
        refine ⟨hj, ?_⟩
        have : lsqRob c.lsq j ∈ c.lsq.ring.slots.map (lsqRob c.lsq) := List.mem_map_of_mem hj
        rw [hmap] at this
        exact (List.mem_filter.mp this).1
      · exact fun hj => hj.1

/-- Taking a done head off the ROB, with its LSQ entry when it has one, keeps the back end's
invariant. -/
theorem BackOk.popHeads (h : BackOk c) (hne : c.rob.empty = false)
    (hd : c.rob.head.done = true) : BackOk c.popHeads := by
  -- what stays: everything that an unfinished operation can name
  obtain ⟨rest, hh⟩ := h.headDone hne hd
  have hl := h.headLeft hh
  unfold OoOCore.popHeads
  generalize (if c.rob.head.isMem then c.lsq.popHead else c.lsq) = q' at hl
  have hrobq : lsqRob q' = lsqRob c.lsq := by
    funext j
    rw [lsqRob, hl.at_eq, lsqRob]
  have hnames : ∀ {i j : Nat}, LsqNames c.lsq i j → i ∈ rest → LsqNames q' i j := by
    intro i j hn hi
    refine ⟨(hl.mem j).mpr ⟨hn.live, by rw [hn.robIdx]; exact hi⟩, ?_, ?_⟩
    · rw [hrobq]
      exact hn.robIdx
    · rw [hl.at_eq]
      exact hn.unresolved
  exact {
    rob := h.rob.popHead hh.slots hh.popped
    lsq := hl.ok
    iq := by
      refine ⟨h.iq.wf, h.iq.robSize, ?_⟩
      intro s ho
      have hn := h.iq.names s ho
      have hs : s ∈ rest := by
        have hmem : (c.iq.e s).seq ∈ iqHeld c.iq :=
          mem_tally.mpr ⟨s, List.mem_range.mpr (h.iq.wf.occ_lt s ho), ho, rfl⟩
        -- a waiter is unfinished, so it is not the head
        refine @BackOk.ne_head _ _ h _ hh { seq := (c.iq.e s).seq, robIdx := s, pdst := (c.rob.e s).pdst }
          ⟨hn.live, hn.seq.symm, rfl⟩ ?_
        simp only [heldBy, Multiset.mem_add]
        tauto
      exact ⟨by rw [hh.popped]; exact hs, hn.robIdx, hn.seq, hn.unit, hn.notSystem,
        fun hm => hnames (hn.lsq hm) hs⟩
    units := by
      refine ⟨h.units.wf, ?_⟩
      intro u hu op hop
      obtain ⟨h1, h2⟩ := h.units.names u hu op hop
      refine ⟨h1.popHead ?_, h2⟩
      rw [hh.popped]
      apply h.ne_head hh h1
      have := mem_unitsHeld hu hop
      simp only [heldBy, Multiset.mem_add]
      tauto
    agus := by
      refine ⟨h.agus.wf, ?_⟩
      intro u hu op hop
      obtain ⟨h1, h2⟩ := h.agus.names u hu op hop
      have hs : op.robIdx ∈ rest := by
        apply h.ne_head hh h1
        have := mem_unitsHeld hu hop
        simp only [heldBy, Multiset.mem_add]
        tauto
      exact ⟨h1.popHead (by rw [hh.popped]; exact hs), hnames h2 hs⟩
    loads := by
      intro op hop hv
      have hn := h.loads op hop hv
      have hs : op.robIdx ∈ rest := by
        apply h.ne_head hh hn.names
        have := mem_outsHeld hop hv
        simp only [heldBy, Multiset.mem_add]
        tauto
      obtain ⟨j, hj, hri, hrest⟩ := hn.lsq
      refine ⟨hn.names.popHead (by rw [hh.popped]; exact hs), hn.load, j,
        (hl.mem j).mpr ⟨hj, by rw [hri]; exact hs⟩, ?_, ?_⟩
      · rw [hrobq]
        exact hri
      · rw [hl.at_eq]
        exact hrest
    ready := h.ready
    held := by
      -- the head held nothing and was not unfinished: both sides are what they were
      have := h.held
      unfold Held heldBy at this ⊢
      show iqHeld c.iq + unitsHeld c.units + unitsHeld c.agus + outsHeld c.loadOuts + lsqHeld q' =
        unfinished c.rob.popHead
      rw [hl.held, this]
      unfold unfinished
      rw [hh.slots, hh.popped, tally_cons, hh.done]
      simp only [Bool.not_true, single_false, zero_add]
      rfl }

/-! ### The cases of `commitOne` -/

/-- A system instruction has no place in the LSQ. -/
theorem RobEntry.Consistent.system_not_mem {e : RobEntry} (h : e.Consistent)
    (hs : e.isSystem = true) : e.isMem = false := by
  rw [h.isSystem, decide_eq_true_iff] at hs
  rw [isMem_eq_kind h, hs]
  rfl

/-- A system instruction is no branch. -/
theorem RobEntry.Consistent.system_not_branch {e : RobEntry} (h : e.Consistent)
    (hs : e.isSystem = true) : e.isBranch = false := by
  rw [h.isSystem, decide_eq_true_iff] at hs
  rw [h.isBranch, hs]
  rfl

theorem RobEntry.Consistent.system_no_dest {e : RobEntry} (h : e.Consistent)
    (hs : e.isSystem = true) : e.pdst = kNoReg := by
  rw [h.isSystem, decide_eq_true_iff, fuKindOf_eq_NONE_iff] at hs
  have hw : writesRd e.ins.op = false := by
    rcases hs with ho | ho | ho | ho <;> rw [ho] <;> rfl
  by_contra hne
  have hd := h.hasDest.mp hne
  rw [OoOCore.hasDest, hw] at hd
  cases hd

variable [MemPorts Nat M]

/-- The record of the head before it is filled in. -/
def OoOCore.rec₀ (c : OoOCore M) : CommitRecord :=
  { sequence := c.retired, pc := c.rob.head.pc, instruction := c.rob.head.ins.raw }

/-- What committing a system instruction changes. -/
structure SystemCommit (c c' : OoOCore M) (rec : CommitRecord) : Prop where
  isSystem : c.rob.head.isSystem = true
  frame : ∃ ret prf pos hal ex, c' = { c with
    retired := ret, prf := prf, inputPos := pos, halted := hal, exitCode := ex
    commits := c.commits ++ [rec], rob := c.rob.popHead, log := c.log ++ [.commit rec] } ∧
    c.commitSystem c.rob.head c.rec₀ = .ok ({ c with
      retired := ret, prf := prf, inputPos := pos, halted := hal, exitCode := ex }, rec)

/-- The record of an instruction that is not a system one. -/
def OoOCore.opRecord (c : OoOCore M) : CommitRecord :=
  { c.rec₀ with
    memoryWrite :=
      if c.rob.head.isMem ∧ c.lsq.ring.head.isStore then
        some (MemoryWrite.mk' c.lsq.ring.head.addr c.lsq.ring.head.data c.lsq.ring.head.size)
      else none
    registerWrite :=
      if c.rob.head.pdst ≠ kNoReg then some ⟨c.rob.head.ins.rd, c.prf.val c.rob.head.pdst⟩
      else none }

/-- What committing any other instruction changes. -/
structure OpCommit (c c' : OoOCore M) : Prop where
  notSystem : c.rob.head.isSystem = false
  noFault : c.commitFault c.rob.head = none
  room : ¬ (c.rob.head.isMem ∧ c.lsq.ring.head.isStore ∧ c.sb.ring.full)
  frame : c' = { c with
    sb := if c.rob.head.isMem ∧ c.lsq.ring.head.isStore then
        c.sb.push ⟨c.lsq.ring.head.addr, c.lsq.ring.head.size, c.lsq.ring.head.data, false,
          false, 0⟩
      else c.sb
    lsq := if c.rob.head.isMem then c.lsq.popHead else c.lsq
    freeList := if c.rob.head.pdst ≠ kNoReg then c.freeList.push c.rob.head.prevPhys
      else c.freeList
    pred := (c.commitTrain c.rob.head).pred
    depTable := (c.commitTrain c.rob.head).depTable
    retired := c.retired + 1
    commits := c.commits ++ [c.opRecord]
    rob := c.rob.popHead
    log := c.log ++ [.commit c.opRecord] }

/-- The system instructions change only the clerical state and the argument register. -/
theorem commitSystem_frame {e : RobEntry} {rec rec' : CommitRecord} {c' : OoOCore M}
    (h : c.commitSystem e rec = .ok (c', rec')) :
    ∃ ret prf pos hal ex, c' = { c with
      retired := ret, prf := prf, inputPos := pos, halted := hal, exitCode := ex } := by
  unfold OoOCore.commitSystem at h
  split at h
  · dsimp only at h
    split at h
    · cases h
    · cases h
      exact ⟨_, _, _, _, _, rfl⟩
  · cases h
    exact ⟨_, c.prf, c.inputPos, _, c.exitCode, rfl⟩
  · cases h
    exact ⟨c.retired, c.prf, c.inputPos, _, _, rfl⟩
  · cases h
    exact ⟨_, c.prf, c.inputPos, c.halted, c.exitCode, rfl⟩

/-- `commitOne` stops at a full store buffer, commits a system instruction, or commits
another one. -/
theorem commitOne_cases {c' : OoOCore M} {b : Bool} (h : c.commitOne = .ok (c', b)) :
    (c' = c ∧ b = false ∧ c.rob.head.isSystem = false) ∨ (∃ rec, SystemCommit c c' rec ∧ b = true) ∨ (OpCommit c c' ∧ b = true) := by
  unfold OoOCore.commitOne at h
  dsimp only at h
  split at h
  · cases h
  · rename_i hf
    by_cases hs : c.rob.head.isSystem = true
    · rw [if_pos hs] at h
      split at h
      · cases h
      · rename_i c₁ rec hc
        cases h
        obtain ⟨ret, prf, pos, hal, ex, rfl⟩ := commitSystem_frame hc
        exact Or.inr (Or.inl ⟨rec, ⟨hs, ret, prf, pos, hal, ex, rfl, hc⟩, rfl⟩)
    · rw [if_neg hs] at h
      split at h
      · cases h
        exact Or.inl ⟨rfl, rfl, by simpa using hs⟩
      · rename_i hroom
        have hs' : c.rob.head.isSystem = false := by simpa using hs
        refine Or.inr (Or.inr ?_)
        by_cases hm : c.rob.head.isMem = true
        · simp only [if_pos hm] at h
          cases h
          refine ⟨⟨hs', hf, hroom, ?_⟩, rfl⟩
          simp only [hm, true_and, if_true, OoOCore.opRecord]
          rfl
        · simp only [if_neg hm] at h
          cases h
          refine ⟨⟨hs', hf, hroom, ?_⟩, rfl⟩
          simp only [hm, false_and, if_false, OoOCore.opRecord, Bool.false_eq_true]
          rfl

/-- One commit keeps the back end's invariant, whichever way it ends. -/
theorem BackOk.commitOne (h : BackOk c) {c' : OoOCore M} {b : Bool} (hne : c.rob.empty = false)
    (hd : c.rob.head.done = true) (hc : c.commitOne = .ok (c', b)) : BackOk c' := by
  obtain ⟨rest, hh⟩ := h.headDone hne hd
  have hp := h.popHeads hne hd
  have hhead : c.rob.headIdx ∈ c.rob.slots := by
    rw [hh.slots]
    exact List.mem_cons_self
  rcases commitOne_cases hc with ⟨rfl, -⟩ | ⟨rec, hs, -⟩ | ⟨hs, -⟩
  · exact h
  · have hm : c.rob.head.isMem = false :=
      (h.rob.consistent _ hhead).system_not_mem hs.isSystem
    obtain ⟨ret, prf, pos, hal, ex, rfl, -⟩ := hs.frame
    have hq : c.popHeads.lsq = c.lsq := if_neg (by simp [hm])
    exact ⟨hp.rob, hq ▸ hp.lsq, hq ▸ hp.iq, hp.units, hq ▸ hp.agus, hq ▸ hp.loads, hp.ready,
      hq ▸ hp.held⟩
  · rw [hs.frame]
    exact { hp with }

end Commit

/-! ## Dispatch -/

section Push

variable {r : Ring RobEntry} {seqCtr : Nat} {e : RobEntry}

/-- The ROB with a new youngest entry. -/
def pushRob (r : Ring RobEntry) (e : RobEntry) : Ring RobEntry := r.alloc.set r.allocIdx e

/-- The new entry is the youngest, and the others are as before. -/
structure Pushed (r : Ring RobEntry) (e : RobEntry) : Prop where
  slots : (pushRob r e).slots = r.slots ++ [r.allocIdx]
  fresh : r.allocIdx ∉ r.slots
  new : (pushRob r e).e r.allocIdx = e
  old : ∀ i ∈ r.slots, (pushRob r e).e i = r.e i

/-- Adding an entry at the tail puts it after the live slots and leaves them as they were. -/
theorem pushed (h : r.Wf) (hf : r.full = false) (e : RobEntry) : Pushed r e := by
  have hn := Ring.allocIdx_notMem h hf
  refine ⟨by simp [pushRob], hn, by simp [pushRob], ?_⟩
  intro i hi
  have : i ≠ r.allocIdx := fun he => hn (he ▸ hi)
  simp [pushRob, this]

theorem Pushed.seq_old (h : Pushed r e) {i : Nat} (hi : i ∈ r.slots) :
    robSeq (pushRob r e) i = robSeq r i := by
  rw [robSeq, h.old i hi, robSeq]

theorem Pushed.mem_old (h : Pushed r e) {i : Nat} (hi : i ∈ r.slots) : i ∈ (pushRob r e).slots := by
  rw [h.slots]
  exact List.mem_append_left _ hi

/-- The ROB's invariant survives a dispatch whose entry carries the next sequence number. A system
instruction needs an empty ROB, and no instruction follows one. -/
theorem RobOk.push (h : RobOk r seqCtr) (hf : r.full = false) (he : e.seq = seqCtr)
    (hc : e.Consistent) (halone : e.isSystem = true → r.slots = [])
    (hno : ∀ i ∈ r.slots, (r.e i).isSystem = false) : RobOk (pushRob r e) (seqCtr + 1) := by
  have hp := pushed h.wf hf e
  have hnew : robSeq (pushRob r e) r.allocIdx = seqCtr := by rw [robSeq, hp.new, he]
  refine ⟨(h.wf.alloc hf).set _ _, ?_, ?_, ?_, ?_⟩
  · rw [hp.slots, List.map_append, List.pairwise_append]
    refine ⟨?_, by simp, ?_⟩
    · rw [List.map_congr_left fun i hi => hp.seq_old hi]
      exact h.sorted
    · intro a ha b hb
      obtain ⟨i, hi, rfl⟩ := List.mem_map.mp ha
      rw [List.map_singleton, List.mem_singleton] at hb
      rw [hb, hnew, hp.seq_old hi]
      exact h.seq_lt i hi
  · rw [hp.slots]
    intro i hi
    rcases List.mem_append.mp hi with hi | hi
    · rw [hp.seq_old hi]
      have := h.seq_lt i hi
      omega
    · rw [List.mem_singleton.mp hi, hnew]
      omega
  · rw [hp.slots]
    intro i hi
    rcases List.mem_append.mp hi with hi | hi
    · rw [hp.old i hi]
      exact h.consistent i hi
    · rw [List.mem_singleton.mp hi, hp.new]
      exact hc
  · rw [hp.slots]
    -- a system instruction enters an empty ROB, and nothing enters behind one
    intro i hi hsys
    rcases List.mem_append.mp hi with hi | hi
    · rw [hp.old i hi, hno i hi] at hsys
      cases hsys
    · rw [List.mem_singleton.mp hi, hp.new] at hsys
      rw [halone hsys, List.mem_singleton.mp hi]
      rfl

/-- An operation that names a live entry still names it after a dispatch. -/
theorem OpNames.push (hp : Pushed r e) {op : FuOp} (h : OpNames r op) :
    OpNames (pushRob r e) op :=
  ⟨hp.mem_old h.live, by rw [hp.seq_old h.live]; exact h.seq, by rw [hp.old _ h.live]; exact h.pdst⟩

theorem UnitsOk.push (hp : Pushed r e) {us : List FuUnit} (h : UnitsOk r us) :
    UnitsOk (pushRob r e) us := by
  refine ⟨h.wf, ?_⟩
  intro u hu op hop
  obtain ⟨h1, h2⟩ := h.names u hu op hop
  exact ⟨h1.push hp, by rw [hp.old _ h1.live]; exact h2⟩

/-- A dispatch adds its own number to the unfinished instructions, unless the entry starts out done.
-/
theorem unfinished_push (h : r.Wf) (hf : r.full = false) :
    unfinished (pushRob r e) = unfinished r + single (!e.done) e.seq := by
  have hp := pushed h hf e
  unfold unfinished
  rw [hp.slots, tally_append, tally_singleton]
  congr 1
  · apply tally_congr
    intro i hi
    exact ⟨by rw [hp.old i hi], hp.seq_old hi⟩
  · rw [hp.new, robSeq, hp.new]

/-- The memory accesses of the ROB stay, in order, those the LSQ names: a dispatch adds to both or
to neither. -/
theorem LsqOk.filter_push {q : LSQ} (h : LsqOk r q) (hp : Pushed r e) :
    ((pushRob r e).slots.filter fun i => ((pushRob r e).e i).isMem) =
      q.ring.slots.map (lsqRob q) ++ (if e.isMem then [r.allocIdx] else []) := by
  rw [hp.slots, List.filter_append, h.slots]
  congr 1
  · apply List.filter_congr
    intro i hi
    rw [hp.old i hi]
  · cases hm : e.isMem with
    | true => simp [hp.new, hm]
    | false => simp [hp.new, hm]

/-! ### The LSQ -/

/-- The LSQ entry of a dispatched memory operation. -/
def dispatchedEntry (q : LSQ) (e : RobEntry) (robIdx ps2 : Nat) (prf : PhysRegFile) : LsqEntry :=
  { gen := (q.genCtr q.ring.allocIdx + 1) % 2 ^ 16
    seq := e.seq
    robIdx := robIdx
    pc := e.pc
    op := e.ins.op
    isStore := isStore e.ins.op
    pdst := e.pdst
    dataPreg := if isStore e.ins.op then ps2 else 0xFF
    dataReady := if isStore e.ins.op then prf.ready ps2 else true
    data := if isStore e.ins.op && prf.ready ps2 then prf.val ps2 else 0 }

/-- The queue gained one youngest entry. -/
structure PushedLsq (q q' : LSQ) (le : LsqEntry) : Prop where
  ring : q'.ring = q.ring.alloc.set q.ring.allocIdx le
  gen : q'.genCtr = Function.update q.genCtr q.ring.allocIdx (q.genCtr q.ring.allocIdx + 1)
  wf : q'.Wf
  slots : q'.ring.slots = q.ring.slots ++ [q.ring.allocIdx]
  fresh : q.ring.allocIdx ∉ q.ring.slots
  new : q'.at' q.ring.allocIdx = le
  old : ∀ j ∈ q.ring.slots, q'.at' j = q.at' j

variable {q : LSQ}

/-- Is the entry a store that must wait for its data? -/
def waits (e : RobEntry) (ps2 : Nat) (prf : PhysRegFile) : Bool :=
  isStore e.ins.op && !prf.ready ps2

theorem dispatchLsq_eq (q : LSQ) (e : RobEntry) (robIdx ps2 : Nat) (prf : PhysRegFile) :
    dispatchLsq q e robIdx ps2 prf =
      { q with
        genCtr := Function.update q.genCtr q.ring.allocIdx (q.genCtr q.ring.allocIdx + 1)
        ring := q.ring.alloc.set q.ring.allocIdx (dispatchedEntry q e robIdx ps2 prf)
        unknownStores :=
          if isStore e.ins.op then q.unknownStores.set q.ring.allocIdx else q.unknownStores
        updates := if waits e ps2 prf then q.updates.set q.ring.allocIdx else q.updates
        waitingStores := if waits e ps2 prf then q.waitingStores + 1 else q.waitingStores } := by
  unfold dispatchLsq dispatchedEntry waits
  dsimp only
  cases hs : isStore e.ins.op with
  | true =>
      cases hr : prf.ready ps2 <;>
        simp [LSQ.setStoreSource, LSQ.setEntry, LSQ.at', LSQ.alloc]
  | false => simp [LSQ.setEntry, LSQ.at', LSQ.alloc]

/-- The LSQ with one more entry is well formed: its work sets and counters count the new entry, as
unresolved and, for a store without data, as one to update. -/
theorem dispatchLsq_wf (h : q.Wf) (hf : q.ring.full = false) (e : RobEntry) (robIdx ps2 : Nat)
    (prf : PhysRegFile) : (dispatchLsq q e robIdx ps2 prf).Wf := by
  rw [dispatchLsq_eq]
  -- a store waits for its data when it is not ready at dispatch; nothing else is set
  have hwait : (dispatchedEntry q e robIdx ps2 prf).isWaiting = waits e ps2 prf := by
    cases hs : isStore e.ins.op <;> simp [LsqEntry.isWaiting, dispatchedEntry, waits, hs]
  refine h.pushed hf (rfl : _ = q.ring.alloc.set q.ring.allocIdx (dispatchedEntry q e robIdx ps2 prf))
    ?_ ?_ ?_ ?_ ?_ ?_ ?_ ?_ ?_ ?_
  · rw [show (dispatchedEntry q e robIdx ps2 prf).isCandidate = false by
      simp [LsqEntry.isCandidate, dispatchedEntry]]
    exact LSQ.update_fresh h hf h.candidates
  · rw [show (dispatchedEntry q e robIdx ps2 prf).isPending = false by
      simp [LsqEntry.isPending, dispatchedEntry]]
    exact LSQ.update_fresh h hf h.pending
  · rw [show (dispatchedEntry q e robIdx ps2 prf).isUpdate = waits e ps2 prf by
      rw [LsqEntry.isUpdate, hwait]
      simp [LsqEntry.isUnreported, dispatchedEntry]]
    cases waits e ps2 prf with
    | true => rfl
    | false => exact LSQ.update_fresh h hf h.updates
  · rw [show (dispatchedEntry q e robIdx ps2 prf).isKnownStore = false by
      simp [LsqEntry.isKnownStore, dispatchedEntry]]
    exact LSQ.update_fresh h hf h.knownStores
  · rw [show (dispatchedEntry q e robIdx ps2 prf).isUnknownStore = isStore e.ins.op by
      simp [LsqEntry.isUnknownStore, dispatchedEntry]]
    cases isStore e.ins.op with
    | true => rfl
    | false => exact LSQ.update_fresh h hf h.unknownStores
  · rw [show (dispatchedEntry q e robIdx ps2 prf).isAccessed = false by
      simp [LsqEntry.isAccessed, dispatchedEntry]]
    exact LSQ.update_fresh h hf h.accessedLoads
  · intro b
    simp [LsqEntry.wordsIn, dispatchedEntry]
  · simp [LsqEntry.isPending, dispatchedEntry]
  · simp [LsqEntry.isUnreported, dispatchedEntry]
  · rw [hwait]
    cases waits e ps2 prf <;> rfl

theorem pushedLsq (h : q.Wf) (hf : q.ring.full = false) (e : RobEntry) (robIdx ps2 : Nat)
    (prf : PhysRegFile) :
    PushedLsq q (dispatchLsq q e robIdx ps2 prf) (dispatchedEntry q e robIdx ps2 prf) := by
  have hring : (dispatchLsq q e robIdx ps2 prf).ring =
      q.ring.alloc.set q.ring.allocIdx (dispatchedEntry q e robIdx ps2 prf) := by
    rw [dispatchLsq_eq]
  have hn := Ring.allocIdx_notMem h.ring hf
  refine ⟨hring, ?_, dispatchLsq_wf h hf e robIdx ps2 prf, ?_, hn, ?_, ?_⟩
  · rw [dispatchLsq_eq]
  · rw [hring]
    simp
  · rw [LSQ.at', hring]
    simp
  · intro j hj
    have : j ≠ q.ring.allocIdx := fun he => hn (he ▸ hj)
    rw [LSQ.at', hring]
    simp [this, LSQ.at']

end Push

/-! ### The state after dispatch -/

section Dispatch

variable {M : Type} {c : OoOCore M}

/-- The ROB entry `dispatchSystem` makes. -/
def systemEntry (c : OoOCore M) (f : Fetched) : RobEntry :=
  { robEntry c.seqCtr f (decode f.raw) with
    done := true, isSystem := true, sysA0 := c.rmap 10, sysA7 := c.rmap 17 }

/-- The ROB entry `dispatchOp` makes. -/
def opEntry (c : OoOCore M) (f : Fetched) : RobEntry :=
  let I := decode f.raw
  let unit := fuKindOf I.op
  { robEntry c.seqCtr f I with
    pdst := if hasDest I then c.freeList.head else 0xFF
    prevPhys := if hasDest I then c.rmap I.rd else 0xFF
    isMem := isMemOp I
    isBranch := decide (unit = .BRANCH)
    predictedTaken := decide (unit = .BRANCH) && f.predTaken
    predictedTarget := if unit = .BRANCH then f.predTarget else 0
    predIdx := if unit = .BRANCH then f.predIdx else 0 }

/-- The register file after a destination was allocated. -/
def opPrf (c : OoOCore M) (I : Instr) : PhysRegFile :=
  { c.prf with
    ready := if hasDest I then Function.update c.prf.ready c.freeList.head false
      else c.prf.ready }

/-- The issue-queue entry `dispatchOp` makes. -/
def opIqEntry (c : OoOCore M) (I : Instr) : IqEntry :=
  { seq := c.seqCtr
    robIdx := c.rob.allocIdx
    lsqIdx := if isMemOp I then c.lsq.ring.allocIdx else 0
    unit := fuKindOf I.op
    ps1 := c.rmap I.rs1
    ps2 := c.rmap I.rs2
    valid := true }

theorem dispatchSystem_eq (c : OoOCore M) (f : Fetched) :
    c.dispatchSystem f (decode f.raw) = { c with
      fetchQ := c.fetchQ.popHead
      seqCtr := c.seqCtr + 1
      rob := pushRob c.rob (systemEntry c f)
      log := c.log ++ [.dispatch c.seqCtr (decode f.raw) c.rmap] } := rfl

theorem dispatchOp_eq (c : OoOCore M) (f : Fetched) :
    c.dispatchOp f (decode f.raw) = { c with
      log := c.log ++ [.dispatch c.seqCtr (decode f.raw) c.rmap] ++
        (if isStore (decode f.raw).op &&
            (opPrf c (decode f.raw)).ready (c.rmap (decode f.raw).rs2) then
          [.capture c.seqCtr (c.prf.val (c.rmap (decode f.raw).rs2))]
        else [])
      fetchQ := c.fetchQ.popHead
      seqCtr := c.seqCtr + 1
      rob := pushRob c.rob (opEntry c f)
      rmap := if hasDest (decode f.raw) then
          Function.update c.rmap (decode f.raw).rd c.freeList.head
        else c.rmap
      freeList := if hasDest (decode f.raw) then c.freeList.popHead else c.freeList
      prf := opPrf c (decode f.raw)
      lsq := if isMemOp (decode f.raw) then
          dispatchLsq c.lsq (opEntry c f) c.rob.allocIdx (c.rmap (decode f.raw).rs2)
            (opPrf c (decode f.raw))
        else c.lsq
      iq := c.iq.enqueue (opIqEntry c (decode f.raw))
        (!usesRs1 (decode f.raw).op ||
          (opPrf c (decode f.raw)).ready (c.rmap (decode f.raw).rs1))
        (!usesRs2 (decode f.raw).op || isStore (decode f.raw).op ||
          (opPrf c (decode f.raw)).ready (c.rmap (decode f.raw).rs2)) } := by
  unfold OoOCore.dispatchOp opPrf opIqEntry opEntry
  dsimp only
  cases hasDest (decode f.raw) <;> rfl

/-- What `dispatchOne` checked before it dispatched an instruction that is not a system
one. -/
structure OpRoom (c : OoOCore M) : Prop where
  fetched : c.fetchQ.empty = false
  kind : fuKindOf (decode c.fetchQ.head.raw).op ≠ .NONE
  rob : c.rob.full = false
  lsq : isMemOp (decode c.fetchQ.head.raw) = true → c.lsq.ring.full = false
  freeList : hasDest (decode c.fetchQ.head.raw) = true → c.freeList.empty = false

/-- What `dispatchOne` checked before it dispatched a system instruction. -/
structure SystemRoom (c : OoOCore M) (first : Bool) : Prop where
  fetched : c.fetchQ.empty = false
  kind : fuKindOf (decode c.fetchQ.head.raw).op = .NONE
  first : first = true
  robEmpty : c.rob.empty = true
  sbEmpty : c.sb.ring.empty = true
  rob : c.rob.full = false

/-- What one dispatch does: nothing, a system instruction into an empty machine, or an operation for
which every table has room. -/
theorem dispatchOne_cases (c : OoOCore M) (first : Bool) :
    c.dispatchOne first = (c, false) ∨
      (SystemRoom c first ∧ c.dispatchOne first =
        (c.dispatchSystem c.fetchQ.head (decode c.fetchQ.head.raw), false)) ∨
      (OpRoom c ∧ c.dispatchOne first =
        (c.dispatchOp c.fetchQ.head (decode c.fetchQ.head.raw), true)) := by
  unfold OoOCore.dispatchOne
  dsimp only
  -- the checks in the order of the code; each one that holds stops the stage
  by_cases h1 : c.fetchQ.empty = true
  · rw [if_pos h1]
    exact Or.inl rfl
  rw [if_neg h1]
  by_cases h2 : (decide (fuKindOf (decode c.fetchQ.head.raw).op = .NONE) &&
      (!first || !c.rob.empty || !c.sb.ring.empty)) = true
  · rw [if_pos h2]
    exact Or.inl rfl
  rw [if_neg h2]
  by_cases h3 : c.rob.full = true
  · rw [if_pos h3]
    exact Or.inl rfl
  rw [if_neg h3]
  by_cases h4 : (isMemOp (decode c.fetchQ.head.raw) && c.lsq.ring.full) = true
  · rw [if_pos h4]
    exact Or.inl rfl
  rw [if_neg h4]
  by_cases h5 : c.iq.full = true
  · rw [if_pos h5]
    exact Or.inl rfl
  rw [if_neg h5]
  by_cases h6 : (hasDest (decode c.fetchQ.head.raw) && c.freeList.empty) = true
  · rw [if_pos h6]
    exact Or.inl rfl
  rw [if_neg h6]
  have h1 : c.fetchQ.empty = false := by simpa using h1
  have h3 : c.rob.full = false := by simpa using h3
  -- all passed: a system instruction dispatches alone and ends the group
  by_cases hk : fuKindOf (decode c.fetchQ.head.raw).op = .NONE
  · right
    left
    rw [decide_eq_true hk] at h2 ⊢
    simp only [Bool.true_and, Bool.or_eq_true, Bool.not_eq_true', not_or, Bool.not_eq_false] at h2
    exact ⟨⟨h1, hk, h2.1.1, h2.1.2, h2.2, h3⟩, rfl⟩
  · right
    right
    rw [decide_eq_false hk]
    refine ⟨⟨h1, hk, h3, ?_, ?_⟩, rfl⟩
    · intro hm
      simpa [hm] using h4
    · intro hd
      simpa [hd] using h6

/-- The ROB entry dispatch makes for a system instruction is consistent: done, and with neither
destination nor memory access. -/
theorem systemEntry_consistent {f : Fetched} (hk : fuKindOf (decode f.raw).op = .NONE) :
    (systemEntry c f).Consistent := by
  have hop := (fuKindOf_eq_NONE_iff _).mp hk
  refine ⟨?_, ?_, ?_, ?_, fun _ => rfl⟩
  · show false = isMemOp (decode f.raw)
    have := (fuKindOf_eq_LSU_iff (decode f.raw).op)
    rw [hk] at this
    cases hm : isMemOp (decode f.raw) with
    | false => rfl
    | true => exact absurd (this.mpr hm) nofun
  · show true = decide (fuKindOf (decode f.raw).op = .NONE)
    rw [decide_eq_true hk]
  · show false = decide (fuKindOf (decode f.raw).op = .BRANCH)
    rw [hk]
    rfl
  · show (0xFF : Nat) ≠ kNoReg ↔ hasDest (decode f.raw) = true
    have hw : writesRd (decode f.raw).op = false := by
      rcases hop with ho | ho | ho | ho <;> rw [ho] <;> rfl
    simp [hasDest, hw, kNoReg]

/-- The ROB entry dispatch makes for an operation is consistent, given a free register when it needs
one. -/
theorem opEntry_consistent {f : Fetched} (hk : fuKindOf (decode f.raw).op ≠ .NONE)
    (hfree : hasDest (decode f.raw) = true → c.freeList.head ≠ kNoReg) :
    (opEntry c f).Consistent := by
  refine ⟨rfl, ?_, rfl, ?_, nofun⟩
  · show false = decide (fuKindOf (decode f.raw).op = .NONE)
    rw [decide_eq_false hk]
  · show (if hasDest (decode f.raw) then c.freeList.head else 0xFF) ≠ kNoReg ↔
      hasDest (decode f.raw) = true
    by_cases hd : hasDest (decode f.raw) = true
    · rw [if_pos hd]
      exact ⟨fun _ => hd, fun _ => hfree hd⟩
    · rw [if_neg hd]
      exact ⟨fun hne => absurd rfl hne, fun hh => absurd hh hd⟩

/-- Dispatching a system instruction keeps the back end's invariant: the ROB is empty, so it is
alone. -/
theorem BackOk.dispatchSystem (h : BackOk c) {first : Bool} (hr : SystemRoom c first) :
    BackOk (c.dispatchSystem c.fetchQ.head (decode c.fetchQ.head.raw)) := by
  rw [dispatchSystem_eq]
  have hnil := (Ring.empty_iff c.rob).mp hr.robEmpty
  have hp := pushed h.rob.wf hr.rob (systemEntry c c.fetchQ.head)
  have hnone : ∀ i, i ∉ c.rob.slots := fun i hi => by
    rw [hnil] at hi
    cases hi
  have hq : c.lsq.ring.slots = [] := by
    have := h.lsq.slots
    rw [hnil] at this
    simpa using this
  exact {
    rob := h.rob.push hr.rob rfl (systemEntry_consistent hr.kind) (fun _ => hnil)
      (fun i hi => absurd hi (hnone i))
    lsq := by
      refine ⟨h.lsq.wf, ?_, ?_, h.lsq.flags⟩
      · exact (h.lsq.filter_push hp).trans (by simp [systemEntry, robEntry]) |>.symm
      · intro j hj
        rw [hq] at hj
        cases hj
    iq := ⟨h.iq.wf, h.iq.robSize, fun s ho => absurd (h.iq.names s ho).live (hnone s)⟩
    units := h.units.push hp
    agus := ⟨h.agus.wf, fun u hu op hop =>
      absurd (h.agus.names u hu op hop).1.live (hnone _)⟩
    loads := fun op hop hv => absurd (h.loads op hop hv).names.live (hnone _)
    ready := h.ready
    held := by
      have := h.held
      unfold Held at this ⊢
      rw [unfinished_push h.rob.wf hr.rob]
      show heldBy c.lsq c.iq c.units c.agus c.loadOuts = _
      rw [this]
      simp [systemEntry, robEntry] }

/-- Entering the issue queue adds one held number, when the slot is free. -/
theorem iqHeld_enqueue {iq : IssueQueue} {v : IqEntry} {b1 b2 : Bool} (hlt : v.robIdx < iq.robSize)
    (hno : iq.occupied v.robIdx = false) :
    iqHeld (iq.enqueue v b1 b2) = iqHeld iq + {v.seq} := by
  have hm := List.mem_range.mpr hlt
  have hocc : (iq.enqueue v b1 b2).occupied v.robIdx = true := by
    rw [IssueQueue.enqueue_occupied]
    exact if_pos rfl
  have he : (iq.enqueue v b1 b2).e v.robIdx = v := by
    rw [IssueQueue.enqueue_e]
    exact Function.update_self _ _ _
  have := tally_change List.nodup_range hm (p := iq.occupied)
    (q := (iq.enqueue v b1 b2).occupied) (f := fun s => (iq.e s).seq)
    (g := fun s => ((iq.enqueue v b1 b2).e s).seq) ?_
  · simp only [hno, hocc, he, single_true, single_false, add_zero] at this
    exact this
  · intro i _ hne
    simp [hne]

theorem LsqNames.push {q' : LSQ} {le : LsqEntry} {i j : Nat} (h : LsqNames c.lsq i j)
    (hp : PushedLsq c.lsq q' le) : LsqNames q' i j := by
  have hj := h.live
  refine ⟨?_, ?_, ?_⟩
  · rw [hp.slots]
    exact List.mem_append_left _ hj
  · rw [lsqRob, hp.old j hj]
    exact h.robIdx
  · rw [hp.old j hj]
    exact h.unresolved

/-- The LSQ after dispatch of an instruction, whether or not it is a memory operation. -/
structure LsqDispatched (c : OoOCore M) (f : Fetched) (q' : LSQ) : Prop where
  ok : LsqOk (pushRob c.rob (opEntry c f)) q'
  mono : ∀ {i j : Nat}, LsqNames c.lsq i j → LsqNames q' i j
  loads : ∀ j ∈ c.lsq.ring.slots, j ∈ q'.ring.slots ∧ q'.at' j = c.lsq.at' j
  new : isMemOp (decode f.raw) = true → LsqNames q' c.rob.allocIdx c.lsq.ring.allocIdx
  held : lsqHeld q' = lsqHeld c.lsq

theorem dispatched_holds (q : LSQ) (e : RobEntry) (robIdx ps2 : Nat) (prf : PhysRegFile) :
    (dispatchedEntry q e robIdx ps2 prf).holds = false := by
  simp [LsqEntry.holds, LsqEntry.isCandidate, LsqEntry.isPending, LsqEntry.isUnreported,
    dispatchedEntry]

/-- An entry pushed on the LSQ that matches the ROB entry pushed with it keeps the two queues in
step. -/
theorem BackOk.lsqPushed (h : BackOk c) {f : Fetched} (hroom : c.rob.full = false)
    (hm : isMemOp (decode f.raw) = true) {q' : LSQ} {le : LsqEntry} (hq : PushedLsq c.lsq q' le)
    (hmatch : LsqMatch (opEntry c f) le) (hlocal : le.Local) (hrob : le.robIdx = c.rob.allocIdx)
    (hunres : le.addrValid = false) (hhold : le.holds = false) : LsqDispatched c f q' := by
  have hp := pushed h.rob.wf hroom (opEntry c f)
  -- the memory operations of the ROB gain the new one, at the end
  have hfil := h.lsq.filter_push hp
  rw [show (opEntry c f).isMem = isMemOp (decode f.raw) from rfl, if_pos hm] at hfil
  refine ⟨⟨hq.wf, ?_, ?_, ?_⟩, fun hn => hn.push hq, ?_, ?_, ?_⟩
  · rw [hfil, hq.slots, List.map_append]
    congr 1
    · exact List.map_congr_left fun j hj => by rw [lsqRob, hq.old j hj, lsqRob]
    · rw [List.map_singleton, lsqRob, hq.new, hrob]
  · rw [hq.slots]
    intro j hj
    rcases List.mem_append.mp hj with hj | hj
    · rw [lsqRob, hq.old j hj]
      have := h.lsq.agrees j hj
      rw [← hp.old _ (h.lsq.rob_mem hj).1] at this
      exact this
    · rw [List.mem_singleton.mp hj, lsqRob, hq.new, hrob, hp.new]
      exact hmatch
  · rw [hq.slots]
    intro j hj
    rcases List.mem_append.mp hj with hj | hj
    · rw [hq.old j hj]
      exact h.lsq.flags j hj
    · rw [List.mem_singleton.mp hj, hq.new]
      exact hlocal
  · intro j hj
    rw [hq.slots]
    exact ⟨List.mem_append_left _ hj, hq.old j hj⟩
  · intro _
    refine ⟨?_, ?_, ?_⟩
    · rw [hq.slots]
      simp
    · rw [lsqRob, hq.new, hrob]
    · rw [hq.new, hunres]
  · unfold lsqHeld
    rw [hq.slots, tally_append, tally_singleton, hq.new, hhold, single_false, add_zero]
    exact tally_congr fun j hj => by rw [hq.old j hj]; exact ⟨rfl, rfl⟩

/-- What dispatch leaves of the LSQ, for a memory access and for an operation that is none. -/
theorem BackOk.lsqDispatched (h : BackOk c) (hr : OpRoom c) :
    LsqDispatched c c.fetchQ.head (if isMemOp (decode c.fetchQ.head.raw) then
      dispatchLsq c.lsq (opEntry c c.fetchQ.head) c.rob.allocIdx
        (c.rmap (decode c.fetchQ.head.raw).rs2) (opPrf c (decode c.fetchQ.head.raw))
      else c.lsq) := by
  by_cases hm : isMemOp (decode c.fetchQ.head.raw) = true
  · rw [if_pos hm]
    exact h.lsqPushed hr.rob hm (pushedLsq h.lsq.wf (hr.lsq hm) (opEntry c c.fetchQ.head)
      c.rob.allocIdx (c.rmap (decode c.fetchQ.head.raw).rs2) (opPrf c (decode c.fetchQ.head.raw)))
      ⟨rfl, rfl, rfl, rfl, rfl, nofun, nofun⟩ ⟨fun _ => ⟨rfl, rfl, rfl⟩, nofun, nofun, nofun⟩ rfl
      rfl (dispatched_holds _ _ _ _ _)
  · have hp := pushed h.rob.wf hr.rob (opEntry c c.fetchQ.head)
    have hfil := h.lsq.filter_push hp
    rw [show (opEntry c c.fetchQ.head).isMem = isMemOp (decode c.fetchQ.head.raw) from rfl,
      if_neg hm] at hfil
    rw [if_neg hm]
    refine ⟨⟨h.lsq.wf, ?_, ?_, h.lsq.flags⟩, fun hn => hn, fun j hj => ⟨hj, rfl⟩,
      fun hh => absurd hh hm, rfl⟩
    · rw [hfil, List.append_nil]
    · intro j hj
      rw [hp.old _ (h.lsq.rob_mem hj).1]
      exact h.lsq.agrees j hj

/-- The slot of the new ROB entry is free in the issue queue. -/
theorem BackOk.slot_unoccupied (h : BackOk c) (hroom : c.rob.full = false) :
    c.iq.occupied c.rob.allocIdx = false ∧ c.rob.allocIdx < c.iq.robSize := by
  have hp := pushed h.rob.wf hroom (opEntry c c.fetchQ.head)
  refine ⟨?_, ?_⟩
  · cases ho : c.iq.occupied c.rob.allocIdx with
    | false => rfl
    | true => exact absurd (h.iq.names _ ho).live hp.fresh
  · rw [h.iq.robSize]
    exact Ring.allocIdx_lt h.rob.wf hroom

/-- The new entry of the issue queue is in the slot of its ROB entry. -/
theorem enqueue_new (c : OoOCore M) (ins : Instr) (b1 b2 : Bool) :
    (c.iq.enqueue (opIqEntry c ins) b1 b2).e c.rob.allocIdx = opIqEntry c ins := by
  rw [IssueQueue.enqueue_e]
  exact Function.update_self _ _ _

/-- The other entries stay where they are. -/
theorem enqueue_old {s : Nat} (hs : s ≠ c.rob.allocIdx) (ins : Instr) (b1 b2 : Bool) :
    (c.iq.enqueue (opIqEntry c ins) b1 b2).e s = c.iq.e s ∧
      ((c.iq.enqueue (opIqEntry c ins) b1 b2).occupied s = true → c.iq.occupied s = true) := by
  constructor
  · rw [IssueQueue.enqueue_e]
    exact Function.update_of_ne hs _ _
  · intro ho
    simpa [opIqEntry, hs] using ho

/-- The new entry of the issue queue names the new ROB entry, and the others what they named. -/
theorem BackOk.iqDispatched {q' : LSQ} (h : BackOk c) (hr : OpRoom c)
    (hd : LsqDispatched c c.fetchQ.head q') :
    IqOk (pushRob c.rob (opEntry c c.fetchQ.head)) q'
      (c.iq.enqueue (opIqEntry c (decode c.fetchQ.head.raw))
        (!usesRs1 (decode c.fetchQ.head.raw).op ||
          (opPrf c (decode c.fetchQ.head.raw)).ready (c.rmap (decode c.fetchQ.head.raw).rs1))
        (!usesRs2 (decode c.fetchQ.head.raw).op || isStore (decode c.fetchQ.head.raw).op ||
          (opPrf c (decode c.fetchQ.head.raw)).ready (c.rmap (decode c.fetchQ.head.raw).rs2))) := by
  have hp := pushed h.rob.wf hr.rob (opEntry c c.fetchQ.head)
  obtain ⟨hunocc, hlt⟩ := h.slot_unoccupied hr.rob
  refine ⟨h.iq.wf.enqueue hunocc hlt _ _, h.iq.robSize, ?_⟩
  intro s ho
  -- the new entry against the ROB entry just pushed; the old ones against theirs
  by_cases hs : s = c.rob.allocIdx
  · subst hs
    rw [enqueue_new]
    refine ⟨?_, rfl, ?_, ?_, ?_, ?_⟩
    · rw [hp.slots]
      simp
    · rw [robSeq, hp.new]
      rfl
    · rw [hp.new]
      rfl
    · rw [hp.new]
      rfl
    · rw [hp.new]
      intro hm
      have hm' : isMemOp (decode c.fetchQ.head.raw) = true := hm
      have := hd.new hm'
      rw [show (opIqEntry c (decode c.fetchQ.head.raw)).lsqIdx = c.lsq.ring.allocIdx from
        if_pos hm']
      exact this
  · have hn := h.iq.names s ((enqueue_old hs _ _ _).2 ho)
    rw [(enqueue_old hs _ _ _).1]
    refine ⟨hp.mem_old hn.live, hn.robIdx, ?_, ?_, ?_, ?_⟩
    · rw [hp.seq_old hn.live]
      exact hn.seq
    · rw [hp.old s hn.live]
      exact hn.unit
    · rw [hp.old s hn.live]
      exact hn.notSystem
    · rw [hp.old s hn.live]
      exact fun hm => hd.mono (hn.lsq hm)

/-- Dispatching an operation keeps the back end's invariant: the new instruction waits in the issue
queue and nowhere else. -/
theorem BackOk.dispatchOp (h : BackOk c) (hr : OpRoom c)
    (hno : ∀ i ∈ c.rob.slots, (c.rob.e i).isSystem = false)
    (hfree : hasDest (decode c.fetchQ.head.raw) = true → c.freeList.head ≠ kNoReg) :
    BackOk (c.dispatchOp c.fetchQ.head (decode c.fetchQ.head.raw)) := by
  rw [dispatchOp_eq]
  have hp := pushed h.rob.wf hr.rob (opEntry c c.fetchQ.head)
  have hd := h.lsqDispatched hr
  generalize (if isMemOp (decode c.fetchQ.head.raw) then _ else c.lsq) = q' at hd ⊢
  obtain ⟨hunocc, hlt⟩ := h.slot_unoccupied hr.rob
  exact {
    rob := h.rob.push hr.rob rfl (opEntry_consistent hr.kind hfree) nofun hno
    lsq := hd.ok
    iq := h.iqDispatched hr hd
    units := h.units.push hp
    agus := ⟨h.agus.wf, fun u hu op hop =>
      ⟨(h.agus.names u hu op hop).1.push hp, hd.mono (h.agus.names u hu op hop).2⟩⟩
    loads := by
      intro op hop hv
      have hn := h.loads op hop hv
      obtain ⟨j, hj, hri, hrest⟩ := hn.lsq
      obtain ⟨h1, h2⟩ := hd.loads j hj
      refine ⟨hn.names.push hp, by rw [hp.old _ hn.names.live]; exact hn.load, j, h1, ?_, ?_⟩
      · rw [lsqRob, h2]
        exact hri
      · rw [h2]
        exact hrest
    ready := h.ready
    held := by
      have := h.held
      unfold Held heldBy at this ⊢
      rw [unfinished_push h.rob.wf hr.rob, iqHeld_enqueue hlt hunocc, hd.held, ← this]
      show iqHeld c.iq + {c.seqCtr} + unitsHeld c.units + unitsHeld c.agus + outsHeld c.loadOuts +
        lsqHeld c.lsq = iqHeld c.iq + unitsHeld c.units + unitsHeld c.agus + outsHeld c.loadOuts +
          lsqHeld c.lsq + {c.seqCtr}
      abel }

end Dispatch

end RvO3
