import RvO3.Core.LsqWork
import RvO3.Core.Run
import RvO3.Lib.Tally

/-!
# The back-end invariant

What the reorder buffer, the LSQ, the issue queue, the functional units and the load
outputs say about each other. Every record in flight names a live ROB entry by index and
by sequence number, and the records together hold exactly the entries that are not done
(`Held`): each is in one place.

Each part is a predicate on the components it reads, so that a stage which leaves those
components alone keeps it by definition.
-/

set_option autoImplicit false

namespace RvO3

/-! ## The reorder buffer -/

/-- The fields of an entry that no stage after dispatch writes. -/
def RobEntry.static (e : RobEntry) : RobEntry :=
  { e with done := false, fault := 0, actualTaken := false, actualTarget := 0 }

/-- The flags of an entry are those of its instruction. -/
structure RobEntry.Consistent (e : RobEntry) : Prop where
  isMem : e.isMem = OoOCore.isMemOp e.ins
  isSystem : e.isSystem = decide (fuKindOf e.ins.op = .NONE)
  isBranch : e.isBranch = decide (fuKindOf e.ins.op = .BRANCH)
  hasDest : e.pdst ≠ kNoReg ↔ OoOCore.hasDest e.ins = true
  system_done : e.isSystem = true → e.done = true

/-- The sequence number at a ROB index. -/
def robSeq (r : Ring RobEntry) (i : Nat) : Nat := (r.e i).seq

/-- The reorder buffer: sequence numbers ascend from the head and are below the counter. -/
structure RobOk (r : Ring RobEntry) (seqCtr : Nat) : Prop where
  wf : r.Wf
  sorted : (r.slots.map (robSeq r)).Pairwise (· < ·)
  seq_lt : ∀ i ∈ r.slots, robSeq r i < seqCtr
  consistent : ∀ i ∈ r.slots, (r.e i).Consistent
  /-- A system instruction is alone in the machine. -/
  alone : ∀ i ∈ r.slots, (r.e i).isSystem = true → r.slots = [i]

/-- The same entries up to the fields that are written after dispatch. -/
structure SameStatic (r r' : Ring RobEntry) : Prop where
  slots : r'.slots = r.slots
  wf : r.Wf → r'.Wf
  capacity : r'.capacity = r.capacity
  static : ∀ i, (r'.e i).static = (r.e i).static

/-- `op` names a live entry. -/
structure OpNames (r : Ring RobEntry) (op : FuOp) : Prop where
  live : op.robIdx ∈ r.slots
  seq : robSeq r op.robIdx = op.seq
  pdst : (r.e op.robIdx).pdst = op.pdst

/-! ## The LSQ -/

/-- What an LSQ entry and its ROB entry agree on. -/
structure LsqMatch (e : RobEntry) (le : LsqEntry) : Prop where
  seq : le.seq = e.seq
  pc : le.pc = e.pc
  op : le.op = e.ins.op
  isStore : le.isStore = isStore e.ins.op
  pdst : le.pdst = e.pdst
  /-- A done store has its address and its data. -/
  store_done : le.isStore = true → e.done = true → le.addrValid = true ∧ le.dataReady = true
  /-- A done load has been reported. -/
  load_done : le.isStore = false → e.done = true → le.reported = true

/-- The progress flags of one LSQ entry. -/
structure LsqEntry.Local (le : LsqEntry) : Prop where
  store : le.isStore = true → le.issued = false ∧ le.done = false ∧ le.reported = false
  load_issued : le.issued = true → le.addrValid = true
  load_done : le.done = true → le.addrValid = true
  load_reported : le.reported = true → le.done = true

/-- The ROB index of an LSQ slot. -/
def lsqRob (q : LSQ) (j : Nat) : Nat := (q.at' j).robIdx

/-- The load/store queue matches the reorder buffer, entry by entry. -/
structure LsqOk (r : Ring RobEntry) (q : LSQ) : Prop where
  wf : q.Wf
  /-- The LSQ holds the memory operations of the ROB, in order. -/
  slots : q.ring.slots.map (lsqRob q) = r.slots.filter fun i => (r.e i).isMem
  agrees : ∀ j ∈ q.ring.slots, LsqMatch (r.e (lsqRob q j)) (q.at' j)
  flags : ∀ j ∈ q.ring.slots, (q.at' j).Local

/-- A memory operation that has no address yet names its LSQ slot. -/
structure LsqNames (q : LSQ) (robIdx lsqIdx : Nat) : Prop where
  live : lsqIdx ∈ q.ring.slots
  robIdx : lsqRob q lsqIdx = robIdx
  unresolved : (q.at' lsqIdx).addrValid = false

/-! ## The issue queue and the units -/

/-- What an occupied issue-queue slot says. -/
structure IqNames (r : Ring RobEntry) (q : LSQ) (s : Nat) (x : IqEntry) : Prop where
  live : s ∈ r.slots
  robIdx : x.robIdx = s
  seq : x.seq = robSeq r s
  unit : x.unit = fuKindOf (r.e s).ins.op
  notSystem : (r.e s).isSystem = false
  lsq : (r.e s).isMem = true → LsqNames q s x.lsqIdx

/-- Each entry of the issue queue waits for a live instruction that has not issued. -/
structure IqOk (r : Ring RobEntry) (q : LSQ) (iq : IssueQueue) : Prop where
  wf : iq.Wf
  robSize : iq.robSize = r.capacity
  names : ∀ s, iq.occupied s = true → IqNames r q s (iq.e s)

/-- The units of `units` hold ops of live instructions, none of them a memory operation. -/
structure UnitsOk (r : Ring RobEntry) (us : List FuUnit) : Prop where
  wf : ∀ u ∈ us, u.Wf
  names : ∀ u ∈ us, ∀ op ∈ u.ops, OpNames r op ∧ (r.e op.robIdx).isMem = false

/-- The address-generation units hold ops of live memory operations, each with its LSQ slot. -/
structure AgusOk (r : Ring RobEntry) (q : LSQ) (us : List FuUnit) : Prop where
  wf : ∀ u ∈ us, u.Wf
  names : ∀ u ∈ us, ∀ op ∈ u.ops, OpNames r op ∧ LsqNames q op.robIdx op.lsqIdx

/-- A load output names a load whose LSQ entry has been reported. -/
structure LoadNames (r : Ring RobEntry) (q : LSQ) (op : FuOp) : Prop where
  names : OpNames r op
  load : isLoad (r.e op.robIdx).ins.op = true
  lsq : ∃ j ∈ q.ring.slots, lsqRob q j = op.robIdx ∧ (q.at' j).reported = true ∧
    (q.at' j).value = op.value

/-- The load output slots hold results of live loads. -/
def LoadsOk (r : Ring RobEntry) (q : LSQ) (outs : List FuOp) : Prop :=
  ∀ op ∈ outs, op.valid = true → LoadNames r q op

/-- The pointers of `wbReady` are the output slots that hold a result, each once. -/
structure ReadyOk (us : List FuUnit) (outs : List FuOp) (ready : List OutSlot) : Prop where
  nodup : ready.Nodup
  mem_unit : ∀ i, OutSlot.unit i ∈ ready ↔ (us[i]?.getD default).out.valid = true
  mem_load : ∀ j, OutSlot.load j ∈ ready ↔ (outs[j]?.getD {}).valid = true

/-! ## Each unfinished instruction is in one place -/

/-- An LSQ entry holds its instruction between address resolution and completion: a load
until it is reported, a store until it has its data. -/
def LsqEntry.holds (le : LsqEntry) : Bool :=
  le.isCandidate || le.isPending || le.isUnreported || (le.addrValid && le.isWaiting)

/-- The instructions in the issue queue. -/
def iqHeld (iq : IssueQueue) : Multiset Nat :=
  tally (List.range iq.robSize) iq.occupied fun s => (iq.e s).seq

/-- The sequence numbers of the ops in a list. -/
def opSeqs (ops : List FuOp) : Multiset Nat := ↑(ops.map FuOp.seq)

/-- The instructions in some functional units, their output slots included. -/
def unitsHeld (us : List FuUnit) : Multiset Nat := bag us fun u => opSeqs u.ops

/-- The instructions in the load output slots. -/
def outsHeld (outs : List FuOp) : Multiset Nat := bag outs fun op => single op.valid op.seq

/-- The memory operations whose next step is in the LSQ: a load with an address until it is
reported, and a store that has its address and waits for its data. -/
def lsqHeld (q : LSQ) : Multiset Nat :=
  tally q.ring.slots (fun j => (q.at' j).holds) fun j => (q.at' j).seq

/-- The entries that are not done. -/
def unfinished (r : Ring RobEntry) : Multiset Nat :=
  tally r.slots (fun i => !(r.e i).done) (robSeq r)

/-- Everything the five containers hold. -/
def heldBy (q : LSQ) (iq : IssueQueue) (us agus : List FuUnit) (outs : List FuOp) : Multiset Nat :=
  iqHeld iq + unitsHeld us + unitsHeld agus + outsHeld outs + lsqHeld q

/-- The conservation law. -/
def Held (r : Ring RobEntry) (q : LSQ) (iq : IssueQueue) (us agus : List FuUnit)
    (outs : List FuOp) : Prop :=
  heldBy q iq us agus outs = unfinished r

/-- The invariant of the back end: each structure is well formed and names live instructions, and
each instruction that is not done is held in exactly one of them. -/
structure BackOk {M : Type} (c : OoOCore M) : Prop where
  rob : RobOk c.rob c.seqCtr
  lsq : LsqOk c.rob c.lsq
  iq : IqOk c.rob c.lsq c.iq
  units : UnitsOk c.rob c.units
  agus : AgusOk c.rob c.lsq c.agus
  loads : LoadsOk c.rob c.lsq c.loadOuts
  ready : ReadyOk c.units c.loadOuts c.wbReady
  held : Held c.rob c.lsq c.iq c.units c.agus c.loadOuts

/-! ## First consequences -/

section Rob

variable {r : Ring RobEntry} {seqCtr : Nat}

/-- A sequence number names one live entry. -/
theorem RobOk.seq_inj (h : RobOk r seqCtr) {i j : Nat} (hi : i ∈ r.slots) (hj : j ∈ r.slots)
    (he : robSeq r i = robSeq r j) : i = j := by
  have hnd : (r.slots.map (robSeq r)).Nodup := h.sorted.imp fun hlt => Nat.ne_of_lt hlt
  exact List.inj_on_of_nodup_map hnd hi hj he

/-- No unfinished number occurs twice. -/
theorem unfinished_nodup (h : RobOk r seqCtr) : (unfinished r).Nodup := by
  have hnd : (r.slots.map (robSeq r)).Nodup := h.sorted.imp fun hlt => Nat.ne_of_lt hlt
  refine Multiset.coe_nodup.mpr (List.Nodup.map_on ?_ ((Ring.slots_nodup h.wf).filter _))
  intro i hi j hj he
  exact h.seq_inj (List.mem_filter.mp hi).1 (List.mem_filter.mp hj).1 he

theorem mem_unfinished {s : Nat} :
    s ∈ unfinished r ↔ ∃ i ∈ r.slots, (r.e i).done = false ∧ robSeq r i = s := by
  simp [unfinished, mem_tally]

/-- A live entry is unfinished exactly when its sequence number is. -/
theorem RobOk.mem_unfinished_iff (h : RobOk r seqCtr) {i : Nat} (hi : i ∈ r.slots) :
    robSeq r i ∈ unfinished r ↔ (r.e i).done = false := by
  rw [mem_unfinished]
  constructor
  · rintro ⟨j, hj, hd, he⟩
    rw [← h.seq_inj hj hi he]
    exact hd
  · exact fun hd => ⟨i, hi, hd, rfl⟩

end Rob

/-! ## Changing fields that are written after dispatch -/

section Same

variable {r r' : Ring RobEntry}

theorem SameStatic.refl (r : Ring RobEntry) : SameStatic r r := ⟨rfl, id, rfl, fun _ => rfl⟩

theorem SameStatic.set {idx : Nat} {e : RobEntry} (he : e.static = (r.e idx).static) :
    SameStatic r (r.set idx e) := by
  refine ⟨Ring.slots_set r idx e, fun h => h.set idx e, rfl, ?_⟩
  intro i
  by_cases hi : i = idx
  · subst hi
    simpa using he
  · simp [hi]

theorem SameStatic.seq (h : SameStatic r r') : robSeq r' = robSeq r :=
  funext fun i => (congrArg RobEntry.seq (h.static i) :)

theorem SameStatic.isMem (h : SameStatic r r') (i : Nat) : (r'.e i).isMem = (r.e i).isMem :=
  (congrArg RobEntry.isMem (h.static i) :)

theorem SameStatic.ins (h : SameStatic r r') (i : Nat) : (r'.e i).ins = (r.e i).ins :=
  (congrArg RobEntry.ins (h.static i) :)

theorem SameStatic.isSystem (h : SameStatic r r') (i : Nat) :
    (r'.e i).isSystem = (r.e i).isSystem :=
  (congrArg RobEntry.isSystem (h.static i) :)

theorem SameStatic.pdst (h : SameStatic r r') (i : Nat) : (r'.e i).pdst = (r.e i).pdst :=
  (congrArg RobEntry.pdst (h.static i) :)

/-- The ROB's invariant reads the static part of its entries and that done ones stay done. -/
theorem RobOk.same {seqCtr : Nat} (h : RobOk r seqCtr) (hs : SameStatic r r')
    (hd : ∀ i ∈ r.slots, (r.e i).done = true → (r'.e i).done = true) : RobOk r' seqCtr := by
  refine ⟨hs.wf h.wf, ?_, ?_, ?_, ?_⟩
  · rw [hs.slots, hs.seq]
    exact h.sorted
  · rw [hs.slots, hs.seq]
    exact h.seq_lt
  · rw [hs.slots]
    intro i hi
    have hc := h.consistent i hi
    refine ⟨?_, ?_, ?_, ?_, ?_⟩
    · rw [hs.isMem, hs.ins]
      exact hc.isMem
    · rw [hs.isSystem, hs.ins]
      exact hc.isSystem
    · rw [show (r'.e i).isBranch = (r.e i).isBranch from (congrArg RobEntry.isBranch (hs.static i) :),
        hs.ins]
      exact hc.isBranch
    · rw [hs.pdst, hs.ins]
      exact hc.hasDest
    · rw [hs.isSystem]
      exact fun hsys => hd i hi (hc.system_done hsys)
  · rw [hs.slots]
    intro i hi hsys
    rw [hs.isSystem] at hsys
    exact h.alone i hi hsys

theorem OpNames.same {op : FuOp} (h : OpNames r op) (hs : SameStatic r r') : OpNames r' op := by
  refine ⟨?_, ?_, ?_⟩
  · rw [hs.slots]
    exact h.live
  · rw [hs.seq]
    exact h.seq
  · rw [hs.pdst]
    exact h.pdst

/-- The units' invariant reads the static part of the ROB only. -/
theorem UnitsOk.same {us : List FuUnit} (h : UnitsOk r us) (hs : SameStatic r r') :
    UnitsOk r' us := by
  refine ⟨h.wf, ?_⟩
  intro u hu op hop
  obtain ⟨h1, h2⟩ := h.names u hu op hop
  exact ⟨h1.same hs, by rw [hs.isMem]; exact h2⟩

theorem AgusOk.same {q : LSQ} {us : List FuUnit} (h : AgusOk r q us) (hs : SameStatic r r') :
    AgusOk r' q us :=
  ⟨h.wf, fun u hu op hop => ⟨(h.names u hu op hop).1.same hs, (h.names u hu op hop).2⟩⟩

theorem LoadsOk.same {q : LSQ} {outs : List FuOp} (h : LoadsOk r q outs) (hs : SameStatic r r') :
    LoadsOk r' q outs := by
  intro op hop hv
  have hn := h op hop hv
  exact ⟨hn.names.same hs, by rw [hs.ins]; exact hn.load, hn.lsq⟩

theorem IqOk.same {q : LSQ} {iq : IssueQueue} (h : IqOk r q iq) (hs : SameStatic r r') :
    IqOk r' q iq := by
  refine ⟨h.wf, h.robSize.trans hs.capacity.symm, ?_⟩
  intro s ho
  have hn := h.names s ho
  refine ⟨?_, hn.robIdx, ?_, ?_, ?_, ?_⟩
  · rw [hs.slots]
    exact hn.live
  · rw [hs.seq]
    exact hn.seq
  · rw [hs.ins]
    exact hn.unit
  · rw [hs.isSystem]
    exact hn.notSystem
  · rw [hs.isMem]
    exact hn.lsq

/-- The LSQ's invariant reads the static part of the ROB, and that no memory access was made done.
-/
theorem LsqOk.same {q : LSQ} (h : LsqOk r q) (hs : SameStatic r r')
    (hd : ∀ j ∈ q.ring.slots, (r'.e (lsqRob q j)).done = true →
      (r.e (lsqRob q j)).done = true ∨
        ((q.at' j).isStore = true → (q.at' j).addrValid = true ∧ (q.at' j).dataReady = true) ∧
          ((q.at' j).isStore = false → (q.at' j).reported = true)) : LsqOk r' q := by
  refine ⟨h.wf, ?_, ?_, h.flags⟩
  · rw [h.slots, hs.slots]
    apply List.filter_congr
    intro i _
    rw [hs.isMem]
  · intro j hj
    have hm := h.agrees j hj
    have hst := hs.static (lsqRob q j)
    refine ⟨hm.seq.trans (congrArg RobEntry.seq hst).symm, hm.pc.trans (congrArg RobEntry.pc hst).symm,
      ?_, ?_, ?_, ?_, ?_⟩
    · rw [hs.ins]
      exact hm.op
    · rw [hs.ins]
      exact hm.isStore
    · rw [hs.pdst]
      exact hm.pdst
    · intro hstore hdone
      rcases hd j hj hdone with h0 | ⟨h1, -⟩
      · exact hm.store_done hstore h0
      · exact h1 hstore
    · intro hload hdone
      rcases hd j hj hdone with h0 | ⟨-, h2⟩
      · exact hm.load_done hload h0
      · exact h2 hload

/-- Rewriting the dynamic fields of one entry, which stays done if it was. -/
theorem RobOk.set {seqCtr idx : Nat} {e : RobEntry} (h : RobOk r seqCtr)
    (he : e.static = (r.e idx).static) (hd : (r.e idx).done = true → e.done = true) :
    RobOk (r.set idx e) seqCtr := by
  apply h.same (SameStatic.set he)
  intro i _ hi
  by_cases hii : i = idx
  · subst hii
    rw [Ring.set_e, Function.update_self]
    exact hd hi
  · rw [Ring.set_e, Function.update_of_ne hii]
    exact hi

/-- The LSQ entry of an entry that becomes done must be finished. -/
theorem LsqOk.set {q : LSQ} {idx : Nat} {e : RobEntry} (h : LsqOk r q)
    (he : e.static = (r.e idx).static)
    (hd : ∀ j ∈ q.ring.slots, lsqRob q j = idx → e.done = true →
      ((q.at' j).isStore = true → (q.at' j).addrValid = true ∧ (q.at' j).dataReady = true) ∧
        ((q.at' j).isStore = false → (q.at' j).reported = true)) : LsqOk (r.set idx e) q := by
  apply h.same (SameStatic.set he)
  intro j hj hdone
  by_cases hji : lsqRob q j = idx
  · rw [hji, Ring.set_e, Function.update_self] at hdone
    exact Or.inr (hd j hj hji hdone)
  · rw [Ring.set_e, Function.update_of_ne hji] at hdone
    exact Or.inl hdone

/-- Finishing one live entry takes it out of the unfinished ones. -/
theorem unfinished_set (h : r.Wf) {idx : Nat} {e : RobEntry} (hi : idx ∈ r.slots)
    (hs : e.seq = robSeq r idx) :
    unfinished (r.set idx e) + single (!(r.e idx).done) (robSeq r idx) =
      unfinished r + single (!e.done) (robSeq r idx) := by
  unfold unfinished
  rw [Ring.slots_set]
  have := tally_change (Ring.slots_nodup h) hi (p := fun i => !(r.e i).done)
    (q := fun i => !((r.set idx e).e i).done) (f := robSeq r) (g := robSeq (r.set idx e)) ?_
  · rw [this]
    simp [robSeq, hs]
  · intro i _ hne
    simp [robSeq, hne]

end Same

end RvO3
