import RvO3.Core.WorkSets
import Mathlib.Logic.Relation

/-!
# The core changes its LSQ by allowed operations only

Each elementary step of the core is a short sequence of `LsqOp`s, each of them allowed
where it is made, and `Justified` says what the core has checked before it makes one. So
a fact about LSQ entries needs one case for each operation, not one for each step, and the
work sets are exact in every state the core reaches.
-/

set_option autoImplicit false

namespace RvO3

open OoOCore

/-! ## Sequences of operations with a common property -/

/-- One allowed operation with property `J`. -/
def LsqStep (J : LsqOp → Prop) (q q' : LSQ) : Prop := ∃ op : LsqOp, J op ∧ op.Allowed q ∧ q' = op.run q

/-- Any number of changes, each of the allowed kind. -/
abbrev LsqSteps (J : LsqOp → Prop) : LSQ → LSQ → Prop := Relation.ReflTransGen (LsqStep J)

/-- At most one such operation. -/
abbrev LsqOnce (J : LsqOp → Prop) : LSQ → LSQ → Prop := Relation.ReflGen (LsqStep J)

section Steps

variable {J K : LsqOp → Prop} {q q' : LSQ} {size : Nat}

theorem LsqSteps.mono (hJK : ∀ op, J op → K op) (h : LsqSteps J q q') : LsqSteps K q q' := by
  induction h with
  | refl => exact .refl
  | tail _ hs ih =>
      obtain ⟨op, hj, ha, rfl⟩ := hs
      exact ih.tail ⟨op, hJK op hj, ha, rfl⟩

theorem LsqOnce.mono (hJK : ∀ op, J op → K op) (h : LsqOnce J q q') : LsqOnce K q q' := by
  cases h with
  | refl => exact .refl
  | single hs =>
      obtain ⟨op, hj, ha, rfl⟩ := hs
      exact .single ⟨op, hJK op hj, ha, rfl⟩

theorem LsqOnce.one (op : LsqOp) (hj : J op) (ha : op.Allowed q) : LsqOnce J q (op.run q) :=
  .single ⟨op, hj, ha, rfl⟩

/-- What every operation keeps, a sequence of them keeps. -/
theorem LsqSteps.preserve {I : LSQ → Prop}
    (hI : ∀ {q : LSQ} {op : LsqOp}, J op → op.Allowed q → I q → I (op.run q))
    (h : LsqSteps J q q') (hq : I q) : I q' := by
  induction h with
  | refl => exact hq
  | tail _ hs ih =>
      obtain ⟨op, hj, ha, rfl⟩ := hs
      exact hI hj ha ih

/-- A run of the LSQ goes on through the steps of the core. -/
theorem LsqRun.steps (h : LsqRun size q) (hs : LsqSteps J q q') : LsqRun size q' :=
  hs.preserve (I := LsqRun size) (fun _ ha hq => hq.step _ ha) h

/-- The tail of the queue goes entry by entry. -/
theorem LsqSteps.squash (seq n : Nat) : ∀ {q : LSQ},
    LsqSteps (fun op => op = .popTail) q (squashLsq seq n q) := by
  induction n with
  | zero => exact .refl
  | succ n ih =>
      intro q
      unfold squashLsq
      split
      · rename_i hc
        refine .head ⟨.popTail, rfl, ?_, rfl⟩ ih
        simpa [LsqOp.Allowed, Ring.empty] using hc.1
      · exact .refl

/-- A candidate is a live entry that `completeLoad` and `issueLoad` may be applied to. -/
theorem LSQ.Wf.candidate {q : LSQ} (h : q.Wf) {slot : Nat} (hc : q.candidates slot = true) :
    slot ∈ q.ring.slots ∧ (q.at' slot).isCandidate = true := by
  rw [h.candidates, LSQ.liveSet, Bool.and_eq_true, decide_eq_true_eq] at hc
  exact hc

end Steps

/-! ## The oldest member of a work set -/

section Oldest

variable {q : LSQ}

/-- What no member of a work set is older than, is not younger than any member. -/
theorem LSQ.Ordered.le_of_before (h : q.Ordered) {p : LsqEntry → Bool} {s : SlotSet}
    (hs : s = q.liveSet p) {seq : Nat} (hb : before (q.oldestSeq s) seq = false) {j : Nat}
    (hj : j ∈ q.ring.slots) (hp : p (q.at' j) = true) : seq ≤ (q.at' j).seq := by
  have hmem : (q.at' j).seq ∈ (q.ring.slots.filter fun j => p (q.at' j)).map fun j => (q.at' j).seq :=
    List.mem_map_of_mem (List.mem_filter.mpr ⟨hj, hp⟩)
  rw [hs, h.oldestSeq] at hb
  cases hm : ((q.ring.slots.filter fun j => p (q.at' j)).map fun j => (q.at' j).seq).min? with
  | none =>
      rw [List.min?_eq_none_iff.mp hm] at hmem
      cases hmem
  | some b =>
      rw [hm] at hb
      have hle := (List.min?_eq_some_iff.mp hm).2 _ hmem
      have hge : seq ≤ b := by simpa [before] using hb
      exact Nat.le_trans hge hle

/-- Live entries with one sequence number are the same. -/
theorem LSQ.Ordered.seq_inj (h : q.Ordered) {i j : Nat} (hi : i ∈ q.ring.slots)
    (hj : j ∈ q.ring.slots) (he : (q.at' i).seq = (q.at' j).seq) : i = j :=
  List.inj_on_of_nodup_map (h.sorted.imp fun hlt => Nat.ne_of_lt hlt) hi hj he

end Oldest

/-! ## What an operation does to the entries -/

/-- The entry at slot `j` after an operation that leaves it live. -/
def LsqOp.rewrite : LsqOp → Nat → LsqEntry → LsqEntry
  | .resolve slot addr size, j, le =>
      if j = slot then { le with addr := addr, size := size, addrValid := true } else le
  | .capture slot v, j, le => if j = slot then { le with data := v, dataReady := true } else le
  | .issueLoad slot, j, le => if j = slot then { le with issued := true } else le
  | .completeLoad slot v, j, le => if j = slot then { le with value := v, done := true } else le
  | .reportLoad slot, j, le => if j = slot then { le with reported := true } else le
  | _, _, le => le

/-- What an operation may have done with the slot `j` of the queue it leads to. -/
inductive SlotAfter (q : LSQ) (j : Nat) : LsqOp → LsqEntry → Prop
  | old {op : LsqOp} : j ∈ q.ring.slots → SlotAfter q j op (op.rewrite j (q.at' j))
  | new {e : RobEntry} {robIdx ps2 : Nat} {prf : PhysRegFile} : j ∉ q.ring.slots →
      SlotAfter q j (.dispatch e robIdx ps2 prf) (dispatchedEntry q e robIdx ps2 prf)

section Entries

variable {q : LSQ} {op : LsqOp} {j : Nat}

/-- What one operation leaves in a live slot: the entry before it, rewritten as the operation says,
or the entry it pushes. -/
theorem LsqOp.slotAfter (hwf : q.Wf) (ha : op.Allowed q) (hj : j ∈ (op.run q).ring.slots) :
    SlotAfter q j op ((op.run q).at' j) := by
  have hold : ∀ {le : LsqEntry}, j ∈ q.ring.slots → le = op.rewrite j (q.at' j) →
      SlotAfter q j op le := by
    rintro le hmem rfl
    exact .old hmem
  -- an operation that rewrites one entry in place
  have hset : ∀ (slot : Nat) (f : LsqEntry → LsqEntry),
      (op.run q).ring = q.ring.set slot (f (q.at' slot)) →
      (if j = slot then f (q.at' j) else q.at' j) = op.rewrite j (q.at' j) →
      SlotAfter q j op ((op.run q).at' j) := by
    intro slot f hring hf
    rw [hring, Ring.slots_set] at hj
    apply hold hj
    rw [← hf, LSQ.at', hring, Ring.set_e, Function.update_apply]
    split
    · rename_i he
      rw [he]
    · rfl
  cases op with
  | dispatch e robIdx ps2 prf =>
      have hp := pushedLsq hwf ha.1 e robIdx ps2 prf
      rcases List.mem_append.mp (hp.slots ▸ hj) with hmem | hmem
      · exact hold hmem (hp.old j hmem)
      · obtain rfl := List.mem_singleton.mp hmem
        rw [show (LsqOp.dispatch e robIdx ps2 prf).run q = dispatchLsq q e robIdx ps2 prf from rfl,
          hp.new]
        exact .new hp.fresh
  | resolve slot addr size =>
      refine hset slot (fun le => { le with addr := addr, size := size, addrValid := true }) ?_ rfl
      unfold LsqOp.run LSQ.resolveAddress
      dsimp only
      split <;> simp [LSQ.setEntry, LSQ.at']
  | capture slot v => exact hset slot (fun le => { le with data := v, dataReady := true }) rfl rfl
  | issueLoad slot => exact hset slot (fun le => { le with issued := true }) rfl rfl
  | completeLoad slot v => exact hset slot (fun le => { le with value := v, done := true }) rfl rfl
  | reportLoad slot => exact hset slot (fun le => { le with reported := true }) rfl rfl
  | popHead =>
      have hmem : j ∈ q.ring.slots := by
        have hj' : j ∈ q.ring.popHead.slots := hj
        rw [Ring.slots_popHead hwf.ring] at hj'
        exact List.mem_of_mem_tail hj'
      exact hold hmem rfl
  | popTail =>
      have hmem : j ∈ q.ring.slots := by
        have hj' : j ∈ q.ring.popTail.slots := hj
        rw [Ring.slots_popTail] at hj'
        exact List.mem_of_mem_dropLast hj'
      exact hold hmem rfl

end Entries

/-! ### Generations -/

/-- Every live entry carries the generation of its slot. -/
def LSQ.GenOk (q : LSQ) : Prop := ∀ j ∈ q.ring.slots, (q.at' j).gen = q.genCtr j % 2 ^ 16

section Generations

variable {q : LSQ} {op : LsqOp}

/-- Only an allocation advances a slot's count, and only that of the slot it takes. -/
theorem LsqOp.genCtr_run (op : LsqOp) (q : LSQ) :
    (op.run q).genCtr = match op with
      | .dispatch _ _ _ _ =>
          Function.update q.genCtr q.ring.allocIdx (q.genCtr q.ring.allocIdx + 1)
      | _ => q.genCtr := by
  cases op with
  | dispatch e robIdx ps2 prf =>
      show (dispatchLsq q e robIdx ps2 prf).genCtr = _
      rw [dispatchLsq_eq]
  | resolve slot addr size =>
      unfold LsqOp.run LSQ.resolveAddress
      dsimp only
      split <;> rfl
  | capture slot v => rfl
  | issueLoad slot => rfl
  | completeLoad slot v => rfl
  | reportLoad slot => rfl
  | popHead => rfl
  | popTail => rfl

/-- A live entry keeps its slot's count; a slot that is taken gets the next one. -/
theorem LsqOp.genCtr_live (hq : q.Wf) (ha : op.Allowed q) {j : Nat} (hj : j ∈ q.ring.slots) :
    (op.run q).genCtr j = q.genCtr j := by
  rw [op.genCtr_run q]
  cases op with
  | dispatch e robIdx ps2 prf =>
      exact Function.update_of_ne (LSQ.ne_allocIdx hq ha.1 hj) _ _
  | _ => rfl

/-- No rewrite of an entry moves its generation. -/
theorem LsqOp.rewrite_gen (op : LsqOp) (j : Nat) (le : LsqEntry) :
    (op.rewrite j le).gen = le.gen := by
  cases op <;> simp only [LsqOp.rewrite] <;> split <;> rfl

/-- Every operation of the LSQ keeps each live entry's generation that of its slot. -/
theorem LSQ.GenOk.run (h : q.GenOk) (hq : q.Wf) (ha : op.Allowed q) : (op.run q).GenOk := by
  intro j hj
  have hs := op.slotAfter hq ha hj
  generalize hle : (op.run q).at' j = le at hs
  cases hs with
  | old hmem => rw [LsqOp.rewrite_gen, op.genCtr_live hq ha hmem, h j hmem]
  | new hnot =>
      have hp := pushedLsq hq ha.1
      rename_i e robIdx ps2 prf
      have hmem := (hp e robIdx ps2 prf).slots ▸ hj
      rcases List.mem_append.mp hmem with hold | hnew
      · exact absurd hold hnot
      · obtain rfl := List.mem_singleton.mp hnew
        rw [LsqOp.genCtr_run]
        dsimp only
        rw [Function.update_self]
        rfl

/-- A live entry's generation fits in its field of the tag. -/
theorem LSQ.GenOk.gen_lt (h : q.GenOk) {j : Nat} (hj : j ∈ q.ring.slots) :
    (q.at' j).gen < 2 ^ 16 := by
  rw [h j hj]
  exact Nat.mod_lt _ (by decide)

theorem LsqOp.capacity_run (op : LsqOp) (q : LSQ) : (op.run q).ring.capacity = q.ring.capacity := by
  cases op with
  | dispatch e robIdx ps2 prf =>
      show (dispatchLsq q e robIdx ps2 prf).ring.capacity = _
      rw [dispatchLsq_eq]
      rfl
  | resolve slot addr size =>
      unfold LsqOp.run LSQ.resolveAddress
      dsimp only
      split <;> rfl
  | capture slot v => rfl
  | issueLoad slot => rfl
  | completeLoad slot v => rfl
  | reportLoad slot => rfl
  | popHead => rfl
  | popTail => rfl

/-- What load tags rely on: generations are current and slots fit 32 bits. -/
structure LSQ.TagOk (q : LSQ) : Prop where
  gen : q.GenOk
  small : q.ring.capacity ≤ 2 ^ 32

theorem LSQ.TagOk.init {size : Nat} (h : size ≤ 2 ^ 32) : (LSQ.init size).TagOk := by
  refine ⟨fun j hj => ?_, h⟩
  rw [show (LSQ.init size).ring.slots = [] from Ring.slots_init size] at hj
  cases hj

end Generations

/-! ## The operations of each step -/

section Core

variable {M : Type} {cfg : SimConfig} {c c' : OoOCore M} {size : Nat}

theorem recover_lsq (hb : BackOk c) (seq : Nat) :
    (c.recover seq).lsq = squashLsq seq c.lsq.ring.n c.lsq := by
  have hwalk := squashRob_spec seq c.rob.n (c.flushBackEnd seq) hb.rob.wf (Nat.le_refl _)
    hb.rob.sorted
  unfold OoOCore.recover
  dsimp only
  rw [hwalk.frame]
  rfl

/-- A replay pops entries off the LSQ's tail, and does nothing else to it. -/
theorem violationScan_steps (hb : BackOk c) (store : LsqEntry) :
    LsqSteps (fun op => op = .popTail) c.lsq (c.violationScan store).lsq := by
  cases hv : c.violationVictim store with
  | none =>
      rw [violationScan_none hv]
  | some slot =>
      rw [violationScan_eq hv]
      have hb' : BackOk (c.replayCall slot) := { hb with }
      dsimp only
      rw [recover_lsq hb']
      exact .squash _ _

/-- Writing a result back leaves the LSQ alone. -/
theorem finish_lsq (c : OoOCore M) (i : Nat) (op : FuOp) (slot : OutSlot) :
    ((c.complete i op).dropOut slot).lsq = c.lsq := by
  cases slot with
  | unit n => unfold OoOCore.dropOut OoOCore.complete; rfl
  | load n => unfold OoOCore.dropOut OoOCore.complete; rfl

theorem mispredictCall_lsq (c : OoOCore M) (slot : OutSlot) (e : RobEntry) :
    (c.mispredictCall slot e).lsq = (c.dropOut slot).lsq := by
  cases slot with
  | unit n => unfold OoOCore.mispredictCall OoOCore.dropOut; rfl
  | load n => unfold OoOCore.mispredictCall OoOCore.dropOut; rfl

/-- A mispredict pops entries off the LSQ's tail; a write back without one leaves the LSQ alone. -/
theorem writebackOne_steps (hb : BackOk c) (hne : c.wbReady ≠ []) :
    LsqSteps (fun op => op = .popTail) c.lsq c.writebackOne.1.lsq := by
  obtain ⟨slot, hs, ⟨heq, -⟩ | ⟨heq, -⟩⟩ := writebackOne_cases hne
  · rw [heq, finish_lsq]
  · rw [heq, mispredict_eq]
    have hb' := (hb.finishResult hs).mispredictCall
      (resolve (c.rob.e (c.outAt slot).robIdx) (c.outAt slot))
    dsimp only
    rw [recover_lsq hb', mispredictCall_lsq, finish_lsq]
    exact .squash _ _

/-- Capturing a store's data is one operation at most, taken when the register is ready. -/
theorem captureStore_once (c : OoOCore M) {slot : Nat} (hj : slot ∈ c.lsq.ring.slots) :
    LsqOnce (fun op => op = .capture slot (c.prf.val (c.lsq.at' slot).dataPreg) ∧
      c.prf.ready (c.lsq.at' slot).dataPreg = true) c.lsq (c.captureStore slot).lsq := by
  unfold OoOCore.captureStore
  dsimp only
  split
  · rename_i hw
    simp only [Bool.and_eq_true] at hw
    have hstep : LsqOnce (fun op => op = .capture slot (c.prf.val (c.lsq.at' slot).dataPreg) ∧
        c.prf.ready (c.lsq.at' slot).dataPreg = true) c.lsq
        (c.lsq.captureStoreData slot (c.prf.val (c.lsq.at' slot).dataPreg)) :=
      .one (.capture slot _) ⟨rfl, hw.2⟩ ⟨hj, by rw [LsqEntry.isWaiting, hw.1.1, hw.1.2]; rfl⟩
    split <;> exact hstep
  · exact .refl

theorem surfaceLoad_once (c : OoOCore M) {slot : Nat} (hj : slot ∈ c.lsq.ring.slots) (k : Nat) :
    LsqOnce (fun op => op = .reportLoad slot) c.lsq (c.surfaceLoad slot k).1.lsq := by
  unfold OoOCore.surfaceLoad
  dsimp only
  split
  · rename_i hu
    split
    · exact .refl
    · exact .one (.reportLoad slot) rfl ⟨hj, hu⟩
  · exact .refl

/-- Dispatch pushes one entry at most. -/
theorem dispatchOne_once (hb : BackOk c) (first : Bool) :
    LsqOnce (fun op => ∃ e robIdx ps2 prf, op = .dispatch e robIdx ps2 prf) c.lsq
      (c.dispatchOne first).1.lsq := by
  rcases dispatchOne_cases c first with heq | ⟨-, heq⟩ | ⟨hr, heq⟩
  · rw [heq]
  · rw [heq]
    exact .refl
  · rw [heq, dispatchOp_eq]
    dsimp only
    split
    · rename_i hm
      refine .one (.dispatch _ _ _ _) ⟨_, _, _, _, rfl⟩ ⟨hr.lsq hm, fun j hj => ?_⟩
      -- every live entry is older than the one being dispatched
      rw [hb.lsq.seq_eq hj]
      exact hb.rob.seq_lt _ (hb.lsq.rob_mem hj).1
    · exact .refl

/-- A reply completes a pending load, or none when its tag is stale. -/
theorem loadReply_once {q : LSQ} (hq : q.Wf) (tag : Nat) (data : Word) :
    LsqOnce (fun op => ∃ slot v, op = .completeLoad slot v ∧ (q.at' slot).isPending = true) q
      (loadReply q tag data) := by
  unfold OoOCore.loadReply
  dsimp only
  split
  · rename_i hc
    obtain ⟨hlive, hst, hi, hd, -⟩ := hc
    have hp : (q.at' (tag >>> 16 % 2 ^ 32)).isPending = true := by
      rw [LsqEntry.isPending, hst, hi, hd]
      rfl
    exact .one (.completeLoad _ _) ⟨_, _, rfl, hp⟩
      ⟨(Ring.live_iff hq.ring).mp hlive, Or.inr hp⟩
  · exact .refl

variable [MemPorts Nat M]

/-- Commit pops the LSQ's head at most. -/
theorem commitOne_once (hb : BackOk c) {b : Bool} (hne : c.rob.empty = false)
    (hc : c.commitOne = .ok (c', b)) : LsqOnce (fun op => op = .popHead) c.lsq c'.lsq := by
  rcases commitOne_cases hc with ⟨rfl, -⟩ | ⟨rec, hs, -⟩ | ⟨hs, -⟩
  · exact .refl
  · obtain ⟨ret, prf, pos, hal, ex, rfl, -⟩ := hs.frame
    exact .refl
  · rw [hs.frame]
    dsimp only
    by_cases hm : c.rob.head.isMem = true
    · rw [if_pos hm]
      obtain ⟨rest, hr⟩ := Ring.slots_eq_cons hb.rob.wf hne
      obtain ⟨qrest, hq, -⟩ := hb.lsq.head_slot hr hm
      refine .one .popHead rfl ?_
      -- the head's LSQ entry is live, so the LSQ is not empty
      show c.lsq.ring.empty = false
      cases he : c.lsq.ring.empty with
      | false => rfl
      | true =>
          rw [(Ring.empty_iff c.lsq.ring).mp he] at hq
          cases hq
    · rw [if_neg hm]

/-- The address generation result that is drained next resolves the entry it names. -/
def Resolves (c : OoOCore M) (op : LsqOp) : Prop :=
  ∃ i, c.readyAgu = some i ∧
    op = .resolve (c.agus[i]?.getD default).out.lsqIdx (c.agus[i]?.getD default).out.value
      (accessSize (c.lsq.at' (c.agus[i]?.getD default).out.lsqIdx).op)

/-- An address unit resolves one entry at most. -/
theorem fillOne_once (hb : BackOk c) {i : Nat} (hi : c.readyAgu = some i) :
    LsqOnce (Resolves c) c.lsq (c.fillOne i).lsq := by
  have hl := (hb.delivered hi).lsq
  refine .one (.resolve _ (c.agus[i]?.getD default).out.value _) ⟨i, hi, rfl⟩
    ⟨hl.live, hl.unresolved, ?_⟩
  rcases accessSize_cases (c.lsq.at' (c.agus[i]?.getD default).out.lsqIdx).op with hs | hs | hs <;>
    omega

theorem aguDrainOne_steps (hb : BackOk c) {i : Nat} (hi : c.readyAgu = some i) :
    LsqSteps (fun op => op = .popTail) (c.fillOne i).lsq (c.aguDrainOne i).lsq := by
  unfold OoOCore.aguDrainOne
  dsimp only
  split
  · exact violationScan_steps (hb.fillOne hi) _
  · exact .refl

/-! ## Why each operation is made -/

/-- What the core has checked before it completes a load: the response to its access, a
faulting address, or a store that holds its data. -/
inductive Completes (c : OoOCore M) (slot : Nat) : Word → Prop
  | reply {v : Word} : (c.lsq.at' slot).isPending = true → Completes c slot v
  | fault : c.lsq.candidates slot = true → (c.rob.e (c.lsq.at' slot).robIdx).fault ≠ 0 →
      Completes c slot 0
  | forward {data : Word} : c.MayGo slot → c.verdict slot = .forward data →
      Completes c slot (extendLoad (c.lsq.at' slot).op data)

/-- What the core has checked before it makes a change. -/
def Justified (c : OoOCore M) : LsqOp → Prop
  | .resolve slot addr size => Resolves c (.resolve slot addr size)
  | .capture slot v =>
      v = c.prf.val (c.lsq.at' slot).dataPreg ∧ c.prf.ready (c.lsq.at' slot).dataPreg = true
  | .issueLoad slot => c.MayGo slot ∧ c.verdict slot = .clear
  | .completeLoad slot v => Completes c slot v
  | _ => True

/-- The shapes an action's change of the LSQ can have. -/
inductive LsqChange (c : OoOCore M) (q : LSQ) : Prop
  /-- At most one operation, for the reason the core has checked. -/
  | once : LsqOnce (Justified c) c.lsq q → LsqChange c q
  /-- A recovery, after a mispredict. -/
  | squash : LsqSteps (fun op => op = .popTail) c.lsq q → LsqChange c q
  /-- An address resolves, and a replay may follow. -/
  | drain {q₁ : LSQ} : LsqOnce (Resolves c) c.lsq q₁ → LsqSteps (fun op => op = .popTail) q₁ q →
      LsqChange c q

/-- Does an operation give an entry its address? -/
def LsqOp.isResolve : LsqOp → Bool
  | .resolve _ _ _ => true
  | _ => false

/-- An action drains an address-generation result, or changes the LSQ by at most one operation,
for a checked reason and not a resolving one, or squashes. -/
theorem Action.lsqPlain (ha : Action c c') (hb : BackOk c) :
    (∃ i, c.readyAgu = some i ∧ c' = c.aguDrainOne i) ∨
      LsqOnce (fun op => Justified c op ∧ op.isResolve = false) c.lsq c'.lsq ∨
      LsqSteps (fun op => op = .popTail) c.lsq c'.lsq := by
  have hwf := hb.lsq.wf
  cases ha with
  | commit hne _ _ hc =>
      refine .inr (.inl ((commitOne_once hb hne hc).mono ?_))
      rintro _ rfl
      exact ⟨trivial, rfl⟩
  | writeback hne => exact .inr (.inr (writebackOne_steps hb hne))
  | drain hi => exact .inl ⟨_, hi, rfl⟩
  | response _ =>
      unfold OoOCore.dataResponse
      split
      · exact .inr (.inl .refl)
      · refine .inr (.inl ((loadReply_once hwf _ _).mono ?_))
        rintro _ ⟨slot, v, rfl, hp⟩
        exact ⟨.reply hp, rfl⟩
  | capture hj =>
      refine .inr (.inl ((captureStore_once c hj).mono ?_))
      rintro _ ⟨rfl, hr⟩
      exact ⟨⟨rfl, hr⟩, rfl⟩
  | surface hj _ =>
      refine .inr (.inl ((surfaceLoad_once c hj _).mono ?_))
      rintro _ rfl
      exact ⟨trivial, rfl⟩
  | zero hc hf =>
      obtain ⟨hj, hcand⟩ := hwf.candidate hc
      -- a fault, and data from an older store: the two ways a load completes without memory
      exact .inr (.inl (.one (.completeLoad _ _) ⟨.fault hc hf, rfl⟩ ⟨hj, Or.inl hcand⟩))
  | forward hg hv =>
      obtain ⟨hj, hcand⟩ := hwf.candidate hg.candidate
      exact .inr (.inl (.one (.completeLoad _ _) ⟨.forward hg hv, rfl⟩ ⟨hj, Or.inl hcand⟩))
  | sendLoad hg hv _ hs =>
      obtain ⟨m, rfl⟩ := sendLoad_frame hs
      exact .inr (.inl (.one (.issueLoad _) ⟨⟨hg, hv⟩, rfl⟩ (hwf.candidate hg.candidate)))
  | sendStore _ _ hs =>
      obtain ⟨m, sb, ctr, rfl⟩ := sendStore_frame hs
      exact .inr (.inl .refl)
  | @issue slot u _ _ _ => cases u <;> exact .inr (.inl .refl)
  | dispatch hno =>
      refine .inr (.inl ((dispatchOne_once hb _).mono ?_))
      rintro _ ⟨e, robIdx, ps2, prf, rfl⟩
      exact ⟨trivial, rfl⟩
  | @consume r _ _ =>
      obtain ⟨m, out, stale, pred, q, pc, heq⟩ := consume_frame c r
      rw [heq]
      exact .inr (.inl .refl)
  | redirect =>
      unfold OoOCore.applyRedirect
      split <;> exact .inr (.inl .refl)
  | popAck _ _ => exact .inr (.inl .refl)
  | request _ _ _ _ _ _ _ => exact .inr (.inl .refl)
  | tickUnits => exact .inr (.inl .refl)
  | tickMem _ => exact .inr (.inl .refl)

/-- Every action changes the LSQ by allowed operations, and for a checked reason. -/
theorem Action.lsqChange (ha : Action c c') (hb : BackOk c) : LsqChange c c'.lsq := by
  rcases ha.lsqPlain hb with ⟨i, hi, rfl⟩ | h | h
  · exact .drain (fillOne_once hb hi) (aguDrainOne_steps hb hi)
  · exact .once (h.mono fun _ hj => hj.1)
  · exact .squash h

/-- Every action is a sequence of the LSQ's own operations, each one allowed where it is taken. -/
theorem Action.lsqSteps (ha : Action c c') (hb : BackOk c) : LsqSteps (fun _ => True) c.lsq c'.lsq := by
  cases ha.lsqChange hb with
  | once h => exact (h.mono fun _ _ => trivial).to_reflTransGen
  | squash h => exact h.mono fun _ _ => trivial
  | drain h h' =>
      exact (h.mono fun _ _ => trivial).to_reflTransGen.trans (h'.mono fun _ _ => trivial)

/-- Every action keeps the LSQ in order. -/
theorem Action.lsqOrdered (ha : Action c c') (hb : BackOk c) (h : c.lsq.Ordered) : c'.lsq.Ordered :=
  (ha.lsqSteps hb).preserve (I := LSQ.Ordered) (fun _ ha hq => hq.run ha) h

theorem Action.tagOk (ha : Action c c') (hb : BackOk c) (ho : c.lsq.Ordered) (h : c.lsq.TagOk) :
    c'.lsq.TagOk := by
  have hboth : c'.lsq.Ordered ∧ c'.lsq.TagOk :=
    (ha.lsqSteps hb).preserve (I := fun q => q.Ordered ∧ q.TagOk) (fun {q op} _ hal hq =>
      ⟨hq.1.run hal, hq.2.gen.run hq.1.wf hal, by rw [op.capacity_run]; exact hq.2.small⟩) ⟨ho, h⟩
  exact hboth.2

/-- So a run of the core is a run of its LSQ. -/
theorem Action.lsqRun (ha : Action c c') (hk : CoreOk cfg c) (h : LsqRun size c.lsq) :
    LsqRun size c'.lsq := h.steps (ha.lsqSteps hk.back)

/-! ## The work sets are exact -/

/-- After any sequence of the changes that the core's checks allow, in an LSQ of any capacity, the
work sets are exact and the next change decrements no counter at zero. In every run the core's LSQ
is the result of such a sequence. -/
theorem work_sets_exact :
    (∀ size q, LsqRun size q → WorkSetsExact q ∧ ∀ op : LsqOp, op.Allowed q → op.NoUnderflow q) ∧
      ∀ cfg : SimConfig, cfg.Accepted → ∀ (frames : Bool) (inputs : Nat → Word) (histLen : Nat → Nat)
        (msys : M) (c : OoOCore M), Actions (OoOCore.init cfg frames inputs histLen msys) c →
        LsqRun cfg.lsqSize c.lsq := by
  refine ⟨fun size q h => h.exact, fun cfg hcfg frames inputs histLen msys c h => ?_⟩
  have hboth : CoreOk cfg c ∧ LsqRun cfg.lsqSize c.lsq :=
    Actions.preserve (I := fun c => CoreOk cfg c ∧ LsqRun cfg.lsqSize c.lsq)
      (fun ha hi => ⟨ha.coreOk hcfg hi.1, ha.lsqRun hi.1 hi.2⟩) h
      ⟨init_coreOk frames inputs histLen msys hcfg, .init⟩
  exact hboth.2

end Core

/-- A load that leaves the queue again, a store to the last byte of one word and the first three of
the next, a younger load of that word, and a third load in flight, in the slot of the first. -/
def wrappedOps : List LsqOp :=
  [.dispatch { seq := 1, ins := { op := .LW } } 0 0 {},
    .dispatch { seq := 2, ins := { op := .SW } } 1 5 {},
    .dispatch { seq := 3, ins := { op := .LW } } 2 0 {},
    .resolve 0 0x200#32 4, .issueLoad 0, .completeLoad 0 7, .reportLoad 0, .popHead,
    .dispatch { seq := 4, ins := { op := .LW } } 3 0 {},
    .resolve 1 0x103#32 4, .resolve 2 0x104#32 4, .resolve 0 0x300#32 4, .issueLoad 0]

/-- The store at 0x103 is in the way of a load of either word that it touches, and not of one two
words on; the ring has wrapped. -/
theorem work_sets_exact_wrapped : ∃ q, LsqRun 3 q ∧ q.ring.slots = [1, 2, 0] ∧
    q.visitCandidates = [2] ∧ q.visitOlderStores 0 = [1] ∧ q.oldestPendingLoad = some 4 ∧
    q.mayStoreToWord 0x100#32 = true ∧ q.mayStoreToWord 0x104#32 = true ∧
    q.mayStoreToWord 0x10C#32 = false ∧ WorkSetsExact q ∧
    ∀ op : LsqOp, op.Allowed q → op.NoUnderflow q := by
  have hops : (LsqOp.runAll wrappedOps (LSQ.init 3)).any (fun q => decide (q.ring.slots = [1, 2, 0] ∧
      q.visitCandidates = [2] ∧ q.visitOlderStores 0 = [1] ∧ q.oldestPendingLoad = some 4 ∧
      q.mayStoreToWord 0x100#32 = true ∧ q.mayStoreToWord 0x104#32 = true ∧
      q.mayStoreToWord 0x10C#32 = false)) = true := by decide +kernel
  obtain ⟨q, hq, hp⟩ := (Option.any_eq_true _ _).mp hops
  obtain ⟨hslots, hcand, holder, hpend, hfirst, hsecond, hfar⟩ := of_decide_eq_true hp
  have hrun : LsqRun 3 q := LsqRun.runAll wrappedOps .init hq
  obtain ⟨hexact, hunder⟩ := (@work_sets_exact (MemorySystem Nat) _).1 3 q hrun
  exact ⟨q, hrun, hslots, hcand, holder, hpend, hfirst, hsecond, hfar, hexact, hunder⟩

end RvO3
