import RvO3.Core.LsqSteps

/-!
# What an action does to a live ROB entry

An entry is left alone, learns its outcome at writeback, gets an address and a fault when
its address-generation result drains, or becomes done when its store data is captured.
-/

set_option autoImplicit false

namespace RvO3

open OoOCore

section Rob

variable {M : Type} {c c' : OoOCore M} {i j : Nat}

/-- A recovery keeps the entries that stay. -/
theorem recover_rob_e (hb : BackOk c) (seq : Nat) : (c.recover seq).rob.e = c.rob.e :=
  (recover_spec hb seq).rob.e

theorem violationScan_rob_e (hb : BackOk c) (store : LsqEntry) :
    (c.violationScan store).rob.e = c.rob.e := by
  cases hv : c.violationVictim store with
  | none => rw [violationScan_none hv]
  | some slot =>
      rw [violationScan_eq hv]
      have hb' : BackOk (c.replayCall slot) := { hb with }
      exact recover_rob_e hb' _

/-- The entries of the ROB of `c'` are entries of `c`, up to what is written after dispatch. -/
structure Descends (c c' : OoOCore M) : Prop where
  live : ∀ i ∈ c'.rob.slots, i ∈ c.rob.slots
  static : ∀ i, (c'.rob.e i).static = (c.rob.e i).static

theorem Descends.trans {c'' : OoOCore M} (h : Descends c c') (h' : Descends c' c'') : Descends c c'' :=
  ⟨fun i hi => h.live i (h'.live i hi), fun i => (h'.static i).trans (h.static i)⟩

theorem Quiet.descends (h : Quiet c c') : Descends c c' := by
  refine ⟨fun i hi => ?_, h.rob.static⟩
  rw [h.rob.slots] at hi
  exact hi

theorem descends_recover (hb : BackOk c) (seq : Nat) : Descends c (c.recover seq) := by
  have hs := recover_spec hb seq
  exact ⟨fun i hi => (hs.rob.mem.mp hi).1, fun i => by rw [hs.rob.e]⟩

theorem descends_violationScan (hb : BackOk c) (store : LsqEntry) :
    Descends c (c.violationScan store) := by
  cases hv : c.violationVictim store with
  | none =>
      rw [violationScan_none hv]
      exact ⟨fun _ hi => hi, fun _ => rfl⟩
  | some slot =>
      rw [violationScan_eq hv]
      have hb' : BackOk (c.replayCall slot) := { hb with }
      have h := descends_recover hb' ((c.lsq.at' slot).seq - 1)
      exact ⟨h.live, h.static⟩

theorem descends_writebackOne (hb : BackOk c) (hne : c.wbReady ≠ []) : Descends c c.writebackOne.1 := by
  obtain ⟨slot, hs, ⟨heq, -⟩ | ⟨heq, -⟩⟩ := writebackOne_cases hne
  · rw [heq]
    exact ((quiet_complete c _ _).trans (quiet_dropOut _ slot)).descends
  · rw [heq, mispredict_eq]
    have hb' := (hb.finishResult hs).mispredictCall
      (resolve (c.rob.e (c.outAt slot).robIdx) (c.outAt slot))
    have hq := (quiet_complete c c.oldestReady (c.outAt slot)).trans
      (quiet_mispredictCall _ slot (resolve (c.rob.e (c.outAt slot).robIdx) (c.outAt slot)))
    have h := hq.descends.trans (descends_recover hb' (c.outAt slot).seq)
    exact ⟨h.live, h.static⟩

variable [MemPorts Nat M]

/-- What an action adds to the ROB: nothing, or the instruction it dispatches. -/
inductive RobMoves (c c' : OoOCore M) : Prop
  | kept : Descends c c' → RobMoves c c'
  | system {first : Bool} : SystemRoom c first →
      c' = c.dispatchSystem c.fetchQ.head (decode c.fetchQ.head.raw) → RobMoves c c'
  | op : OpRoom c → c' = c.dispatchOp c.fetchQ.head (decode c.fetchQ.head.raw) → RobMoves c c'

theorem Action.robMoves (ha : Action c c') (hb : BackOk c) : RobMoves c c' := by
  -- an action that leaves the ROB as it is
  have hsame : ∀ {d : OoOCore M}, d.rob = c.rob → RobMoves c d := by
    intro d hd
    exact .kept ⟨fun i hi => by rwa [hd] at hi, fun i => by rw [hd]⟩
  cases ha.flow with
  | commit _ _ hc =>
      rcases commitOne_rob hc with ⟨hr, -⟩ | ⟨hr, -⟩
      · exact hsame hr
      · -- the head leaves; the storage is not written
        refine .kept ⟨fun i hi => ?_, fun i => by rw [hr]; rfl⟩
        rw [hr, Ring.slots_popHead hb.rob.wf] at hi
        exact List.mem_of_mem_tail hi
  | writeback hne => exact .kept (descends_writebackOne hb hne)
  | @drain k hk =>
      have hq := (quiet_fillOne c k).descends
      unfold OoOCore.aguDrainOne
      dsimp only
      split
      · exact .kept (hq.trans (descends_violationScan (hb.fillOne hk) _))
      · exact .kept hq
  | issue _ _ _ => exact .kept (quiet_issueTo _ _ _).descends
  | @dispatch first _ =>
      rcases dispatchOne_cases c first with heq | ⟨hr, heq⟩ | ⟨hr, heq⟩
      · rw [heq]
        exact hsame rfl
      · exact .system hr (by rw [heq])
      · exact .op hr (by rw [heq])
  | tickUnits => exact .kept (quiet_tickUnits c).descends
  | aside h => exact .kept h.quiet.descends

/-- The ROB entry at index `i` after an action. -/
inductive RobAfter (c : OoOCore M) (i : Nat) : RobEntry → Prop
  | same : RobAfter c i (c.rob.e i)
  | resolved {slot : OutSlot} : slot ∈ c.wbReady → i = (c.outAt slot).robIdx →
      RobAfter c i (resolve (c.rob.e i) (c.outAt slot))
  | addressed {k : Nat} {le : LsqEntry} : c.readyAgu = some k →
      i = (c.agus[k]?.getD default).out.robIdx →
      RobAfter c i (addressed (c.rob.e i) le (MemPorts.memSize c.msys))
  | stored {slot : Nat} : slot ∈ c.lsq.ring.slots → (c.lsq.at' slot).isWaiting = true →
      (c.lsq.at' slot).addrValid = true → i = (c.lsq.at' slot).robIdx →
      RobAfter c i { c.rob.e i with done := true }

/-- Of an entry that is rewritten alone, the others stay. -/
theorem RobAfter.set {r : Ring RobEntry} {k : Nat} {e : RobEntry} (hr : r.e = (c.rob.set k e).e)
    (he : i = k → RobAfter c i e) : RobAfter c i (r.e i) := by
  rw [hr, Ring.set_e, Function.update_apply]
  split
  · rename_i hk
    exact he hk
  · exact .same

theorem RobAfter.writeback (hb : BackOk c) (hne : c.wbReady ≠ []) :
    RobAfter c i (c.writebackOne.1.rob.e i) := by
  obtain ⟨slot, hs, ⟨heq, -⟩ | ⟨heq, -⟩⟩ := writebackOne_cases hne
  · rw [heq]
    refine .set (k := (c.outAt slot).robIdx)
      (e := resolve (c.rob.e (c.outAt slot).robIdx) (c.outAt slot)) ?_ ?_
    · cases slot <;> rfl
    · rintro rfl
      exact .resolved (List.mem_of_getElem? hs) rfl
  · rw [heq, mispredict_eq]
    -- the squash that follows leaves the entries as they are
    have hb' := (hb.finishResult hs).mispredictCall
      (resolve (c.rob.e (c.outAt slot).robIdx) (c.outAt slot))
    refine .set (k := (c.outAt slot).robIdx)
      (e := resolve (c.rob.e (c.outAt slot).robIdx) (c.outAt slot)) ?_ ?_
    · apply (recover_rob_e hb' _).trans
      cases slot <;> rfl
    · rintro rfl
      exact .resolved (List.mem_of_getElem? hs) rfl

theorem RobAfter.drain {k : Nat} (hb : BackOk c) (hk : c.readyAgu = some k) :
    RobAfter c i ((c.aguDrainOne k).rob.e i) := by
  have hfill : (c.aguDrainOne k).rob.e = (c.fillOne k).rob.e := by
    unfold OoOCore.aguDrainOne
    dsimp only
    split
    · exact violationScan_rob_e (hb.fillOne hk) _
    · rfl
  refine .set (hfill.trans (congrArg (fun d : OoOCore M => d.rob.e) (fillOne_eq c k))) ?_
  rintro rfl
  exact .addressed hk rfl

theorem RobAfter.capture {slot : Nat} (hj : slot ∈ c.lsq.ring.slots) :
    RobAfter c i ((c.captureStore slot).rob.e i) := by
  unfold OoOCore.captureStore
  dsimp only
  split
  · rename_i hw
    simp only [Bool.and_eq_true] at hw
    have hwait : (c.lsq.at' slot).isWaiting = true := by
      rw [LsqEntry.isWaiting, hw.1.1, hw.1.2]
      rfl
    split
    · rename_i hv
      refine .set rfl ?_
      rintro rfl
      exact .stored hj hwait hv rfl
    · exact .same
  · exact .same

theorem RobAfter.dispatch (hb : BackOk c) (hi : i ∈ c.rob.slots) (first : Bool) :
    RobAfter c i ((c.dispatchOne first).1.rob.e i) := by
  rcases dispatchOne_cases c first with heq | ⟨hr, heq⟩ | ⟨hr, heq⟩
  · rw [heq]
    exact .same
  · rw [heq]
    have hp := pushed hb.rob.wf hr.rob
      { robEntry c.seqCtr c.fetchQ.head (decode c.fetchQ.head.raw) with
        done := true, isSystem := true, sysA0 := c.rmap 10, sysA7 := c.rmap 17 }
    have hold := hp.old i hi
    rw [show (c.dispatchSystem c.fetchQ.head (decode c.fetchQ.head.raw)).rob.e i = c.rob.e i
      from hold]
    exact .same
  · rw [heq, dispatchOp_eq]
    have hold := (pushed hb.rob.wf hr.rob (opEntry c c.fetchQ.head)).old i hi
    dsimp only
    rw [hold]
    exact .same

theorem Action.robAfter (ha : Action c c') (hb : BackOk c) (hi : i ∈ c.rob.slots) :
    RobAfter c i (c'.rob.e i) := by
  cases ha with
  | commit _ _ _ hc =>
      rcases commitOne_rob hc with ⟨hr, -⟩ | ⟨hr, -⟩
      · rw [hr]
        exact .same
      · rw [hr]
        exact .same
  | writeback hne => exact .writeback hb hne
  | drain hk => exact .drain hb hk
  | response _ =>
      unfold OoOCore.dataResponse
      split <;> exact .same
  | capture hj => exact .capture hj
  | surface _ _ =>
      unfold OoOCore.surfaceLoad
      dsimp only
      split
      · split <;> exact .same
      · exact .same
  | zero _ _ => exact .same
  | forward _ _ => exact .same
  | sendLoad _ _ _ hs =>
      obtain ⟨m, rfl⟩ := sendLoad_frame hs
      exact .same
  | sendStore _ _ hs =>
      obtain ⟨m, sb, ctr, rfl⟩ := sendStore_frame hs
      exact .same
  | @issue slot u _ _ _ => cases u <;> exact .same
  | dispatch _ => exact .dispatch hb hi _
  | @consume r _ _ =>
      obtain ⟨m, out, stale, pred, q, pc, heq⟩ := consume_frame c r
      rw [heq]
      exact .same
  | redirect =>
      unfold OoOCore.applyRedirect
      split <;> exact .same
  | popAck _ _ => exact .same
  | request _ _ _ _ _ _ _ => exact .same
  | tickUnits => exact .same
  | tickMem _ => exact .same

/-- The fault of an access is settled once its address is known. -/
theorem Action.fault_eq (ha : Action c c') (hb : BackOk c) (hj : j ∈ c.lsq.ring.slots)
    (hv : (c.lsq.at' j).addrValid = true) :
    (c'.rob.e (c.lsq.at' j).robIdx).fault = (c.rob.e (c.lsq.at' j).robIdx).fault := by
  have hs := ha.robAfter hb (hb.lsq.rob_mem hj).1
  change RobAfter c (c.lsq.at' j).robIdx (c'.rob.e (c.lsq.at' j).robIdx) at hs
  generalize c'.rob.e (c.lsq.at' j).robIdx = e at hs
  cases hs with
  | same => rfl
  | resolved _ _ => rfl
  | stored _ _ _ _ => rfl
  | addressed hk he =>
      -- the result that drains belongs to an entry without an address
      have hd := (hb.delivered hk).lsq
      have hsame := hb.lsq.rob_inj hb.rob.wf hd.live hj (hd.robIdx.trans he.symm)
      rw [← hsame, hd.unresolved] at hv
      cases hv

end Rob

end RvO3
