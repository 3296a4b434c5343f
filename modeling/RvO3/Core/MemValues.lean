import RvO3.Core.LsqGrowth
import RvO3.Core.Path
import RvO3.Core.ValueSteps

/-!
# Addresses and load results

The values of the memory operations, in every state of a run. An address that is known is
what the instruction computes from its operands (`AddrsComputed`), and the result of a load
that is done is the value its LSQ entry completed with (`LoadsDelivered`).

`Action.keeps` is the step behind the first: an instruction in flight reads after an action
what it read before.
-/

set_option autoImplicit false

namespace RvO3

open OoOCore

/-! ## An instruction in flight reads what it read -/

section Keeps

variable {M : Type} {cfg : SimConfig} {c c' : OoOCore M}

theorem Keeps.trans {map map' map'' : Nat → Reg → Nat} {prf prf' prf'' : PhysRegFile} {n : Nat}
    (h : Keeps map map' prf prf' n) (h' : Keeps map' map'' prf' prf'' n) :
    Keeps map map'' prf prf'' n := by
  have hready : ∀ r, prf.ready (map n r) = true → prf'.ready (map' n r) = true := by
    intro r hr
    rw [h.same]
    exact h.ready r hr
  refine ⟨fun r => (h'.same r).trans (h.same r), fun r hr => ?_, fun r hr => ?_⟩
  · rw [← h.same]
    exact h'.ready r (hready r hr)
  · have h2 := h'.val r (hready r hr)
    rw [h.same] at h2
    exact h2.trans (h.val r hr)

theorem keeps_quiet (hq : Quiet c c') (hp : c'.prf = c.prf) (n : Nat) :
    Keeps c.mapAt c'.mapAt c.prf c'.prf n := by
  rw [hp]
  exact Keeps.refl fun r => congrFun (mapAt_quiet hq n) r

/-- What a recovery leaves reads through the same map. -/
theorem keeps_recover (hb : BackOk c) (seq : Nat) {i : Nat} (hi : i ∈ (c.recover seq).rob.slots) :
    Keeps c.mapAt (c.recover seq).mapAt c.prf (c.recover seq).prf (robSeq c.rob i) := by
  have hs := recover_spec hb seq
  have hprf : (c.recover seq).prf = c.prf := (congrArg OoOCore.prf hs.frame :)
  have hle := (hs.rob.mem.mp hi).2
  rw [hprf]
  exact Keeps.refl fun r => congrFun (mapAt_cut hb hs (Nat.le_succ_of_le hle)) r

theorem keeps_violationScan (hb : BackOk c) (store : LsqEntry) {i : Nat}
    (hi : i ∈ (c.violationScan store).rob.slots) :
    Keeps c.mapAt (c.violationScan store).mapAt c.prf (c.violationScan store).prf (robSeq c.rob i) := by
  cases hv : c.violationVictim store with
  | none =>
      rw [violationScan_none hv]
      exact Keeps.refl fun _ => rfl
  | some slot =>
      rw [violationScan_eq hv] at hi ⊢
      have hb' : BackOk (c.replayCall slot) := { hb with }
      exact keeps_recover hb' _ hi

theorem keeps_writebackOne (hv : ValuesOk c) (hb : BackOk c) (hne : c.wbReady ≠ []) {i : Nat}
    (hi : i ∈ c.writebackOne.1.rob.slots) :
    Keeps c.mapAt c.writebackOne.1.mapAt c.prf c.writebackOne.1.prf (robSeq c.rob i) := by
  obtain ⟨slot, hs, hcase⟩ := writebackOne_cases hne
  have hdone := hv.keeps_complete (hb.waiting (List.mem_of_getElem? hs)) c.oldestReady
    (robSeq c.rob i)
  rcases hcase with ⟨heq, -⟩ | ⟨heq, -⟩
  · rw [heq]
    apply hdone.trans
    refine keeps_quiet (quiet_dropOut _ slot) ?_ _
    cases slot <;> rfl
  · rw [heq, mispredict_eq] at hi ⊢
    have hb' := (hb.finishResult hs).mispredictCall
      (resolve (c.rob.e (c.outAt slot).robIdx) (c.outAt slot))
    have hq := quiet_mispredictCall (c.complete c.oldestReady (c.outAt slot)) slot
      (resolve (c.rob.e (c.outAt slot).robIdx) (c.outAt slot))
    have hcall : Keeps _ _ (c.complete c.oldestReady (c.outAt slot)).prf
        ((c.complete c.oldestReady (c.outAt slot)).mispredictCall slot
          (resolve (c.rob.e (c.outAt slot).robIdx) (c.outAt slot))).prf (robSeq c.rob i) :=
      keeps_quiet hq (by cases slot <;> rfl) _
    have hrec := keeps_recover hb' (c.outAt slot).seq hi
    -- the entries keep their numbers until the squash
    have hseq : robSeq ((c.complete c.oldestReady (c.outAt slot)).mispredictCall slot
        (resolve (c.rob.e (c.outAt slot).robIdx) (c.outAt slot))).rob = robSeq c.rob :=
      hq.rob.seq.trans (quiet_complete c c.oldestReady (c.outAt slot)).rob.seq
    rw [hseq] at hrec
    exact (hdone.trans hcall).trans hrec

variable [MemPorts Nat M]

theorem Action.keeps (hcfg : cfg.Accepted) (ha : Action c c') (hk : CoreOk cfg c) (hv : ValuesOk c)
    {i : Nat} (hi : i ∈ c.rob.slots) (hi' : i ∈ c'.rob.slots) :
    Keeps c.mapAt c'.mapAt c.prf c'.prf (robSeq c.rob i) := by
  have hb := hk.back
  cases ha.flow with
  | commit hne _ hc =>
      rcases commitOne_cases hc with ⟨rfl, -⟩ | ⟨rec, hs, -⟩ | ⟨hs, -⟩
      · exact Keeps.refl fun _ => rfl
      · -- nothing is behind a system instruction
        obtain ⟨ret, prf, pos, hal, ex, rfl, -⟩ := hs.frame
        have halone := hb.rob.alone _ (headIdx_mem hb hne) hs.isSystem
        have hnil : c.rob.popHead.slots = [] := by
          rw [Ring.slots_popHead hb.rob.wf, halone]
          rfl
        rw [show i ∈ c.rob.popHead.slots ↔ i ∈ [] by rw [hnil]] at hi'
        cases hi'
      · have hf := hs.frame
        exact keeps_popHead hb hne (congrArg OoOCore.rob hf :) (congrArg OoOCore.rmap hf :)
          (congrArg OoOCore.prf hf :) hi'
  | writeback hne => exact keeps_writebackOne hv hb hne hi'
  | @drain k hk' =>
      have hfill := keeps_quiet (quiet_fillOne c k) rfl (robSeq c.rob i)
      have hseq : robSeq (c.fillOne k).rob = robSeq c.rob := (quiet_fillOne c k).rob.seq
      unfold OoOCore.aguDrainOne at hi' ⊢
      dsimp only at hi' ⊢
      split at hi'
      · rename_i hscan
        rw [if_pos hscan]
        have h2 := keeps_violationScan (hb.fillOne hk') _ hi'
        rw [hseq] at h2
        exact hfill.trans h2
      · rename_i hscan
        rw [if_neg hscan]
        exact hfill
  | @issue slot u _ _ _ => exact keeps_quiet (quiet_issueTo _ _ _) (by cases u <;> rfl) _
  | @dispatch first _ =>
      rcases dispatchOne_cases c first with heq | ⟨hroom, heq⟩ | ⟨hroom, heq⟩
      · rw [heq]
        exact Keeps.refl fun _ => rfl
      · rw [(Ring.empty_iff c.rob).mp hroom.robEmpty] at hi
        cases hi
      · rw [heq, dispatchOp_eq]
        have hfree : hasDest (decode c.fetchQ.head.raw) = true → c.freeList.head ≠ kNoReg :=
          fun hd => hk.rename.head_ne (hk.config ▸ hcfg) (hroom.freeList hd)
        exact keeps_dispatch hk.rename hb hroom hfree rfl rfl (Nat.le_of_lt (hb.rob.seq_lt i hi))
  | tickUnits => exact keeps_quiet (quiet_tickUnits c) rfl _
  | aside h => exact keeps_quiet h.quiet h.prf _

/-- What an action leaves of an entry's instruction. -/
theorem RobAfter.static {i : Nat} {e : RobEntry} (h : RobAfter c i e) :
    e.static = (c.rob.e i).static := by
  cases h with
  | same => rfl
  | resolved _ _ => rfl
  | addressed _ _ => rfl
  | stored _ _ _ _ => rfl

end Keeps

/-! ## Addresses -/

section Addresses

variable {M : Type} [MemPorts Nat M] {cfg : SimConfig} {c c' : OoOCore M}

/-- The address of an entry is what its instruction computes. -/
structure AddrComputed (c : OoOCore M) (j : Nat) : Prop where
  intro ::
  exists_result : ∃ res, Computes c.mapAt c.prf (c.lsq.at' j).seq (c.rob.e (lsqRob c.lsq j)).ins
    (c.rob.e (lsqRob c.lsq j)).pc res ∧ (c.lsq.at' j).addr = res.value

/-- Every address in the LSQ is the sum that the instruction's operands give. -/
def AddrsComputed (c : OoOCore M) : Prop :=
  ∀ j ∈ c.lsq.ring.slots, (c.lsq.at' j).addrValid = true → AddrComputed c j

theorem Action.addrsComputed (hcfg : cfg.Accepted) (ha : Action c c') (hk : CoreOk cfg c)
    (ho : c.lsq.Ordered) (hv : ValuesOk c) (h : AddrsComputed c) : AddrsComputed c' := by
  have hb := hk.back
  have hb' := (ha.coreOk hcfg hk).back
  intro j hj hvalid
  obtain ⟨hold, hknown⟩ := ha.resolves hb ho hj hvalid
  have hg : (c.lsq.at' j).Grows (c'.lsq.at' j) := by
    rcases ha.lsqAfter hb ho hj with ⟨-, hg⟩ | hnew
    · exact hg
    · exact absurd hold hnew.free
  have hrob : lsqRob c'.lsq j = lsqRob c.lsq j := hg.robIdx
  have hlive := (hb.lsq.rob_mem hold).1
  have hlive' := (hb'.lsq.rob_mem hj).1
  rw [hrob] at hlive'
  have hstatic := (ha.robAfter hb hlive).static
  have hins : (c'.rob.e (lsqRob c.lsq j)).ins = (c.rob.e (lsqRob c.lsq j)).ins :=
    (congrArg RobEntry.ins hstatic :)
  have hpc : (c'.rob.e (lsqRob c.lsq j)).pc = (c.rob.e (lsqRob c.lsq j)).pc :=
    (congrArg RobEntry.pc hstatic :)
  have hkeep := ha.keeps hcfg hk hv hlive hlive'
  rw [← hb.lsq.seq_eq hold] at hkeep
  have hres : ∀ {res : ExecResult}, Computes c.mapAt c.prf (c.lsq.at' j).seq
      (c.rob.e (lsqRob c.lsq j)).ins (c.rob.e (lsqRob c.lsq j)).pc res →
      (c'.lsq.at' j).addr = res.value → AddrComputed c' j := by
    intro res hc haddr
    refine ⟨res, ?_, haddr⟩
    rw [hg.seq, hrob, hins, hpc]
    exact hc.keep hkeep
  rcases hknown with hknown | ⟨i, hd⟩
  · obtain ⟨res, hc, haddr⟩ := (h j hold hknown).exists_result
    exact hres hc ((hg.resolved hknown).2.1.trans haddr)
  · -- the result of the unit is what the instruction computes
    have hdel := hb.delivered hd.ready
    obtain ⟨u, hu, hout, hvu⟩ := hdel.unit
    have hop := hv.agus u (List.mem_of_getElem? hu) u.out (out_mem_ops hvu)
    rw [hout] at hop
    have hname : lsqRob c.lsq j = (c.agus[i]?.getD default).out.robIdx := by
      rw [hd.names]
      exact hdel.lsq.robIdx
    apply @hres ⟨(c.agus[i]?.getD default).out.value, (c.agus[i]?.getD default).out.redirect,
      (c.agus[i]?.getD default).out.target⟩ ?_ hd.addr
    rw [hb.lsq.seq_eq hold, hname, hdel.names.seq]
    exact hop

/-! ## Results of loads -/

/-- The result of a load that is done is the value its LSQ entry completed with. -/
def LoadsDelivered (c : OoOCore M) : Prop :=
  ∀ j ∈ c.lsq.ring.slots, (c.lsq.at' j).isStore = false → (c.rob.e (lsqRob c.lsq j)).done = true →
    resultOf c.log (c.lsq.at' j).seq = some (c.lsq.at' j).value

/-- What an action does to results: nothing, or one is written back. -/
inductive ResultStep (c c' : OoOCore M) : Prop
  | none : (∀ n, resultOf c'.log n = resultOf c.log n) →
      (∀ i ∈ c.rob.slots, isStore (c.rob.e i).ins.op = false → (c'.rob.e i).done = (c.rob.e i).done) →
      ResultStep c c'
  | one {slot : OutSlot} : slot ∈ c.wbReady →
      (∀ n, resultOf c'.log n =
        if (c.outAt slot).seq = n then some (c.outAt slot).value else resultOf c.log n) →
      (∀ i, i ≠ (c.outAt slot).robIdx → c'.rob.e i = c.rob.e i) → ResultStep c c'

omit [MemPorts Nat M] in
theorem resultOf_recover (hb : BackOk c) (seq n : Nat) :
    resultOf (c.recover seq).log n = resultOf c.log n := by
  rw [(recover_spec hb seq).log]
  exact resultOf_append (fun ev hev => by rw [List.mem_singleton.mp hev]; rfl) n

omit [MemPorts Nat M] in
theorem resultStep_writebackOne (hb : BackOk c) (hne : c.wbReady ≠ []) :
    ResultStep c c.writebackOne.1 := by
  obtain ⟨slot, hs, hcase⟩ := writebackOne_cases hne
  have hmem := List.mem_of_getElem? hs
  have hset : ∀ i, i ≠ (c.outAt slot).robIdx →
      (c.complete c.oldestReady (c.outAt slot)).rob.e i = c.rob.e i := fun i hi =>
    Function.update_of_ne hi _ _
  rcases hcase with ⟨heq, -⟩ | ⟨heq, -⟩
  · rw [heq]
    refine .one hmem (fun n => ?_) fun i hi => ?_
    · rw [← resultOf_writeback]
      cases slot <;> rfl
    · rw [dropOut_rob]
      exact hset i hi
  · rw [heq, mispredict_eq]
    have hb' := (hb.finishResult hs).mispredictCall
      (resolve (c.rob.e (c.outAt slot).robIdx) (c.outAt slot))
    refine .one hmem (fun n => ?_) fun i hi => ?_
    · rw [← resultOf_writeback]
      apply (resultOf_recover hb' _ n).trans
      cases slot <;> rfl
    · apply (congrFun (recover_rob_e hb' _) i).trans
      apply (congrArg (fun r : Ring RobEntry => r.e i) (dropOut_rob _ slot)).trans
      exact hset i hi

theorem resultStep_drain (hb : BackOk c) {k : Nat} (hk : c.readyAgu = some k) :
    ResultStep c (c.aguDrainOne k) := by
  have hfill : ∀ n, resultOf (c.fillOne k).log n = resultOf c.log n := fun n =>
    resultOf_append (fun ev hev => by rw [List.mem_singleton.mp hev]; rfl) n
  have hrob : (c.aguDrainOne k).rob.e = (c.fillOne k).rob.e := by
    unfold OoOCore.aguDrainOne
    dsimp only
    split
    · exact violationScan_rob_e (hb.fillOne hk) _
    · rfl
  have hd := hb.delivered hk
  refine .none (fun n => ?_) fun i hi hst => ?_
  · unfold OoOCore.aguDrainOne
    dsimp only
    split
    · rw [← hfill n]
      cases hv : (c.fillOne k).violationVictim
          ((c.fillOne k).lsq.at' (c.agus[k]?.getD default).out.lsqIdx) with
      | none => rw [violationScan_none hv]
      | some slot =>
          rw [violationScan_eq hv]
          have hb' : BackOk ((c.fillOne k).replayCall slot) := { hb.fillOne hk with }
          exact resultOf_recover hb' _ n
    · exact hfill n
  · rw [hrob, fillOne_eq]
    dsimp only
    rw [Ring.set_e, Function.update_apply]
    split
    · rename_i he
      -- only a store is done by its address
      have hmatch := (hb.lsq.agrees _ hd.lsq.live).isStore
      have hload : ((fillAddress c.lsq (c.agus[k]?.getD default).out).at'
          (c.agus[k]?.getD default).out.lsqIdx).isStore = false := by
        rw [LSQ.at', fillAddress_ring, Ring.set_self_e]
        show (c.lsq.at' _).isStore = false
        rw [hmatch, hd.lsq.robIdx, ← he, hst]
      unfold OoOCore.addressed
      rw [hload]
      dsimp only
      rw [← he]
      rfl
    · rfl

omit [MemPorts Nat M] in
theorem resultStep_capture (hb : BackOk c) {slot : Nat} (hj : slot ∈ c.lsq.ring.slots) :
    ResultStep c (c.captureStore slot) := by
  have hlog : ∀ n, resultOf (c.log ++ [.capture (c.lsq.at' slot).seq
      (c.prf.val (c.lsq.at' slot).dataPreg)]) n = resultOf c.log n := fun n =>
    resultOf_append (fun ev hev => by rw [List.mem_singleton.mp hev]; rfl) n
  unfold OoOCore.captureStore
  dsimp only
  split
  · rename_i hw
    simp only [Bool.and_eq_true] at hw
    split
    · refine .none hlog fun i hi hst => ?_
      show ((c.rob.set _ _).e i).done = _
      rw [Ring.set_e, Function.update_apply]
      split
      · rename_i he
        have hmatch := (hb.lsq.agrees _ hj).isStore
        rw [hw.1.1, show lsqRob c.lsq slot = i from he.symm, hst] at hmatch
        cases hmatch
      · rfl
    · exact .none hlog fun _ _ _ => rfl
  · exact .none (fun _ => rfl) fun _ _ _ => rfl

omit [MemPorts Nat M] in
theorem resultStep_dispatch (hb : BackOk c) (first : Bool) : ResultStep c (c.dispatchOne first).1 := by
  have hlog : ∀ {evs : List Event}, (∀ ev ∈ evs, ev.isWriteback = false) → ∀ n,
      resultOf (c.log ++ evs) n = resultOf c.log n := fun h n => resultOf_append h n
  rcases dispatchOne_cases c first with heq | ⟨hroom, heq⟩ | ⟨hroom, heq⟩
  · rw [heq]
    exact .none (fun _ => rfl) fun _ _ _ => rfl
  · rw [heq]
    refine .none (hlog fun ev hev => by rw [List.mem_singleton.mp hev]; rfl) fun i hi _ => ?_
    rw [(Ring.empty_iff c.rob).mp hroom.robEmpty] at hi
    cases hi
  · rw [heq, dispatchOp_eq]
    refine .none ?_ fun i hi _ => ?_
    · dsimp only
      rw [List.append_assoc]
      refine hlog fun ev hev => ?_
      rcases List.mem_append.mp hev with hev | hev
      · rw [List.mem_singleton.mp hev]
        rfl
      · split at hev
        · rw [List.mem_singleton.mp hev]
          rfl
        · cases hev
    · have hold := (pushed hb.rob.wf hroom.rob (opEntry c c.fetchQ.head)).old i hi
      dsimp only
      rw [hold]

theorem Action.resultStep (ha : Action c c') (hb : BackOk c) : ResultStep c c' := by
  have hsame : ∀ {d : OoOCore M}, d.log = c.log → d.rob.e = c.rob.e → ResultStep c d := by
    intro d hl hr
    exact .none (fun n => by rw [hl]) fun i _ _ => by rw [hr]
  cases ha with
  | commit hne hd _ hc =>
      rcases commitOne_cases hc with ⟨rfl, -⟩ | ⟨rec, hs, -⟩ | ⟨hs, -⟩
      · exact hsame rfl rfl
      · obtain ⟨ret, prf, pos, hal, ex, rfl, -⟩ := hs.frame
        exact .none (resultOf_append fun ev hev => by rw [List.mem_singleton.mp hev]; rfl) fun _ _ _ => rfl
      · rw [hs.frame]
        exact .none (resultOf_append fun ev hev => by rw [List.mem_singleton.mp hev]; rfl) fun _ _ _ => rfl
  | writeback hne => exact resultStep_writebackOne hb hne
  | drain hi => exact resultStep_drain hb hi
  | capture hj => exact resultStep_capture hb hj
  | dispatch _ => exact resultStep_dispatch hb _
  | response _ =>
      unfold OoOCore.dataResponse
      split <;> exact hsame rfl rfl
  | surface _ _ =>
      unfold OoOCore.surfaceLoad
      dsimp only
      split
      · split <;> exact hsame rfl rfl
      · exact hsame rfl rfl
  | sendLoad _ _ _ hs =>
      obtain ⟨m, rfl⟩ := sendLoad_frame hs
      exact hsame rfl rfl
  | sendStore _ _ hs =>
      obtain ⟨m, sb, ctr, rfl⟩ := sendStore_frame hs
      exact hsame rfl rfl
  | @issue slot u _ _ _ =>
      have hlog : ∀ n, resultOf (c.log ++ [.issue (c.iq.e slot).seq (c.prf.val (c.iq.e slot).ps1)
          (c.prf.val (c.iq.e slot).ps2)]) n = resultOf c.log n := fun n =>
        resultOf_append (fun ev hev => by rw [List.mem_singleton.mp hev]; rfl) n
      cases u <;> exact .none hlog fun _ _ _ => rfl
  | @consume r _ _ =>
      obtain ⟨m, out, stale, pred, q, pc, heq⟩ := consume_frame c r
      rw [heq]
      exact hsame rfl rfl
  | redirect =>
      unfold OoOCore.applyRedirect
      split <;> exact hsame rfl rfl
  | popAck _ _ => exact hsame rfl rfl
  | zero _ _ => exact hsame rfl rfl
  | forward _ _ => exact hsame rfl rfl
  | request _ _ _ _ _ _ _ => exact hsame rfl rfl
  | tickUnits => exact hsame rfl rfl
  | tickMem _ => exact hsame rfl rfl

theorem Action.loadsDelivered (hcfg : cfg.Accepted) (ha : Action c c') (hk : CoreOk cfg c)
    (ho : c.lsq.Ordered) (h : LoadsDelivered c) : LoadsDelivered c' := by
  have hb := hk.back
  have hb' := (ha.coreOk hcfg hk).back
  intro j hj hst hd
  rcases ha.lsqAfter hb ho hj with ⟨hold, hg⟩ | hnew
  · have hrob : lsqRob c'.lsq j = lsqRob c.lsq j := hg.robIdx
    have hst₀ : (c.lsq.at' j).isStore = false := hg.isStore.symm.trans hst
    rw [hg.isStore] at hst
    rw [hrob] at hd
    rw [hg.seq]
    have hlive := (hb.lsq.rob_mem hold).1
    have hload : isStore (c.rob.e (lsqRob c.lsq j)).ins.op = false :=
      (hb.lsq.agrees j hold).isStore.symm.trans hst₀
    -- a load that was done is left alone
    have hbefore : (c.rob.e (lsqRob c.lsq j)).done = true →
        resultOf c.log (c.lsq.at' j).seq = some (c'.lsq.at' j).value := by
      intro hd₀
      have hrep := (hb.lsq.agrees j hold).load_done hst₀ hd₀
      rw [(hg.completed ((hb.lsq.flags j hold).load_reported hrep)).2]
      exact h j hold hst₀ hd₀
    cases ha.resultStep hb with
    | none hres hdone =>
        rw [hdone _ hlive hload] at hd
        rw [hres]
        exact hbefore hd
    | @one slot hslot hres hrest =>
        have hw := hb.waiting hslot
        rw [hres]
        by_cases hi : lsqRob c.lsq j = (c.outAt slot).robIdx
        · -- the result that is written back is the one that the entry reported
          have hseq : (c.outAt slot).seq = (c.lsq.at' j).seq := by
            rw [hb.lsq.seq_eq hold, hi]
            exact hw.names.seq.symm
          rw [if_pos hseq]
          have hrep := (hw.lsq j hold hi).2
          rw [(hg.completed ((hb.lsq.flags j hold).load_reported hrep)).2]
          have hmem : (c.rob.e (c.outAt slot).robIdx).isMem = true := by
            rw [← hi]
            exact (hb.lsq.rob_mem hold).2
          cases slot with
          | unit n =>
              obtain ⟨u, hu, hv⟩ := getElem?_of_out_valid ((hb.ready.mem_unit n).mp hslot)
              have hout : c.outAt (.unit n) = u.out := by
                show (c.units[n]?.getD default).out = _
                rw [hu]
                rfl
              have hno := (hb.units.names u (List.mem_of_getElem? hu) u.out (out_mem_ops hv)).2
              rw [hout, hno] at hmem
              cases hmem
          | load n =>
              obtain ⟨op, hop, hv⟩ := getElem?_of_valid ((hb.ready.mem_load n).mp hslot)
              have hout : c.outAt (.load n) = op := by
                show c.loadOuts[n]?.getD {} = _
                rw [hop]
                rfl
              obtain ⟨i, hi', hname, -, hval⟩ := (hb.loads op (List.mem_of_getElem? hop) hv).lsq
              rw [hout] at hi ⊢
              have hij := hb.lsq.rob_inj hb.rob.wf hi' hold (hname.trans hi.symm)
              rw [← hij, hval]
        · have hother : (c.outAt slot).seq ≠ (c.lsq.at' j).seq := by
            intro he
            apply hi
            apply hb.rob.seq_inj hlive hw.names.live
            rw [← hb.lsq.seq_eq hold, ← he]
            exact hw.names.seq.symm
          rw [hrest _ hi] at hd
          rw [if_neg hother]
          exact hbefore hd
  · -- a load that was just taken is not done
    have hrep := (hb'.lsq.agrees j hj).load_done hst hd
    have hdone := (hb'.lsq.flags j hj).load_reported hrep
    rw [hnew.notDone] at hdone
    cases hdone

end Addresses

/-! ## Every run -/

section Run

variable {M : Type} [MemPorts Nat M] {cfg : SimConfig} {c c' : OoOCore M}

/-- What the core keeps about the values of its memory operations. -/
structure MemValuesOk (cfg : SimConfig) (c : OoOCore M) : Prop where
  core : CoreOk cfg c
  lsq : c.lsq.Ordered
  values : ValuesOk c
  addrs : AddrsComputed c
  loads : LoadsDelivered c

theorem Action.memValuesOk (hcfg : cfg.Accepted) (ha : Action c c') (h : MemValuesOk cfg c) :
    MemValuesOk cfg c' :=
  ⟨ha.coreOk hcfg h.core, ha.lsqOrdered h.core.back h.lsq, ha.valuesOk hcfg h.core h.values,
    ha.addrsComputed hcfg h.core h.lsq h.values h.addrs, ha.loadsDelivered hcfg h.core h.lsq h.loads⟩

end Run

end RvO3
