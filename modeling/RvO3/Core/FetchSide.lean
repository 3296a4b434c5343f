import RvO3.Core.Path
import RvO3.Core.PortTrace

/-!
# The side of fetch

What an action does to the fetch unit and to memory, apart from the words: most leave the
outstanding block alone and take words off the queue at most (`FetchHeld`); one consumes the block and
one requests the next (`FetchSide`).

The BTB learns from branches that commit, and from nothing else (`Predictor.Knows`).
-/

set_option autoImplicit false

namespace RvO3

open OoOCore

/-! ## Actions -/

section Side

variable {M : Type} {cfg : SimConfig} {c c' c₁ : OoOCore M}

/-- A queue that lost words at most. -/
inductive QueueKeeps (q q' : Ring Fetched) : Prop
  | same : q' = q → QueueKeeps q q'
  | popHead : q.empty = false → q' = q.popHead → QueueKeeps q q'
  | clear : q' = q.clear → QueueKeeps q q'

/-- The outstanding block is the same, and not revived when it was stale. -/
structure FetchHeld (c c' : OoOCore M) : Prop where
  cfg : c'.cfg = c.cfg
  outstanding : c'.fOutstanding = c.fOutstanding
  block : c'.fBlock = c.fBlock
  fresh : c'.fStale = false → c.fStale = false
  queue : QueueKeeps c.fetchQ c'.fetchQ

theorem SameFront.held (h : SameFront c c') : FetchHeld c c' :=
  ⟨h.cfg, h.outstanding, h.block, fun hs => h.stale ▸ hs, .same h.fetchQ⟩

/-- A recovery drops the words that wait, and the block when it arrives. -/
theorem recover_held (hb : BackOk c) (hf : SameFront c₁ c) (seq : Nat) : FetchHeld c₁ (c.recover seq) := by
  have hs := recover_spec hb seq
  refine ⟨?_, ?_, ?_, fun hstale => ?_, .clear ?_⟩
  · rw [hs.frame]
    exact hf.cfg
  · rw [hs.frame]
    exact hf.outstanding
  · rw [hs.frame]
    exact hf.block
  · rw [hs.fStale, Bool.or_eq_false_iff] at hstale
    rw [← hf.stale]
    exact hstale.2
  · rw [hs.fetchQ, hf.fetchQ]

variable [MemPorts Nat M]

omit [MemPorts Nat M] in
theorem violationScan_held (hb : BackOk c) (store : LsqEntry) : FetchHeld c (c.violationScan store) := by
  cases hv : c.violationVictim store with
  | none =>
      rw [violationScan_none hv]
      exact (SameFront.refl c).held
  | some slot =>
      rw [violationScan_eq hv]
      have hb₁ : BackOk (c.replayCall slot) := { hb with }
      have hf : SameFront c (c.replayCall slot) := ⟨rfl, rfl, rfl, rfl, rfl, rfl, rfl, rfl, rfl, rfl⟩
      have hh := recover_held hb₁ hf ((c.lsq.at' slot).seq - 1)
      exact ⟨hh.cfg, hh.outstanding, hh.block, hh.fresh, hh.queue⟩

theorem aguDrainOne_held (hb : BackOk c) {i : Nat} (hi : c.readyAgu = some i) :
    (c.aguDrainOne i).msys = c.msys ∧ FetchHeld c (c.aguDrainOne i) := by
  have hb₁ := hb.fillOne hi
  have hm : (c.fillOne i).msys = c.msys := by
    rw [fillOne_eq]
  have hfill : SameFront c (c.fillOne i) := by
    rw [fillOne_eq]
    exact ⟨rfl, rfl, rfl, rfl, rfl, rfl, rfl, rfl, rfl, rfl⟩
  unfold OoOCore.aguDrainOne
  dsimp only
  generalize c.fillOne i = d at hb₁ hm hfill
  split
  · have hscan := violationScan_held hb₁ (d.lsq.at' (c.agus[i]?.getD default).out.lsqIdx)
    refine ⟨(violationScan_side hb₁ _).msys.trans hm, hscan.cfg.trans hfill.cfg,
      hscan.outstanding.trans hfill.outstanding, hscan.block.trans hfill.block,
      fun hs => hfill.stale ▸ hscan.fresh hs, ?_⟩
    rw [← hfill.fetchQ]
    exact hscan.queue
  · exact ⟨hm, hfill.held⟩

/-- What an action does to the fetch unit and to memory. -/
inductive FetchSide (c c' : OoOCore M) : Prop
  | quiet : c'.msys = c.msys → FetchHeld c c' → FetchSide c c'
  | response {r : MemResponse Nat} : MemPorts.dResponse c.msys = some r → c'.msys = MemPorts.dPop c.msys →
      FetchHeld c c' → FetchSide c c'
  | load {slot : Nat} : SendsLoad c c' slot →
      MemPorts.dAccess c.msys ((c.lsq.at' slot).request (loadTag slot (c.lsq.at' slot).gen)) = .ok c'.msys →
      FetchHeld c c' → FetchSide c c'
  | store {slot : Nat} : c.sb.nextToIssue = some slot → MemPorts.dCanAccept c.msys = true →
      MemPorts.dAccess c.msys ((c.sb.ring.e slot).request (storeTag slot c.sbTxnCtr)) = .ok c'.msys →
      FetchHeld c c' → FetchSide c c'
  | tick : MemPorts.tick c.msys = .ok c'.msys → FetchHeld c c' → FetchSide c c'
  | consume {r : MemResponse Nat} : MemPorts.iResponse c.msys = some r → c.fOutstanding = true →
      c' = c.consume r → FetchSide c c'
  | request {m : M} : c.fOutstanding = false →
      c.fetchQ.count + c.cfg.fetchBlockBytes / 4 ≤ c.cfg.fetchQSize →
      c.pc.toNat < MemPorts.memSize c.msys → MemPorts.iCanAccept c.msys = true →
      MemPorts.iAccess c.msys c.blockRequest = .ok m →
      c' = { c with
        msys := m
        fOutstanding := true
        fBlock := c.pc &&& ~~~(BitVec.ofNat 32 (c.cfg.fetchBlockBytes - 1))
        fFetchPc := c.pc } → FetchSide c c'

/-- What an action does to the fetch unit and to memory, one case for each port it uses. -/
theorem Action.fetchSide (ha : Action c c') (hb : BackOk c) : FetchSide c c' := by
  have hrefl : FetchHeld c c := (SameFront.refl c).held
  cases ha with
  | commit _ _ _ hc =>
      rcases commitOne_cases hc with ⟨rfl, -⟩ | ⟨rec, hs, -⟩ | ⟨hs, -⟩
      · exact .quiet rfl hrefl
      · obtain ⟨ret, prf, pos, hal, ex, rfl, -⟩ := hs.frame
        exact .quiet rfl ⟨rfl, rfl, rfl, id, .same rfl⟩
      · rw [hs.frame]
        exact .quiet rfl ⟨rfl, rfl, rfl, id, .same rfl⟩
  | writeback hne =>
      have hside := writebackOne_side hb hne
      obtain ⟨slot, hs, ⟨heq, -⟩ | ⟨heq, -⟩⟩ := writebackOne_cases hne
      · have hf : SameFront c ((c.complete c.oldestReady (c.outAt slot)).dropOut slot) :=
          (complete_front c _ _).trans (dropOut_front _ slot)
        rw [heq] at hside ⊢
        exact .quiet hside.msys hf.held
      · rw [heq, mispredict_eq] at hside ⊢
        have hb' := (hb.finishResult hs).mispredictCall
          (resolve (c.rob.e (c.outAt slot).robIdx) (c.outAt slot))
        have hh := recover_held hb' ((complete_front c c.oldestReady (c.outAt slot)).trans
          (mispredictCall_front _ slot _)) (c.outAt slot).seq
        exact .quiet hside.msys ⟨hh.cfg, hh.outstanding, hh.block, hh.fresh, hh.queue⟩
  | drain hi =>
      obtain ⟨hm, hh⟩ := aguDrainOne_held hb hi
      exact .quiet hm hh
  | @response r hr =>
      refine .response hr ?_ ?_
      · unfold OoOCore.dataResponse
        split <;> rfl
      · unfold OoOCore.dataResponse
        split <;> exact ⟨rfl, rfl, rfl, id, .same rfl⟩
  | @capture slot _ =>
      unfold OoOCore.captureStore
      dsimp only
      split
      · split <;> exact .quiet rfl ⟨rfl, rfl, rfl, id, .same rfl⟩
      · exact .quiet rfl hrefl
  | @surface slot k _ _ =>
      unfold OoOCore.surfaceLoad
      dsimp only
      split
      · split
        · exact .quiet rfl hrefl
        · exact .quiet rfl ⟨rfl, rfl, rfl, id, .same rfl⟩
      · exact .quiet rfl hrefl
  | @sendLoad _ slot hg hv hacc hs =>
      have hsend : SendsLoad c c' slot := ⟨hg, hv, hacc, hs⟩
      unfold OoOCore.sendLoad at hs
      dsimp only at hs
      split at hs
      · cases hs
      · rename_i m hm
        cases hs
        exact .load hsend hm ⟨rfl, rfl, rfl, id, .same rfl⟩
  | @sendStore _ slot hn hacc hs =>
      unfold OoOCore.sendStore at hs
      dsimp only at hs
      split at hs
      · cases hs
      · rename_i m hm
        cases hs
        have hslot : c.sb.nextIssueSlot = slot := by
          unfold StoreBuffer.nextToIssue at hn
          split at hn
          · exact Option.some.inj hn
          · cases hn
        rw [hslot] at hm
        exact .store hn hacc hm ⟨rfl, rfl, rfl, id, .same rfl⟩
  | @issue slot u _ _ _ => cases u <;> exact .quiet rfl ⟨rfl, rfl, rfl, id, .same rfl⟩
  | @dispatch first _ =>
      rcases dispatchOne_cases c first with heq | ⟨hr, heq⟩ | ⟨hr, heq⟩
      · rw [heq]
        exact .quiet rfl hrefl
      · rw [heq, dispatchSystem_eq]
        exact .quiet rfl ⟨rfl, rfl, rfl, id, .popHead hr.fetched rfl⟩
      · rw [heq, dispatchOp_eq]
        exact .quiet rfl ⟨rfl, rfl, rfl, id, .popHead hr.fetched rfl⟩
  | consume hr ho => exact .consume hr ho rfl
  | request ho _ hroom _ hpc hacc hm => exact .request ho hroom hpc hacc hm rfl
  | redirect =>
      unfold OoOCore.applyRedirect
      split
      · exact .quiet rfl ⟨rfl, rfl, rfl, fun hs => (Bool.or_eq_false_iff.mp hs).2, .same rfl⟩
      · exact .quiet rfl hrefl
  | tickMem hm => exact .tick hm ⟨rfl, rfl, rfl, id, .same rfl⟩
  | _ => exact .quiet rfl ⟨rfl, rfl, rfl, id, .same rfl⟩

end Side

/-! ## What the BTB knows -/

namespace Predictor

variable {p : Predictor} {pc x : Word}

/-- The BTB has an entry for the instruction at `pc`. -/
def Knows (p : Predictor) (pc : Word) : Prop := ∃ i, (p.btb i).valid = true ∧ (p.btb i).pc = pc

theorem Knows.of_lookup {i : Nat} (h : p.btbLookup pc = some i) : p.Knows pc := by
  have hfound := List.find?_some h
  rw [Bool.and_eq_true, beq_iff_eq] at hfound
  exact ⟨i, hfound⟩

theorem btbTouch_knows {i : Nat} (h : (p.btbTouch i).Knows x) : p.Knows x := by
  obtain ⟨j, hv, hx⟩ := h
  unfold btbTouch at hv hx
  dsimp only at hv hx
  rw [Function.update_apply] at hv hx
  split at hv
  · rename_i hj
    rw [if_pos hj] at hx
    exact ⟨i, hv, hx⟩
  · rename_i hj
    rw [if_neg hj] at hx
    exact ⟨j, hv, hx⟩

theorem Knows.congr {p' : Predictor} (h : p'.Knows x) (hb : p'.btb = p.btb) : p.Knows x := by
  obtain ⟨j, hv, hx⟩ := h
  rw [hb] at hv hx
  exact ⟨j, hv, hx⟩

theorem pushHistory_btb (p : Predictor) (taken : Bool) : (p.pushHistory taken).btb = p.btb := by
  unfold pushHistory
  dsimp only
  split <;> rfl

theorem restore_btb (p : Predictor) (cp : Checkpoint) : (p.restore cp).btb = p.btb := by
  unfold restore
  dsimp only
  split <;> split <;> rfl

theorem replay_btb (p : Predictor) (pc : Word) (I : Instr) (taken : Bool) :
    (p.replay pc I taken).btb = p.btb := by
  unfold replay
  split
  · exact pushHistory_btb p taken
  · split <;> rfl
  · split <;> rfl
  · rfl

/-- A guess that the instruction is taken is made for one that the BTB knows. -/
theorem predict_taken (h : (p.predict pc).2.taken = true) : p.Knows pc := by
  unfold predict at h
  dsimp only at h
  cases hb : p.btbLookup pc with
  | none =>
      rw [hb] at h
      cases h
  | some i => exact .of_lookup hb

/-- A prediction makes no pc known to the target buffer. -/
theorem predict_knows (h : (p.predict pc).1.Knows x) : p.Knows x := by
  unfold predict at h
  dsimp only at h
  split at h
  · exact h
  · rename_i i _
    split at h
    · exact btbTouch_knows (h.congr (pushHistory_btb _ _))
    · exact btbTouch_knows (h.congr rfl)
    · split at h
      · exact btbTouch_knows (h.congr rfl)
      · exact btbTouch_knows h
    · exact btbTouch_knows h

theorem tageTrain_btb (p : Predictor) (l : Lookup) (pc : Word) (taken : Bool) :
    (p.tageTrain l pc taken).btb = p.btb := by
  unfold tageTrain
  dsimp only
  split
  · rfl
  · split <;> rfl

theorem tageAllocate_btb (p : Predictor) (l : Lookup) (taken : Bool) :
    (p.tageAllocate l taken).btb = p.btb := by
  have hage : ∀ (js : List Nat) (p : Predictor), (js.foldl (fun p j =>
      if (p.tables j (l.idx j)).u > 0 then
        p.setTage j (l.idx j) { p.tables j (l.idx j) with u := (p.tables j (l.idx j)).u - 1 }
      else p) p).btb = p.btb := by
    intro js
    induction js with
    | nil => exact fun _ => rfl
    | cons j js ih =>
        intro p
        rw [List.foldl_cons, ih]
        split <;> rfl
  unfold tageAllocate
  dsimp only
  split
  · exact hage _ _
  · rfl

theorem tageUpdate_btb (p : Predictor) (pc : Word) (taken : Bool) (pos : Nat) :
    (p.tageUpdate pc taken pos).btb = p.btb := by
  have hage : ∀ p : Predictor, p.tageAge.btb = p.btb := by
    intro p
    unfold tageAge
    dsimp only
    split <;> rfl
  have hwrong : ∀ b : Bool, (if b then (p.tageTrain (p.tageLookup pc pos) pc taken).tageAllocate
      (p.tageLookup pc pos) taken else p.tageTrain (p.tageLookup pc pos) pc taken).btb = p.btb := by
    intro b
    cases b with
    | true => exact (tageAllocate_btb _ _ _).trans (tageTrain_btb _ _ _ _)
    | false => exact tageTrain_btb _ _ _ _
  unfold tageUpdate
  dsimp only
  rw [hage]
  exact hwrong _

/-- Training makes one pc known, the one it trains. -/
theorem btbUpdate_knows {target : Word} {k : PredKind} (h : (p.btbUpdate pc target k).Knows x) :
    p.Knows x ∨ x = pc := by
  have hset : ∀ {q : Predictor} {i use : Nat}, Knows { q with
      btbClock := q.btbClock + 1
      btb := Function.update q.btb i { valid := true, pc := pc, target := target, kind := k, lastUse := use } } x →
      q.Knows x ∨ x = pc := by
    rintro q i use ⟨j, hv, hx⟩
    dsimp only at hv hx
    rw [Function.update_apply] at hv hx
    split at hv
    · rename_i hj
      rw [if_pos hj] at hx
      exact .inr hx.symm
    · rename_i hj
      rw [if_neg hj] at hx
      exact .inl ⟨j, hv, hx⟩
  unfold btbUpdate at h
  dsimp only at h
  cases hl : p.btbLookup pc with
  | none =>
      rw [hl] at h
      exact hset h
  | some i =>
      rw [hl] at h
      exact (hset h).imp_left btbTouch_knows

/-- Training adds the instruction that it is about. -/
theorem update_knows {I : Instr} {taken : Bool} {target : Word} {phtIdx : Nat} {before : Checkpoint}
    (h : (p.update pc I taken target phtIdx before).Knows x) : p.Knows x ∨ x = pc := by
  unfold update at h
  dsimp only at h
  have hsame : ∀ {q : Predictor}, q = (if kindOf I = .COND then
      if p.nTables ≠ 0 then p.tageUpdate pc taken before.hist
      else { p with pht := Function.update p.pht phtIdx (nudge2 (p.pht phtIdx) taken) }
      else p) → q.btb = p.btb := by
    rintro _ rfl
    split
    · split
      · exact tageUpdate_btb _ _ _ _
      · rfl
    · rfl
  generalize hq : (if kindOf I = .COND then _ else _) = q at h
  have hbtb := hsame hq.symm
  split at h
  · rcases btbUpdate_knows h with hk | hx
    · exact .inl (hk.congr hbtb)
    · exact .inr hx
  · exact .inl (h.congr hbtb)

end Predictor

section Training

variable {M : Type} {c c' : OoOCore M} {x : Word}

/-- The branch at the head is committed, and the BTB may learn it. -/
structure Trained (c c' : OoOCore M) (x : Word) : Prop where
  notEmpty : c.rob.empty = false
  isBranch : c.rob.head.isBranch = true
  pc : x = c.rob.head.pc
  commits : ∃ rec : CommitRecord, rec.pc = c.rob.head.pc ∧ rec.instruction = c.rob.head.ins.raw ∧
    c'.commits = c.commits ++ [rec]

theorem fetchOne_knows (line : Line) (idx : Nat) (h : (c.fetchOne line idx).pred.Knows x) : c.pred.Knows x := by
  change (c.predictAt (c.fBlock + BitVec.ofNat 32 (idx * 4))).1.Knows x at h
  unfold OoOCore.predictAt at h
  split at h
  · exact Predictor.predict_knows h
  · exact h

/-- Queueing words teaches the BTB nothing. -/
theorem fetchLoop_knows (line : Line) (n : Nat) : ∀ (idx : Nat) {c : OoOCore M},
    (fetchLoop line n idx c).pred.Knows x → c.pred.Knows x := by
  induction n with
  | zero => exact fun _ _ h => h
  | succ n ih =>
      intro idx c h
      unfold fetchLoop at h
      dsimp only at h
      split at h
      · exact fetchOne_knows line idx h
      · exact fetchOne_knows line idx (ih (idx + 1) h)

theorem recover_knows (hb : BackOk c) (seq : Nat) (h : (c.recover seq).pred.Knows x) : c.pred.Knows x :=
  h.congr (congrArg (fun d : OoOCore M => d.pred.btb) (recover_spec hb seq).frame :)

theorem violationScan_knows (hb : BackOk c) {store : LsqEntry} (h : (c.violationScan store).pred.Knows x) :
    c.pred.Knows x := by
  cases hv : c.violationVictim store with
  | none => rwa [violationScan_none hv] at h
  | some slot =>
      rw [violationScan_eq hv] at h
      have hb₁ : BackOk (c.replayCall slot) := { hb with }
      have hk : (c.replayCall slot).pred.Knows x := recover_knows hb₁ _ h
      unfold OoOCore.replayCall at hk
      dsimp only at hk
      split at hk
      · exact hk.congr (Predictor.restore_btb _ _)
      · exact hk

variable [MemPorts Nat M]

/-- A pc is known to the target buffer only when it was before, or was trained by this action. -/
theorem Action.knows (ha : Action c c') (hb : BackOk c) (h : c'.pred.Knows x) :
    c.pred.Knows x ∨ Trained c c' x := by
  cases ha with
  | commit hne _ _ hc =>
      rcases commitOne_cases hc with ⟨rfl, -⟩ | ⟨rec, hs, -⟩ | ⟨hs, -⟩
      · exact .inl h
      · obtain ⟨ret, prf, pos, hal, ex, rfl, -⟩ := hs.frame
        exact .inl h
      · have hpred : c'.pred = (c.commitTrain c.rob.head).pred := (congrArg OoOCore.pred hs.frame :)
        rw [hpred] at h
        unfold OoOCore.commitTrain at h
        dsimp only at h
        split at h
        · rename_i hbr
          refine (Predictor.update_knows h).imp_right fun hx =>
            ⟨hne, hbr.1, hx, c.opRecord, rfl, rfl, (congrArg OoOCore.commits hs.frame :)⟩
        · exact .inl h
  | writeback hne =>
      left
      obtain ⟨slot, hs, ⟨heq, -⟩ | ⟨heq, -⟩⟩ := writebackOne_cases hne
      · rw [heq] at h
        cases slot <;> exact h
      · rw [heq, mispredict_eq] at h
        have hb' := (hb.finishResult hs).mispredictCall
          (resolve (c.rob.e (c.outAt slot).robIdx) (c.outAt slot))
        have hk := recover_knows hb' _ h
        unfold OoOCore.mispredictCall at hk
        have hdrop : ∀ {d : OoOCore M}, (d.dropOut slot).pred.Knows x → d.pred.Knows x := by
          intro d hd
          cases slot <;> exact hd
        have hk := hdrop hk
        dsimp only at hk
        split at hk
        · exact hk.congr ((Predictor.replay_btb _ _ _ _).trans (Predictor.restore_btb _ _))
        · exact hk
  | @drain i hi =>
      left
      have hb₁ := hb.fillOne hi
      have hfill : (c.fillOne i).pred = c.pred := by
        rw [fillOne_eq]
      unfold OoOCore.aguDrainOne at h
      dsimp only at h
      generalize c.fillOne i = d at hb₁ hfill h
      rw [← hfill]
      split at h
      · exact violationScan_knows hb₁ h
      · exact h
  | @response r _ =>
      unfold OoOCore.dataResponse at h
      split at h <;> exact .inl h
  | @capture slot _ =>
      unfold OoOCore.captureStore at h
      dsimp only at h
      split at h
      · split at h <;> exact .inl h
      · exact .inl h
  | @surface slot k _ _ =>
      unfold OoOCore.surfaceLoad at h
      dsimp only at h
      split at h
      · split at h <;> exact .inl h
      · exact .inl h
  | sendLoad _ _ _ hs =>
      obtain ⟨m, rfl⟩ := sendLoad_frame hs
      exact .inl h
  | sendStore _ _ hs =>
      obtain ⟨m, sb, ctr, rfl⟩ := sendStore_frame hs
      exact .inl h
  | @issue slot u _ _ _ => cases u <;> exact .inl h
  | @dispatch first _ =>
      rcases dispatchOne_cases c first with heq | ⟨-, heq⟩ | ⟨-, heq⟩ <;> rw [heq] at h <;> exact .inl h
  | @consume r _ _ =>
      left
      unfold OoOCore.consume OoOCore.processFetch at h
      dsimp only at h
      split at h
      · exact h
      · exact fetchLoop_knows r.rline _ _ (c := { c with fOutstanding := false }) h
  | redirect =>
      unfold OoOCore.applyRedirect at h
      split at h <;> exact .inl h
  | _ => exact .inl h

end Training

end RvO3
