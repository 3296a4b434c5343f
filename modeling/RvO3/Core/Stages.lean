import RvO3.Core.Rename

/-!
# Stages as sequences of actions

`CoreOk` collects the structural invariants of the core. Every action keeps it
(`Action.coreOk`), and every stage of a run is a sequence of actions
(`ReachIf.actions`), so it holds in every state of a run (`ReachIf.coreOk`) and in the
middle of every stage (`Mid.coreOk`).
-/

set_option autoImplicit false

namespace RvO3

open OoOCore

/-! ## Steps that leave renaming alone -/

section Quiet

variable {M : Type} {c c' c'' : OoOCore M}

/-- A step that leaves the renaming alone, and of the ROB at most what results write. -/
structure Quiet (c c' : OoOCore M) : Prop where
  cfg : c'.cfg = c.cfg
  units : c'.units.length = c.units.length
  rob : SameStatic c.rob c'.rob
  rmap : c'.rmap = c.rmap
  freeList : c'.freeList = c.freeList

theorem SameStatic.trans {r r' r'' : Ring RobEntry} (h : SameStatic r r') (h' : SameStatic r' r'') :
    SameStatic r r'' :=
  ⟨h'.slots.trans h.slots, fun hw => h'.wf (h.wf hw), h'.capacity.trans h.capacity,
    fun i => (h'.static i).trans (h.static i)⟩

theorem Quiet.trans (h : Quiet c c') (h' : Quiet c' c'') : Quiet c c'' :=
  ⟨h'.cfg.trans h.cfg, h'.units.trans h.units, h.rob.trans h'.rob, h'.rmap.trans h.rmap,
    h'.freeList.trans h.freeList⟩

/-- The renaming invariant survives every step that is quiet, for it reads nothing such a step
changes. -/
theorem RenameOk.quiet (h : RenameOk c) (hq : Quiet c c') : RenameOk c' :=
  h.same hq.rob hq.rmap hq.freeList hq.cfg

/-- Writing a result back touches the ROB's results and the registers, not the renaming. -/
theorem quiet_complete (c : OoOCore M) (i : Nat) (op : FuOp) : Quiet c (c.complete i op) :=
  ⟨rfl, rfl, SameStatic.set (resolve_static _ op), rfl, rfl⟩

theorem quiet_dropOut (c : OoOCore M) (slot : OutSlot) : Quiet c (c.dropOut slot) := by
  cases slot with
  | unit i => exact ⟨rfl, List.length_modify _ _ _, SameStatic.refl _, rfl, rfl⟩
  | load j => exact ⟨rfl, rfl, SameStatic.refl _, rfl, rfl⟩

theorem quiet_captureStore (c : OoOCore M) (slot : Nat) : Quiet c (c.captureStore slot) := by
  unfold OoOCore.captureStore
  dsimp only
  split
  · split
    · exact ⟨rfl, rfl, SameStatic.set rfl, rfl, rfl⟩
    · exact ⟨rfl, rfl, SameStatic.refl _, rfl, rfl⟩
  · exact ⟨rfl, rfl, SameStatic.refl _, rfl, rfl⟩

theorem quiet_surfaceLoad (c : OoOCore M) (slot k : Nat) : Quiet c (c.surfaceLoad slot k).1 := by
  unfold OoOCore.surfaceLoad
  dsimp only
  split
  · split
    · exact ⟨rfl, rfl, SameStatic.refl _, rfl, rfl⟩
    · exact ⟨rfl, rfl, SameStatic.refl _, rfl, rfl⟩
  · exact ⟨rfl, rfl, SameStatic.refl _, rfl, rfl⟩

/-- A response is quiet whichever port it is for: it completes a load, or acknowledges a store, or
is dropped. -/
theorem quiet_dataResponse (c : OoOCore M) (r : MemResponse Nat) : Quiet c (c.dataResponse r) := by
  unfold OoOCore.dataResponse
  split <;> exact ⟨rfl, rfl, SameStatic.refl _, rfl, rfl⟩

/-- Issuing an instruction moves it from the issue queue to a unit. -/
theorem quiet_issueTo (c : OoOCore M) (slot : Nat) (u : UnitRef) : Quiet c (c.issueTo slot u) := by
  cases u with
  | wb i => exact ⟨rfl, List.length_modify _ _ _, SameStatic.refl _, rfl, rfl⟩
  | agu i => exact ⟨rfl, rfl, SameStatic.refl _, rfl, rfl⟩

/-- The predecoder touches the predictor, the fetch queue and the fetch pc, whatever the block
holds. -/
theorem quiet_fetchLoop (line : Line) (n : Nat) : ∀ (idx : Nat) (c : OoOCore M),
    ∃ pred q pc, fetchLoop line n idx c = { c with pred := pred, fetchQ := q, pc := pc } := by
  induction n with
  | zero => exact fun idx c => ⟨c.pred, c.fetchQ, _, rfl⟩
  | succ n ih =>
      intro idx c
      unfold fetchLoop
      dsimp only
      split
      · exact ⟨_, _, _, rfl⟩
      · obtain ⟨pred, q, pc, h⟩ := ih (idx + 1) (c.fetchOne line idx)
        exact ⟨pred, q, pc, h⟩

theorem quiet_applyRedirect (c : OoOCore M) : Quiet c c.applyRedirect := by
  unfold OoOCore.applyRedirect
  split <;> exact ⟨rfl, rfl, SameStatic.refl _, rfl, rfl⟩

theorem quiet_tickUnits (c : OoOCore M) : Quiet c c.tickUnits :=
  ⟨rfl, List.length_map _, SameStatic.refl _, rfl, rfl⟩

variable [MemPorts Nat M]

theorem quiet_fillOne (c : OoOCore M) (i : Nat) : Quiet c (c.fillOne i) := by
  rw [fillOne_eq]
  exact ⟨rfl, rfl, SameStatic.set rfl, rfl, rfl⟩

/-- What consuming a fetched block changes. -/
theorem consume_frame (c : OoOCore M) (r : MemResponse Nat) :
    ∃ m out stale pred q pc, c.consume r =
      { c with msys := m, fOutstanding := out, fStale := stale, pred := pred, fetchQ := q, pc := pc } := by
  unfold OoOCore.consume OoOCore.processFetch
  dsimp only
  split
  · exact ⟨_, _, _, c.pred, c.fetchQ, c.pc, rfl⟩
  · obtain ⟨pred, q, pc, h⟩ := quiet_fetchLoop r.rline
      (c.cfg.fetchBlockBytes / 4 - (c.fFetchPc - c.fBlock).toNat / 4)
      ((c.fFetchPc - c.fBlock).toNat / 4) { c with fOutstanding := false }
    rw [h]
    exact ⟨_, _, c.fStale, pred, q, pc, rfl⟩

/-- A load that is sent marks its entry issued; beside that only the memory system changes. -/
theorem sendLoad_frame {slot : Nat} (h : c.sendLoad slot = .ok c') :
    ∃ m, c' = { c with msys := m, lsq := c.lsq.issueLoad slot } := by
  unfold OoOCore.sendLoad at h
  dsimp only at h
  split at h
  · cases h
  · cases h
    exact ⟨_, rfl⟩

/-- A store that is sent changes the store buffer, the transaction counter and the memory system. -/
theorem sendStore_frame {slot : Nat} (h : c.sendStore slot = .ok c') :
    ∃ m sb ctr, c' = { c with msys := m, sb := sb, sbTxnCtr := ctr } := by
  unfold OoOCore.sendStore at h
  dsimp only at h
  split at h
  · cases h
  · cases h
    exact ⟨_, _, _, rfl⟩

end Quiet

/-! ## The structural invariant -/

/-- The invariant of the core, for the configuration that it was built with. -/
structure CoreOk {M : Type} (cfg : SimConfig) (c : OoOCore M) : Prop where
  config : c.cfg = cfg
  units : c.units.length = cfg.aluCount + 3
  back : BackOk c
  rename : RenameOk c

section CoreOk

variable {M : Type} {cfg : SimConfig} {c c' : OoOCore M}

/-- A quiet step that keeps the back end's invariant keeps the core's. -/
theorem CoreOk.quiet (h : CoreOk cfg c) (hq : Quiet c c') (hb : BackOk c') : CoreOk cfg c' :=
  ⟨hq.cfg.trans h.config, hq.units.trans h.units, hb, h.rename.quiet hq⟩

/-- A squash at any sequence number keeps the core's invariant: the rename map and the free list go
back together with the ROB. -/
theorem CoreOk.recover (h : CoreOk cfg c) (seq : Nat) : CoreOk cfg (c.recover seq) := by
  have hs := recover_spec h.back seq
  refine ⟨?_, ?_, h.back.recover seq, h.rename.recover h.back seq⟩
  · rw [hs.frame]
    exact h.config
  · rw [hs.units, List.length_map]
    exact h.units

/-- The state in which a mispredict calls `recover`. -/
def OoOCore.mispredictCall (c : OoOCore M) (slot : OutSlot) (e : RobEntry) : OoOCore M :=
  OoOCore.dropOut { c with
    pred :=
      if c.cfg.usePredictor then (c.pred.restore e.predBefore).replay e.pc e.ins e.actualTaken
      else c.pred } slot

/-- A mispredict is a call that repairs the predictor, a squash of everything younger than the
branch, and a redirect to its actual target. -/
theorem mispredict_eq (c : OoOCore M) (slot : OutSlot) (op : FuOp) (e : RobEntry) :
    c.mispredict slot op e =
      { (c.mispredictCall slot e).recover op.seq with
        pendRedirect := true, pendTarget := e.actualTarget } := rfl

/-- The state in which a violation scan calls `recover`. -/
def OoOCore.replayCall (c : OoOCore M) (slot : Nat) : OoOCore M :=
  { c with
    depTable := if c.cfg.depPredictor then
        Function.update c.depTable (((c.lsq.at' slot).pc >>> 2).toNat % c.cfg.depTableSize) 3
      else c.depTable
    pred := if c.cfg.usePredictor then
        c.pred.restore (c.rob.e (c.lsq.at' slot).robIdx).predBefore
      else c.pred }

/-- A violation is a call that restores the predictor, a squash from the victim on, the victim
included, and a redirect to the victim's pc. -/
theorem violationScan_eq {store : LsqEntry} {slot : Nat} (h : c.violationVictim store = some slot) :
    c.violationScan store =
      { (c.replayCall slot).recover ((c.lsq.at' slot).seq - 1) with
        pendRedirect := true, pendTarget := (c.lsq.at' slot).pc } := by
  unfold OoOCore.violationScan
  rw [h]
  rfl

/-- With no victim the scan changes nothing. -/
theorem violationScan_none {store : LsqEntry} (h : c.violationVictim store = none) :
    c.violationScan store = c := by
  unfold OoOCore.violationScan
  rw [h]

theorem quiet_mispredictCall (c : OoOCore M) (slot : OutSlot) (e : RobEntry) :
    Quiet c (c.mispredictCall slot e) := by
  have h := quiet_dropOut ({ c with
    pred :=
      if c.cfg.usePredictor then (c.pred.restore e.predBefore).replay e.pc e.ins e.actualTaken
      else c.pred } : OoOCore M) slot
  exact ⟨h.cfg, h.units, h.rob, h.rmap, h.freeList⟩

theorem BackOk.mispredictCall {slot : OutSlot} (h : BackOk (c.dropOut slot)) (e : RobEntry) :
    BackOk (c.mispredictCall slot e) := by
  cases slot with
  | unit n => exact { h with }
  | load n => exact { h with }

/-- One write back keeps the core's invariant, on the branch that recovers and on the one that does
not. -/
theorem CoreOk.writebackOne (h : CoreOk cfg c) (hne : c.wbReady ≠ []) :
    CoreOk cfg c.writebackOne.1 := by
  obtain ⟨slot, hs, ⟨heq, -⟩ | ⟨heq, -⟩⟩ := writebackOne_cases hne
  · rw [heq]
    exact h.quiet ((quiet_complete c _ _).trans (quiet_dropOut _ slot)) (h.back.finishResult hs)
  · rw [heq, mispredict_eq]
    have h1 := h.quiet ((quiet_complete c c.oldestReady (c.outAt slot)).trans
      (quiet_mispredictCall _ slot
        (resolve (c.rob.e (c.outAt slot).robIdx) (c.outAt slot))))
      ((h.back.finishResult hs).mispredictCall _)
    have h2 := h1.recover (c.outAt slot).seq
    exact ⟨h2.config, h2.units, { h2.back with }, ⟨h2.rename.maps, h2.rename.system⟩⟩

/-- The scan for order violations keeps the core's invariant, replay included. -/
theorem CoreOk.violationScan (h : CoreOk cfg c) (store : LsqEntry) :
    CoreOk cfg (c.violationScan store) := by
  cases hv : c.violationVictim store with
  | none =>
      rw [violationScan_none hv]
      exact h
  | some slot =>
      rw [violationScan_eq hv]
      have h1 : CoreOk cfg (c.replayCall slot) :=
        h.quiet ⟨rfl, rfl, SameStatic.refl _, rfl, rfl⟩ { h.back with }
      have h2 := h1.recover ((c.lsq.at' slot).seq - 1)
      exact ⟨h2.config, h2.units, { h2.back with }, ⟨h2.rename.maps, h2.rename.system⟩⟩

/-- One dispatch keeps the core's invariant when no live instruction is a system one, which is what
lets the new one be alone. -/
theorem CoreOk.dispatchOne (hcfg : cfg.Accepted) (h : CoreOk cfg c) (first : Bool)
    (hno : ∀ i ∈ c.rob.slots, (c.rob.e i).isSystem = false) :
    CoreOk cfg (c.dispatchOne first).1 := by
  rcases dispatchOne_cases c first with heq | ⟨hr, heq⟩ | ⟨hr, heq⟩
  · rw [heq]
    exact h
  · rw [heq]
    exact ⟨h.config, h.units, h.back.dispatchSystem hr, h.rename.dispatchSystem h.back hr⟩
  · rw [heq]
    have hfree : hasDest (decode c.fetchQ.head.raw) = true → c.freeList.head ≠ kNoReg :=
      fun hd => h.rename.head_ne (h.config ▸ hcfg) (hr.freeList hd)
    exact ⟨h.config, h.units, h.back.dispatchOp hr hno hfree, h.rename.dispatchOp h.back hr hno hfree⟩

variable [MemPorts Nat M]

/-- Giving one address to the LSQ keeps the core's invariant, with the replay it may start. -/
theorem CoreOk.aguDrainOne (h : CoreOk cfg c) {i : Nat} (hi : c.readyAgu = some i) :
    CoreOk cfg (c.aguDrainOne i) := by
  have h1 := h.quiet (quiet_fillOne c i) (h.back.fillOne hi)
  unfold OoOCore.aguDrainOne
  dsimp only
  split
  · exact h1.violationScan _
  · exact h1

/-- One commit of a done head keeps the core's invariant: the register it frees is named by nothing
that is live. -/
theorem CoreOk.commitOne (h : CoreOk cfg c) {b : Bool} (hne : c.rob.empty = false)
    (hd : c.rob.head.done = true) (hc : c.commitOne = .ok (c', b)) : CoreOk cfg c' := by
  have hb := h.back.commitOne hne hd hc
  have hr := h.rename.commitOne h.back hne hc
  rcases commitOne_cases hc with ⟨rfl, -⟩ | ⟨rec, hs, -⟩ | ⟨hs, -⟩
  · exact h
  · obtain ⟨ret, prf, pos, hal, ex, rfl, -⟩ := hs.frame
    exact ⟨h.config, h.units, hb, hr⟩
  · have hf := hs.frame
    have h1 : c'.cfg = c.cfg := by rw [hf]
    have h2 : c'.units = c.units := by rw [hf]
    exact ⟨h1.trans h.config, (congrArg List.length h2).trans h.units, hb, hr⟩

/-- Every action keeps the structural invariant. -/
theorem Action.coreOk (hcfg : cfg.Accepted) (ha : Action c c') (h : CoreOk cfg c) :
    CoreOk cfg c' := by
  cases ha with
  | commit hne hd _ hc => exact h.commitOne hne hd hc
  | writeback hne => exact h.writebackOne hne
  | drain hi => exact h.aguDrainOne hi
  | response _ =>
      have h1 : CoreOk cfg { c with msys := MemPorts.dPop c.msys } :=
        h.quiet ⟨rfl, rfl, SameStatic.refl _, rfl, rfl⟩ { h.back with }
      exact h1.quiet (quiet_dataResponse _ _) (h1.back.dataResponse _)
  | popAck _ _ => exact h.quiet ⟨rfl, rfl, SameStatic.refl _, rfl, rfl⟩ { h.back with }
  | capture hj => exact h.quiet (quiet_captureStore _ _) (h.back.captureStore hj)
  | surface hj hk => exact h.quiet (quiet_surfaceLoad _ _ _) (h.back.surfaceLoad hj hk)
  | zero hc _ =>
      exact h.quiet ⟨rfl, rfl, SameStatic.refl _, rfl, rfl⟩ (h.back.completeCandidate hc 0)
  | forward hg _ =>
      exact h.quiet ⟨rfl, rfl, SameStatic.refl _, rfl, rfl⟩
        (h.back.completeCandidate hg.candidate _)
  | sendLoad hg _ _ hs =>
      have hb := h.back.sendLoad hg.candidate hs
      obtain ⟨m, rfl⟩ := sendLoad_frame hs
      exact h.quiet ⟨rfl, rfl, SameStatic.refl _, rfl, rfl⟩ hb
  | sendStore _ _ hs =>
      have hb := h.back.sendStore hs
      obtain ⟨m, sb, ctr, rfl⟩ := sendStore_frame hs
      exact h.quiet ⟨rfl, rfl, SameStatic.refl _, rfl, rfl⟩ hb
  | issue hr hs hc => exact h.quiet (quiet_issueTo _ _ _) (h.back.issueTo hr hs hc)
  | dispatch hno => exact h.dispatchOne hcfg _ hno
  | consume _ _ =>
      rename_i r _ _
      obtain ⟨m, out, stale, pred, q, pc, heq⟩ := consume_frame c r
      rw [heq]
      exact h.quiet ⟨rfl, rfl, SameStatic.refl _, rfl, rfl⟩ { h.back with }
  | request _ _ _ _ _ _ _ =>
      exact h.quiet ⟨rfl, rfl, SameStatic.refl _, rfl, rfl⟩ { h.back with }
  | redirect =>
      apply h.quiet (quiet_applyRedirect c)
      unfold OoOCore.applyRedirect
      split
      · exact { h.back with }
      · exact h.back
  | tickUnits => exact h.quiet (quiet_tickUnits c) h.back.tickUnits
  | tickMem _ => exact h.quiet ⟨rfl, rfl, SameStatic.refl _, rfl, rfl⟩ { h.back with }

/-- Any sequence of actions keeps the core's invariant. -/
theorem Actions.coreOk (hcfg : cfg.Accepted) (ha : Actions c c') (h : CoreOk cfg c) :
    CoreOk cfg c' :=
  ha.preserve (fun hact => hact.coreOk hcfg) h

end CoreOk

/-! ## The flow of instructions -/

section Flow

variable {M : Type} {c c' : OoOCore M}

/-- What is beside the flow of instructions: messages, results that become visible, the fetch. No
register is written, no waiter or number changes, and nothing is committed. -/
structure Aside (c c' : OoOCore M) : Prop where
  quiet : Quiet c c'
  prf : c'.prf = c.prf
  iq : c'.iq = c.iq
  commits : c'.commits = c.commits
  seqCtr : c'.seqCtr = c.seqCtr
  log : c'.log = c.log ∨ ∃ seq v, c'.log = c.log ++ [.capture seq v]

theorem aside_captureStore (c : OoOCore M) (slot : Nat) : Aside c (c.captureStore slot) := by
  have hq := quiet_captureStore c slot
  unfold OoOCore.captureStore at hq ⊢
  dsimp only at hq ⊢
  split at hq
  · rename_i hcond
    rw [if_pos hcond]
    split at hq
    · rename_i ha
      rw [if_pos ha]
      exact ⟨hq, rfl, rfl, rfl, rfl, .inr ⟨_, _, rfl⟩⟩
    · rename_i ha
      rw [if_neg ha]
      exact ⟨hq, rfl, rfl, rfl, rfl, .inr ⟨_, _, rfl⟩⟩
  · rename_i hcond
    rw [if_neg hcond]
    exact ⟨hq, rfl, rfl, rfl, rfl, .inl rfl⟩

theorem aside_surfaceLoad (c : OoOCore M) (slot k : Nat) : Aside c (c.surfaceLoad slot k).1 := by
  unfold OoOCore.surfaceLoad
  dsimp only
  split
  · split
    · exact ⟨⟨rfl, rfl, SameStatic.refl _, rfl, rfl⟩, rfl, rfl, rfl, rfl, .inl rfl⟩
    · exact ⟨⟨rfl, rfl, SameStatic.refl _, rfl, rfl⟩, rfl, rfl, rfl, rfl, .inl rfl⟩
  · exact ⟨⟨rfl, rfl, SameStatic.refl _, rfl, rfl⟩, rfl, rfl, rfl, rfl, .inl rfl⟩

variable [MemPorts Nat M]

/-- An action takes an instruction on, or is beside the flow. -/
inductive Flow (c : OoOCore M) : OoOCore M → Prop
  | commit {c' : OoOCore M} {b : Bool} : c.rob.empty = false → c.rob.head.done = true →
      c.commitOne = .ok (c', b) → Flow c c'
  | writeback : c.wbReady ≠ [] → Flow c c.writebackOne.1
  | drain {i : Nat} : c.readyAgu = some i → Flow c (c.aguDrainOne i)
  | issue {slot : Nat} {u : UnitRef} : c.iq.ready slot = true → u.serves c (c.iq.e slot).unit →
      (c.unitAt u).canAccept = true → Flow c (c.issueTo slot u)
  | dispatch {first : Bool} : (∀ i ∈ c.rob.slots, (c.rob.e i).isSystem = false) →
      Flow c (c.dispatchOne first).1
  | tickUnits : Flow c c.tickUnits
  | aside {c' : OoOCore M} : Aside c c' → Flow c c'

/-- Every action takes one instruction on or is beside the flow. This is the inversion that the
invariants over the instructions in flight go by. -/
theorem Action.flow (ha : Action c c') : Flow c c' := by
  cases ha with
  | commit hne hd _ hc => exact .commit hne hd hc
  | writeback hne => exact .writeback hne
  | drain hi => exact .drain hi
  | issue hr hs hc => exact .issue hr hs hc
  | dispatch hno => exact .dispatch hno
  | tickUnits => exact .tickUnits
  | capture _ => exact .aside (aside_captureStore _ _)
  | surface _ _ => exact .aside (aside_surfaceLoad _ _ _)
  | response _ =>
      refine .aside ?_
      unfold OoOCore.dataResponse
      split <;> exact ⟨⟨rfl, rfl, SameStatic.refl _, rfl, rfl⟩, rfl, rfl, rfl, rfl, .inl rfl⟩
  | popAck _ _ => exact .aside ⟨⟨rfl, rfl, SameStatic.refl _, rfl, rfl⟩, rfl, rfl, rfl, rfl, .inl rfl⟩
  | zero _ _ => exact .aside ⟨⟨rfl, rfl, SameStatic.refl _, rfl, rfl⟩, rfl, rfl, rfl, rfl, .inl rfl⟩
  | forward _ _ => exact .aside ⟨⟨rfl, rfl, SameStatic.refl _, rfl, rfl⟩, rfl, rfl, rfl, rfl, .inl rfl⟩
  | sendLoad _ _ _ hs =>
      obtain ⟨m, rfl⟩ := sendLoad_frame hs
      exact .aside ⟨⟨rfl, rfl, SameStatic.refl _, rfl, rfl⟩, rfl, rfl, rfl, rfl, .inl rfl⟩
  | sendStore _ _ hs =>
      obtain ⟨m, sb, ctr, rfl⟩ := sendStore_frame hs
      exact .aside ⟨⟨rfl, rfl, SameStatic.refl _, rfl, rfl⟩, rfl, rfl, rfl, rfl, .inl rfl⟩
  | @consume r _ _ =>
      obtain ⟨m, out, stale, pred, q, pc, heq⟩ := consume_frame c r
      rw [heq]
      exact .aside ⟨⟨rfl, rfl, SameStatic.refl _, rfl, rfl⟩, rfl, rfl, rfl, rfl, .inl rfl⟩
  | request _ _ _ _ _ _ _ =>
      exact .aside ⟨⟨rfl, rfl, SameStatic.refl _, rfl, rfl⟩, rfl, rfl, rfl, rfl, .inl rfl⟩
  | redirect =>
      refine .aside ?_
      unfold OoOCore.applyRedirect
      split <;> exact ⟨⟨rfl, rfl, SameStatic.refl _, rfl, rfl⟩, rfl, rfl, rfl, rfl, .inl rfl⟩
  | tickMem _ => exact .aside ⟨⟨rfl, rfl, SameStatic.refl _, rfl, rfl⟩, rfl, rfl, rfl, rfl, .inl rfl⟩

end Flow

end RvO3
