import RvO3.Core.Issue
import RvO3.Core.Path

/-!
# The successor of each commit

The head of the ROB is followed by its architectural successor: a branch has resolved by then,
and nothing else redirects. With the path of a run this makes each commit record follow the
one before it (`commits_follow`) in every run that dispatches no word but a branch with a
guess of its own. A stale branch-target entry for rewritten code breaks it (`stale_guess_commits`).
-/

set_option autoImplicit false

namespace RvO3

open OoOCore

section Commit

variable {M : Type} {cfg : SimConfig} {stray : Word → Prop} {c c' : OoOCore M}

/-- The head of the ROB reads the committed registers. -/
theorem writerOf_head (hb : BackOk c) (hne : c.rob.empty = false) (r : Reg) :
    c.writerOf c.rob.head.seq r = none := by
  have hold : olderThan c.rob c.rob.head.seq = [] := by
    obtain ⟨rest, hr⟩ := Ring.slots_eq_cons hb.rob.wf hne
    have hsort := hb.rob.sorted
    rw [hr, List.map_cons, List.pairwise_cons] at hsort
    rw [olderThan, List.map_eq_nil_iff, List.filter_eq_nil_iff]
    intro i hi
    rw [hr] at hi
    simp only [decide_eq_true_eq, Nat.not_lt]
    rcases List.mem_cons.mp hi with rfl | hi
    · exact Nat.le_refl _
    · exact Nat.le_of_lt (hsort.1 _ (List.mem_map_of_mem hi))
  rw [OoOCore.writerOf, hold]
  rfl

theorem Reads.head (hk : CoreOk cfg c) (hv : ValuesOk c) (hne : c.rob.empty = false) {r : Reg} {v : Word}
    (h : Reads c.mapAt c.prf c.rob.head.seq r v) : v = archRegs c.commits r := by
  have hsrc := h.srcVal hv hk.rename hk.back
  rw [OoOCore.srcVal, writerOf_head hk.back hne] at hsrc
  exact (Option.some.inj hsrc).symm

/-- A record of the head leads where the head leads. -/
theorem head_successor (hk : CoreOk cfg c) (hv : ValuesOk c) (hp : PathOk stray c) (hne : c.rob.empty = false)
    (hd : c.rob.head.done = true) {rec : CommitRecord} (hpc : rec.pc = c.rob.head.pc)
    (hraw : rec.instruction = c.rob.head.ins.raw) :
    rec.successor (archRegs c.commits) = c.rob.head.next := by
  have hlive := headIdx_mem hk.back hne
  have hdec : decode rec.instruction = c.rob.head.ins := by
    rw [hraw]
    exact hp.decoded _ hlive
  have hcons := hk.back.rob.consistent _ hlive
  change c.rob.head.Consistent at hcons
  unfold CommitRecord.successor
  dsimp only
  rw [hdec, hpc]
  by_cases hbr : c.rob.head.isBranch = true
  · have hkind : fuKindOf c.rob.head.ins.op = .BRANCH := by
      rw [hcons.isBranch, decide_eq_true_iff] at hbr
      exact hbr
    have hmem : c.rob.head.isMem = false := by
      rw [isMem_eq_kind hcons, hkind]
      rfl
    have hsys : c.rob.head.isSystem = false := by
      rw [hcons.isSystem, hkind]
      rfl
    obtain ⟨res, hres, -, hout⟩ := (hv.done _ hlive hd hmem hsys).exists_result
    obtain ⟨a, b, ha, hb, rfl⟩ := hres.exists_operands
    have hst : isStore c.rob.head.ins.op = false := by
      cases hop : c.rob.head.ins.op <;> first | rfl | (rw [hop] at hkind; cases hkind)
    -- an operand that is used is the committed register, and another one makes no difference
    have hrs1 : execute c.rob.head.ins c.rob.head.pc
        (if usesRs1 c.rob.head.ins.op then archRegs c.commits c.rob.head.ins.rs1 else 0) b =
          execute c.rob.head.ins c.rob.head.pc a b := by
      split
      · rename_i hu
        rw [(ha hu).head hk hv hne]
        rfl
      · rename_i hu
        exact execute_rs1_irrelevant (by simpa using hu) _ _ _ _
    have hrs2 : ∀ a', execute c.rob.head.ins c.rob.head.pc a'
        (if usesRs2 c.rob.head.ins.op then archRegs c.commits c.rob.head.ins.rs2 else 0) =
          execute c.rob.head.ins c.rob.head.pc a' b := by
      intro a'
      split
      · rename_i hu
        rw [(hb hu hst).head hk hv hne]
        rfl
      · rename_i hu
        exact execute_rs2_irrelevant (.inl (by simpa using hu)) _ _ _ _
    rw [hrs2, hrs1, RobEntry.next, if_pos hbr, if_pos hd]
    exact (hout hbr).2.symm
  · rw [RobEntry.next, if_neg hbr]
    refine if_neg fun hred => hbr ?_
    rw [hcons.isBranch, execute_redirect hred]
    rfl

/-- A commit moves the head from the ROB to the commit stream. A stray head would take the path with
it. -/
theorem PathOk.committed (h : PathOk stray c) (hwf : c.rob.Wf) (hne : c.rob.empty = false) {rec : CommitRecord}
    (hf : SameFront { c with commits := c.commits ++ [rec] } c') (hr : c'.rob = c.rob.popHead)
    (hpc : rec.pc = c.rob.head.pc) (hnext : rec.successor (archRegs c.commits) = c.rob.head.next)
    (hs : ¬ stray c.rob.head.pc) : PathOk stray c' := by
  have hent := Ring.entries_eq_cons hwf hne
  refine ⟨?_, ?_, ?_, ?_, ?_⟩
  · rw [hf.fetchQ]
    exact h.queue
  · rw [hf.fetchQ, hf.cfg]
    exact h.capacity
  · intro i hi
    rw [hr, Ring.slots_popHead hwf] at hi
    rw [hr]
    exact h.decoded i (List.mem_of_mem_tail hi)
  · obtain ⟨mid, hrs, hlegs⟩ := h.path
    have hcommitted : commitLegs (fun _ => 0) (c.commits ++ [rec]) =
        commitLegs (fun _ => 0) c.commits ++ [c.rob.head.leg] := by
      rw [commitLegs_append]
      show _ ++ [(rec.pc, rec.successor (archRegs c.commits))] = _
      rw [hpc, hnext]
      rfl
    rw [hent, List.map_cons, List.cons_append] at hlegs
    obtain ⟨rfl, hrest⟩ := hlegs
    refine ⟨c.rob.head.next, ?_, ?_⟩
    · rw [hf.commits, hcommitted]
      exact follows_concat.mpr ⟨hrs, rfl⟩
    · rw [hf.fetchQ, hf.front, hr]
      exact hrest.resolve_left hs
  · intro ho hst
    rw [hf.outstanding] at ho
    rw [hf.stale] at hst
    have hfet := h.fetching ho hst
    have hsame : Fetching { c with commits := c.commits ++ [rec] } :=
      ⟨hfet.steady, hfet.start, hfet.inBlock, hfet.room⟩
    exact hsame.same hf

variable [MemPorts Nat M]

/-- A system instruction is recorded with its address and its word. -/
theorem commitSystem_record {e : RobEntry} {rec rec' : CommitRecord} (h : c.commitSystem e rec = .ok (c', rec')) :
    rec'.pc = rec.pc ∧ rec'.instruction = rec.instruction := by
  unfold OoOCore.commitSystem at h
  split at h
  · dsimp only at h
    split at h
    · cases h
    · cases h
      exact ⟨rfl, rfl⟩
  · cases h
    exact ⟨rfl, rfl⟩
  · cases h
    exact ⟨rfl, rfl⟩
  · cases h
    exact ⟨rfl, rfl⟩

/-- The head commits with its architectural successor behind it, so it must not stand at a stray
address. -/
theorem PathOk.commitOne (h : PathOk stray c) (hk : CoreOk cfg c) (hv : ValuesOk c) (hne : c.rob.empty = false)
    (hd : c.rob.head.done = true) (hs : ¬ stray c.rob.head.pc) {b : Bool} (hc : c.commitOne = .ok (c', b)) :
    PathOk stray c' := by
  rcases commitOne_cases hc with ⟨rfl, -⟩ | ⟨rec, hsystem, -⟩ | ⟨hop, -⟩
  · exact h
  · obtain ⟨ret, prf, pos, hal, ex, rfl, hrec⟩ := hsystem.frame
    obtain ⟨hpc, hraw⟩ := commitSystem_record hrec
    exact h.committed hk.back.rob.wf hne ⟨rfl, rfl, rfl, rfl, rfl, rfl, rfl, rfl, rfl, rfl⟩ rfl hpc
      (head_successor hk hv h hne hd hpc hraw) hs
  · have hf := hop.frame
    have hfront : SameFront { c with commits := c.commits ++ [c.opRecord] } c' := by
      rw [hf]
      exact ⟨rfl, rfl, rfl, rfl, rfl, rfl, rfl, rfl, rfl, rfl⟩
    exact h.committed hk.back.rob.wf hne hfront (by rw [hf]) rfl (head_successor hk hv h hne hd rfl rfl) hs

end Commit

/-! ## Every action -/

section Actions

variable {M : Type} [MemPorts Nat M] {cfg : SimConfig} {stray stray' : Word → Prop} {c c' : OoOCore M}

/-- What the path of a run rests on. -/
structure PathGood (cfg : SimConfig) (stray : Word → Prop) (c : OoOCore M) : Prop where
  core : CoreOk cfg c
  values : ValuesOk c
  path : PathOk stray c

/-- An action keeps the path if it dispatches no word with a guess of its own, a branch or a stray one
apart, and commits none that is stray. -/
theorem Action.pathOk (hcfg : cfg.Accepted) (ha : Action c c') (hk : CoreOk cfg c) (hv : ValuesOk c)
    (h : PathOk stray c)
    (hg : c'.seqCtr ≠ c.seqCtr → c.fetchQ.empty = false → c.fetchQ.head.Guided ∨ stray c.fetchQ.head.pc)
    (hs : c.rob.empty = false → c.halted = false → ¬ stray c.rob.head.pc) : PathOk stray c' := by
  have hb := hk.back
  have hacc : c.cfg.Accepted := by
    rw [hk.config]
    exact hcfg
  cases ha with
  | commit hne hd hh hc => exact h.commitOne hk hv hne hd (hs hne hh) hc
  | writeback hne => exact h.writebackOne hb hne
  | drain hi => exact h.aguDrainOne hb hi
  | response _ =>
      unfold OoOCore.dataResponse
      split <;> exact h.frame ⟨rfl, rfl, rfl, rfl, rfl, rfl, rfl, rfl, rfl, rfl⟩ rfl
  | popAck _ _ => exact h.frame ⟨rfl, rfl, rfl, rfl, rfl, rfl, rfl, rfl, rfl, rfl⟩ rfl
  | capture hj => exact h.captureStore hb hj
  | surface _ _ =>
      unfold OoOCore.surfaceLoad
      dsimp only
      split
      · split <;> exact h.frame ⟨rfl, rfl, rfl, rfl, rfl, rfl, rfl, rfl, rfl, rfl⟩ rfl
      · exact h
  | zero _ _ => exact h.frame ⟨rfl, rfl, rfl, rfl, rfl, rfl, rfl, rfl, rfl, rfl⟩ rfl
  | forward _ _ => exact h.frame ⟨rfl, rfl, rfl, rfl, rfl, rfl, rfl, rfl, rfl, rfl⟩ rfl
  | sendLoad _ _ _ hsend =>
      obtain ⟨m, rfl⟩ := sendLoad_frame hsend
      exact h.frame ⟨rfl, rfl, rfl, rfl, rfl, rfl, rfl, rfl, rfl, rfl⟩ rfl
  | sendStore _ _ hsend =>
      obtain ⟨m, sb, ctr, rfl⟩ := sendStore_frame hsend
      exact h.frame ⟨rfl, rfl, rfl, rfl, rfl, rfl, rfl, rfl, rfl, rfl⟩ rfl
  | @issue slot u _ _ _ =>
      cases u <;> exact h.frame ⟨rfl, rfl, rfl, rfl, rfl, rfl, rfl, rfl, rfl, rfl⟩ rfl
  | @dispatch first _ =>
      -- only a dispatch advances the sequence counter
      rcases dispatchOne_cases c first with heq | ⟨hr, heq⟩ | ⟨hr, heq⟩
      · rw [heq]
        exact h
      · rw [heq] at hg ⊢
        exact h.dispatchSystem hb hr (hg (Nat.succ_ne_self _) hr.fetched)
      · rw [heq] at hg ⊢
        exact h.dispatchOp hb hr (hg (Nat.succ_ne_self _) hr.fetched)
  | consume _ ho => exact h.consume hacc ho _
  | request _ hp hroom hal _ _ _ => exact h.request hacc hp hroom hal
  | redirect => exact h.redirect
  | tickUnits => exact h.frame ⟨rfl, rfl, rfl, rfl, rfl, rfl, rfl, rfl, rfl, rfl⟩ rfl
  | tickMem _ => exact h.frame ⟨rfl, rfl, rfl, rfl, rfl, rfl, rfl, rfl, rfl, rfl⟩ rfl

/-- An action keeps the path if it dispatches nothing but guided and stray words, and commits no
stray one. -/
theorem Action.pathGood (hcfg : cfg.Accepted) (ha : Action c c') (h : PathGood cfg stray c)
    (hg : c'.seqCtr ≠ c.seqCtr → c.fetchQ.empty = false → c.fetchQ.head.Guided ∨ stray c.fetchQ.head.pc)
    (hs : c.rob.empty = false → c.halted = false → ¬ stray c.rob.head.pc) : PathGood cfg stray c' :=
  ⟨ha.coreOk hcfg h.core, ha.valuesOk hcfg h.core h.values, ha.pathOk hcfg h.core h.values h.path hg hs⟩

/-- Actions that dispatch nothing keep a path without stray addresses. -/
theorem Actions.pathGood (hcfg : cfg.Accepted) (ha : Actions c c') (hs : c'.seqCtr = c.seqCtr)
    (h : PathGood cfg (fun _ => False) c) : PathGood cfg (fun _ => False) c' := by
  suffices hall : c.seqCtr ≤ c'.seqCtr ∧ (c'.seqCtr = c.seqCtr → PathGood cfg (fun _ => False) c') ∧
      CoreOk cfg c' from
    hall.2.1 hs
  clear hs
  induction ha with
  | refl => exact ⟨Nat.le_refl _, fun _ => h, h.core⟩
  | tail hr hact ih =>
      obtain ⟨hle, hgood, hk⟩ := ih
      have hle' := (hact.waitersFrom hk.back).seqCtr
      refine ⟨Nat.le_trans hle hle', fun heq => ?_, hact.coreOk hcfg hk⟩
      exact hact.pathGood hcfg (hgood (by omega)) (fun hne => absurd (by omega) hne) fun _ _ => not_false

end Actions

/-! ## Stages that dispatch nothing -/

section Stages

variable {M : Type} {cfg : SimConfig} {c c' : OoOCore M}

theorem steps_seqCtr (h : Relation.ReflTransGen (fun d d' : OoOCore M => d'.seqCtr = d.seqCtr) c c') :
    c'.seqCtr = c.seqCtr := by
  induction h with
  | refl => rfl
  | tail _ hs ih => exact hs.trans ih

theorem dropOut_seqCtr (c : OoOCore M) (slot : OutSlot) : (c.dropOut slot).seqCtr = c.seqCtr := by
  cases slot <;> rfl

theorem writebackOne_seqCtr (c : OoOCore M) : c.writebackOne.1.seqCtr = c.seqCtr := by
  unfold OoOCore.writebackOne
  dsimp only
  split
  · unfold OoOCore.mispredict
    dsimp only
    rw [recover_seqCtr, dropOut_seqCtr]
    rfl
  · rw [dropOut_seqCtr]
    rfl

theorem violationScan_seqCtr (c : OoOCore M) (store : LsqEntry) :
    (c.violationScan store).seqCtr = c.seqCtr := by
  cases hv : c.violationVictim store with
  | none => rw [violationScan_none hv]
  | some slot =>
      rw [violationScan_eq hv]
      exact recover_seqCtr (c.replayCall slot) _

theorem visitLoads_seqCtr (u p : Option Nat) (l : List Nat) (c : OoOCore M) :
    (visitLoads u p l c).1.seqCtr = c.seqCtr := by
  induction l generalizing c with
  | nil => rfl
  | cons slot l ih =>
      unfold visitLoads
      dsimp only
      split
      · rfl
      · split
        · exact ih _
        · split
          · exact ih _
          · split
            · split
              · rfl
              · exact ih _
            · rfl
            · split
              · rfl
              · exact ih _

variable [MemPorts Nat M]

theorem commitStage_seqCtr (h : c.commitStage = .ok c') : c'.seqCtr = c.seqCtr := by
  refine steps_seqCtr (commitLoop_steps (fun _ _ _ hc => ?_) _ h)
  rcases commitOne_cases hc with ⟨rfl, -⟩ | ⟨rec, hs, -⟩ | ⟨hs, -⟩
  · rfl
  · obtain ⟨ret, prf, pos, hal, ex, rfl, -⟩ := hs.frame
    rfl
  · rw [hs.frame]

omit [MemPorts Nat M] in
theorem writebackStage_seqCtr (hk : CoreOk cfg c) (hn : NoSystem c) : c.writebackStage.seqCtr = c.seqCtr :=
  steps_seqCtr (writebackLoop_steps (fun _ => writebackOne_seqCtr _) _ hk hn (Nat.min_le_right _ _)).1

theorem aguDrain_seqCtr (hk : CoreOk cfg c) (hn : NoSystem c) : c.aguDrain.seqCtr = c.seqCtr := by
  refine steps_seqCtr (aguDrainLoop_steps (fun {d k} _ => ?_) _ hk hn).1
  have hfill : (d.fillOne k).seqCtr = d.seqCtr := by
    rw [fillOne_eq]
  unfold OoOCore.aguDrainOne
  dsimp only
  split
  · rw [violationScan_seqCtr, hfill]
  · exact hfill

theorem drainLoop_seqCtr (n : Nat) (c : OoOCore M) : (drainLoop n c).seqCtr = c.seqCtr := by
  refine steps_seqCtr (drainLoop_steps (fun _ => ?_) n).1
  unfold OoOCore.dataResponse
  split <;> rfl

omit [MemPorts Nat M] in
theorem lsqUpdates_seqCtr (hk : CoreOk cfg c) : c.lsqUpdates.seqCtr = c.seqCtr := by
  refine steps_seqCtr (lsqUpdates_steps (fun _ => ?_) (fun _ _ => ?_) hk).1
  · unfold OoOCore.captureStore
    dsimp only
    split
    · split <;> rfl
    · rfl
  · unfold OoOCore.surfaceLoad
    dsimp only
    split
    · split <;> rfl
    · rfl

theorem accessOne_seqCtr {b : Bool} (h : c.accessOne = .ok (c', b)) : c'.seqCtr = c.seqCtr := by
  have hfind : c.findLoad.1.seqCtr = c.seqCtr := visitLoads_seqCtr _ _ _ _
  cases accessOne_cases h with
  | idle => exact hfind
  | store _ _ hs =>
      obtain ⟨m, sb, ctr, rfl⟩ := sendStore_frame hs
      exact hfind
  | load _ _ hs =>
      obtain ⟨m, rfl⟩ := sendLoad_frame hs
      exact hfind

theorem accessLoop_seqCtr (n : Nat) : ∀ {c : OoOCore M}, c.accessLoop n = .ok c' → c'.seqCtr = c.seqCtr := by
  induction n with
  | zero =>
      intro c h
      cases h
      rfl
  | succ n ih =>
      intro c h
      unfold accessLoop at h
      split at h
      · cases h
      · rename_i c₁ hc
        exact (ih h).trans (accessOne_seqCtr hc)
      · rename_i c₁ hc
        cases h
        exact accessOne_seqCtr hc

theorem lsqOperate_seqCtr (hcfg : cfg.Accepted) (hk : CoreOk cfg c) (h : c.lsqOperate = .ok c') :
    c'.seqCtr = c.seqCtr := by
  unfold OoOCore.lsqOperate at h
  dsimp only at h
  have h1 : c.drainDataResponses.seqCtr = c.seqCtr := drainLoop_seqCtr _ c
  have a1 : Actions c c.drainDataResponses := (drainLoop_actions (MemPorts.dReady c.msys) c).1
  generalize c.drainDataResponses = c₁ at h h1 a1
  have a2 := popAcked_actions c₁.sb.ring.n c₁
  have h2 := lsqUpdates_seqCtr (Actions.coreOk hcfg (a1.trans a2) hk)
  generalize OoOCore.lsqUpdates _ = c₃ at h h2
  split at h
  · cases h
  · rename_i c₄ hc
    cases h
    calc c₄.drainDataResponses.seqCtr = c₄.seqCtr := drainLoop_seqCtr _ c₄
      _ = c₃.seqCtr := accessLoop_seqCtr _ hc
      _ = c₁.seqCtr := h2
      _ = c.seqCtr := h1

omit [MemPorts Nat M] in
theorem issueStage_seqCtr (hk : CoreOk cfg c) : c.issueStage.seqCtr = c.seqCtr :=
  steps_seqCtr (issueStage_steps (fun {d s u} _ _ _ => by cases u <;> rfl) hk).1

theorem fetchStage_seqCtr (h : c.fetchStage = .ok c') : c'.seqCtr = c.seqCtr :=
  fetchStage_keeps (fun _ _ _ _ _ _ _ _ _ => rfl) h

theorem clockEdge_seqCtr (h : c.clockEdge = .ok c') : c'.seqCtr = c.seqCtr := by
  obtain ⟨m, stale, pc, wb, units, agus, rfl⟩ := clockEdge_frame h
  rfl

end Stages

/-! ## Every run -/

/-- No word but a branch waits for dispatch with a guess of its own. -/
def QueueGuided {M : Type} (ph : Phase) (c : OoOCore M) : Prop :=
  ph = .issued → ∀ f ∈ c.fetchQ.entries, f.Guided

instance {M : Type} (ph : Phase) (c : OoOCore M) : Decidable (QueueGuided ph c) :=
  inferInstanceAs (Decidable (_ → _))

/-- Each record is followed by its architectural successor. -/
def CommitsFollow (commits : List CommitRecord) : Prop :=
  ∀ rs r s rest, commits = rs ++ r :: s :: rest → s.pc = r.successor (archRegs rs)

section Runs

variable {M : Type} {cfg : SimConfig} {stray : Word → Prop} {c c' : OoOCore M}

theorem PathOk.commitsFollow (h : PathOk stray c) : CommitsFollow c.commits := by
  intro rs r s rest heq
  obtain ⟨mid, hrs, -⟩ := h.path
  rw [heq, commitLegs_append] at hrs
  exact hrs.next

theorem init_pathOk (hcfg : cfg.Accepted) (frames : Bool) (inputs : Nat → Word) (histLen : Nat → Nat)
    (msys : M) : PathOk stray (OoOCore.init cfg frames inputs histLen msys) := by
  have hrob := @init_rob_slots _ cfg frames inputs histLen msys
  have hpos : 0 < cfg.fetchQSize := by
    have hge := hcfg.fetch_ge
    have hq := hcfg.fetchQ_ge
    omega
  refine ⟨Ring.wf_init hpos, rfl, fun i hi => ?_, ?_, nofun⟩
  · rw [hrob] at hi
    cases hi
  · rw [Ring.entries, hrob]
    exact ⟨0, rfl, rfl⟩

variable [MemPorts Nat M]

theorem PathGood.dispatchStage (hcfg : cfg.Accepted) (h : PathGood cfg stray c) (hn : NoSystem c)
    (hg : ∀ f ∈ c.fetchQ.entries, f.Guided) : PathGood cfg stray c.dispatchStage := by
  have hone : ∀ {d : OoOCore M} {first : Bool}, NoSystem d →
      (PathGood cfg stray d ∧ ∀ f ∈ d.fetchQ.entries, f.Guided) →
        PathGood cfg stray (d.dispatchOne first).1 ∧ ∀ f ∈ (d.dispatchOne first).1.fetchQ.entries, f.Guided := by
    intro d first hnd ⟨hd, hgd⟩
    have hact : Action d (d.dispatchOne first).1 := .dispatch hnd
    have hhead : d.fetchQ.empty = false → d.fetchQ.head.Guided := fun he =>
      hgd _ (by rw [Ring.entries_eq_cons hd.path.queue he]; exact List.mem_cons_self)
    refine ⟨⟨hact.coreOk hcfg hd.core, hact.valuesOk hcfg hd.core hd.values,
      hd.path.dispatchOne hd.core.back first fun he => .inl (hhead he)⟩, fun f hf => hgd f ?_⟩
    rcases dispatchOne_cases d first with heq | ⟨-, heq⟩ | ⟨-, heq⟩
    · rw [heq] at hf
      exact hf
    · rw [heq] at hf
      change f ∈ d.fetchQ.popHead.entries at hf
      rw [Ring.entries_popHead hd.path.queue] at hf
      exact List.mem_of_mem_tail hf
    · rw [heq] at hf
      change f ∈ d.fetchQ.popHead.entries at hf
      rw [Ring.entries_popHead hd.path.queue] at hf
      exact List.mem_of_mem_tail hf
  have hsteps : Relation.ReflTransGen (fun d d' : OoOCore M =>
      (PathGood cfg stray d ∧ ∀ f ∈ d.fetchQ.entries, f.Guided) →
        PathGood cfg stray d' ∧ ∀ f ∈ d'.fetchQ.entries, f.Guided) c c.dispatchStage :=
    dispatchLoop_steps hone hcfg c.cfg.width h.core hn
  suffices hall : PathGood cfg stray c.dispatchStage ∧ ∀ f ∈ c.dispatchStage.fetchQ.entries, f.Guided from hall.1
  generalize c.dispatchStage = d at hsteps ⊢
  induction hsteps with
  | refl => exact ⟨h, hg⟩
  | tail _ hs ih => exact hs ih

/-- In a run that dispatches no word but a branch with a guess of its own, each commit record is
followed by its architectural successor: the target of a taken transfer, or the next address.
Mispredicts, replays and stale fetches squash what is not on this path before it commits. -/
theorem commits_follow (hcfg : cfg.Accepted) (frames : Bool) (inputs : Nat → Word)
    (histLen : Nat → Nat) (msys : M) {ph : Phase}
    (h : ReachWhen QueueGuided (OoOCore.init cfg frames inputs histLen msys) ph c) :
    CommitsFollow c.commits := by
  have hk₀ := init_coreOk frames inputs histLen msys hcfg
  suffices hgood : PathGood cfg (fun _ => False) c from hgood.path.commitsFollow
  induction h with
  | reset => exact ⟨hk₀, init_valuesOk hcfg frames inputs histLen msys, init_pathOk hcfg frames inputs histLen msys⟩
  | step hr hq hs ih =>
      have hno := (hr.reach.ok hcfg hk₀).2
      cases hs with
      | commit _ hs => exact Actions.pathGood hcfg (commitLoop_actions _ hs) (commitStage_seqCtr hs) ih
      | writeback _ =>
          have hn := hno (Or.inl rfl)
          exact Actions.pathGood hcfg (writebackLoop_actions _ ih.core hn (Nat.min_le_right _ _)).1
            (writebackStage_seqCtr ih.core hn) ih
      | drain =>
          have hn := hno (Or.inr rfl)
          exact Actions.pathGood hcfg (aguDrainLoop_actions _ ih.core hn).1 (aguDrain_seqCtr ih.core hn) ih
      | operate hs =>
          exact Actions.pathGood hcfg (lsqOperate_actions hcfg ih.core hs).1
            (lsqOperate_seqCtr hcfg ih.core hs) ih
      | issue => exact Actions.pathGood hcfg (issueStage_actions ih.core).1 (issueStage_seqCtr ih.core) ih
      | dispatch => exact ih.dispatchStage hcfg (hno (Or.inr rfl)) (hq rfl)
      | fetch hs => exact Actions.pathGood hcfg (fetchStage_actions hs) (fetchStage_seqCtr hs) ih
      | edge hs => exact Actions.pathGood hcfg (clockEdge_actions hs) (clockEdge_seqCtr hs) ih

end Runs

/-! ## A guess for rewritten code -/

/-- A jump that becomes a `nop` after it has trained the branch-target buffer. -/
def rewritingProgram : Nat → Word
  | 0 => 0x01300093#32 -- addi x1, x0, 0x13
  | 1 => 0x0080006F#32 -- jal x0, 12
  | 2 => 0x00100073#32 -- ebreak
  | 3 => 0x00102223#32 -- sw x1, 4(x0)
  | 4 => 0x0FF0000F#32 -- fence
  | _ => 0xFF1FF06F#32 -- jal x0, 4

/-- The flat machine out of reset with `rewritingProgram` in memory. -/
def rewritingCore : OoOCore (MemorySystem Nat) :=
  OoOCore.init flatConfig false (fun _ => 0) (fun _ => 0)
    (MemorySystem.init flatConfig fun a => wordByte (rewritingProgram (a / 4)) (a % 4))

/-- Until the word at address 4 is fetched again the run is guided: the records of the two jumps and
of the words between them follow each other, and the stale guess waits in the queue. -/
theorem commits_follow_rewriting : ∃ c, ReachWhen QueueGuided rewritingCore .boundary c ∧
    c.commits.map (·.pc) = [0, 4, 12, 16, 20] ∧
    c.fetchQ.entries.map (fun f => (f.raw, f.pc, f.next)) = [(0x13#32, 4, 12)] ∧
    CommitsFollow c.commits := by
  have hcfg : flatConfig.Accepted :=
    validateConfig_ok (show validateConfig flatConfig = .ok flatConfig by decide)
  obtain ⟨c, hr, hp⟩ := ReachWhen.eval (Q := QueueGuided) (q := fun ph c => decide (QueueGuided ph c))
    (fun _ _ h => of_decide_eq_true h) rewritingCore 112 .boundary
    (p := fun c => decide (c.commits.map (·.pc) = [0, 4, 12, 16, 20] ∧
      c.fetchQ.entries.map (fun f => (f.raw, f.pc, f.next)) = [(0x13#32, 4, 12)])) (by decide +kernel)
  obtain ⟨hpcs, hqueue⟩ := of_decide_eq_true hp
  exact ⟨c, hr, hpcs, hqueue, commits_follow hcfg false (fun _ => 0) (fun _ => 0)
    (MemorySystem.init flatConfig fun a => wordByte (rewritingProgram (a / 4)) (a % 4)) hr⟩

/-- Without the condition it fails. The store turns the jump at address 4 into a `nop`, which is
fetched with the jump's prediction: the `nop` commits, and the next record is the target of the jump
it replaced. -/
theorem stale_guess_commits : validateConfig flatConfig = .ok flatConfig ∧
    ∃ ph c, Reach rewritingCore ph c ∧ ¬ CommitsFollow c.commits := by
  refine ⟨by decide, ?_⟩
  obtain ⟨c, hr, hp⟩ := Reach.eval rewritingCore 160 .boundary
    (p := fun c => decide (c.commits.length = 7 ∧ (c.commits.getD 5 {}).instruction = 0x13#32 ∧
      (c.commits.getD 5 {}).pc = 4 ∧ (c.commits.getD 6 {}).pc = 12)) (by decide +kernel)
  obtain ⟨hlen, hins, hpc, hnext⟩ := of_decide_eq_true hp
  refine ⟨_, c, hr, fun hf => ?_⟩
  have hsplit : c.commits = c.commits.take 5 ++ c.commits.getD 5 {} :: c.commits.getD 6 {} :: [] := by
    rw [List.getD_eq_getElem _ _ (show 5 < c.commits.length by omega),
      List.getD_eq_getElem _ _ (show 6 < c.commits.length by omega)]
    conv_lhs => rw [← List.take_append_drop 5 c.commits]
    rw [List.drop_eq_getElem_cons (show 5 < c.commits.length by omega),
      List.drop_eq_getElem_cons (show 6 < c.commits.length by omega),
      List.drop_eq_nil_of_le (show c.commits.length ≤ 7 by omega)]
  have hs := hf _ _ _ _ hsplit
  have hsucc : (c.commits.getD 5 {}).successor (archRegs (c.commits.take 5)) = 8 := by
    rw [CommitRecord.successor, hins, hpc]
    rfl
  rw [hnext, hsucc] at hs
  exact absurd hs (by decide)

end RvO3
