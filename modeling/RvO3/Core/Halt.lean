import RvO3.Core.Alone
import RvO3.Core.LoadRun

/-!
# What only a commit changes

The records, the count of instructions and the exit state change when an instruction commits, and
at no other step (`Action.clerk`, `Stage.clerk`). A core that has halted has committed a system
instruction last, so it has an empty ROB and an empty store buffer (`Reach.stopped`).
-/

set_option autoImplicit false

namespace RvO3

open OoOCore

section Clerk

variable {M : Type} {c c' : OoOCore M}

/-- What the core keeps of the instructions that have committed: whether it has halted, with which
code, and their records. -/
def OoOCore.clerk (c : OoOCore M) : Bool × Nat × Nat × List CommitRecord :=
  (c.halted, c.exitCode, c.retired, c.commits)

/-- Memory, and what is kept of the instructions that have committed. -/
def OoOCore.outside (c : OoOCore M) : M × Bool × Nat × Nat × List CommitRecord := (c.msys, c.clerk)

theorem clerk_of_outside (h : c'.outside = c.outside) : c'.clerk = c.clerk := congrArg Prod.snd h

theorem msys_of_outside (h : c'.outside = c.outside) : c'.msys = c.msys := congrArg Prod.fst h

theorem clerk_inj (h : c'.clerk = c.clerk) :
    c'.halted = c.halted ∧ c'.exitCode = c.exitCode ∧ c'.retired = c.retired ∧ c'.commits = c.commits := by
  simpa only [OoOCore.clerk, Prod.mk.injEq] using h

theorem squashRob_outside (seq n : Nat) (c : OoOCore M) : (squashRob seq n c).outside = c.outside := by
  induction n generalizing c with
  | zero => rfl
  | succ n ih =>
      unfold squashRob
      split
      · rw [ih]
        unfold OoOCore.outside OoOCore.clerk
        dsimp only
        split <;> rfl
      · rfl

/-- A squash touches neither the memory system nor what was committed. -/
theorem recover_outside (c : OoOCore M) (seq : Nat) : (c.recover seq).outside = c.outside :=
  squashRob_outside seq c.rob.n (c.flushBackEnd seq)

theorem dropOut_outside (c : OoOCore M) (slot : OutSlot) : (c.dropOut slot).outside = c.outside := by
  cases slot <;> rfl

theorem writebackOne_outside (c : OoOCore M) : c.writebackOne.1.outside = c.outside := by
  unfold OoOCore.writebackOne
  dsimp only
  split
  · unfold OoOCore.mispredict
    dsimp only
    change (OoOCore.recover _ _).outside = _
    rw [recover_outside]
    rw [dropOut_outside]
    rfl
  · rw [dropOut_outside]
    rfl

theorem violationScan_outside (c : OoOCore M) (store : LsqEntry) : (c.violationScan store).outside = c.outside := by
  cases hv : c.violationVictim store with
  | none => rw [violationScan_none hv]
  | some slot =>
      rw [violationScan_eq hv]
      exact recover_outside (c.replayCall slot) _

theorem captureStore_outside (c : OoOCore M) (slot : Nat) : (c.captureStore slot).outside = c.outside := by
  unfold OoOCore.captureStore
  dsimp only
  split
  · split <;> rfl
  · rfl

theorem surfaceLoad_outside (c : OoOCore M) (slot k : Nat) : (c.surfaceLoad slot k).1.outside = c.outside := by
  unfold OoOCore.surfaceLoad
  dsimp only
  split
  · split <;> rfl
  · rfl

theorem dispatchOne_outside (c : OoOCore M) (first : Bool) : (c.dispatchOne first).1.outside = c.outside := by
  rcases dispatchOne_cases c first with heq | ⟨-, heq⟩ | ⟨-, heq⟩ <;> rw [heq] <;> rfl

theorem visitLoads_outside (u p : Option Nat) (l : List Nat) (c : OoOCore M) :
    (visitLoads u p l c).1.outside = c.outside := by
  induction l generalizing c with
  | nil => rfl
  | cons slot l ih =>
      unfold visitLoads
      dsimp only
      split
      · rfl
      · split
        · exact ih _
        · split
          · exact ih _
          · split
            · split
              · rfl
              · exact ih _
            · rfl
            · split
              · rfl
              · exact ih _

variable [MemPorts Nat M]

/-- A response changes nothing of what was committed. -/
theorem dataResponse_clerk (c : OoOCore M) (r : MemResponse Nat) :
    ({ c with msys := MemPorts.dPop c.msys }.dataResponse r).clerk = c.clerk := by
  unfold OoOCore.dataResponse
  split <;> rfl

theorem aguDrainOne_outside (c : OoOCore M) (i : Nat) : (c.aguDrainOne i).outside = c.outside := by
  have hfill : (c.fillOne i).outside = c.outside := by
    rw [fillOne_eq]
    rfl
  unfold OoOCore.aguDrainOne
  dsimp only
  split
  · rw [violationScan_outside, hfill]
  · exact hfill

/-- A system instruction that does not halt retires as the others do. -/
theorem commitSystem_runs {e : RobEntry} {rec rec' : CommitRecord} (h : c.commitSystem e rec = .ok (c', rec'))
    (hh : c'.halted = false) : c'.retired = c.retired + 1 ∧ c'.exitCode = c.exitCode := by
  unfold OoOCore.commitSystem at h
  split at h
  · dsimp only at h
    split at h
    · cases h
    · cases h
      rw [Option.isSome_eq_false_iff, Option.isNone_iff_eq_none] at hh
      dsimp only
      rw [hh]
      exact ⟨rfl, rfl⟩
  · cases h
    cases hh
  · cases h
    cases hh
  · cases h
    exact ⟨rfl, rfl⟩

/-- A commit apart, an action retires nothing and does not halt. -/
theorem Action.clerk (ha : Action c c') :
    (c.rob.empty = false ∧ c.rob.head.done = true ∧ c.halted = false ∧ ∃ b, c.commitOne = .ok (c', b)) ∨
      c'.clerk = c.clerk := by
  cases ha with
  | commit hne hd hh hc => exact .inl ⟨hne, hd, hh, _, hc⟩
  | writeback _ => exact .inr (clerk_of_outside (writebackOne_outside c))
  | drain _ => exact .inr (clerk_of_outside (aguDrainOne_outside c _))
  | response _ => exact .inr (dataResponse_clerk c _)
  | capture _ => exact .inr (clerk_of_outside (captureStore_outside c _))
  | surface _ _ => exact .inr (clerk_of_outside (surfaceLoad_outside c _ _))
  | dispatch _ => exact .inr (clerk_of_outside (dispatchOne_outside c _))
  | sendLoad _ _ _ hs =>
      obtain ⟨m, rfl⟩ := sendLoad_frame hs
      exact .inr rfl
  | sendStore _ _ hs =>
      obtain ⟨m, sb, ctr, rfl⟩ := sendStore_frame hs
      exact .inr rfl
  | @issue slot u _ _ _ => cases u <;> exact .inr rfl
  | @consume r _ _ =>
      obtain ⟨m, out, stale, pred, q, pc, heq⟩ := consume_frame c r
      rw [heq]
      exact .inr rfl
  | redirect =>
      unfold OoOCore.applyRedirect
      split <;> exact .inr rfl
  | _ => exact .inr rfl

end Clerk

/-! ## Stages -/

section Stages

variable {M : Type} {cfg : SimConfig} {c c' : OoOCore M}

theorem steps_same {α : Type} {f : OoOCore M → α}
    (h : Relation.ReflTransGen (fun d d' : OoOCore M => f d' = f d) c c') : f c' = f c := by
  induction h with
  | refl => rfl
  | tail _ hs ih => exact hs.trans ih

variable [MemPorts Nat M]

/-- The stages between the commit and the fetch that use no port of memory. -/
def Phase.portless : Phase → Bool
  | .committed | .wrote | .operated | .issued => true
  | _ => false

/-- Such a stage leaves memory alone, and commits nothing. -/
theorem Stage.outside (hcfg : cfg.Accepted) {ph ph' : Phase} (hk : CoreOk cfg c)
    (hno : (ph = .committed ∨ ph.afterCommit = true) → NoSystem c) (hs : Stage ph c ph' c')
    (hph : ph.portless = true) : c'.outside = c.outside := by
  cases hs with
  | writeback _ =>
      exact steps_same (writebackLoop_steps (fun _ => writebackOne_outside _) _ hk (hno (Or.inl rfl))
        (Nat.min_le_right _ _)).1
  | drain => exact steps_same (aguDrainLoop_steps (fun _ => aguDrainOne_outside _ _) _ hk (hno (Or.inr rfl))).1
  | issue => exact steps_same (issueStage_steps (fun {d s u} _ _ _ => by cases u <;> rfl) hk).1
  | dispatch =>
      exact steps_same (dispatchLoop_steps (fun _ => dispatchOne_outside _ _) hcfg _ hk (hno (Or.inr rfl)))
  | _ => cases hph

omit [MemPorts Nat M] in
theorem lsqUpdates_outside (hk : CoreOk cfg c) : c.lsqUpdates.outside = c.outside :=
  steps_same (lsqUpdates_steps (fun _ => captureStore_outside _ _) (fun _ _ => surfaceLoad_outside _ _ _) hk).1

theorem accessOne_clerk {b : Bool} (h : c.accessOne = .ok (c', b)) : c'.clerk = c.clerk := by
  have hfind : c.findLoad.1.clerk = c.clerk := clerk_of_outside (visitLoads_outside _ _ _ _)
  cases accessOne_cases h with
  | idle => exact hfind
  | store _ _ hs =>
      obtain ⟨m, sb, ctr, rfl⟩ := sendStore_frame hs
      exact hfind
  | load _ _ hs =>
      obtain ⟨m, rfl⟩ := sendLoad_frame hs
      exact hfind

theorem accessLoop_clerk (n : Nat) : ∀ {c : OoOCore M}, c.accessLoop n = .ok c' → c'.clerk = c.clerk := by
  induction n with
  | zero =>
      intro c h
      cases h
      rfl
  | succ n ih =>
      intro c h
      unfold accessLoop at h
      split at h
      · cases h
      · rename_i c₁ hc
        exact (ih h).trans (accessOne_clerk hc)
      · rename_i c₁ hc
        cases h
        exact accessOne_clerk hc

/-- The load-store stage before its updates: the responses have been taken, and acked stores popped. -/
def OoOCore.acked (c : OoOCore M) : OoOCore M :=
  { c.drainDataResponses with sb := popAcked c.drainDataResponses.sb.ring.n c.drainDataResponses.sb }

/-- The parts of the load-store stage: responses and acks, updates, accesses, and responses again. -/
theorem lsqOperate_parts (hcfg : cfg.Accepted) (hk : CoreOk cfg c) (h : c.lsqOperate = .ok c') :
    CoreOk cfg c.acked ∧ CoreOk cfg c.acked.lsqUpdates ∧ ∃ c₄,
      c.acked.lsqUpdates.accessLoop c.acked.lsqUpdates.cfg.dataPorts = .ok c₄ ∧ c' = c₄.drainDataResponses := by
  have a1 : Actions c c.drainDataResponses := (drainLoop_actions (MemPorts.dReady c.msys) c).1
  have a2 := popAcked_actions c.drainDataResponses.sb.ring.n c.drainDataResponses
  have hk₂ : CoreOk cfg c.acked := Actions.coreOk hcfg (a1.trans a2) hk
  refine ⟨hk₂, Actions.coreOk hcfg (lsqUpdates_actions hk₂).1 hk₂, ?_⟩
  unfold OoOCore.lsqOperate at h
  dsimp only at h
  split at h
  · cases h
  · rename_i c₄ hc
    cases h
    exact ⟨c₄, hc, rfl⟩

/-- The LSQ's stage changes nothing of what was committed. -/
theorem lsqOperate_clerk (hcfg : cfg.Accepted) (hk : CoreOk cfg c) (h : c.lsqOperate = .ok c') :
    c'.clerk = c.clerk := by
  have hdrain : ∀ d : OoOCore M, d.drainDataResponses.clerk = d.clerk := fun d =>
    steps_same (drainLoop_steps (fun _ => dataResponse_clerk _ _) _).1
  obtain ⟨hk₂, -, c₄, hacc, rfl⟩ := lsqOperate_parts hcfg hk h
  have hacked : c.acked.clerk = c.drainDataResponses.clerk := rfl
  rw [hdrain, accessLoop_clerk _ hacc, clerk_of_outside (lsqUpdates_outside hk₂), hacked, hdrain]

/-- Only the commit stage commits. -/
theorem Stage.clerk (hcfg : cfg.Accepted) {ph ph' : Phase} (hk : CoreOk cfg c)
    (hno : (ph = .committed ∨ ph.afterCommit = true) → NoSystem c) (hs : Stage ph c ph' c')
    (hph : ph ≠ .boundary) : c'.clerk = c.clerk := by
  cases hp : ph.portless with
  | true => exact clerk_of_outside (hs.outside hcfg hk hno hp)
  | false =>
      cases hs with
      | commit _ _ => exact absurd rfl hph
      | operate hs => exact lsqOperate_clerk hcfg hk hs
      | fetch hs => exact fetchStage_keeps (fun _ _ _ _ _ _ _ _ _ => rfl) hs
      | edge hs =>
          obtain ⟨m, stale, pc, wb, units, agus, rfl⟩ := clockEdge_frame hs
          rfl
      | _ => cases hp

end Stages

/-! ## After a halt -/

section Stopped

variable {M : Type} [MemPorts Nat M] {cfg : SimConfig} {c c' : OoOCore M}

/-- Nothing is in flight, and every committed store has left the buffer. -/
structure Stopped (c : OoOCore M) : Prop where
  rob : c.rob.slots = []
  sb : c.sb.ring.n = 0

/-- What a commit needs of the state before it. -/
structure CommitReady (cfg : SimConfig) (c : OoOCore M) : Prop where
  core : CoreOk cfg c
  sb : c.sb.InOrder
  waits : SystemWaits c

/-- One commit keeps what the next one needs, and one that halts leaves nothing in flight and no
store in the buffer. -/
theorem CommitReady.commitOne (hcfg : cfg.Accepted) (h : CommitReady cfg c) {b : Bool}
    (hne : c.rob.empty = false) (hd : c.rob.head.done = true) (hh : c.halted = false)
    (hc : c.commitOne = .ok (c', b)) : CommitReady cfg c' ∧ (c'.halted = true → Stopped c') := by
  have ha : Action c c' := .commit hne hd hh hc
  refine ⟨⟨ha.coreOk hcfg h.core, ha.sbInOrder h.core.back h.sb, ha.systemWaits h.core.back h.sb h.waits⟩,
    fun hh' => ?_⟩
  rcases commitOne_cases hc with ⟨rfl, -⟩ | ⟨rec, hs, -⟩ | ⟨hs, -⟩
  · rw [hh] at hh'
    cases hh'
  · -- only a system instruction halts, and it is alone
    have hlive := headIdx_mem h.core.back hne
    have hrob := h.core.back.alone_popHead hlive hs.isSystem
    have hsb := h.waits _ hlive hs.isSystem
    obtain ⟨ret, prf, pos, hal, ex, rfl, -⟩ := hs.frame
    exact ⟨hrob, hsb⟩
  · rw [hs.frame] at hh'
    exact absurd hh' (hh ▸ Bool.false_ne_true)

/-- A machine that halts in its commit stage has nothing in flight and no store left in the buffer.
-/
theorem commitStage_stopped (hcfg : cfg.Accepted) (h : CommitReady cfg c) (hh : c.halted = false)
    (hs : c.commitStage = .ok c') (hh' : c'.halted = true) : Stopped c' := by
  have hsteps := commitLoop_steps (R := fun d d' : OoOCore M => CommitReady cfg d →
    CommitReady cfg d' ∧ (d'.halted = true → Stopped d')) (fun hne hd hh hc hr => hr.commitOne hcfg hne hd hh hc)
    _ hs
  suffices hall : CommitReady cfg c' ∧ (c'.halted = true → Stopped c') from hall.2 hh'
  clear hh' hs
  induction hsteps with
  | refl => exact ⟨h, fun hh' => absurd hh' (hh ▸ Bool.false_ne_true)⟩
  | tail _ hstep ih => exact hstep ih.1

end Stopped

section Runs

variable {cfg : SimConfig} {image : Nat → Byte} {frames : Bool} {inputs : Nat → Word}
  {histLen : Nat → Nat} {c : OoOCore (MemorySystem Nat)} {ph : Phase}

/-- A run halts in the commit stage, and with nothing left to do. -/
theorem Reach.stopped (hcfg : cfg.Accepted)
    (h : Reach (OoOCore.init cfg frames inputs histLen (MemorySystem.init cfg image)) ph c) :
    (ph = .committed ∨ c.halted = false) ∧ (c.halted = true → Stopped c) := by
  have hk₀ := init_coreOk frames inputs histLen (MemorySystem.init (τ := Nat) cfg image) hcfg
  have hall := h.stages
  clear h
  induction hall with
  | reset => exact ⟨.inr rfl, nofun⟩
  | @step ph ph' d d' hr _ hs ih =>
      obtain ⟨hk, hno⟩ := hr.reach.ok hcfg hk₀
      have hrun : d.halted = false := by
        cases hs with
        | commit hh _ => exact hh
        | writeback hh => exact hh
        | _ => exact ih.1.resolve_left nofun
      by_cases hph : ph = .boundary
      · subst hph
        cases hs with
        | commit _ hs =>
            have hact := hr.reach.actions hcfg hk₀
            have hacc := Actions.accessesOk hcfg MemorySystem.keepsSize (MemorySystem.memSize_init cfg image) hact
            exact ⟨.inl rfl, commitStage_stopped hcfg
              ⟨hk, hacc.sb, Actions.systemWaits hcfg hact⟩ hrun hs⟩
      · have hstill : d'.halted = false := (clerk_inj (hs.clerk hcfg hk hno hph)).1.trans hrun
        exact ⟨.inr hstill, fun hh => absurd hh (hstill ▸ Bool.false_ne_true)⟩

end Runs

end RvO3
