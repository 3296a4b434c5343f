import RvO3.Core.Faults
import RvO3.Core.FlatTags
import RvO3.Core.Inside
import RvO3.Sim.Lockstep

/-!
# Precise faults

The stages of a cycle can fail in the commit of the head and in a fetch from outside memory, and
nowhere else. Where the core fails, the records that it has committed are those of the reference
model, which fails there as well (`faults_precise`): no word on a wrong path, and no access that the
program does not make, ends a run.
-/

set_option autoImplicit false

namespace RvO3

open OoOCore

/-! ## Where a stage fails -/

section Stages

variable {M : Type} [MemPorts Nat M] {cfg : SimConfig} {c c' : OoOCore M} {e : Fatal}

/-- A stage fails, between two points of the cycle. -/
inductive Fails (c : OoOCore M) : Phase → Fatal → Prop
  | commit {e : Fatal} : c.halted = false → c.commitStage = .error e → Fails c .boundary e
  | operate {e : Fatal} : c.lsqOperate = .error e → Fails c .drained e
  | fetch {e : Fatal} : c.fetchStage = .error e → Fails c .dispatched e
  | edge {e : Fatal} : c.clockEdge = .error e → Fails c .fetched e

/-- A cycle fails where one of its stages does. -/
theorem stepCycle_fails {c₀ : OoOCore M} (h : Reach c₀ .boundary c) (hh : c.halted = false)
    (hs : c.stepCycle = .error e) : ∃ ph d, Reach c₀ ph d ∧ Fails d ph e := by
  unfold OoOCore.stepCycle at hs
  split at hs
  · rename_i err hc
    cases hs
    exact ⟨_, c, h, .commit hh hc⟩
  · rename_i c₁ hc
    split at hs
    · cases hs
    · rename_i hrun
      have h₁ := ReachIf.drain (.writeback (.commit h trivial hh hc) trivial (Bool.eq_false_iff.mpr hrun)) trivial
      split at hs
      · rename_i err hop
        cases hs
        exact ⟨_, _, h₁, .operate hop⟩
      · rename_i c₂ hop
        have h₂ := ReachIf.dispatch (.issue (.operate h₁ trivial hop) trivial) trivial
        split at hs
        · rename_i err hf
          cases hs
          exact ⟨_, _, h₂, .fetch hf⟩
        · rename_i c₃ hf
          exact ⟨_, _, .fetch h₂ trivial hf, .edge hs⟩

/-- The loop fails on a head that is done, after some commits. -/
theorem commitLoop_fails (n : Nat) : ∀ {c : OoOCore M}, c.commitLoop n = .error e →
    ∃ k d, c.commitLoop k = .ok d ∧ d.rob.empty = false ∧ d.rob.head.done = true ∧ d.halted = false ∧
      d.commitOne = .error e := by
  induction n with
  | zero => exact nofun
  | succ n ih =>
      intro c h
      unfold commitLoop at h
      split at h
      · rename_i hg
        have hgo := hg
        simp only [Bool.and_eq_true, Bool.not_eq_true'] at hg
        split at h
        · rename_i err hc
          cases h
          exact ⟨0, c, rfl, hg.1.1, hg.1.2, hg.2, hc⟩
        · rename_i c₁ hc
          obtain ⟨k, d, hk, hd⟩ := ih h
          refine ⟨k + 1, d, ?_, hd⟩
          rw [commitLoop, if_pos hgo, hc]
          exact hk
        · cases h
      · cases h

/-- The head fails by its fault, or in a system call. -/
theorem commitOne_fails (h : c.commitOne = .error e) :
    c.commitFault c.rob.head = some e ∨ (c.rob.head.isSystem = true ∧ c.rob.head.ins.op = .ECALL ∧
      runSyscall (c.prf.val c.rob.head.sysA7) (c.prf.val c.rob.head.sysA0) false c.frames
        (fun a => MemPorts.peek8 c.msys a.toNat) (MemPorts.memSize c.msys) (c.inputs c.inputPos) = .error e) := by
  unfold OoOCore.commitOne at h
  dsimp only at h
  split at h
  · rename_i err hf
    cases h
    exact .inl hf
  · split at h
    · rename_i hs
      right
      refine ⟨hs, ?_⟩
      split at h
      · rename_i err hc
        cases h
        unfold OoOCore.commitSystem at hc
        split at hc
        · rename_i hop
          dsimp only at hc
          split at hc
          · rename_i hrun
            cases hc
            exact ⟨hop, hrun⟩
          · cases hc
        all_goals cases hc
      · cases h
    · split at h <;> cases h

theorem commitOne_seqCtr {b : Bool} (h : c.commitOne = .ok (c', b)) : c'.seqCtr = c.seqCtr := by
  rcases commitOne_cases h with ⟨rfl, -⟩ | ⟨rec, hs, -⟩ | ⟨hs, -⟩
  · rfl
  · obtain ⟨ret, prf, pos, hal, ex, rfl, -⟩ := hs.frame
    rfl
  · rw [hs.frame]

/-- Commits dispatch nothing. -/
theorem commitLoop_seqCtr (n : Nat) : ∀ {c : OoOCore M}, c.commitLoop n = .ok c' → c'.seqCtr = c.seqCtr := by
  induction n with
  | zero =>
      intro c h
      cases h
      rfl
  | succ n ih =>
      intro c h
      unfold commitLoop at h
      split at h
      · split at h
        · cases h
        · rename_i c₁ hc
          exact (ih h).trans (commitOne_seqCtr hc)
        · rename_i c₁ hc
          cases h
          exact commitOne_seqCtr hc
      · cases h
        rfl

/-- Where a stage that starts in `c` fails with `e`: at a head that does not commit, after `k` others
did, or before the fetch. -/
inductive FailsAt (c : OoOCore M) (e : Fatal) : Phase → OoOCore M → Prop
  | commit {k : Nat} {d : OoOCore M} : c.commitLoop k = .ok d → d.rob.empty = false → d.rob.head.done = true →
      d.halted = false → d.commitOne = .error e → FailsAt c e .boundary d
  | fetch : c.fetchStage = .error e → FailsAt c e .dispatched c

/-- The fetch stage fails at an aligned address outside memory with nothing in flight, or in its access. -/
theorem fetchStage_fails (h : c.fetchStage = .error e) :
    (c.consumeIfReady.pendRedirect = false ∧ c.consumeIfReady.pc.toNat % 4 = 0 ∧
        c.consumeIfReady.rob.empty = true ∧ c.consumeIfReady.fetchQ.count = 0 ∧
        e = .outOfRange "instruction fetch" c.consumeIfReady.pc.toNat) ∨
      c.consumeIfReady.pc.toNat < MemPorts.memSize c.consumeIfReady.msys := by
  unfold OoOCore.fetchStage at h
  dsimp only at h
  generalize c.consumeIfReady = c₁ at h
  split at h
  · cases h
  · rename_i hbusy
    simp only [Bool.or_eq_true, not_or, Bool.not_eq_true] at hbusy
    split at h
    · cases h
    · rename_i halign
      split at h
      · split at h
        · rename_i hidle
          simp only [Bool.and_eq_true, beq_iff_eq] at hidle
          cases h
          exact .inl ⟨hbusy.1.2, not_not.mp halign, hidle.1, hidle.2, rfl⟩
        · cases h
      · rename_i hin
        exact .inr (Nat.lt_of_not_le hin)

end Stages

/-! ## The reference model at the head -/

section Head

variable {cfg : SimConfig} {image : Nat → Byte} {frames : Bool} {stray : Word → Prop} {c : OoOCore (MemorySystem Nat)}
  {d : DiffCheck}

/-- The reference model comes to the head of the ROB, and fetches its word. -/
theorem Lockstep.atHead (hd : Lockstep image cfg.memBytes frames c.commits d) (hrun : d.ref.halted = false)
    (hp : PathGood cfg stray c) (hf : FrontOk cfg image c)
    (hcode : KeepsCode frames (RefModel.init image cfg.memBytes)) (hne : c.rob.empty = false) : d.ref = archState image cfg.memBytes c.commits c.rob.head.pc ∧
      d.ref.mem.load32 d.ref.pc.toNat = .ok c.rob.head.ins.raw ∧
      ∀ replay, d.ref.step frames replay = d.ref.execWord c.rob.head.ins.raw frames replay := by
  obtain ⟨href, hpath⟩ := hd.next hrun
  have hpc : d.ref.pc = c.rob.head.pc := hpath.unique (hp.path.head hp.core.back.rob.wf hne)
  have hword := hf.live _ (headIdx_mem hp.core.back hne)
  have hun := hd.untouched hcode hrun hpc hword
  rw [hpc] at href
  refine ⟨href, ?_, fun replay => ?_⟩
  · rw [href]
    exact hword.load32 hun
  · rw [href]
    exact RefModel.step_eq_execWord hword.aligned (hword.load32 hun)

/-- A head that faults ends the reference model as it ends the core. -/
theorem Lockstep.headEnds {e : Fatal} (hd : Lockstep image cfg.memBytes frames c.commits d)
    (hrun : d.ref.halted = false) (hp : PathGood cfg stray c) (hm : MemoryOk cfg image c) (hf : FrontOk cfg image c)
    (hfaults : FaultsMem c) (hcode : KeepsCode frames (RefModel.init image cfg.memBytes))
    (hne : c.rob.empty = false) (hdone : c.rob.head.done = true) (hfault : c.commitFault c.rob.head = some e) :
    EndsAs frames d.ref e := by
  have hlive := headIdx_mem hp.core.back hne
  have hcons := hp.core.back.rob.consistent _ hlive
  obtain ⟨href, -, hstep⟩ := hd.atHead hrun hp hf hcode hne
  have hplain : c.rob.head.isBranch = true ∨ c.rob.head.isMem = true → c.rob.head.isSystem = false := by
    intro h
    by_contra hsys
    have hs : c.rob.head.isSystem = true := Bool.eq_true_of_not_eq_false hsys
    rcases h with hb | hmem
    · exact Bool.false_ne_true ((hcons.system_not_branch hs).symm.trans hb)
    · exact Bool.false_ne_true ((hcons.system_not_mem hs).symm.trans hmem)
  have hword : c.rob.head.isSystem = false → ∀ replay, d.ref.step frames replay = d.ref.stepOp c.rob.head.ins
      { sequence := c.commits.length, pc := c.rob.head.pc, instruction := c.rob.head.ins.raw } := by
    intro hsys replay
    rw [hstep, href]
    exact head_execWord hp.core hm.decoded hne hsys replay
  have haccess : c.rob.head.fault ≠ 0 →
      ((c.rob.head.fault = 1 ∧
          e = .misaligned (accessName c.rob.head.ins.op) c.lsq.ring.head.addr.toNat c.rob.head.pc) ∨
        (c.rob.head.fault ≠ 0 ∧ c.rob.head.fault ≠ 1 ∧
          e = .outOfRange (accessName c.rob.head.ins.op) c.lsq.ring.head.addr.toNat)) → EndsAs frames d.ref e := by
    intro hne0 h
    have hmem : c.rob.head.isMem = true := hfaults _ hlive hne0
    have hisMem : (isLoad c.rob.head.ins.op || isStore c.rob.head.ins.op) = true := hcons.isMem.symm.trans hmem
    refine .same fun replay => ?_
    rw [hword (hplain (.inr hmem)), href]
    exact (hm.headAddress hne hdone hmem).ends hisMem h
  rcases commitFault_cases hfault with ⟨hb, ht, hmis, rfl⟩ | h | h
  · have hpc : d.ref.pc = c.rob.head.pc := congrArg RefModel.pc href
    rw [← hpc]
    refine .target fun replay => ?_
    have hjumps := fun rec₀ => @PathGood.head_jumps cfg image c stray hp cfg.memBytes hne hdone hb ht rec₀
    obtain ⟨m', rec, hjump, hpc', hhalt⟩ := hjumps
      { sequence := c.commits.length, pc := c.rob.head.pc, instruction := c.rob.head.ins.raw }
    refine ⟨m', rec, ?_, hhalt, fun replay' => ?_⟩
    · rw [hword (hplain (.inl hb)), href]
      exact hjump
    · rw [← hpc'] at hmis ⊢
      exact if_pos hmis
  · exact haccess (by rw [h.1]; exact Nat.one_ne_zero) (.inl h)
  · exact haccess h.1 (.inr h)

/-- A system call that fails in the core fails in the state of the reference model. -/
theorem Lockstep.headSyscall {e : Fatal} (hcfg : cfg.Accepted) (hfit : cfg.SizesFit) (hmem : cfg.memBytes < 2 ^ 32)
    (hd : Lockstep image cfg.memBytes frames c.commits d) (hrun : d.ref.halted = false) (hp : PathGood cfg stray c)
    (hg : GoldenOk cfg image frames c) (hf : FrontOk cfg image c)
    (hcode : KeepsCode frames (RefModel.init image cfg.memBytes)) (hne : c.rob.empty = false)
    (hsys : c.rob.head.isSystem = true) (hop : c.rob.head.ins.op = .ECALL)
    (hcall : runSyscall (c.prf.val c.rob.head.sysA7) (c.prf.val c.rob.head.sysA0) false c.frames
      (fun a => MemPorts.peek8 c.msys a.toNat) (MemPorts.memSize c.msys) (c.inputs c.inputPos) = .error e) :
    SyscallFails c.frames d.ref e := by
  have hlive := headIdx_mem hp.core.back hne
  obtain ⟨href, hload, -⟩ := hd.atHead hrun hp hf hcode hne
  have hdecoded : decode c.rob.head.ins.raw = c.rob.head.ins := hg.memory.decoded _ hlive
  refine ⟨⟨_, hload, by rw [hdecoded, hop]⟩, ?_⟩
  -- the store buffer is empty, so both read the committed memory
  obtain ⟨evs, ht⟩ := hg.port
  have hread : (fun a : Word => MemPorts.peek8 c.msys a.toNat) = fun a : Word => d.ref.mem.load8 a.toNat := by
    funext a
    rw [href]
    exact ht.peek8 hcfg hfit hmem hg.memory.access.size (hg.waits _ hlive hsys) _ _
  have hsize : MemPorts.memSize c.msys = d.ref.mem.size := by
    rw [href]
    exact hg.memory.access.size
  obtain ⟨ha0, ha7⟩ := system_regs hp.core hg.memory.values.values hne hsys
  rw [hread, hsize, ha0, ha7] at hcall
  rw [href] at hcall ⊢
  exact runSyscall_error hcall

end Head

/-! ## Every run -/

section Runs

variable {cfg : SimConfig} {image : Nat → Byte} {frames quiet : Bool} {inputs : Nat → Word}
  {histLen : Nat → Nat} {c : OoOCore (MemorySystem Nat)} {ph : Phase} {e : Fatal}

/-- A fetch that fails with nothing in flight is one of the reference model. -/
theorem Lockstep.fetchEnds {stray : Word → Prop} {d : DiffCheck} (hd : Lockstep image cfg.memBytes quiet c.commits d)
    (hrun : d.ref.halted = false) (hp : PathGood cfg stray c) (hrob : c.rob.empty = true) (hq : c.fetchQ.count = 0)
    (hredirect : c.pendRedirect = false) (halign : c.pc.toNat % 4 = 0) (hout : cfg.memBytes ≤ c.pc.toNat) :
    EndsAs quiet d.ref (.outOfRange "instruction fetch" c.pc.toNat) := by
  obtain ⟨href, hpath⟩ := hd.next hrun
  have hents : c.rob.entries = [] := by
    rw [Ring.entries, (Ring.empty_iff c.rob).mp hrob]
    rfl
  have hqueue : c.fetchQ.entries = [] := by
    rw [Ring.entries, List.length_eq_zero_iff.mp ((Ring.length_slots _).trans hq)]
    rfl
  have hfront : c.front = c.pc := if_neg (hredirect ▸ Bool.false_ne_true)
  have hpc : d.ref.pc = c.pc := hfront ▸ hpath.unique (hp.path.drained hents hqueue)
  refine .fetch hpc fun replay => ?_
  have hsize : d.ref.mem.size = cfg.memBytes := congrArg Memory.size hd.mem
  have hload : d.ref.mem.load32 d.ref.pc.toNat = .error (.outOfRange "load" c.pc.toNat) := by
    unfold Memory.load32 Memory.load
    rw [hpc, hsize, if_pos (by omega)]
  unfold RefModel.step
  rw [hload, hpc, if_neg (not_not.mpr halign)]

theorem SimConfig.lineBytes_dvd (hwhole : cfg.grain ∣ cfg.memBytes)
    (hcache : cfg.flatMemory = false) : cfg.l2.lineBytes ∣ cfg.memBytes := by
  rw [SimConfig.grain, if_neg (by simp [hcache])] at hwhole
  exact hwhole

/-- What a run keeps, carried over actions that dispatch nothing. -/
theorem ReachWhen.lockstepAt {d : OoOCore (MemorySystem Nat)} (hcfg : cfg.Accepted) (hfit : cfg.SizesFit)
    (hmem : cfg.memBytes < 2 ^ 32) (hlsq : cfg.lsqSize ≤ 2 ^ 32)
    (hline : cfg.flatMemory = false → cfg.l2.lineBytes ∣ cfg.memBytes)
    (hcode : KeepsCode quiet (RefModel.init image cfg.memBytes))
    (h : ReachWhen (DispatchesWhen TagsFresh)
      (OoOCore.init cfg frames inputs histLen (MemorySystem.init cfg image)) ph c)
    (hact : Actions c d) (hseq : d.seqCtr = c.seqCtr) (hh : d.halted = false) :
    PathGood cfg d.StoredTo d ∧ GoldenOk cfg image quiet d ∧ FrontOk cfg image d ∧ FaultsMem d ∧
      ∃ k, Lockstep image cfg.memBytes quiet d.commits k ∧ k.ref.halted = false := by
  have hk₀ := init_coreOk frames inputs histLen (MemorySystem.init (τ := Nat) cfg image) hcfg
  have hk := h.reach.coreOk hcfg hk₀
  have hguard : GuardedActions (TakesFresh MemorySystem.owed)
      (OoOCore.init cfg frames inputs histLen (MemorySystem.init cfg image)) d :=
    (h.fresh hcfg hk₀).trans (Actions.guarded hcfg hact hk hseq)
  obtain ⟨hp, hg, hf⟩ := hguard.pathGood hcfg hfit hmem hlsq hline hcode
  have hfaults : FaultsMem d := by
    refine Actions.faultsMem hcfg hk₀ (fun i hi => ?_) hguard.actions
    rw [init_rob_slots] at hi
    cases hi
  obtain ⟨k, hk, hhalt, -⟩ := hp.lockstep hg hf hcode
  exact ⟨hp, hg, hf, hfaults, k, hk, hhalt.trans hh⟩

/-- How the run may end when the cycle from `c` fails with `e`: one of its stages fails, and the
records committed by then are those of the reference model, which is still running and ends in the same
way, or stands at the system call that failed. -/
def EndsWith (cfg : SimConfig) (image : Nat → Byte) (frames : Bool) (c : OoOCore (MemorySystem Nat)) (e : Fatal) :
    Prop :=
  ∃ ph b d m, Reach c ph b ∧ FailsAt b e ph d ∧ (RefModel.init image cfg.memBytes).Runs frames d.commits m ∧
    m.halted = false ∧ (EndsAs frames m e ∨ SyscallFails d.frames m e)

/-- Where a stage fails, the reference model ends as well. What a system call of the head does inside is
apart. -/
theorem ReachWhen.failsAt (hcfg : cfg.Accepted) (hfit : cfg.SizesFit) (hmem : cfg.memBytes < 2 ^ 32)
    (hlsq : cfg.lsqSize ≤ 2 ^ 32) (hwhole : cfg.grain ∣ cfg.memBytes)
    (hcode : KeepsCode quiet (RefModel.init image cfg.memBytes))
    (h : ReachWhen (DispatchesWhen TagsFresh)
      (OoOCore.init cfg frames inputs histLen (MemorySystem.init cfg image)) ph c) (hfail : Fails c ph e) :
    ∃ d m, FailsAt c e ph d ∧ (RefModel.init image cfg.memBytes).Runs quiet d.commits m ∧ m.halted = false ∧
      (EndsAs quiet m e ∨ (ph = .boundary ∧ d.rob.head.ins.op = .ECALL ∧ SyscallFails d.frames m e)) := by
  have hline := SimConfig.lineBytes_dvd hwhole
  have hin : RunsInside (OoOCore.init cfg frames inputs histLen (MemorySystem.init cfg image)) :=
    runsInside hcfg hfit (.inl hwhole)
  cases hfail with
  | commit hh hs =>
      obtain ⟨n, d, hloop, hne, hdone, hhd, hone⟩ := commitLoop_fails _ hs
      obtain ⟨hp, hg, hf, hfaults, k, hk, hrun⟩ := h.lockstepAt hcfg hfit hmem hlsq hline hcode
        (commitLoop_actions _ hloop) (commitLoop_seqCtr _ hloop) hhd
      refine ⟨d, k.ref, .commit hloop hne hdone hhd hone, hk.runs, hrun, ?_⟩
      rcases commitOne_fails hone with hfault | ⟨hsys, hop, hcall⟩
      · exact .inl (hk.headEnds hrun hp hg.memory hf hfaults hcode hne hdone hfault)
      · exact .inr ⟨rfl, hop, hk.headSyscall hcfg hfit hmem hrun hp hg hf hcode hne hsys hop hcall⟩
  | operate hs =>
      obtain ⟨c', hok⟩ := hin.operate c h.reach
      rw [hs] at hok
      cases hok
  | fetch hs =>
      have hseq : c.consumeIfReady.seqCtr = c.seqCtr := consumeIfReady_keeps (fun _ _ _ _ _ _ _ _ _ => rfl) c
      have hhalt : c.consumeIfReady.halted = c.halted := consumeIfReady_keeps (fun _ _ _ _ _ _ _ _ _ => rfl) c
      have hcom : c.consumeIfReady.commits = c.commits := consumeIfReady_keeps (fun _ _ _ _ _ _ _ _ _ => rfl) c
      have hact := consumeIfReady_actions c
      obtain ⟨hp, -, -, -, k, hk, hrun⟩ := h.lockstepAt hcfg hfit hmem hlsq hline hcode hact hseq
        (hhalt.trans ((h.reach.stopped hcfg).1.resolve_left nofun))
      have hout := (hin.fetch c e h.reach hs).2.2
      rw [show (OoOCore.init cfg frames inputs histLen (MemorySystem.init (τ := Nat) cfg image)).msys.memSize =
        cfg.memBytes from MemorySystem.memSize_init cfg image] at hout
      refine ⟨c, k.ref, .fetch hs, hcom ▸ hk.runs, hrun, .inl ?_⟩
      rcases fetchStage_fails hs with ⟨hredirect, halign, hrob, hq, rfl⟩ | hinside
      · exact hk.fetchEnds hrun hp hrob hq hredirect halign hout
      · obtain ⟨hacc, -⟩ := Actions.traced hcfg (hcfg.blocks hfit hline)
          ((h.reach.actions hcfg (init_coreOk _ _ _ _ hcfg)).trans hact)
        have hsize : MemPorts.memSize c.consumeIfReady.msys = cfg.memBytes := hacc.size
        omega
  | edge hs =>
      obtain ⟨c', hok⟩ := hin.edge c h.reach
      rw [hs] at hok
      cases hok

/-- A run from a state that a run has reached. -/
theorem ReachWhen.trans {Q : Phase → OoOCore (MemorySystem Nat) → Prop} {c₀ d : OoOCore (MemorySystem Nat)}
    (h : ReachWhen Q c₀ .boundary c) (h' : ReachWhen Q c ph d) : ReachWhen Q c₀ ph d := by
  induction h' with
  | reset => exact h
  | step _ hq hs ih => exact .step ih hq hs

/-- A fatal error of the core is precise. Where a cycle fails, the records committed so far are those of
the reference model, which then fails with the same error, loads from the same address outside memory,
goes to the same misaligned target and fails there, or stands at a system call that fails in its
registers and memory too. -/
theorem faults_precise (hcfg : cfg.Accepted) (hfit : cfg.SizesFit) (hmem : cfg.memBytes < 2 ^ 32)
    (hlsq : cfg.lsqSize ≤ 2 ^ 32) (hwhole : cfg.grain ∣ cfg.memBytes)
    (hcode : KeepsCode quiet (RefModel.init image cfg.memBytes))
    (h : ReachWhen (DispatchesWhen TagsFresh)
      (OoOCore.init cfg frames inputs histLen (MemorySystem.init cfg image)) .boundary c)
    (hfresh : ∀ d, Reach c .issued d → TagsFresh d) (hh : c.halted = false) (hs : c.stepCycle = .error e) :
    EndsWith cfg image quiet c e := by
  have hk := h.reach.coreOk hcfg (init_coreOk _ _ _ _ hcfg)
  obtain ⟨ph, b, hb, hfail⟩ := stepCycle_fails .reset hh hs
  have hrun := h.trans (hb.dispatchesWhen hcfg hk fun x hx _ => hfresh x hx)
  obtain ⟨d, m, hat, hruns, hm, hends⟩ := hrun.failsAt hcfg hfit hmem hlsq hwhole hcode hfail
  exact ⟨ph, b, d, m, hb, hat, hruns, hm, hends.imp_right fun h => h.2.2⟩

/-- A stage of the cycle from `c` fails with `e`, the records committed by then are those of the reference
model, and it is still running and ends in the same way, unless it is a system call that fails. -/
def EndsReference (cfg : SimConfig) (image : Nat → Byte) (frames : Bool) (c : OoOCore (MemorySystem Nat))
    (e : Fatal) : Prop :=
  ∃ ph b d m, Reach c ph b ∧ FailsAt b e ph d ∧ (RefModel.init image cfg.memBytes).Runs frames d.commits m ∧
    m.halted = false ∧ (¬ (ph = .boundary ∧ d.rob.head.ins.op = .ECALL) → EndsAs frames m e)

/-- A cycle of the core that fails ends the reference model. The records that the core has committed by
then are those of the reference model before it fails, but for a jump or a branch to a misaligned target,
which has a record there and none in the core. A system call that fails inside is left out. -/
theorem fault_ends_reference (hcfg : cfg.Accepted) (hfit : cfg.SizesFit) (hmem : cfg.memBytes < 2 ^ 32)
    (hlsq : cfg.lsqSize ≤ 2 ^ 32) (hwhole : cfg.grain ∣ cfg.memBytes)
    (hcode : KeepsCode quiet (RefModel.init image cfg.memBytes))
    (h : Reach (OoOCore.init cfg frames inputs histLen (MemorySystem.init cfg image)) .boundary c)
    (hlast : ∀ ph b, Reach c ph b →
      SlotsLast (OoOCore.init cfg frames inputs histLen (MemorySystem.init cfg image)) (ph, b))
    (hh : c.halted = false) (hs : c.stepCycle = .error e) : EndsReference cfg image quiet c e := by
  obtain ⟨ph, b, hb, hfail⟩ := stepCycle_fails .reset hh hs
  have hreach := (h.stages.trans hb.stages).reach
  have hrun := hreach.dispatchesFresh hcfg hfit hlsq (SimConfig.lineBytes_dvd hwhole) (hlast ph b hb)
  obtain ⟨d, m, hat, hruns, hm, hends⟩ := hrun.failsAt hcfg hfit hmem hlsq hwhole hcode hfail
  refine ⟨ph, b, d, m, hb, hat, hruns, hm, fun hno => ?_⟩
  exact hends.resolve_right fun h => hno ⟨h.1, h.2.1⟩

/-- A misaligned load behind a branch that waits for a quotient, and another one at the branch's
target. -/
def faultingProgram : Nat → Word
  | 0 => 0x00100093#32 -- addi x1, x0, 1
  | 1 => 0x021042B3#32 -- div x5, x0, x1
  | 2 => 0x00028463#32 -- beq x5, x0, 8
  | 3 => 0x00102103#32 -- lw x2, 1(x0)
  | 4 => 0x0020A183#32 -- lw x3, 2(x1)
  | _ => 0#32

/-- The program as bytes. -/
def faultingImage : Nat → Byte := fun a => wordByte (faultingProgram (a / 4)) (a % 4)

/-- It stores nothing before it fails. -/
theorem faultingImage_keepsCode : KeepsCode false (RefModel.init faultingImage flatConfig.memBytes) :=
  .eval 5 (by decide +kernel)

/-- On the flat machine the load on the wrong path faults and is squashed; the one at the target ends the
run, after the three instructions before it have committed. -/
theorem faults_precise_load :
    (∃ b, Reach (OoOCore.init flatConfig false (fun _ => 0) (fun _ => 0) (MemorySystem.init flatConfig faultingImage))
      .boundary b ∧ (b.rob.entries.any fun r => decide (r.pc = 12 ∧ r.fault = 1)) = true) ∧
    ∃ c, Reach (OoOCore.init flatConfig false (fun _ => 0) (fun _ => 0) (MemorySystem.init flatConfig faultingImage))
      .boundary c ∧ c.commits.map (·.pc) = [0, 4, 8] ∧ c.stepCycle = .error (.misaligned "load" 3 16) ∧
      EndsWith flatConfig faultingImage false c (.misaligned "load" 3 16) := by
  have hcfg : flatConfig.Accepted :=
    validateConfig_ok (show validateConfig flatConfig = .ok flatConfig by decide)
  have hfit : flatConfig.SizesFit := ⟨by decide, by decide, by decide⟩
  have hline : flatConfig.flatMemory = false → flatConfig.l2.lineBytes ∣ flatConfig.memBytes := by decide
  constructor
  · obtain ⟨b, hr, hp⟩ := Reach.eval (OoOCore.init flatConfig false (fun _ => 0) (fun _ => 0)
        (MemorySystem.init flatConfig faultingImage)) 48 .boundary
      (p := fun b => b.rob.entries.any fun r => decide (r.pc = 12 ∧ r.fault = 1)) (by decide +kernel)
    exact ⟨b, hr, hp⟩
  · obtain ⟨c, hr, hp⟩ := Reach.eval (OoOCore.init flatConfig false (fun _ => 0) (fun _ => 0)
        (MemorySystem.init flatConfig faultingImage)) 184 .boundary
      (p := fun c => decide (c.commits.map (·.pc) = [0, 4, 8] ∧ c.halted = false ∧ c.seqCtr + 1 < 2 ^ 16 ∧
        c.stepCycle.map (fun _ => ()) = .error (.misaligned "load" 3 16))) (by decide +kernel)
    obtain ⟨hpcs, hh, hseq, hfail⟩ := of_decide_eq_true hp
    have hfresh : ∀ d, Reach c .issued d → TagsFresh d := fun d hd =>
      (hr.stages.trans hd.stages).reach.flatFresh hcfg (by decide) rfl (by decide)
    exact ⟨c, hr, hpcs, map_eq_error hfail, faults_precise hcfg hfit (by decide) (by decide) (by decide)
      faultingImage_keepsCode (Reach.dispatchesFresh hcfg hfit (by decide) hline hr (.of_few hcfg (by omega))) hfresh hh
      (map_eq_error hfail)⟩

/-- A store over the first word, a misaligned load behind a branch that waits for a quotient, and a jump to a
misaligned target where the branch goes. -/
def strayingProgram : Nat → Word
  | 0 => 0x01300093#32 -- addi x1, x0, 19
  | 1 => 0x00102023#32 -- sw x1, 0(x0)
  | 2 => 0x021042B3#32 -- div x5, x0, x1
  | 3 => 0x00028463#32 -- beq x5, x0, 8
  | 4 => 0x00102103#32 -- lw x2, 1(x0)
  | 5 => 0x00600367#32 -- jalr x6, 6(x0)
  | _ => 0#32

/-- The program as bytes. -/
def strayingImage : Nat → Byte := fun a => wordByte (strayingProgram (a / 4)) (a % 4)

theorem strayingImage_keepsCode : KeepsCode false (RefModel.init strayingImage flatConfig.memBytes) :=
  .eval 7 (by decide +kernel)

/-- On the flat machine the load on the wrong path faults and is squashed. The jump ends the run, with the
records of the four instructions before it; the reference model goes on to the misaligned target. -/
theorem fault_ends_reference_straying :
    (∃ b, Reach (OoOCore.init flatConfig false (fun _ => 0) (fun _ => 0) (MemorySystem.init flatConfig strayingImage))
      .boundary b ∧ (b.rob.entries.any fun r => decide (r.pc = 16 ∧ r.fault = 1)) = true) ∧
    ∃ c, Reach (OoOCore.init flatConfig false (fun _ => 0) (fun _ => 0) (MemorySystem.init flatConfig strayingImage))
      .boundary c ∧ c.commits.map (·.pc) = [0, 4, 8, 12] ∧ c.stepCycle = .error (.misalignedTarget 6 20) ∧
      EndsReference flatConfig strayingImage false c (.misalignedTarget 6 20) := by
  have hcfg : flatConfig.Accepted :=
    validateConfig_ok (show validateConfig flatConfig = .ok flatConfig by decide)
  have hfit : flatConfig.SizesFit := ⟨by decide, by decide, by decide⟩
  constructor
  · obtain ⟨b, hr, hp⟩ := Reach.eval (OoOCore.init flatConfig false (fun _ => 0) (fun _ => 0)
        (MemorySystem.init flatConfig strayingImage)) 48 .boundary
      (p := fun b => b.rob.entries.any fun r => decide (r.pc = 16 ∧ r.fault = 1)) (by decide +kernel)
    exact ⟨b, hr, hp⟩
  · obtain ⟨c, hr, hp⟩ := Reach.eval (OoOCore.init flatConfig false (fun _ => 0) (fun _ => 0)
        (MemorySystem.init flatConfig strayingImage)) 168 .boundary
      (p := fun c => decide (c.commits.map (·.pc) = [0, 4, 8, 12] ∧ c.halted = false ∧
        c.stepCycle.map (fun _ => ()) = .error (.misalignedTarget 6 20) ∧
        stagesAll (fun b => decide (b.seqCtr < 2 ^ 16)) 8 .boundary c = true)) (by decide +kernel)
    obtain ⟨hpcs, hh, hfail, hall⟩ := of_decide_eq_true hp
    have hlast : ∀ ph b, Reach c ph b → SlotsLast (OoOCore.init flatConfig false (fun _ => 0) (fun _ => 0)
        (MemorySystem.init flatConfig strayingImage)) (ph, b) := fun ph b hb =>
      .of_few hcfg (of_decide_eq_true (hb.stages.all 8 hall))
    exact ⟨c, hr, hpcs, map_eq_error hfail, fault_ends_reference hcfg hfit (by decide) (by decide) (by decide)
      strayingImage_keepsCode hr hlast hh (map_eq_error hfail)⟩

end Runs

end RvO3
