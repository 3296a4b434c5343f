import RvO3.Core.Golden
import RvO3.Core.TagAge

/-!
# The values of committed loads

When a load commits, every older instruction has, and no younger one. So the value that it has delivered is
that of the stores before it in program order (`committed_load_value`): in every memory order, on every data
port that works in order, and whatever the order in which addresses resolve, data arrives, accesses are
sent and answered, stores leave the buffer and instructions are squashed.
-/

set_option autoImplicit false

namespace RvO3

open OoOCore

section Commit

variable {M : Type} [MemPorts Nat M] {cfg : SimConfig} {frames : Bool} {inputs : Nat → Word} {histLen : Nat → Nat}
  {msys : M} {c c' : OoOCore M} {answers : Nat → Option (MemResponse Nat)}

/-- A load that commits has delivered the bytes that the stores before it in program order leave at its
address, and no other store, extended as its opcode asks. -/
theorem committed_load_value (p : PortInOrder cfg M) (hcfg : cfg.Accepted) (hmem : cfg.memBytes < 2 ^ 32)
    (hok : p.ok msys) (hsize : MemPorts.memSize msys = cfg.memBytes)
    (h : Relation.ReflTransGen (AnsweredStep p) (OoOCore.init cfg frames inputs histLen msys, fun _ => none)
      (c, answers))
    (hne : c.rob.empty = false) (hd : c.rob.head.done = true) (hload : isLoad c.rob.head.ins.op = true)
    (hc : c.commitOne = .ok (c', true)) :
    c.lsq.ring.head.addr = c.headExec.value ∧ (c.rob.head.pdst ≠ kNoReg →
      c'.prf.val c.rob.head.pdst = extendLoad c.rob.head.ins.op (scalarOf (accessSize c.rob.head.ins.op) fun b =>
        storesApplied (p.newest msys) (archStores c.commits) (c.lsq.ring.head.addr.toNat + b))) := by
  have hmemory := memoryOk_of_answered hcfg hmem hok hsize h
  have hcons : c.rob.head.Consistent := hmemory.values.core.back.rob.consistent _
    (headIdx_mem hmemory.values.core.back hne)
  have hismem : c.rob.head.isMem = true := by
    rw [hcons.isMem, OoOCore.isMemOp, hload]
    rfl
  have hst : isStore c.rob.head.ins.op = false := by
    rw [← Bool.not_eq_true]
    intro hst
    rw [(store_shape hst).1] at hload
    cases hload
  rcases commitOne_cases hc with ⟨-, hfalse, -⟩ | ⟨rec, hs, -⟩ | ⟨hs, -⟩
  · cases hfalse
  · -- a load is no system instruction
    have hsys := hs.isSystem
    rw [hcons.isSystem] at hsys
    rcases (fuKindOf_eq_NONE_iff _).mp (of_decide_eq_true hsys) with hop | hop | hop | hop <;>
    · rw [hop] at hload
      cases hload
  · have haccess := hmemory.headAccess hne hd hismem (commitFault_none hs.noFault)
    have hprf : c'.prf = c.prf := (congrArg OoOCore.prf hs.frame :)
    refine ⟨haccess.addr, fun hdst => ?_⟩
    rw [hprf, haccess.addr]
    exact haccess.loaded hst hdst

end Commit

/-- A store to a byte of the word at 64 that waits for a quotient to know its address, behind a store of the
whole word and before a load of it. -/
def replayedProgram : Nat → Word
  | 0 => 0x00500093#32 -- addi x1, x0, 5
  | 1 => 0x04102023#32 -- sw x1, 64(x0)
  | 2 => 0x00700113#32 -- addi x2, x0, 7
  | 3 => 0x02104333#32 -- div x6, x0, x1
  | 4 => 0x042300A3#32 -- sb x2, 65(x6)
  | 5 => 0x04002183#32 -- lw x3, 64(x0)
  | _ => 0x00000013#32 -- nop

/-- The program as bytes. -/
def replayedImage : Nat → Byte := fun a => wordByte (replayedProgram (a / 4)) (a % 4)

/-- On the flat machine the load reads the first store ahead of the second, whose address is not known yet; it is
replayed when it is, and commits with the bytes of both. -/
theorem committed_load_value_replayed :
    (∃ b, Reach (OoOCore.init flatConfig false (fun _ => 0) (fun _ => 0) (MemorySystem.init flatConfig replayedImage))
      .boundary b ∧ (b.lsq.ring.slots.any fun j => (b.lsq.at' j).done && (b.lsq.at' j).value == 5) = true) ∧
    ∃ c c' : OoOCore (MemorySystem Nat), c.commits.map (·.pc) = [0, 4, 8, 12, 16] ∧ c.rob.head.pc = 20 ∧
      c.commitOne = .ok (c', true) ∧ c'.prf.val c.rob.head.pdst = 0x705 ∧
      extendLoad .LW (scalarOf 4 fun b => storesApplied replayedImage (archStores c.commits) (64 + b)) = 0x705 := by
  have hcfg : flatConfig.Accepted :=
    validateConfig_ok (show validateConfig flatConfig = .ok flatConfig by decide)
  have hfit : flatConfig.SizesFit := ⟨by decide, by decide, by decide⟩
  have hline : flatConfig.flatMemory = false → flatConfig.fetchBlockBytes ∣ flatConfig.memBytes ∨
      2 ^ 32 ≤ flatConfig.memBytes := nofun
  constructor
  · obtain ⟨b, hr, hp⟩ := Reach.eval (OoOCore.init flatConfig false (fun _ => 0) (fun _ => 0)
        (MemorySystem.init flatConfig replayedImage)) 48 .boundary
      (p := fun b => b.lsq.ring.slots.any fun j => (b.lsq.at' j).done && (b.lsq.at' j).value == 5) (by decide +kernel)
    exact ⟨b, hr, hp⟩
  · obtain ⟨c, hr, hp⟩ := Reach.eval (OoOCore.init flatConfig false (fun _ => 0) (fun _ => 0)
        (MemorySystem.init flatConfig replayedImage)) 184 .boundary
      (p := fun c => decide (c.commits.map (·.pc) = [0, 4, 8, 12, 16] ∧ c.rob.head.pc = 20 ∧
        c.rob.empty = false ∧ c.rob.head.done = true ∧ c.rob.head.ins.op = .LW ∧ c.rob.head.pdst ≠ kNoReg ∧
        c.lsq.ring.head.addr = 64 ∧ (c.commitOne.toOption.map fun r => (r.2, r.1.prf.val c.rob.head.pdst)) =
          some (true, 0x705) ∧ c.seqCtr < 2 ^ 16)) (by decide +kernel)
    obtain ⟨hpcs, hpc, hne, hd, hop, hdst, haddr, hcommit, hseq⟩ := of_decide_eq_true hp
    cases hc : c.commitOne with
    | error e =>
        rw [hc] at hcommit
        cases hcommit
    | ok r =>
        obtain ⟨c', b⟩ := r
        rw [hc] at hcommit
        obtain ⟨rfl, hval⟩ := Prod.mk.inj (Option.some.inj hcommit)
        have hk₀ := init_coreOk false (fun _ => 0) (fun _ => 0)
          (MemorySystem.init (τ := Nat) flatConfig replayedImage) hcfg
        have hfresh := Reach.dispatchesFresh hcfg hfit (by decide) nofun hr (.of_few hcfg hseq)
        obtain ⟨answers, hrun⟩ := (hfresh.fresh hcfg hk₀).system_answered hcfg hfit (by decide) (by decide) hline
        obtain ⟨hok, hnewest⟩ := MemorySystem.inOrder_init hcfg hfit hline
        have hvalue := (committed_load_value _ hcfg (by decide) hok (MemorySystem.memSize_init _ _) hrun hne hd
          (by rw [hop]; rfl) hc).2 hdst
        rw [hnewest, hop, haddr] at hvalue
        exact ⟨c, c', hpcs, hpc, hc, hval, hvalue.symm.trans hval⟩

end RvO3
