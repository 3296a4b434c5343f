import RvO3.Core.GoldenRun

/-!
# The fault of a head

A fault is recorded by the address unit and becomes real only when its instruction is the head of
the ROB and done. `EndsAs` says what the reference model does in the state that the commits leave,
with the word of that head: it fails with the same error, or, for a control transfer, goes to the
misaligned target and fails there (`HeadAddress.ends`, `PathGood.head_jumps`).
-/

set_option autoImplicit false

namespace RvO3

open OoOCore

/-! ## Only memory operations fault -/

section FaultsMem

variable {M : Type} [MemPorts Nat M] {cfg : SimConfig} {c c' : OoOCore M}

/-- Only a memory operation has a fault recorded: a branch to a misaligned target is found at
commit. -/
def FaultsMem (c : OoOCore M) : Prop :=
  ∀ i ∈ c.rob.slots, (c.rob.e i).fault ≠ 0 → (c.rob.e i).isMem = true

theorem RobAfter.faultsMem {i : Nat} {e : RobEntry} (hb : BackOk c) (ha : RobAfter c i e)
    (hstatic : e.isMem = (c.rob.e i).isMem) (h : (c.rob.e i).fault ≠ 0 → (c.rob.e i).isMem = true)
    (hf : e.fault ≠ 0) : e.isMem = true := by
  rw [hstatic]
  cases ha with
  | same => exact h hf
  | resolved _ _ => exact h hf
  | stored _ _ _ _ => exact h hf
  | addressed hk hi =>
      -- an op of an address unit names an entry of the LSQ
      have hnames := (hb.delivered hk).lsq
      have hmem := (hb.lsq.rob_mem hnames.live).2
      have hrob : lsqRob c.lsq _ = _ := hnames.robIdx
      rw [hrob, ← hi] at hmem
      exact hmem

omit [MemPorts Nat M] in
theorem FaultsMem.pushed {e : RobEntry} (h : FaultsMem c) (hp : Pushed c.rob e) (hf : e.fault = 0)
    (hr : c'.rob = pushRob c.rob e) : FaultsMem c' := by
  intro i hi hfault
  rw [hr] at hi hfault ⊢
  rcases List.mem_append.mp (hp.slots ▸ hi) with hold | hnew
  · rw [hp.old i hold] at hfault ⊢
    exact h i hold hfault
  · rw [List.mem_singleton.mp hnew, hp.new] at hfault
    exact absurd hf hfault

theorem Action.faultsMem (ha : Action c c') (hb : BackOk c) (h : FaultsMem c) : FaultsMem c' := by
  cases ha.robMoves hb with
  | kept hd =>
      intro i hi hf
      have hlive := hd.live i hi
      exact (ha.robAfter hb hlive).faultsMem hb (congrArg RobEntry.isMem (hd.static i) :) (h i hlive) hf
  | system hr heq =>
      exact h.pushed (e := systemEntry c c.fetchQ.head) (RvO3.pushed hb.rob.wf hr.rob _) rfl
        (by rw [heq, dispatchSystem_eq])
  | op hr heq =>
      exact h.pushed (e := opEntry c c.fetchQ.head) (RvO3.pushed hb.rob.wf hr.rob _) rfl
        (by rw [heq, dispatchOp_eq])

theorem Actions.faultsMem (hcfg : cfg.Accepted) {c₀ : OoOCore M} (hk : CoreOk cfg c₀) (h₀ : FaultsMem c₀)
    (ha : Actions c₀ c) : FaultsMem c := by
  induction ha with
  | refl => exact h₀
  | tail hr hact ih => exact hact.faultsMem (Actions.coreOk hcfg hr hk).back ih

end FaultsMem

/-! ## Errors of the reference model -/

section Reference

variable {m : RefModel} {I : Instr} {addr b : Word} {frames : Bool}

/-- What the access of a load or a store is called in an error. -/
def accessName (op : Op) : String := if isStore op then "store" else "load"

theorem RefModel.stepMem_misaligned (ha : addr.toNat % accessSize I.op ≠ 0) :
    m.stepMem I addr b = .error (.misaligned (accessName I.op) addr.toNat m.pc) := if_pos ha

theorem RefModel.stepMem_outside (hmem : (isLoad I.op || isStore I.op) = true)
    (ha : addr.toNat % accessSize I.op = 0) (hout : m.mem.size < addr.toNat + accessSize I.op) :
    m.stepMem I addr b = .error (.outOfRange (accessName I.op) addr.toNat) := by
  unfold RefModel.stepMem Memory.load Memory.store accessName
  dsimp only
  rw [if_neg (not_not.mpr ha), if_pos hout, if_pos hout]
  cases hst : isStore I.op with
  | true =>
      rw [(store_shape hst).1]
      rfl
  | false =>
      rw [hst, Bool.or_false] at hmem
      rw [hmem]
      rfl

theorem RefModel.stepOp_error {e : Fatal} {rec₀ : CommitRecord} (hmem : (isLoad I.op || isStore I.op) = true)
    (h : m.stepMem I (execute I m.pc (if usesRs1 I.op then m.regs I.rs1 else 0)
      (if usesRs2 I.op then m.regs I.rs2 else 0)).value (if usesRs2 I.op then m.regs I.rs2 else 0) = .error e) :
    m.stepOp I rec₀ = .error e := by
  unfold RefModel.stepOp
  dsimp only
  rw [if_pos hmem, h]

/-- What the reference model does where the core ends: the same error; a fetch from the same address,
outside memory; or a jump to the misaligned target, where it fails. -/
inductive EndsAs (frames : Bool) (m : RefModel) : Fatal → Prop
  | same {e : Fatal} : (∀ replay, m.step frames replay = .error e) → EndsAs frames m e
  | fetch {pc : Word} : m.pc = pc → (∀ replay, m.step frames replay = .error (.outOfRange "load" pc.toNat)) →
      EndsAs frames m (.outOfRange "instruction fetch" pc.toNat)
  | target {target : Word} : (∀ replay, ∃ m' rec, m.step frames replay = .ok (m', rec) ∧ m'.halted = false ∧
      ∀ replay', m'.step frames replay' = .error (.misalignedFetch target)) →
      EndsAs frames m (.misalignedTarget target m.pc)

/-- The reference model stands at an `ecall`, and what the silent syscall leaves out fails: run in its
registers and memory as the core runs it, the syscall ends with this error. -/
structure SyscallFails (frames : Bool) (m : RefModel) (e : Fatal) : Prop where
  ecall : ∃ raw, m.mem.load32 m.pc.toNat = .ok raw ∧ (decode raw).op = .ECALL
  fails : ∀ input, runSyscall (m.regs 17) (m.regs 10) false frames (fun a => m.mem.load8 a.toNat)
    m.mem.size input = .error e

end Reference

/-! ## The head -/

section Head

variable {cfg : SimConfig} {image : Nat → Byte} {c : OoOCore (MemorySystem Nat)} {e : Fatal} {frames : Bool}

theorem misaligned_iff (x : Word) : x &&& 3#32 ≠ 0#32 ↔ x.toNat % 4 ≠ 0 := by
  have hand : (x &&& 3#32).toNat = x.toNat % 4 := by
    rw [BitVec.toNat_and]
    exact Nat.and_two_pow_sub_one_eq_mod x.toNat 2
  rw [← hand, ne_eq, ne_eq, ← BitVec.toNat_inj]
  rfl

/-- The three faults of a head. -/
theorem commitFault_cases (h : c.commitFault c.rob.head = some e) :
    (c.rob.head.isBranch = true ∧ c.rob.head.actualTaken = true ∧ c.rob.head.actualTarget.toNat % 4 ≠ 0 ∧
        e = .misalignedTarget c.rob.head.actualTarget c.rob.head.pc) ∨
      (c.rob.head.fault = 1 ∧
        e = .misaligned (accessName c.rob.head.ins.op) c.lsq.ring.head.addr.toNat c.rob.head.pc) ∨
      (c.rob.head.fault ≠ 0 ∧ c.rob.head.fault ≠ 1 ∧
        e = .outOfRange (accessName c.rob.head.ins.op) c.lsq.ring.head.addr.toNat) := by
  unfold OoOCore.commitFault at h
  dsimp only at h
  split at h
  · rename_i hb
    cases h
    exact .inl ⟨hb.1, hb.2.1, (misaligned_iff _).mp hb.2.2, rfl⟩
  · split at h
    · cases h
    · rename_i hf
      split at h
      · rename_i hone
        cases h
        exact .inr (.inl ⟨hone, rfl⟩)
      · rename_i hone
        cases h
        exact .inr (.inr ⟨hf, hone, rfl⟩)

theorem faultOf_cases {memBytes n : Nat} {addr : Word} :
    (faultOf memBytes addr n = 1 ↔ addr.toNat % n ≠ 0) ∧
      (faultOf memBytes addr n ≠ 0 → faultOf memBytes addr n ≠ 1 →
        addr.toNat % n = 0 ∧ memBytes < addr.toNat + n) := by
  unfold faultOf
  split
  · rename_i h
    simp [h]
  · rename_i h
    split
    · rename_i hout
      simp [not_not.mp h, hout]
    · simp [not_not.mp h]

/-- The word of a head that is not a system instruction, in the reference model. -/
theorem head_execWord (hk : CoreOk cfg c) (hw : WordsDecoded c) (hne : c.rob.empty = false)
    (hsys : c.rob.head.isSystem = false) (replay : Word) :
    (archState image cfg.memBytes c.commits c.rob.head.pc).execWord c.rob.head.ins.raw frames replay =
      (archState image cfg.memBytes c.commits c.rob.head.pc).stepOp c.rob.head.ins
        { sequence := c.commits.length, pc := c.rob.head.pc, instruction := c.rob.head.ins.raw } := by
  have hlive := headIdx_mem hk.back hne
  have hdec : decode c.rob.head.ins.raw = c.rob.head.ins := hw _ hlive
  have hkind := (hk.back.rob.consistent _ hlive).isSystem
  have hplain : RefModel.Plain (decode c.rob.head.ins.raw).op := by
    rw [hdec]
    change c.rob.head.isSystem = _ at hkind
    rw [hsys] at hkind
    refine ⟨fun hop => ?_, fun hop => ?_, fun hop => ?_⟩ <;>
    · change false = decide (fuKindOf c.rob.head.ins.op = .NONE) at hkind
      rw [hop] at hkind
      cases hkind
  rw [RefModel.execWord_op hplain, hdec]
  rfl

/-- An access of the head that faults fails in the reference model. -/
theorem HeadAddress.ends {memBytes : Nat} (ha : HeadAddress memBytes c)
    (hmem : (isLoad c.rob.head.ins.op || isStore c.rob.head.ins.op) = true) {rec₀ : CommitRecord}
    (h : (c.rob.head.fault = 1 ∧
        e = .misaligned (accessName c.rob.head.ins.op) c.lsq.ring.head.addr.toNat c.rob.head.pc) ∨
      (c.rob.head.fault ≠ 0 ∧ c.rob.head.fault ≠ 1 ∧
        e = .outOfRange (accessName c.rob.head.ins.op) c.lsq.ring.head.addr.toNat)) :
    (archState image memBytes c.commits c.rob.head.pc).stepOp c.rob.head.ins rec₀ = .error e := by
  have hfault := ha.known.fault
  rw [ha.addr, ha.size] at hfault
  have hstep : (archState image memBytes c.commits c.rob.head.pc).stepMem c.rob.head.ins c.headExec.value
      (if usesRs2 c.rob.head.ins.op then archRegs c.commits c.rob.head.ins.rs2 else 0) = .error e := by
    rw [ha.addr] at h
    rcases h with ⟨hone, rfl⟩ | ⟨hzero, hone, rfl⟩
    · exact RefModel.stepMem_misaligned (faultOf_cases.1.mp (hfault.symm.trans hone))
    · rw [hfault] at hzero hone
      obtain ⟨halign, hout⟩ := faultOf_cases.2 hzero hone
      exact RefModel.stepMem_outside hmem halign hout
  exact RefModel.stepOp_error hmem hstep

/-- A control transfer of the head goes where it goes in the reference model. -/
theorem PathGood.head_jumps {stray : Word → Prop} (hp : PathGood cfg stray c) {memBytes : Nat} (hne : c.rob.empty = false)
    (hd : c.rob.head.done = true) (hb : c.rob.head.isBranch = true) (ht : c.rob.head.actualTaken = true)
    (rec₀ : CommitRecord) : ∃ m' rec,
    (archState image memBytes c.commits c.rob.head.pc).stepOp c.rob.head.ins rec₀ = .ok (m', rec) ∧
      m'.pc = c.rob.head.actualTarget ∧ m'.halted = false := by
  have hlive := headIdx_mem hp.core.back hne
  have hcons := hp.core.back.rob.consistent _ hlive
  have hkind : fuKindOf c.rob.head.ins.op = .BRANCH := by
    have hbranch := hcons.isBranch
    change c.rob.head.isBranch = _ at hbranch
    rw [hb] at hbranch
    exact of_decide_eq_true hbranch.symm
  have hmem : (isLoad c.rob.head.ins.op || isStore c.rob.head.ins.op) = false := by
    cases hop : c.rob.head.ins.op <;> rw [hop] at hkind <;> first | rfl | cases hkind
  have hisMem : c.rob.head.isMem = false := hcons.isMem.trans hmem
  have hsys : c.rob.head.isSystem = false := by
    have hsystem := hcons.isSystem
    change c.rob.head.isSystem = decide (fuKindOf c.rob.head.ins.op = .NONE) at hsystem
    rw [hsystem, hkind]
    rfl
  obtain ⟨res, hres, -, hbr⟩ := (hp.values.done _ hlive hd hisMem hsys).exists_result
  obtain ⟨htaken, htarget⟩ := hbr hb
  have hexec := Computes.head hp.core hp.values hne hres
  have hred : c.headExec.redirect = true := by
    rw [← hexec, ← htaken]
    exact ht
  have htgt : c.rob.head.actualTarget = c.headExec.target := by
    rw [← hexec] at hred ⊢
    exact htarget.trans (if_pos hred)
  unfold RefModel.stepOp
  dsimp only
  rw [hmem, if_neg Bool.false_ne_true]
  exact ⟨_, _, rfl, (if_pos hred).trans htgt.symm, rfl⟩

end Head

end RvO3
