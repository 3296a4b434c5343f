import RvO3.Core.RefModel

/-!
# Classification and execution

The control signals of `isa/isa.h` are range tests over the order of the opcodes, and the
switch of `execute` is written apart from them. The core rests on their agreement: it feeds an
operand that an instruction does not use with whatever the register file holds, looks for a
redirect only where the branch unit worked, and takes the result of a load or a store for its
address. The reference model feeds zeros, and writes a register only if `writesRd` says so.
-/

set_option autoImplicit false

namespace RvO3

/-! ## The range tests -/

/-- Some ranges of the enumeration: `op >= lo && op <= hi` for one of them. -/
def Op.inRanges (ranges : List (Op × Op)) (op : Op) : Bool :=
  ranges.any fun r => decide (r.1.ctorIdx ≤ op.ctorIdx) && decide (op.ctorIdx ≤ r.2.ctorIdx)

/-- The classes of opcodes that the source tests by range, each with its ranges. -/
def rangeClasses : List ((Op → Bool) × List (Op × Op)) :=
  [(isLoad, [(.LB, .LHU)]), (isStore, [(.SB, .SW)]), (isBranch, [(.BEQ, .BGEU)]), (isRegReg, [(.ADD, .REMU)]),
    (usesRs2, [(.BEQ, .BGEU), (.SB, .SW), (.ADD, .REMU)]),
    (fun op => fuKindOf op = .LSU, [(.LB, .LHU), (.SB, .SW)]),
    (fun op => fuKindOf op = .BRANCH, [(.BEQ, .BGEU), (.JAL, .JAL), (.JALR, .JALR)]),
    (fun op => fuKindOf op = .MUL, [(.MUL, .MULHU)]), (fun op => fuKindOf op = .DIV, [(.DIV, .REMU)])]

/-- The model lists the opcodes of a class by name. They are those of its ranges. -/
theorem rangeClasses_exact (op : Op) : ∀ k ∈ rangeClasses, k.1 op = op.inRanges k.2 := by
  cases op <;> decide

/-! ## The result of a memory operation -/

section Execute

variable {I : Instr}

/-- A load or a store computes its address, and nothing else. -/
theorem execute_address (h : fuKindOf I.op = .LSU) (pc a b : Word) : (execute I pc a b).value = a + I.imm := by
  rw [fuKindOf_eq_LSU_iff] at h
  rcases I with ⟨op, rd, rs1, rs2, imm, raw⟩
  cases op <;> first | rfl | cases h

end Execute

/-! ## The registers of the reference model -/

section Step

variable {m m' : RefModel} {frames : Bool} {input w : Word} {rec rec' : CommitRecord} {r : Reg}

/-- A system call changes `x10`, and no other register. -/
theorem RefModel.stepEcall_regs (h : m.stepEcall rec frames input = .ok (m', rec')) (hr : r ≠ 10) :
    m'.regs r = m.regs r := by
  unfold RefModel.stepEcall at h
  split at h
  · cases h
  · cases h
    exact Function.update_of_ne hr _ _

/-- Any other instruction changes its destination, if it has one. -/
theorem RefModel.stepOp_regs {I : Instr} (h : m.stepOp I rec = .ok (m', rec')) (hr : m'.regs r ≠ m.regs r) :
    writesRd I.op = true ∧ I.rd ≠ 0 ∧ r = I.rd := by
  unfold RefModel.stepOp at h
  dsimp only at h
  split at h
  · cases h
  · cases h
    dsimp only at hr
    by_cases hdest : (writesRd I.op && I.rd != 0) = true
    · rw [if_pos hdest, Function.update_apply] at hr
      simp only [Bool.and_eq_true, bne_iff_ne] at hdest
      by_cases hrd : r = I.rd
      · exact ⟨hdest.1, hdest.2, hrd⟩
      · rw [if_neg hrd] at hr
        exact absurd rfl hr
    · rw [if_neg hdest] at hr
      exact absurd rfl hr

/-- The register that a step changes is `x10` or the destination of the instruction at the pc. -/
theorem RefModel.step_regs (hw : m.mem.load32 m.pc.toNat = .ok w) (h : m.step frames input = .ok (m', rec))
    (h10 : r ≠ 10) (hr : m'.regs r ≠ m.regs r) :
    writesRd (decode w).op = true ∧ (decode w).rd ≠ 0 ∧ r = (decode w).rd := by
  unfold RefModel.step at h
  split at h
  · cases h
  · rw [hw] at h
    dsimp only at h
    split at h
    · exact absurd (RefModel.stepEcall_regs h h10) hr
    · cases h
      exact absurd rfl hr
    · cases h
      exact absurd rfl hr
    · exact RefModel.stepOp_regs h hr

end Step

/-! ## Main result -/

/-- What the classification says about an instruction is what its execution does. -/
structure ClassesAgree (I : Instr) : Prop where
  rs1 : usesRs1 I.op = false → ∀ pc a a' b, execute I pc a b = execute I pc a' b
  rs2 : usesRs2 I.op = false ∨ isStore I.op = true → ∀ pc a b b', execute I pc a b = execute I pc a b'
  redirect : ∀ pc a b, (execute I pc a b).redirect = true → fuKindOf I.op = .BRANCH
  memory : fuKindOf I.op = .LSU ↔ isLoad I.op = true ∨ isStore I.op = true
  address : fuKindOf I.op = .LSU → ∀ pc a b, (execute I pc a b).value = a + I.imm
  system : fuKindOf I.op = .NONE ↔ I.op = .FENCE ∨ I.op = .ECALL ∨ I.op = .EBREAK ∨ I.op = .ILLEGAL

/-- **Classification.** Every decoded instruction executes as it is classified, and a step of the
reference model changes no register but `x10` and a destination that the classification shows. -/
theorem classes_agree (w : Word) :
    ClassesAgree (decode w) ∧
      ∀ (m m' : RefModel) (frames : Bool) (input : Word) (rec : CommitRecord) (r : Reg),
        m.mem.load32 m.pc.toNat = .ok w → m.step frames input = .ok (m', rec) → r ≠ 10 → m'.regs r ≠ m.regs r →
          writesRd (decode w).op = true ∧ (decode w).rd ≠ 0 ∧ r = (decode w).rd := by
  constructor
  · constructor
    · intro h pc a a' b
      exact execute_rs1_irrelevant h pc a a' b
    · intro h pc a b b'
      exact execute_rs2_irrelevant h pc a b b'
    · intro pc a b h
      exact execute_redirect h
    · rw [fuKindOf_eq_LSU_iff, Bool.or_eq_true]
    · intro h pc a b
      exact execute_address h pc a b
    · exact fuKindOf_eq_NONE_iff _
  · intro m m' frames input rec r hw h h10 hr
    exact RefModel.step_regs hw h h10 hr

end RvO3
