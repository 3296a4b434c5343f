import RvO3.Isa.Instr

/-!
# Execute semantics

`isa/execute.cpp`: the value an instruction produces (ALU result, effective
address or link address) and the control transfer it causes, from its decoded
form, its pc and its two resolved source operands.
-/

set_option autoImplicit false

namespace RvO3

/-- What `execute` returns: the value to write, or the address of an access, and where a control
transfer goes. -/
structure ExecResult where
  value : Word := 0
  redirect : Bool := false
  target : Word := 0
  deriving DecidableEq, Repr

/-- A comparison result as a word. -/
def boolWord (b : Bool) : Word := if b then 1 else 0

/-- The `switch` of `execute`: everything but the branch target. -/
def executeOp (I : Instr) (pc a b : Word) : ExecResult :=
  let imm := I.imm
  let shamt := (imm &&& 31#32).toNat
  match I.op with
  | .LUI => { value := imm }
  | .AUIPC => { value := pc + imm }
  | .JAL => { value := pc + 4, redirect := true, target := pc + imm }
  | .JALR => { value := pc + 4, redirect := true, target := (a + imm) &&& ~~~1#32 }
  | .BEQ => { redirect := a == b }
  | .BNE => { redirect := a != b }
  | .BLT => { redirect := a.slt b }
  | .BGE => { redirect := b.sle a }
  | .BLTU => { redirect := a.ult b }
  | .BGEU => { redirect := b.ule a }
  | .LB | .LH | .LW | .LBU | .LHU | .SB | .SH | .SW => { value := a + imm }
  | .ADDI => { value := a + imm }
  | .SLTI => { value := boolWord (a.slt imm) }
  | .SLTIU => { value := boolWord (a.ult imm) }
  | .XORI => { value := a ^^^ imm }
  | .ORI => { value := a ||| imm }
  | .ANDI => { value := a &&& imm }
  | .SLLI => { value := a <<< shamt }
  | .SRLI => { value := a >>> shamt }
  | .SRAI => { value := a.sshiftRight shamt }
  | .ADD => { value := a + b }
  | .SUB => { value := a - b }
  | .SLL => { value := a <<< (b &&& 31#32).toNat }
  | .SLT => { value := boolWord (a.slt b) }
  | .SLTU => { value := boolWord (a.ult b) }
  | .XOR => { value := a ^^^ b }
  | .SRL => { value := a >>> (b &&& 31#32).toNat }
  | .SRA => { value := a.sshiftRight (b &&& 31#32).toNat }
  | .OR => { value := a ||| b }
  | .AND => { value := a &&& b }
  | .MUL => { value := a * b }
  | .MULH => { value := ((a.signExtend 64 * b.signExtend 64).sshiftRight 32).setWidth 32 }
  | .MULHSU => { value := ((a.signExtend 64 * b.setWidth 64).sshiftRight 32).setWidth 32 }
  | .MULHU => { value := ((a.setWidth 64 * b.setWidth 64) >>> 32).setWidth 32 }
  | .DIV =>
      if b = 0 then { value := 0xFFFFFFFF#32 }
      else if a = 0x80000000#32 ∧ b = 0xFFFFFFFF#32 then { value := a }
      else { value := a.sdiv b }
  | .DIVU => { value := if b = 0 then 0xFFFFFFFF#32 else a / b }
  | .REM =>
      if b = 0 then { value := a }
      else if a = 0x80000000#32 ∧ b = 0xFFFFFFFF#32 then { value := 0 }
      else { value := a.srem b }
  | .REMU => { value := if b = 0 then a else a % b }
  | .FENCE | .ECALL | .EBREAK | .ILLEGAL => {}

/-- The pure result of one instruction. Conditional branch targets are pc-relative;
jumps formed theirs in the `switch`. -/
def execute (I : Instr) (pc a b : Word) : ExecResult :=
  let out := executeOp I pc a b
  if isBranch I.op && out.redirect then { out with target := pc + I.imm } else out

/-! ## What the result depends on -/

theorem execute_rs1_irrelevant {I : Instr} (h : usesRs1 I.op = false) (pc a a' b : Word) :
    execute I pc a b = execute I pc a' b := by
  rcases I with ⟨op, rd, rs1, rs2, imm, raw⟩
  cases op <;> first | rfl | cases h

theorem execute_rs2_irrelevant {I : Instr} (h : usesRs2 I.op = false ∨ isStore I.op = true)
    (pc a b b' : Word) : execute I pc a b = execute I pc a b' := by
  rcases I with ⟨op, rd, rs1, rs2, imm, raw⟩
  cases op <;> first | rfl | simp [usesRs2, isBranch, isStore, isRegReg] at h

/-- Only branch-unit instructions redirect. -/
theorem execute_redirect {I : Instr} {pc a b : Word} (h : (execute I pc a b).redirect = true) :
    fuKindOf I.op = .BRANCH := by
  rcases I with ⟨op, rd, rs1, rs2, imm, raw⟩
  cases op with
  | JAL | JALR | BEQ | BNE | BLT | BGE | BLTU | BGEU => rfl
  | DIV | REM =>
      simp only [execute, executeOp, isBranch, Bool.false_and, Bool.false_eq_true, if_false] at h
      repeat' split at h
      all_goals simp at h
  | _ => simp [execute, executeOp, isBranch] at h

end RvO3
