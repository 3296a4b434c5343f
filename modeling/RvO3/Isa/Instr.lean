import Mathlib.Data.Fintype.Basic
import Mathlib.Data.BitVec

/-!
# Opcodes, decoded instructions and their classification

`isa/isa.h`: the RV32IM opcodes, the decoded-instruction record `Instr`, and the
control signals a hardware decoder would produce. Everything here is timing-free
and shared by the out-of-order core and the reference model.
-/

set_option autoImplicit false

namespace RvO3

/-- A 32-bit machine word (`uint32_t`). -/
abbrev Word := BitVec 32

/-- A byte (`uint8_t`). -/
abbrev Byte := BitVec 8

/-- An architectural register number; the decoder masks it to five bits. -/
abbrev Reg := Fin 32

/-- There are registers, so literals name them. -/
instance neZero_regs : NeZero 32 := ⟨by decide⟩

/-- The opcodes of `OP_LIST`, in the order of the enumeration. -/
inductive Op where
  | LUI | AUIPC
  | JAL | JALR
  | BEQ | BNE | BLT | BGE | BLTU | BGEU
  | LB | LH | LW | LBU | LHU
  | SB | SH | SW
  | ADDI | SLTI | SLTIU | XORI | ORI | ANDI | SLLI | SRLI | SRAI
  | ADD | SUB | SLL | SLT | SLTU | XOR | SRL | SRA | OR | AND
  | MUL | MULH | MULHSU | MULHU | DIV | DIVU | REM | REMU
  | FENCE | ECALL | EBREAK
  | ILLEGAL
  deriving DecidableEq, Repr

/-- A fully decoded instruction. -/
structure Instr where
  op : Op := .ILLEGAL
  rd : Reg := 0
  rs1 : Reg := 0
  rs2 : Reg := 0
  imm : Word := 0
  raw : Word := 0
  deriving DecidableEq, Repr

instance : Inhabited Instr := ⟨{}⟩

/-- The five loads. -/
def isLoad : Op → Bool
  | .LB | .LH | .LW | .LBU | .LHU => true
  | _ => false

/-- The three stores. -/
def isStore : Op → Bool
  | .SB | .SH | .SW => true
  | _ => false

/-- The six conditional branches, and no jump. -/
def isBranch : Op → Bool
  | .BEQ | .BNE | .BLT | .BGE | .BLTU | .BGEU => true
  | _ => false

/-- Does this instruction write a destination register when it completes? -/
def writesRd (op : Op) : Bool :=
  if isBranch op || isStore op then false
  else match op with
    | .FENCE | .ECALL | .EBREAK | .ILLEGAL => false
    | _ => true

/-- Does this encoding's `rs1` field name a real source register? -/
def usesRs1 : Op → Bool
  | .LUI | .AUIPC | .JAL | .FENCE | .ECALL | .EBREAK | .ILLEGAL => false
  | _ => true

/-- The register-register opcodes, `ADD` to `REMU`. -/
def isRegReg : Op → Bool
  | .ADD | .SUB | .SLL | .SLT | .SLTU | .XOR | .SRL | .SRA | .OR | .AND
  | .MUL | .MULH | .MULHSU | .MULHU | .DIV | .DIVU | .REM | .REMU => true
  | _ => false

/-- Branches, stores and every R-type opcode read `rs2`. -/
def usesRs2 (op : Op) : Bool := isBranch op || isStore op || isRegReg op

/-- The functional unit that executes an opcode. -/
inductive FuKind where
  | ALU | BRANCH | MUL | DIV | LSU | NONE
  deriving DecidableEq, Repr

/-- Which unit executes an opcode. Jumps go to the branch unit, and what the core handles itself at
commit goes to none. -/
def fuKindOf (op : Op) : FuKind :=
  if isLoad op || isStore op then .LSU
  else if isBranch op || op = .JAL || op = .JALR then .BRANCH
  else match op with
    | .MUL | .MULH | .MULHSU | .MULHU => .MUL
    | .DIV | .DIVU | .REM | .REMU => .DIV
    | .FENCE | .ECALL | .EBREAK | .ILLEGAL => .NONE
    | _ => .ALU

/-- Memory access width in bytes. -/
def accessSize : Op → Nat
  | .LB | .LBU | .SB => 1
  | .LH | .LHU | .SH => 2
  | _ => 4

/-- Sub-word loads sign- or zero-extend to 32 bits. -/
def extendLoad (op : Op) (raw : Word) : Word :=
  match op with
  | .LB => (raw.setWidth 8).signExtend 32
  | .LBU => raw &&& 0xFF#32
  | .LH => (raw.setWidth 16).signExtend 32
  | .LHU => raw &&& 0xFFFF#32
  | _ => raw

/-! ## The classes are disjoint -/

theorem isStore_of_isLoad {op : Op} (h : isLoad op = true) : isStore op = false := by
  cases op <;> first | rfl | cases h

/-- Only the branch unit's opcodes redirect, and none of them is a memory operation. -/
theorem fuKindOf_eq_LSU_iff (op : Op) :
    fuKindOf op = .LSU ↔ (isLoad op || isStore op) = true := by
  cases op <;> decide

theorem accessSize_cases (op : Op) :
    accessSize op = 1 ∨ accessSize op = 2 ∨ accessSize op = 4 := by
  cases op <;> simp [accessSize]

/-- The system opcodes are exactly those no functional unit takes. -/
theorem fuKindOf_eq_NONE_iff (op : Op) :
    fuKindOf op = .NONE ↔ op = .FENCE ∨ op = .ECALL ∨ op = .EBREAK ∨ op = .ILLEGAL := by
  cases op <;> decide

end RvO3
