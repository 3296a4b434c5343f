import RvO3.Isa.Instr

/-!
# Instruction decode

`isa/decode.cpp`: one helper for each immediate format, the opcode tables indexed
by `funct3`, and `decode` itself.
-/

set_option autoImplicit false

namespace RvO3

/-- I-type immediate: bits 31..20, sign-extended. -/
def immI (w : Word) : Word := w.sshiftRight 20

/-- S-type immediate: bits 31..25 and 11..7, sign-extended. -/
def immS (w : Word) : Word :=
  (w &&& 0xFE000000#32).sshiftRight 20 ||| ((w >>> 7) &&& 0x1F#32)

/-- B-type immediate: a signed branch offset with bit 0 clear. -/
def immB (w : Word) : Word :=
  (w &&& 0x80000000#32).sshiftRight 19 ||| ((w &&& 0x00000080#32) <<< 4) |||
    ((w >>> 20) &&& 0x7E0#32) ||| ((w >>> 7) &&& 0x1E#32)

/-- U-type immediate: bits 31..12 in place. -/
def immU (w : Word) : Word := w &&& 0xFFFFF000#32

/-- J-type immediate: a signed jump offset with bit 0 clear. -/
def immJ (w : Word) : Word :=
  (w &&& 0x80000000#32).sshiftRight 11 ||| (w &&& 0x000FF000#32) |||
    ((w >>> 9) &&& 0x800#32) ||| ((w >>> 20) &&& 0x7FE#32)

/-! ## Opcode groups indexed by funct3 -/

/-- The branches by `funct3`. -/
def kBranch : Nat → Op
  | 0 => .BEQ | 1 => .BNE | 4 => .BLT | 5 => .BGE | 6 => .BLTU | 7 => .BGEU
  | _ => .ILLEGAL

/-- The loads by `funct3`. -/
def kLoad : Nat → Op
  | 0 => .LB | 1 => .LH | 2 => .LW | 4 => .LBU | 5 => .LHU
  | _ => .ILLEGAL

/-- The stores by `funct3`. -/
def kStore : Nat → Op
  | 0 => .SB | 1 => .SH | 2 => .SW
  | _ => .ILLEGAL

/-- The register-immediate operations by `funct3`. The shifts are told apart by `funct7`. -/
def kOpImm : Nat → Op
  | 0 => .ADDI | 1 => .SLLI | 2 => .SLTI | 3 => .SLTIU
  | 4 => .XORI | 5 => .SRLI | 6 => .ORI | 7 => .ANDI
  | _ => .ILLEGAL

/-- The register-register operations with `funct7 = 0`. -/
def kOp : Nat → Op
  | 0 => .ADD | 1 => .SLL | 2 => .SLT | 3 => .SLTU
  | 4 => .XOR | 5 => .SRL | 6 => .OR | 7 => .AND
  | _ => .ILLEGAL

/-- Those with `funct7 = 0x20`. -/
def kOpAlt : Nat → Op
  | 0 => .SUB | 5 => .SRA
  | _ => .ILLEGAL

/-- Those with `funct7 = 1`: the M extension. -/
def kMulDiv : Nat → Op
  | 0 => .MUL | 1 => .MULH | 2 => .MULHSU | 3 => .MULHU
  | 4 => .DIV | 5 => .DIVU | 6 => .REM | 7 => .REMU
  | _ => .ILLEGAL

/-- The five-bit register field that starts at bit `lo`. -/
def regField (w : Word) (lo : Nat) : Reg := (w.extractLsb' lo 5).toFin

/-- Decode one 32-bit instruction word. An encoding no case accepts keeps the
default opcode `ILLEGAL`. -/
def decode (w : Word) : Instr :=
  let I : Instr :=
    { raw := w, rd := regField w 7, rs1 := regField w 15, rs2 := regField w 20 }
  let funct3 := ((w >>> 12) &&& 7#32).toNat
  let funct7 := (w >>> 25).toNat
  match (w &&& 0x7F#32).toNat with
  | 0x37 => { I with op := .LUI, imm := immU w }
  | 0x17 => { I with op := .AUIPC, imm := immU w }
  | 0x6F => { I with op := .JAL, imm := immJ w }
  | 0x67 => if funct3 = 0 then { I with op := .JALR, imm := immI w } else I
  | 0x63 => { I with op := kBranch funct3, imm := immB w }
  | 0x03 => { I with op := kLoad funct3, imm := immI w }
  | 0x23 => { I with op := kStore funct3, imm := immS w }
  | 0x13 =>
      if funct3 = 1 ∨ funct3 = 5 then
        -- shifts: the shift amount sits in the rs2 field
        let op := if funct3 = 5 ∧ funct7 = 0x20 then Op.SRAI
          else if funct7 ≠ 0x00 then Op.ILLEGAL else kOpImm funct3
        { I with
          op := op
          imm := if op ≠ .ILLEGAL then BitVec.ofNat 32 I.rs2.val else immI w }
      else { I with op := kOpImm funct3, imm := immI w }
  | 0x33 =>
      if funct7 = 0x00 then { I with op := kOp funct3 }
      else if funct7 = 0x20 then { I with op := kOpAlt funct3 }
      else if funct7 = 0x01 then { I with op := kMulDiv funct3 }
      else I
  | 0x0F => { I with op := .FENCE }
  | 0x73 =>
      if w = 0x00000073#32 then { I with op := .ECALL }
      else if w = 0x00100073#32 then { I with op := .EBREAK }
      else I
  | _ => I

/-- The decoded record keeps the word it was decoded from. -/
@[simp] theorem decode_raw (w : Word) : (decode w).raw = w := by
  unfold decode
  dsimp only
  repeat' split
  all_goals rfl

example : (decode 0x00150513#32).op = .ADDI := by decide

end RvO3
