import RvO3.Isa.Instr

/-!
# The architectural commit stream

`core/commit.h`: what one instruction did to architectural state when it retired.
-/

set_option autoImplicit false

namespace RvO3

/-- The architectural register that a record writes. -/
structure RegisterWrite where
  rd : Reg := 0
  value : Word := 0
  deriving DecidableEq, Repr

/-- The bytes that a record writes: `size` of them from `addr` on, the low bytes of `value`. -/
structure MemoryWrite where
  addr : Word := 0
  value : Word := 0
  size : Nat := 0
  deriving DecidableEq, Repr

/-- The constructor: the value is truncated to the access size. -/
def MemoryWrite.mk' (addr value : Word) (size : Nat) : MemoryWrite :=
  { addr := addr
    value := if size = 4 then value else value &&& ((1#32 <<< (8 * size)) - 1)
    size := size }

/-- The exceptions that a record can show. Faults of accesses end the run instead. -/
inductive ExceptionKind where
  | IllegalInstruction
  deriving DecidableEq, Repr

/-- What an instruction did to the architectural state when it committed. Core and reference model
both produce these, and the differential check compares them. -/
structure CommitRecord where
  sequence : Nat := 0
  pc : Word := 0
  instruction : Word := 0
  registerWrite : Option RegisterWrite := none
  memoryWrite : Option MemoryWrite := none
  exception : Option ExceptionKind := none
  deriving DecidableEq, Repr

/-- The architectural registers after a record. -/
def CommitRecord.applyRegs (regs : Reg → Word) (r : CommitRecord) : Reg → Word :=
  match r.registerWrite with
  | some w => fun i => if i = w.rd then w.value else regs i
  | none => regs

/-- The architectural registers after a commit stream from the reset state. -/
def archRegs (rs : List CommitRecord) : Reg → Word :=
  rs.foldl CommitRecord.applyRegs fun _ => 0

@[simp] theorem archRegs_nil : archRegs [] = fun _ => 0 := rfl

@[simp] theorem archRegs_append_singleton (rs : List CommitRecord) (r : CommitRecord) :
    archRegs (rs ++ [r]) = r.applyRegs (archRegs rs) := by
  simp [archRegs]

end RvO3
