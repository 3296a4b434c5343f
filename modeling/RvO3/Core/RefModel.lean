import RvO3.Core.Commit
import RvO3.Isa.Decode
import RvO3.Isa.Execute
import RvO3.Sim.Syscall

/-!
# The reference model

`core/refmodel.h` and `core/refmodel.cpp`: one instruction at a time, in program order,
each fully completed before the next begins.
-/

set_option autoImplicit false

namespace RvO3

/-- The state of the reference model (`core/refmodel.h`): memory, registers and `pc`, one
instruction at a time. -/
structure RefModel where
  mem : Memory
  regs : Reg → Word := fun _ => 0
  pc : Word := 0
  halted : Bool := false
  exitCode : Nat := 0
  retired : Nat := 0

namespace RefModel

/-- A syscall, silent and with the replayed input. -/
def stepEcall (m : RefModel) (rec : CommitRecord) (frames : Bool) (replayInput : Word) :
    Except Fatal (RefModel × CommitRecord) :=
  match runSyscall (m.regs 17) (m.regs 10) true frames (fun a => m.mem.load8 a.toNat)
      m.mem.size replayInput with
  | .error err => .error err
  | .ok r =>
      .ok ({ m with
            retired := m.retired + 1
            regs := Function.update m.regs 10 r.arg
            halted := r.exit.isSome
            exitCode := r.exit.getD m.exitCode
            pc := if r.exit.isSome then m.pc else m.pc + 4 },
        { rec with
          registerWrite := if syscallReturnsInput (m.regs 17) then some ⟨10, r.arg⟩ else none })

/-- The memory access of a load or a store: the result of a load, and the new memory. -/
def stepMem (m : RefModel) (I : Instr) (addr b : Word) : Except Fatal (Word × Memory) :=
  let size := accessSize I.op
  if addr.toNat % size ≠ 0 then
    .error (.misaligned (if isStore I.op then "store" else "load") addr.toNat m.pc)
  else if isLoad I.op then
    match m.mem.load addr.toNat size with
    | .error err => .error err
    | .ok v => .ok (extendLoad I.op v, m.mem)
  else
    match m.mem.store addr.toNat size b with
    | .error err => .error err
    | .ok mem => .ok (addr, mem)

/-- Everything that is not a system instruction. -/
def stepOp (m : RefModel) (I : Instr) (rec : CommitRecord) :
    Except Fatal (RefModel × CommitRecord) :=
  let a := if usesRs1 I.op then m.regs I.rs1 else 0
  let b := if usesRs2 I.op then m.regs I.rs2 else 0
  let x := execute I m.pc a b
  match (if isLoad I.op || isStore I.op then m.stepMem I x.value b
      else .ok (x.value, m.mem)) with
  | .error err => .error err
  | .ok (result, mem) =>
      let dest := writesRd I.op && I.rd != 0
      .ok ({ m with
            mem := mem
            regs := if dest then Function.update m.regs I.rd result else m.regs
            retired := m.retired + 1
            pc := if x.redirect then x.target else m.pc + 4 },
        { rec with
          memoryWrite :=
            if isStore I.op then some (MemoryWrite.mk' x.value b (accessSize I.op)) else none
          registerWrite := if dest then some ⟨I.rd, result⟩ else none })

/-- Execute one instruction of a model that has not halted, and describe it. -/
def step (m : RefModel) (frames : Bool) (replayInput : Word) :
    Except Fatal (RefModel × CommitRecord) :=
  if m.pc.toNat % 4 ≠ 0 then .error (.misalignedFetch m.pc)
  else
    match m.mem.load32 m.pc.toNat with
    | .error err => .error err
    | .ok raw =>
        let I := decode raw
        let rec₀ : CommitRecord := { sequence := m.retired, pc := m.pc, instruction := raw }
        match I.op with
        | .ECALL => m.stepEcall rec₀ frames replayInput
        | .EBREAK => .ok ({ m with retired := m.retired + 1, halted := true }, rec₀)
        | .ILLEGAL =>
            .ok ({ m with halted := true, exitCode := 1 },
              { rec₀ with exception := some .IllegalInstruction })
        | _ => m.stepOp I rec₀

/-- The reset state over an image. -/
def init (image : Nat → Byte) (memBytes : Nat) : RefModel :=
  { mem := { bytes := image, size := memBytes } }

end RefModel

end RvO3
