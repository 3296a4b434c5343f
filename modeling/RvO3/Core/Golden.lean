import RvO3.Core.LoadRun
import RvO3.Core.RefModel

/-!
# Each commit is a step of the reference model

`archState` is the reference model in the state that a commit stream leaves. An instruction that
commits did what the reference model does with its word there (`Retires`): the registers it read
are the committed ones, a store wrote what it names, and a load saw the committed memory, since
nothing older is left that could have written it.

The word is the one that the core had fetched. Whether memory still holds it is another question.
-/

set_option autoImplicit false

namespace RvO3

open OoOCore

/-! ## A step after the fetch -/

namespace RefModel

variable {m : RefModel} {raw : Word} {frames : Bool} {replay : Word}

/-- What `step` does with the word it has fetched. -/
def execWord (m : RefModel) (raw : Word) (frames : Bool) (replayInput : Word) :
    Except Fatal (RefModel × CommitRecord) :=
  let I := decode raw
  let rec₀ : CommitRecord := { sequence := m.retired, pc := m.pc, instruction := raw }
  match I.op with
  | .ECALL => m.stepEcall rec₀ frames replayInput
  | .EBREAK => .ok ({ m with retired := m.retired + 1, halted := true }, rec₀)
  | .ILLEGAL =>
      .ok ({ m with halted := true, exitCode := 1 },
        { rec₀ with exception := some .IllegalInstruction })
  | _ => m.stepOp I rec₀

theorem step_eq_execWord (hpc : m.pc.toNat % 4 = 0) (hw : m.mem.load32 m.pc.toNat = .ok raw) :
    m.step frames replay = m.execWord raw frames replay := by
  unfold step
  rw [if_neg (not_not.mpr hpc), hw]
  rfl

/-- The operations that `step` does not treat apart. -/
structure Plain (op : Op) : Prop where
  ecall : op ≠ .ECALL
  ebreak : op ≠ .EBREAK
  illegal : op ≠ .ILLEGAL

theorem execWord_op (h : Plain (decode raw).op) :
    m.execWord raw frames replay =
      m.stepOp (decode raw) { sequence := m.retired, pc := m.pc, instruction := raw } := by
  unfold execWord
  dsimp only
  cases hop : (decode raw).op
  case ECALL => exact absurd hop h.ecall
  case EBREAK => exact absurd hop h.ebreak
  case ILLEGAL => exact absurd hop h.illegal
  all_goals rfl

theorem execWord_ecall (h : (decode raw).op = .ECALL) :
    m.execWord raw frames replay =
      m.stepEcall { sequence := m.retired, pc := m.pc, instruction := raw } frames replay := by
  unfold execWord
  dsimp only
  rw [h]

theorem execWord_ebreak (h : (decode raw).op = .EBREAK) :
    m.execWord raw frames replay = .ok ({ m with retired := m.retired + 1, halted := true },
      { sequence := m.retired, pc := m.pc, instruction := raw }) := by
  unfold execWord
  dsimp only
  rw [h]

theorem execWord_illegal (h : (decode raw).op = .ILLEGAL) :
    m.execWord raw frames replay = .ok ({ m with halted := true, exitCode := 1 },
      { sequence := m.retired, pc := m.pc, instruction := raw, exception := some .IllegalInstruction }) := by
  unfold execWord
  dsimp only
  rw [h]

variable {I : Instr} {addr b : Word}

theorem stepMem_load (hl : isLoad I.op = true) (ha : addr.toNat % accessSize I.op = 0)
    (hin : addr.toNat + accessSize I.op ≤ m.mem.size) :
    m.stepMem I addr b =
      .ok (extendLoad I.op (scalarOf (accessSize I.op) fun j => m.mem.bytes (addr.toNat + j)), m.mem) := by
  unfold stepMem Memory.load
  dsimp only
  rw [if_neg (not_not.mpr ha), if_pos hl, if_neg (Nat.not_lt.mpr hin)]

theorem stepMem_store (hl : isLoad I.op = false) (ha : addr.toNat % accessSize I.op = 0)
    (hin : addr.toNat + accessSize I.op ≤ m.mem.size) :
    m.stepMem I addr b =
      .ok (addr, { m.mem with bytes := Memory.storeBytes m.mem.bytes addr.toNat (accessSize I.op) b }) := by
  unfold stepMem Memory.store
  dsimp only
  rw [if_neg (not_not.mpr ha), if_neg (hl ▸ Bool.false_ne_true), if_neg (Nat.not_lt.mpr hin)]

end RefModel

/-- A record keeps of a store what it writes. -/
theorem MemoryWrite.mk'_apply (addr v : Word) {size : Nat} (hs : size = 1 ∨ size = 2 ∨ size = 4)
    (mem : Nat → Byte) :
    (MemoryWrite.mk' addr v size).apply mem = Memory.storeBytes mem addr.toNat size v := by
  funext x
  unfold MemoryWrite.apply Memory.storeBytes
  change (if addr.toNat ≤ x ∧ x < addr.toNat + size then
    wordByte (MemoryWrite.mk' addr v size).value (x - addr.toNat) else mem x) = _
  split
  · rename_i hx
    exact wordByte_mk' addr v hs (by omega)
  · rfl

/-- The reference model after the records `rs`, where it comes to `pc`. -/
def archState (image : Nat → Byte) (memBytes : Nat) (rs : List CommitRecord) (pc : Word) : RefModel :=
  { mem := { bytes := storesApplied image (archStores rs), size := memBytes }
    regs := archRegs rs
    pc := pc
    retired := rs.length }

/-- A reference model in the state that a commit stream leaves. -/
theorem RefModel.eq_archState {image : Nat → Byte} {memBytes : Nat} {rs : List CommitRecord} {pc q : Word}
    {m : RefModel} (hmem : m.mem = (archState image memBytes rs q).mem) (hregs : m.regs = archRegs rs)
    (hpc : m.pc = pc) (hret : m.retired = rs.length) (hhalt : m.halted = false) (hcode : m.exitCode = 0) :
    m = archState image memBytes rs pc := by
  cases m
  subst hmem hregs hpc hret hhalt hcode
  rfl

/-- After the records `rs` the reference model takes the word of `r` to `m'`, and records `r`. A
read syscall replays what `r` says it read. -/
structure Retires (image : Nat → Byte) (memBytes : Nat) (frames : Bool) (rs : List CommitRecord)
    (r : CommitRecord) (m' : RefModel) : Prop where
  step : ∀ replay, ((decode r.instruction).op = .ECALL → ∀ w, r.registerWrite = some w → replay = w.value) →
    (archState image memBytes rs r.pc).execWord r.instruction frames replay = .ok (m', r)
  mem : m'.mem = (archState image memBytes (rs ++ [r]) r.pc).mem
  regs : m'.regs = archRegs (rs ++ [r])
  next : m'.halted = false → m' = archState image memBytes (rs ++ [r]) (r.successor (archRegs rs))

section Retires

variable {image : Nat → Byte} {memBytes : Nat} {frames : Bool} {rs : List CommitRecord} {r : CommitRecord}
  {pc addr v : Word} {size : Nat}

/-- A record without a store leaves memory as it is. -/
theorem archState_of_none (h : r.memoryWrite = none) :
    (archState image memBytes (rs ++ [r]) pc).mem = (archState image memBytes rs pc).mem := by
  unfold archState archStores
  rw [List.filterMap_append, List.filterMap_cons_none h, List.filterMap_nil, List.append_nil]

theorem archState_store (h : r.memoryWrite = some (MemoryWrite.mk' addr v size))
    (hs : size = 1 ∨ size = 2 ∨ size = 4) :
    (archState image memBytes (rs ++ [r]) pc).mem =
      { (archState image memBytes rs pc).mem with
        bytes := Memory.storeBytes (archState image memBytes rs pc).mem.bytes addr.toNat size v } := by
  unfold archState archStores
  rw [List.filterMap_append, List.filterMap_cons_some h, List.filterMap_nil, storesApplied_append,
    MemoryWrite.mk'_apply addr v hs]

/-- A record of anything but a system instruction is that of the reference model if its result and
its memory are. -/
theorem Retires.of_op {I : Instr} {a b result : Word} {mem : Memory} (hdec : decode r.instruction = I)
    (hkind : RefModel.Plain I.op) (hseq : r.sequence = rs.length)
    (ha : a = if usesRs1 I.op then archRegs rs I.rs1 else 0) (hb : b = if usesRs2 I.op then archRegs rs I.rs2 else 0)
    (hacc : (if isLoad I.op || isStore I.op then
        (archState image memBytes rs r.pc).stepMem I (execute I r.pc a b).value b
      else .ok ((execute I r.pc a b).value, (archState image memBytes rs r.pc).mem)) = .ok (result, mem))
    (hmem : mem = (archState image memBytes (rs ++ [r]) r.pc).mem)
    (hreg : r.registerWrite = if writesRd I.op && I.rd != 0 then some ⟨I.rd, result⟩ else none)
    (hwrite : r.memoryWrite =
      if isStore I.op then some (MemoryWrite.mk' (execute I r.pc a b).value b (accessSize I.op)) else none)
    (hex : r.exception = none) : ∃ m', Retires image memBytes frames rs r m' ∧ m'.halted = false := by
  have hrec : r = { sequence := rs.length, pc := r.pc, instruction := r.instruction
                    memoryWrite :=
                      if isStore I.op then some (MemoryWrite.mk' (execute I r.pc a b).value b (accessSize I.op))
                      else none
                    registerWrite := if writesRd I.op && I.rd != 0 then some ⟨I.rd, result⟩ else none } := by
    rw [← hwrite, ← hreg, ← hseq, ← hex]
  have hregs : (if writesRd I.op && I.rd != 0 then Function.update (archRegs rs) I.rd result else archRegs rs) =
      archRegs (rs ++ [r]) := by
    rw [archRegs_append_singleton, CommitRecord.applyRegs, hreg]
    split
    · funext i
      exact Function.update_apply (archRegs rs) I.rd result i
    · rfl
  have hpc : (if (execute I r.pc a b).redirect then (execute I r.pc a b).target else r.pc + 4) =
      r.successor (archRegs rs) := by
    unfold CommitRecord.successor
    dsimp only
    rw [hdec, ← ha, ← hb]
  refine ⟨{ archState image memBytes rs r.pc with
      mem := mem
      regs := if writesRd I.op && I.rd != 0 then Function.update (archRegs rs) I.rd result else archRegs rs
      retired := rs.length + 1
      pc := if (execute I r.pc a b).redirect then (execute I r.pc a b).target else r.pc + 4 },
    ⟨fun replay _ => ?_, hmem, hregs, fun _ => ?_⟩, rfl⟩
  · rw [RefModel.execWord_op (by rw [hdec]; exact hkind), hdec]
    unfold RefModel.stepOp
    dsimp only
    subst ha hb
    rw [show (archState image memBytes rs r.pc).regs = archRegs rs from rfl,
      show (archState image memBytes rs r.pc).pc = r.pc from rfl, hacc]
    exact congrArg Except.ok (Prod.ext rfl hrec.symm)
  · exact RefModel.eq_archState hmem hregs hpc (by rw [List.length_append]; rfl) rfl rfl

/-- A system instruction goes on with the next one. -/
theorem successor_of_system (h : fuKindOf (decode r.instruction).op = .NONE) (regs : Reg → Word) :
    r.successor regs = r.pc + 4 := by
  unfold CommitRecord.successor
  refine if_neg fun hred => ?_
  rw [execute_redirect hred] at h
  cases h

/-- A record of a syscall is that of the silent syscall of the reference model, which reads the same
memory and is given what the other read. -/
theorem Retires.of_ecall {f : Word → Except Fatal Byte} {frames₀ : Bool} {input : Word} {res : SysResult}
    (hop : (decode r.instruction).op = .ECALL)
    (hrec : r = { sequence := rs.length, pc := r.pc, instruction := r.instruction
                  registerWrite := if syscallReturnsInput (archRegs rs 17) then some ⟨10, res.arg⟩ else none })
    (hread : ∀ a b, f a = .ok b → (archState image memBytes rs r.pc).mem.load8 a.toNat = .ok b)
    (h : runSyscall (archRegs rs 17) (archRegs rs 10) false frames₀ f memBytes input = .ok res) :
    ∃ m', Retires image memBytes frames rs r m' ∧ m'.halted = res.exit.isSome ∧
      m'.exitCode = res.exit.getD 0 := by
  have hwrite : r.registerWrite = if syscallReturnsInput (archRegs rs 17) then some ⟨10, res.arg⟩ else none :=
    congrArg CommitRecord.registerWrite hrec
  have harg := runSyscall_arg h
  have hmem : (archState image memBytes rs r.pc).mem = (archState image memBytes (rs ++ [r]) r.pc).mem :=
    (archState_of_none (congrArg CommitRecord.memoryWrite hrec)).symm
  have hregs : Function.update (archRegs rs) 10 res.arg = archRegs (rs ++ [r]) := by
    rw [archRegs_append_singleton, CommitRecord.applyRegs, hwrite]
    cases hin : syscallReturnsInput (archRegs rs 17) with
    | true =>
        rw [if_pos rfl]
        funext i
        exact Function.update_apply _ _ _ _
    | false =>
        rw [if_neg Bool.false_ne_true]
        rw [hin, if_neg Bool.false_ne_true] at harg
        dsimp only
        rw [harg]
        exact Function.update_eq_self _ _
  refine ⟨{ archState image memBytes rs r.pc with
      retired := rs.length + 1
      regs := Function.update (archRegs rs) 10 res.arg
      halted := res.exit.isSome
      exitCode := res.exit.getD 0
      pc := if res.exit.isSome then r.pc else r.pc + 4 },
    ⟨fun replay hreplay => ?_, hmem, hregs, fun hrun => ?_⟩, rfl, rfl⟩
  · have hin : syscallReturnsInput (archRegs rs 17) = true → replay = input := fun hin =>
      (hreplay hop _ (hwrite.trans (if_pos hin))).trans (harg.trans (if_pos hin))
    have hquiet : runSyscall ((archState image memBytes rs r.pc).regs 17) ((archState image memBytes rs r.pc).regs 10)
        true frames (fun a => (archState image memBytes rs r.pc).mem.load8 a.toNat)
        (archState image memBytes rs r.pc).mem.size replay = .ok res := runSyscall_quiet hread hin h
    rw [RefModel.execWord_ecall hop, RefModel.stepEcall, hquiet]
    exact congrArg Except.ok (Prod.ext rfl hrec.symm)
  · change res.exit.isSome = false at hrun
    have hnone := Option.not_isSome_iff_eq_none.mp (Bool.eq_false_iff.mp hrun)
    refine RefModel.eq_archState (q := r.pc) ?_ ?_ ?_ ?_ ?_ ?_
    · exact hmem
    · exact hregs
    · rw [successor_of_system (by rw [hop]; rfl)]
      exact if_neg (hrun ▸ Bool.false_ne_true)
    · rw [List.length_append]
      rfl
    · exact hrun
    · exact congrArg (fun x : Option Nat => x.getD 0) hnone

theorem Retires.of_ebreak (hop : (decode r.instruction).op = .EBREAK)
    (hrec : r = { sequence := rs.length, pc := r.pc, instruction := r.instruction }) :
    ∃ m', Retires image memBytes frames rs r m' ∧ m'.halted = true ∧ m'.exitCode = 0 := by
  refine ⟨{ archState image memBytes rs r.pc with retired := rs.length + 1, halted := true },
    ⟨fun replay _ => ?_, (archState_of_none (congrArg CommitRecord.memoryWrite hrec)).symm, ?_, nofun⟩, rfl, rfl⟩
  · rw [RefModel.execWord_ebreak hop]
    exact congrArg Except.ok (Prod.ext rfl hrec.symm)
  · have hwrite : r.registerWrite = none := congrArg CommitRecord.registerWrite hrec
    rw [archRegs_append_singleton, CommitRecord.applyRegs, hwrite]
    rfl

theorem Retires.of_illegal (hop : (decode r.instruction).op = .ILLEGAL)
    (hrec : r = { sequence := rs.length, pc := r.pc, instruction := r.instruction
                  exception := some .IllegalInstruction }) :
    ∃ m', Retires image memBytes frames rs r m' ∧ m'.halted = true ∧ m'.exitCode = 1 := by
  refine ⟨{ archState image memBytes rs r.pc with halted := true, exitCode := 1 },
    ⟨fun replay _ => ?_, (archState_of_none (congrArg CommitRecord.memoryWrite hrec)).symm, ?_, nofun⟩, rfl, rfl⟩
  · rw [RefModel.execWord_illegal hop]
    exact congrArg Except.ok (Prod.ext rfl hrec.symm)
  · have hwrite : r.registerWrite = none := congrArg CommitRecord.registerWrite hrec
    rw [archRegs_append_singleton, CommitRecord.applyRegs, hwrite]
    rfl

end Retires

/-! ## What the head did -/

section Head

variable {M : Type} {cfg : SimConfig} {c c' : OoOCore M}

/-- What the head of the ROB computes from the committed registers. -/
def OoOCore.headExec (c : OoOCore M) : ExecResult :=
  execute c.rob.head.ins c.rob.head.pc
    (if usesRs1 c.rob.head.ins.op then archRegs c.commits c.rob.head.ins.rs1 else 0)
    (if usesRs2 c.rob.head.ins.op then archRegs c.commits c.rob.head.ins.rs2 else 0)

/-- The operands of the head are committed registers; one that is not used makes no difference. -/
theorem Computes.head (hk : CoreOk cfg c) (hv : ValuesOk c) (hne : c.rob.empty = false) {res : ExecResult}
    (h : Computes c.mapAt c.prf c.rob.head.seq c.rob.head.ins c.rob.head.pc res) : res = c.headExec := by
  obtain ⟨a, b, ha, hb, rfl⟩ := h.exists_operands
  unfold OoOCore.headExec
  have hrs1 : ∀ y, execute c.rob.head.ins c.rob.head.pc
      (if usesRs1 c.rob.head.ins.op then archRegs c.commits c.rob.head.ins.rs1 else 0) y =
        execute c.rob.head.ins c.rob.head.pc a y := by
    intro y
    split
    · rename_i hu
      rw [(ha hu).head hk hv hne]
    · rename_i hu
      exact execute_rs1_irrelevant (Bool.eq_false_iff.mpr hu) _ _ _ _
  rw [hrs1]
  by_cases hst : isStore c.rob.head.ins.op = true
  · exact execute_rs2_irrelevant (.inr hst) _ _ _ _
  · split
    · rename_i hu
      rw [(hb hu (Bool.eq_false_iff.mpr hst)).head hk hv hne]
    · rename_i hu
      exact execute_rs2_irrelevant (.inl (Bool.eq_false_iff.mpr hu)) _ _ _ _

theorem head_value (hk : CoreOk cfg c) (hv : ValuesOk c) (hne : c.rob.empty = false)
    (hd : c.rob.head.done = true) (hmem : c.rob.head.isMem = false) (hsys : c.rob.head.isSystem = false)
    (hdst : c.rob.head.pdst ≠ kNoReg) : c.prf.val c.rob.head.pdst = c.headExec.value := by
  obtain ⟨res, hres, hval, -⟩ := (hv.done _ (headIdx_mem hk.back hne) hd hmem hsys).exists_result
  rw [← Computes.head hk hv hne hres]
  exact hval hdst

end Head

section Memory

variable {M : Type} {cfg : SimConfig} {image : Nat → Byte} {c c' : OoOCore M}

/-- The LSQ entry of a memory operation at the head, which is done. -/
structure HeadAddress (memBytes : Nat) (c : OoOCore M) : Prop where
  live : c.lsq.ring.headIdx ∈ c.lsq.ring.slots
  entry : c.rob.e (lsqRob c.lsq c.lsq.ring.headIdx) = c.rob.head
  addr : c.lsq.ring.head.addr = c.headExec.value
  size : c.lsq.ring.head.size = accessSize c.rob.head.ins.op
  kind : c.lsq.ring.head.isStore = isStore c.rob.head.ins.op
  known : AddrKnown memBytes c.rob.head c.lsq.ring.head
  loaded : (c.lsq.at' c.lsq.ring.headIdx).isStore = false → (c.lsq.at' c.lsq.ring.headIdx).done = true

/-- Such an entry that did not fault. -/
structure HeadAccess (image : Nat → Byte) (memBytes : Nat) (c : OoOCore M) : Prop where
  addr : c.lsq.ring.head.addr = c.headExec.value
  size : c.lsq.ring.head.size = accessSize c.rob.head.ins.op
  kind : c.lsq.ring.head.isStore = isStore c.rob.head.ins.op
  legal : (c.lsq.ring.head.request 0).Scalar memBytes
  data : isStore c.rob.head.ins.op = true → c.lsq.ring.head.data = archRegs c.commits c.rob.head.ins.rs2
  loaded : isStore c.rob.head.ins.op = false → c.rob.head.pdst ≠ kNoReg →
    c.prf.val c.rob.head.pdst = extendLoad c.rob.head.ins.op (scalarOf (accessSize c.rob.head.ins.op) fun b =>
      committedMem image c (c.headExec.value.toNat + b))

/-- Nothing in the LSQ is older than its head. -/
theorem Sees.head (ho : c.lsq.Ordered) (he : c.lsq.ring.empty = false) {mem : Nat → Byte} {v : Word}
    (h : Sees mem c.lsq c.lsq.ring.headIdx v) :
    v = scalarOf c.lsq.ring.head.size fun b => mem (c.lsq.ring.head.addr.toNat + b) := by
  obtain ⟨f, rfl, hf⟩ := h.exists_bytes
  apply scalarOf_congr
  intro b hb
  apply (hf b hb).of_none
  intro j hj
  have hlt : (c.lsq.at' j).seq < (c.lsq.at' c.lsq.ring.headIdx).seq := hj.older
  rcases eq_or_ne j c.lsq.ring.headIdx with rfl | hne
  · exact Nat.lt_irrefl _ hlt
  · exact Nat.lt_asymm hlt ((ho.head_first he).2 j hj.live hne)

/-- The access of the head is aligned and inside memory. -/
theorem HeadAccess.legalAddr {memBytes : Nat} (h : HeadAccess image memBytes c) :
    (accessSize c.rob.head.ins.op = 1 ∨ accessSize c.rob.head.ins.op = 2 ∨ accessSize c.rob.head.ins.op = 4) ∧
      c.headExec.value.toNat % accessSize c.rob.head.ins.op = 0 ∧
      c.headExec.value.toNat + accessSize c.rob.head.ins.op ≤ memBytes := by
  have hsize : (c.lsq.ring.head.request 0).size = accessSize c.rob.head.ins.op := h.size
  have haddr : (c.lsq.ring.head.request 0).addr = c.headExec.value.toNat := congrArg BitVec.toNat h.addr
  rw [← hsize, ← haddr]
  exact ⟨h.legal.size, h.legal.aligned, h.legal.inside⟩

/-- The registers that a record says were written are those of the reference model. -/
theorem opRecord_registerWrite (hcons : c.rob.head.Consistent) {result : Word}
    (hres : c.rob.head.pdst ≠ kNoReg → c.prf.val c.rob.head.pdst = result) :
    c.opRecord.registerWrite = if writesRd c.rob.head.ins.op && c.rob.head.ins.rd != 0 then
      some ⟨c.rob.head.ins.rd, result⟩ else none := by
  show (if c.rob.head.pdst ≠ kNoReg then some (RegisterWrite.mk _ _) else none) = _
  by_cases hdst : c.rob.head.pdst ≠ kNoReg
  · have hdest : (writesRd c.rob.head.ins.op && c.rob.head.ins.rd != 0) = true := hcons.hasDest.mp hdst
    rw [if_pos hdst, if_pos hdest, hres hdst]
  · have hdest : ¬ (writesRd c.rob.head.ins.op && c.rob.head.ins.rd != 0) = true := fun hdest =>
      hdst (hcons.hasDest.mpr hdest)
    rw [if_neg hdst, if_neg hdest]

theorem store_shape {op : Op} (h : isStore op = true) :
    isLoad op = false ∧ usesRs2 op = true ∧ writesRd op = false := by
  cases op <;> first | exact ⟨rfl, rfl, rfl⟩ | cases h

variable [MemPorts Nat M]

/-- A memory operation that is done at the head has its address. -/
theorem MemoryOk.headAddress (h : MemoryOk cfg image c) (hne : c.rob.empty = false)
    (hd : c.rob.head.done = true) (hmem : c.rob.head.isMem = true) : HeadAddress cfg.memBytes c := by
  have hk := h.values.core
  obtain ⟨hlive, hrob⟩ := hk.back.lsqHead hne hmem
  have hentry : c.rob.e (lsqRob c.lsq c.lsq.ring.headIdx) = c.rob.head := by
    rw [hrob]
    rfl
  have hm := hk.back.lsq.agrees _ hlive
  rw [hentry] at hm
  have hlocal := h.access.lsq.flags _ hlive
  have hseq : (c.lsq.at' c.lsq.ring.headIdx).seq = c.rob.head.seq := hm.seq
  -- a done store has its address, and so has a done load
  have hload : (c.lsq.at' c.lsq.ring.headIdx).isStore = false → (c.lsq.at' c.lsq.ring.headIdx).done = true :=
    fun hst => hlocal.load_reported (hm.load_done hst hd)
  have hvalid : (c.lsq.at' c.lsq.ring.headIdx).addrValid = true := by
    cases hst : (c.lsq.at' c.lsq.ring.headIdx).isStore with
    | true => exact (hm.store_done hst hd).1
    | false => exact hlocal.load_done (hload hst)
  have hknown := h.access.addrs _ hlive hvalid
  rw [hentry] at hknown
  have haddr : c.lsq.ring.head.addr = c.headExec.value := by
    obtain ⟨res, hres, haddr⟩ := (h.values.addrs _ hlive hvalid).exists_result
    rw [hentry, hseq] at hres
    rw [← Computes.head hk h.values.values hne hres]
    exact haddr
  exact ⟨hlive, hentry, haddr, hknown.size.trans (congrArg accessSize hm.op), hm.isStore, hknown, hload⟩

theorem MemoryOk.headAccess (h : MemoryOk cfg image c) (hne : c.rob.empty = false)
    (hd : c.rob.head.done = true) (hmem : c.rob.head.isMem = true) (hf : c.rob.head.fault = 0) :
    HeadAccess image cfg.memBytes c := by
  have hk := h.values.core
  have hb := hk.back
  have ha := h.headAddress hne hd hmem
  have hlive := ha.live
  have hentry := ha.entry
  have hm := hb.lsq.agrees _ hlive
  rw [hentry] at hm
  have hseq : (c.lsq.at' c.lsq.ring.headIdx).seq = c.rob.head.seq := hm.seq
  refine ⟨ha.addr, ha.size, hm.isStore, ha.known.scalar hf 0, fun hst => ?_, fun hst hdst => ?_⟩
  · have hst' : (c.lsq.at' c.lsq.ring.headIdx).isStore = true := hm.isStore.trans hst
    have hdata := h.values.values.stores _ hlive hst'
    rw [hentry] at hdata
    obtain ⟨hready, hval⟩ := hdata.captured (hm.store_done hst' hd).2
    rw [hdata.dataPreg, hseq] at hready hval
    exact Reads.head hk h.values.values hne ⟨hready, hval.symm⟩
  · have hst' : (c.lsq.at' c.lsq.ring.headIdx).isStore = false := hm.isStore.trans hst
    have he : c.lsq.ring.empty = false := by
      rw [← Bool.not_eq_true]
      intro he
      rw [(Ring.empty_iff c.lsq.ring).mp he] at hlive
      cases hlive
    have hclean : c.Untainted c.lsq.ring.headIdx := by
      refine ⟨?_, fun s hs _ hlt => ?_⟩
      · change (c.rob.e (lsqRob c.lsq c.lsq.ring.headIdx)).fault = 0
        rw [hentry]
        exact hf
      · rcases eq_or_ne s c.lsq.ring.headIdx with rfl | hns
        · exact absurd hlt (Nat.lt_irrefl _)
        · exact absurd hlt (Nat.lt_asymm ((h.access.lsq.head_first he).2 s hs hns))
    obtain ⟨v, hsees, hvalue⟩ := h.read _ hlive hst' hclean (ha.loaded hst')
    have hres := h.values.loads _ hlive hst' (by rw [hentry]; exact hd)
    have hdone := h.values.values.regs.done_val _ (headIdx_mem hb hne) hdst hd
    have hseq' : robSeq c.rob c.rob.headIdx = (c.lsq.at' c.lsq.ring.headIdx).seq := hseq.symm
    rw [hseq', hres] at hdone
    have hsees' := hsees.head h.access.lsq he
    rw [ha.size, ha.addr] at hsees'
    calc c.prf.val c.rob.head.pdst = (c.lsq.at' c.lsq.ring.headIdx).value := (Option.some.inj hdone).symm
      _ = extendLoad c.rob.head.ins.op v := by rw [hvalue, hm.op]
      _ = _ := by rw [hsees']

/-- An instruction that commits, and is not a system one, did what the reference model does. -/
theorem MemoryOk.op_retires {frames : Bool} (h : MemoryOk cfg image c) (hne : c.rob.empty = false)
    (hd : c.rob.head.done = true) (hc : OpCommit c c') (hret : c.retired = c.commits.length) :
    ∃ m', Retires image cfg.memBytes frames c.commits c.opRecord m' ∧ m'.halted = false := by
  have hk := h.values.core
  have hlive := headIdx_mem hk.back hne
  have hdec : decode c.opRecord.instruction = c.rob.head.ins := h.decoded _ hlive
  have hcons : c.rob.head.Consistent := hk.back.rob.consistent _ hlive
  have hplain : RefModel.Plain c.rob.head.ins.op := by
    have hsys := hcons.isSystem
    rw [hc.notSystem] at hsys
    refine ⟨fun hop => ?_, fun hop => ?_, fun hop => ?_⟩ <;>
    · rw [hop] at hsys
      cases hsys
  have hismem : c.rob.head.isMem = (isLoad c.rob.head.ins.op || isStore c.rob.head.ins.op) := hcons.isMem
  by_cases hmem : c.rob.head.isMem = true
  · have ha := h.headAccess hne hd hmem (commitFault_none hc.noFault)
    obtain ⟨hlegal, haligned, hinside⟩ := ha.legalAddr
    rw [hmem] at hismem
    by_cases hst : isStore c.rob.head.ins.op = true
    · obtain ⟨hload, huses, hno⟩ := store_shape hst
      have hwrite : c.opRecord.memoryWrite = some (MemoryWrite.mk' c.headExec.value
          (archRegs c.commits c.rob.head.ins.rs2) (accessSize c.rob.head.ins.op)) := by
        rw [← ha.addr, ← ha.data hst, ← ha.size]
        exact if_pos ⟨hmem, ha.kind.trans hst⟩
      have hdata : archRegs c.commits c.rob.head.ins.rs2 =
          if usesRs2 c.rob.head.ins.op then archRegs c.commits c.rob.head.ins.rs2 else 0 := (if_pos huses).symm
      rw [hdata] at hwrite
      refine Retires.of_op hdec hplain hret rfl rfl
        ((if_pos hismem.symm).trans (RefModel.stepMem_store hload haligned hinside))
        (archState_store hwrite hlegal).symm (opRecord_registerWrite hcons fun hdst => ?_)
        (hwrite.trans (if_pos hst).symm) rfl
      -- a store writes no register
      have hdest := hcons.hasDest.mp hdst
      rw [OoOCore.hasDest, hno] at hdest
      cases hdest
    · have hst' := Bool.eq_false_iff.mpr hst
      rw [hst', Bool.or_false] at hismem
      have hnone : c.opRecord.memoryWrite = none := if_neg fun hw => hst (ha.kind ▸ hw.2)
      exact Retires.of_op hdec hplain hret rfl rfl
        ((if_pos (by rw [hst', Bool.or_false]; exact hismem.symm)).trans
          (RefModel.stepMem_load hismem.symm haligned hinside))
        (archState_of_none hnone).symm (opRecord_registerWrite hcons (ha.loaded hst'))
        (hnone.trans (if_neg hst).symm) rfl
  · have hno : ¬ (isLoad c.rob.head.ins.op || isStore c.rob.head.ins.op) = true := by
      rw [← hismem]
      exact hmem
    have hst : ¬ isStore c.rob.head.ins.op = true := fun hst => hno (by rw [hst, Bool.or_true])
    have hnone : c.opRecord.memoryWrite = none := if_neg fun hw => hmem hw.1
    exact Retires.of_op hdec hplain hret rfl rfl (if_neg hno) (archState_of_none hnone).symm
      (opRecord_registerWrite hcons
        (head_value hk h.values.values hne hd (Bool.eq_false_iff.mpr hmem) hc.notSystem))
      (hnone.trans (if_neg hst).symm) rfl

omit [MemPorts Nat M] in
/-- Around a system instruction the maps of the committed and of all instructions are one. -/
theorem system_regs (hk : CoreOk cfg c) (hv : ValuesOk c) (hne : c.rob.empty = false)
    (hs : c.rob.head.isSystem = true) : c.prf.val c.rob.head.sysA0 = archRegs c.commits 10 ∧
      c.prf.val c.rob.head.sysA7 = archRegs c.commits 17 := by
  have hlive := headIdx_mem hk.back hne
  have halone := hk.back.rob.alone _ hlive hs
  have hnone : c.rob.head.write = none :=
    if_neg fun hp => hp ((hk.back.rob.consistent _ hlive).system_no_dest hs)
  have hmap : c.cmap = c.rmap := by
    have hent : c.rob.entries = [c.rob.head] := by
      rw [Ring.entries, halone]
      rfl
    rw [OoOCore.cmap, hent, undo, renames_singleton, hnone]
    rfl
  obtain ⟨ha0, ha7⟩ := hk.rename.system _ hlive hs
  change c.rob.head.sysA0 = _ at ha0
  change c.rob.head.sysA7 = _ at ha7
  rw [ha0, ha7, ← hmap]
  exact ⟨hv.regs.committed_val 10, hv.regs.committed_val 17⟩

/-- A system instruction that commits did what the reference model does, and both halt or none. -/
theorem MemoryOk.system_retires {frames : Bool} {rec : CommitRecord} (h : MemoryOk cfg image c)
    (hne : c.rob.empty = false) (hs : SystemCommit c c' rec) (hret : c.retired = c.commits.length)
    (hex : c.exitCode = 0) (hh : c.halted = false)
    (hread : ∀ a b, MemPorts.peek8 c.msys a = .ok b →
      (archState image cfg.memBytes c.commits c.rob.head.pc).mem.load8 a = .ok b) :
    ∃ m', Retires image cfg.memBytes frames c.commits rec m' ∧ m'.halted = c'.halted ∧
      (m'.halted = true → m'.exitCode = c'.exitCode) := by
  have hk := h.values.core
  have hlive := headIdx_mem hk.back hne
  obtain ⟨ha0, ha7⟩ := system_regs hk h.values.values hne hs.isSystem
  have hsize : MemPorts.memSize c.msys = cfg.memBytes := h.access.size
  obtain ⟨ret, prf, pos, hal, ex, rfl, hcom⟩ := hs.frame
  obtain ⟨-, hraw⟩ := commitSystem_record hcom
  have hdec : decode rec.instruction = c.rob.head.ins := by
    rw [hraw]
    exact h.decoded _ hlive
  unfold OoOCore.commitSystem OoOCore.rec₀ at hcom
  dsimp only at hcom
  rw [ha0, ha7, hsize, hret] at hcom
  split at hcom
  · rename_i hop
    split at hcom
    · cases hcom
    · rename_i res hres
      obtain ⟨hstate, hrec⟩ := Prod.mk.inj (Except.ok.inj hcom)
      obtain ⟨m', hm, hhalt, hcode⟩ := Retires.of_ecall (r := rec) (hdec ▸ hop) (by rw [← hrec])
        (fun a b hb => hread a.toNat b hb) hres
      exact ⟨m', hm, hhalt.trans (congrArg OoOCore.halted hstate :),
        fun _ => (hcode.trans (congrArg res.exit.getD hex.symm)).trans (congrArg OoOCore.exitCode hstate :)⟩
  · rename_i hop
    obtain ⟨hstate, hrec⟩ := Prod.mk.inj (Except.ok.inj hcom)
    obtain ⟨m', hm, hhalt, hcode⟩ := Retires.of_ebreak (r := rec) (hdec ▸ hop) (by rw [← hrec])
    exact ⟨m', hm, hhalt.trans (congrArg OoOCore.halted hstate :),
      fun _ => (hcode.trans hex.symm).trans (congrArg OoOCore.exitCode hstate :)⟩
  · rename_i hop
    obtain ⟨hstate, hrec⟩ := Prod.mk.inj (Except.ok.inj hcom)
    obtain ⟨m', hm, hhalt, hcode⟩ := Retires.of_illegal (r := rec) (hdec ▸ hop) (by rw [← hrec])
    exact ⟨m', hm, hhalt.trans (congrArg OoOCore.halted hstate :),
      fun _ => hcode.trans (congrArg OoOCore.exitCode hstate :)⟩
  · -- a fence writes nothing
    rename_i h1 h2 h3
    obtain ⟨hstate, hrec⟩ := Prod.mk.inj (Except.ok.inj hcom)
    have hfence : c.rob.head.ins.op = .FENCE := by
      have hsys := (hk.back.rob.consistent _ hlive).isSystem
      change c.rob.head.isSystem = _ at hsys
      rw [hs.isSystem] at hsys
      rcases (fuKindOf_eq_NONE_iff _).mp (of_decide_eq_true hsys.symm) with hop | hop | hop | hop
      · exact hop
      · exact absurd hop h1
      · exact absurd hop h2
      · exact absurd hop h3
    have hnone : rec.memoryWrite = none := (congrArg CommitRecord.memoryWrite hrec :).symm
    have hno : ∀ op, op = .FENCE → (isLoad op || isStore op) = false ∧ isStore op = false ∧ writesRd op = false := by
      rintro op rfl
      exact ⟨rfl, rfl, rfl⟩
    obtain ⟨hmem, hst, hdest⟩ := hno _ hfence
    have hone : ∃ m', Retires image cfg.memBytes frames c.commits rec m' ∧ m'.halted = false := by
      apply Retires.of_op hdec ⟨h1, h2, h3⟩ (congrArg CommitRecord.sequence hrec :).symm rfl rfl
        (if_neg (hmem ▸ Bool.false_ne_true)) (archState_of_none hnone).symm
      · rw [hdest]
        exact (congrArg CommitRecord.registerWrite hrec :).symm
      · exact hnone.trans (if_neg (hst ▸ Bool.false_ne_true)).symm
      · exact (congrArg CommitRecord.exception hrec :).symm
    obtain ⟨m', hm, hhalt⟩ := hone
    refine ⟨m', hm, hhalt.trans (hh.symm.trans (congrArg OoOCore.halted hstate :)), fun hm' => ?_⟩
    rw [hhalt] at hm'
    cases hm'

end Memory

end RvO3
