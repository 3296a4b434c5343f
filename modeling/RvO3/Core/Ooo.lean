import RvO3.Core.Commit
import RvO3.Core.Fu
import RvO3.Core.Iq
import RvO3.Core.Lsq
import RvO3.Core.Predictor
import RvO3.Isa.Decode
import RvO3.Isa.Execute
import RvO3.Memory.System
import RvO3.Sim.Syscall

/-!
# The out-of-order core: state and stages

`core/ooo.h` and `core/ooo.cpp`, with `core/rob.h` and `core/rename.h`. One function for
each stage, in the order `stepCycle` runs them; the memory system is any `MemPorts`. The
statistics counters other than `retired`, and the pipeline trace, are left out.

`units` is the source's pointer vector as the owner of the units it points to: the ALUs,
then the branch unit, the multiplier and the divider. A pointer to an output slot is an
`OutSlot`.

`log` is a history variable: the stages append to it where the source notes an
instruction in its pipeline trace, and nothing reads it.
-/

set_option autoImplicit false

namespace RvO3

/-! ## The reorder buffer, renaming and fetch records -/

/-- One instruction in flight (`RobEntry` of `core/rob.h`). Dispatch fills the static part. `done`,
the outcome of a branch and the fault of a memory operation are filled in later, by writeback and by
address generation. `0xFF` stands for no register. -/
structure RobEntry where
  seq : Nat := 0
  pc : Word := 0
  ins : Instr := {}
  done : Bool := false
  pdst : Nat := 0xFF
  prevPhys : Nat := 0xFF
  isMem : Bool := false
  isSystem : Bool := false
  fault : Nat := 0
  isBranch : Bool := false
  predictedTaken : Bool := false
  actualTaken : Bool := false
  predictedTarget : Word := 0
  actualTarget : Word := 0
  predIdx : Nat := 0
  predBefore : Checkpoint := {}
  sysA0 : Nat := 0
  sysA7 : Nat := 0
  deriving DecidableEq, Repr

instance : Inhabited RobEntry := ⟨{}⟩

/-- Did fetch guess wrong? Valid once the branch has resolved. The direction decides, and the target
only when both say taken. -/
def RobEntry.mispredicted (e : RobEntry) : Bool :=
  e.actualTaken != e.predictedTaken || (e.actualTaken && e.actualTarget != e.predictedTarget)

/-- Values and ready bits of the physical registers. A register is not ready from the dispatch of
its producer to the writeback. -/
structure PhysRegFile where
  val : Nat → Word := fun _ => 0
  ready : Nat → Bool := fun _ => true

/-- A fetched instruction waiting to dispatch: its word, and what the predictor said of its address
when it was fetched, with the checkpoint from before. -/
structure Fetched where
  pc : Word := 0
  raw : Word := 0
  predTaken : Bool := false
  predTarget : Word := 0
  predIdx : Nat := 0
  predBefore : Checkpoint := {}
  deriving DecidableEq, Repr

instance : Inhabited Fetched := ⟨{}⟩

/-- A pointer to an output slot that produces for writeback: that of a functional unit, or one of
the load output slots. -/
inductive OutSlot where
  | unit (i : Nat)
  | load (j : Nat)
  deriving DecidableEq, Repr

/-- What the history variable records. -/
inductive Event where
  /-- An instruction was dispatched, with the rename map as it stood just before. -/
  | dispatch (seq : Nat) (ins : Instr) (map : Reg → Nat)
  /-- An instruction issued with these operand values. -/
  | issue (seq : Nat) (a b : Word)
  /-- An output slot was written back. -/
  | writeback (seq : Nat) (value : Word)
  /-- An address-generation output filled its LSQ entry. -/
  | drain (seq : Nat)
  /-- A store captured its data operand. -/
  | capture (seq : Nat) (value : Word)
  /-- Everything younger than `seq` was squashed. -/
  | recover (seq : Nat)
  /-- The oldest instruction committed. -/
  | commit (rec : CommitRecord)
  deriving DecidableEq

/-- The whole state of the core, over a memory system `M`. The fields are those of `OoOCore` in
`core/ooo.h`, in groups: renaming, the reorder buffer and the two queues, the predictor, the units
with their output slots, the fetch front, the dependence predictor, and the outcome of the run.
`frames`, `inputs`, `inputPos`, `commits` and `log` stand for the surroundings. -/
structure OoOCore (M : Type) where
  cfg : SimConfig
  /-- Whether the display pipes are configured. -/
  frames : Bool
  /-- The values successive input syscalls obtain. -/
  inputs : Nat → Word
  inputPos : Nat := 0
  msys : M
  rmap : Reg → Nat
  freeList : Ring Nat
  prf : PhysRegFile := {}
  rob : Ring RobEntry
  iq : IssueQueue
  lsq : LSQ
  sb : StoreBuffer
  pred : Predictor
  units : List FuUnit
  agus : List FuUnit
  wbReady : List OutSlot := []
  pc : Word := 0
  fetchQ : Ring Fetched
  fOutstanding : Bool := false
  fStale : Bool := false
  fBlock : Word := 0
  fFetchPc : Word := 0
  loadOuts : List FuOp
  sbTxnCtr : Nat := 0
  depTable : Nat → Nat := fun _ => 0
  seqCtr : Nat := 0
  pendRedirect : Bool := false
  pendTarget : Word := 0
  halted : Bool := false
  exitCode : Nat := 0
  retired : Nat := 0
  commits : List CommitRecord := []
  log : List Event := []

namespace OoOCore

variable {M : Type}

/-! ## Construction -/

/-- The functional units of `units`, in the source's order: the ALUs, then the branch unit, the
multiplier and the divider, which is never pipelined. -/
def initUnits (cfg : SimConfig) : List FuUnit :=
  List.replicate cfg.aluCount (FuUnit.init 1 true) ++
    [FuUnit.init 1 true, FuUnit.init cfg.mulLatency cfg.mulPipelined,
      FuUnit.init cfg.divLatency false]

/-- Physical registers 32 and up start free, the lowest first. The others hold the architectural
registers. -/
def initFreeList (physRegs : Nat) : Ring Nat :=
  (List.range (physRegs - 32)).foldl (fun r i => r.push (32 + i)) (Ring.init physRegs)

/-- The core out of reset. Register `i` is in physical register `i`, every queue is empty, and there
are as many load output slots as the width, and never fewer than two. -/
def init (cfg : SimConfig) (frames : Bool) (inputs : Nat → Word) (histLen : Nat → Nat)
    (msys : M) : OoOCore M :=
  { cfg := cfg
    frames := frames
    inputs := inputs
    msys := msys
    rmap := fun i => i.val
    freeList := initFreeList cfg.physRegs
    rob := Ring.init cfg.robSize
    iq := IssueQueue.init cfg.iqSize cfg.robSize
    lsq := LSQ.init cfg.lsqSize
    sb := StoreBuffer.init cfg.sbSize
    pred := Predictor.init cfg histLen
    units := initUnits cfg
    agus := List.replicate cfg.aguCount (FuUnit.init 1 true)
    fetchQ := Ring.init cfg.fetchQSize
    loadOuts := List.replicate (if cfg.width > 2 then cfg.width else 2) {} }

/-- The architectural value of register `i`, read through the rename map. -/
def reg (c : OoOCore M) (i : Reg) : Word := c.prf.val (c.rmap i)

/-- Overwrite a ROB entry. -/
def setRob (c : OoOCore M) (idx : Nat) (e : RobEntry) : OoOCore M := { c with rob := c.rob.set idx e }

/-- Note an event in the history variable. -/
def addLog (c : OoOCore M) (ev : Event) : OoOCore M := { c with log := c.log ++ [ev] }

/-! ## Commit -/

section Commit

variable [MemPorts Nat M]

/-- The system instructions take effect here, alone in a drained machine. A syscall reads its number
and argument through the rename map of its dispatch and writes its result in place; an exit or an
`ebreak` halts the core, and an illegal instruction halts it without retiring. -/
def commitSystem (c : OoOCore M) (e : RobEntry) (rec : CommitRecord) :
    Except Fatal (OoOCore M × CommitRecord) :=
  match e.ins.op with
  | .ECALL =>
      let num := c.prf.val e.sysA7
      match runSyscall num (c.prf.val e.sysA0) false c.frames
          (fun a => MemPorts.peek8 c.msys a.toNat) (MemPorts.memSize c.msys)
          (c.inputs c.inputPos) with
      | .error err => .error err
      | .ok r =>
          .ok ({ c with
                retired := c.retired + 1
                prf := { c.prf with val := Function.update c.prf.val e.sysA0 r.arg }
                inputPos := if syscallReturnsInput num then c.inputPos + 1 else c.inputPos
                halted := r.exit.isSome
                exitCode := r.exit.getD c.exitCode },
            { rec with
              registerWrite := if syscallReturnsInput num then some ⟨10, r.arg⟩ else none })
  | .EBREAK => .ok ({ c with retired := c.retired + 1, halted := true }, rec)
  | .ILLEGAL =>
      .ok ({ c with halted := true, exitCode := 1 },
        { rec with exception := some .IllegalInstruction })
  | _ => .ok ({ c with retired := c.retired + 1 }, rec)

end Commit

/-- A memory operation leaves the LSQ at its head. A store moves to the store buffer, from where it
is sent to memory, and its record names the bytes that it writes. -/
def commitMem (c : OoOCore M) (rec : CommitRecord) : OoOCore M × CommitRecord :=
  let le := c.lsq.ring.head
  ({ c with
      sb := if le.isStore then c.sb.push { addr := le.addr, size := le.size, data := le.data }
        else c.sb
      lsq := c.lsq.popHead },
    { rec with
      memoryWrite :=
        if le.isStore then some (MemoryWrite.mk' le.addr le.data le.size) else rec.memoryWrite })

/-- The displaced mapping is freed: commit is in order, so no older reader is left. The record names
the architectural register and the value of the physical one. -/
def commitReg (c : OoOCore M) (e : RobEntry) (rec : CommitRecord) : OoOCore M × CommitRecord :=
  ({ c with freeList := if e.pdst ≠ kNoReg then c.freeList.push e.prevPhys else c.freeList },
    { rec with
      registerWrite :=
        if e.pdst ≠ kNoReg then some ⟨e.ins.rd, c.prf.val e.pdst⟩ else rec.registerWrite })

/-- The predictors train. A control transfer trains the branch predictor with its outcome, and a
load that commits cleanly slowly re-earns the right to speculate. -/
def commitTrain (c : OoOCore M) (e : RobEntry) : OoOCore M :=
  let i := (e.pc >>> 2).toNat % c.cfg.depTableSize
  { c with
    pred :=
      if e.isBranch ∧ c.cfg.usePredictor then
        c.pred.update e.pc e.ins e.actualTaken e.actualTarget e.predIdx e.predBefore
      else c.pred
    depTable :=
      if c.cfg.depPredictor ∧ e.isMem ∧ isLoad e.ins.op ∧ c.depTable i > 0 then
        Function.update c.depTable i (c.depTable i - 1)
      else c.depTable }

section Commit

variable [MemPorts Nat M]

/-- The fatal error of a faulting head: it becomes real only here, so that a fault on a squashed
path is harmless. A taken transfer to a misaligned target comes before a fault of the access. -/
def commitFault (c : OoOCore M) (e : RobEntry) : Option Fatal :=
  let what := if isStore e.ins.op then "store" else "load"
  if e.isBranch ∧ e.actualTaken ∧ e.actualTarget &&& 3#32 ≠ 0#32 then
    some (.misalignedTarget e.actualTarget e.pc)
  else if e.fault = 0 then none
  else if e.fault = 1 then some (.misaligned what c.lsq.ring.head.addr.toNat e.pc)
  else some (.outOfRange what c.lsq.ring.head.addr.toNat)

/-- The record is handed to `onCommit` and the entry leaves the ROB. Every committed instruction
goes through here, once. -/
def retire (c : OoOCore M) (rec : CommitRecord) : OoOCore M :=
  { c with commits := c.commits ++ [rec], rob := c.rob.popHead }.addLog (.commit rec)

/-- Commit the head; false when a full store buffer stops the stage. The order is that of the
source: fault, system instruction, room in the store buffer, LSQ, register and training. -/
def commitOne (c : OoOCore M) : Except Fatal (OoOCore M × Bool) :=
  let e := c.rob.head
  match commitFault c e with
  | some err => .error err
  | none =>
    let rec₀ : CommitRecord := { sequence := c.retired, pc := e.pc, instruction := e.ins.raw }
    if e.isSystem then
      match commitSystem c e rec₀ with
      | .error err => .error err
      | .ok (c, rec) => .ok (c.retire rec, true)
    else if e.isMem ∧ c.lsq.ring.head.isStore ∧ c.sb.ring.full then .ok (c, false)
    else
      let (c, rec) := if e.isMem then c.commitMem rec₀ else (c, rec₀)
      let (c, rec) := c.commitReg e rec
      let c := c.commitTrain e
      .ok ({ c with retired := c.retired + 1 }.retire rec, true)

/-- Up to `n` instructions from the ROB head, in program order. The loop ends early at a head that
is not done, at a full store buffer and at a halt. -/
def commitLoop : Nat → OoOCore M → Except Fatal (OoOCore M)
  | 0, c => .ok c
  | n + 1, c =>
      if !c.rob.empty && c.rob.head.done && !c.halted then
        match c.commitOne with
        | .error err => .error err
        | .ok (c, true) => commitLoop n c
        | .ok (c, false) => .ok c
      else .ok c

/-- Commit up to `width` instructions. -/
def commitStage (c : OoOCore M) : Except Fatal (OoOCore M) := commitLoop c.cfg.width c

end Commit

/-! ## Recovery -/

/-- `lsq.popTail()` while the tail is younger than `seq`; `n` bounds the loop. The popped slots keep
their generation counters, which tells later answers to their loads apart. -/
def squashLsq (seq : Nat) : Nat → LSQ → LSQ
  | 0, q => q
  | n + 1, q => if q.ring.n ≠ 0 ∧ q.ring.tail.seq > seq then squashLsq seq n q.popTail else q

/-- The ROB walk from the youngest back: each squashed entry restores the mapping it displaced and
returns its physical register, so that the map is again the one from before its dispatch. -/
def squashRob (seq : Nat) : Nat → OoOCore M → OoOCore M
  | 0, c => c
  | n + 1, c =>
      if c.rob.n ≠ 0 ∧ c.rob.tail.seq > seq then
        let t := c.rob.tail
        let c := if t.pdst ≠ kNoReg then
            { c with
              rmap := Function.update c.rmap t.ins.rd t.prevPhys
              freeList := c.freeList.push t.pdst }
          else c
        squashRob seq n { c with rob := c.rob.popTail }
      else c

/-- The op in an output slot. -/
def outAt (c : OoOCore M) : OutSlot → FuOp
  | .unit i => (c.units[i]?.getD default).out
  | .load j => c.loadOuts[j]?.getD {}

/-- The first half of `recover`: the issue queue, the units and the load outputs drop what is
younger, the pointers to emptied output slots go, and the LSQ loses its tail. -/
def flushBackEnd (c : OoOCore M) (seq : Nat) : OoOCore M :=
  let c := c.addLog (.recover seq)
  let c := { c with
    iq := c.iq.flushYounger seq
    units := c.units.map fun u : FuUnit => u.flushYounger seq
    agus := c.agus.map fun u : FuUnit => u.flushYounger seq
    loadOuts := c.loadOuts.map (FuOp.killYounger seq) }
  { c with
    wbReady := c.wbReady.filter fun s => (c.outAt s).valid
    lsq := squashLsq seq c.lsq.ring.n c.lsq }

/-- Squash everything younger than `seq`, in the back end and then in the ROB and the rename map.
The fetch queue is cleared whole, and a block that is still on its way is marked stale. -/
def recover (c : OoOCore M) (seq : Nat) : OoOCore M :=
  let c := squashRob seq c.rob.n (c.flushBackEnd seq)
  { c with fetchQ := c.fetchQ.clear, fStale := c.fOutstanding || c.fStale }

/-! ## Writeback -/

/-- `op.valid = false` in an output slot: what it held has been consumed. -/
def dropOut (c : OoOCore M) : OutSlot → OoOCore M
  | .unit i => { c with units := c.units.modify i FuUnit.dropOut }
  | .load j => { c with loadOuts := c.loadOuts.modify j FuOp.invalidate }

/-- `std::min_element` over the waiting results: the index of the first one whose sequence number is
least. -/
def oldestReady (c : OoOCore M) : Nat :=
  c.wbReady.findIdx fun s => c.wbReady.all fun t => decide ((c.outAt s).seq ≤ (c.outAt t).seq)

/-- `*it = v.back(); v.pop_back()`: the last pointer takes the place of the removed one, so the
order of the list means nothing. -/
def swapRemove (l : List OutSlot) (i : Nat) : List OutSlot :=
  match l.getLast? with
  | some x => (l.set i x).dropLast
  | none => l

/-- Write the physical register, mark it ready and wake the waiting instructions. A result without a
destination does neither. -/
def writeReg (c : OoOCore M) (op : FuOp) : OoOCore M :=
  { c with
    prf :=
      if op.pdst ≠ kNoReg then
        { val := Function.update c.prf.val op.pdst op.value
          ready := Function.update c.prf.ready op.pdst true }
      else c.prf
    iq := if op.pdst ≠ kNoReg then c.iq.wakeup op.pdst else c.iq }

/-- The ROB entry of a result once written back: it is done, and a branch learns its outcome. The
target of a branch that is not taken is the next instruction. -/
def resolve (e : RobEntry) (op : FuOp) : RobEntry :=
  { e with
    done := true
    actualTaken := if e.isBranch then op.redirect else e.actualTaken
    actualTarget :=
      if e.isBranch then (if op.redirect then op.target else e.pc + 4) else e.actualTarget }

/-- The `i`-th waiting result leaves the list, is written to its register, and marks its ROB entry
done. The output slot itself is emptied by the caller. -/
def complete (c : OoOCore M) (i : Nat) (op : FuOp) : OoOCore M :=
  let c := { c with wbReady := swapRemove c.wbReady i }
  ((c.writeReg op).setRob op.robIdx (resolve (c.rob.e op.robIdx) op)).addLog
    (.writeback op.seq op.value)

/-- A wrong prediction: rewind the predictor to before the branch and replay it with its real
outcome, squash the wrong path and redirect. The redirect takes effect at the clock edge. -/
def mispredict (c : OoOCore M) (slot : OutSlot) (op : FuOp) (e : RobEntry) : OoOCore M :=
  let c := { c with
    pred :=
      if c.cfg.usePredictor then (c.pred.restore e.predBefore).replay e.pc e.ins e.actualTaken
      else c.pred }
  { (c.dropOut slot).recover op.seq with pendRedirect := true, pendTarget := e.actualTarget }

/-- Write back the oldest waiting result; true when it was a mispredicted branch, which ends the
stage. -/
def writebackOne (c : OoOCore M) : OoOCore M × Bool :=
  let i := c.oldestReady
  let slot := c.wbReady[i]?.getD (.unit 0)
  let op := c.outAt slot
  let e := resolve (c.rob.e op.robIdx) op
  if e.isBranch && e.mispredicted then ((c.complete i op).mispredict slot op e, true)
  else ((c.complete i op).dropOut slot, false)

/-- Up to `n` results, until one mispredicts. What the squash leaves waits for the next cycle. -/
def writebackLoop : Nat → OoOCore M → OoOCore M
  | 0, c => c
  | n + 1, c =>
      match c.writebackOne with
      | (c, true) => c
      | (c, false) => writebackLoop n c

/-- Up to `wbPorts` results, oldest first. The bound is taken at the start: no result joins the list
during the stage. -/
def writebackStage (c : OoOCore M) : OoOCore M :=
  writebackLoop (min c.cfg.wbPorts c.wbReady.length) c

/-! ## Address generation -/

/-- The replay victim of a resolving store: the oldest younger load that has read and that the store
overlaps. Visits are in age order, so the first one found is the oldest. -/
def violationVictim (c : OoOCore M) (store : LsqEntry) : Option Nat :=
  c.lsq.visitAccessedLoads.find? fun slot =>
    let le := c.lsq.at' slot
    decide (le.seq > store.seq) && overlaps store.addr store.size le.addr le.size

/-- Any younger load that already read an overlapping address may have consumed a stale value. The
oldest such load replays, through the same recovery as a mispredict: everything from the load on is
squashed and fetched again, and the dependence predictor remembers its address. -/
def violationScan (c : OoOCore M) (store : LsqEntry) : OoOCore M :=
  match c.violationVictim store with
  | none => c
  | some slot =>
      let victim := c.lsq.at' slot
      let i := (victim.pc >>> 2).toNat % c.cfg.depTableSize
      let c := { c with
        depTable := if c.cfg.depPredictor then Function.update c.depTable i 3 else c.depTable
        pred :=
          if c.cfg.usePredictor then c.pred.restore (c.rob.e victim.robIdx).predBefore
          else c.pred }
      { c.recover (victim.seq - 1) with pendRedirect := true, pendTarget := victim.pc }

/-- The address-generation unit whose output is the oldest, if any has one. -/
def readyAgu (c : OoOCore M) : Option Nat :=
  (List.range c.agus.length).foldl (fun best i =>
    let out := (c.agus[i]?.getD default).out
    match best with
    | none => if out.valid then some i else none
    | some j =>
        if out.valid ∧ out.seq < (c.agus[j]?.getD default).out.seq then some i else some j) none

section Lsq

variable [MemPorts Nat M]

/-- The fault an effective address raises: 1 when it is misaligned, else 2 when the access leaves
memory, else 0. -/
def faultOf (memBytes : Nat) (addr : Word) (size : Nat) : Nat :=
  if addr.toNat % size ≠ 0 then 1 else if addr.toNat + size > memBytes then 2 else 0

/-- The LSQ after an address-generation result filled its entry: address and size are known, and the
work sets of the entry follow. -/
def fillAddress (q : LSQ) (op : FuOp) : LSQ :=
  let le := q.at' op.lsqIdx
  (q.setEntry op.lsqIdx { le with addr := op.value, size := accessSize le.op }).resolveAddress
    op.lsqIdx

/-- The ROB entry of a memory operation whose address is known: a fault is recorded for
commit to act on, and a store is done once both its address and data exist. -/
def addressed (e : RobEntry) (le : LsqEntry) (memBytes : Nat) : RobEntry :=
  { e with
    fault := faultOf memBytes le.addr le.size
    done := if le.isStore && le.dataReady then true else e.done }

/-- The output of unit `i` leaves its slot and fills its LSQ entry. -/
def fillOne (c : OoOCore M) (i : Nat) : OoOCore M :=
  let op := (c.agus[i]?.getD default).out
  let c := { c with
    agus := c.agus.modify i FuUnit.dropOut
    lsq := fillAddress c.lsq op }.addLog (.drain op.seq)
  c.setRob op.robIdx
    (addressed (c.rob.e op.robIdx) (c.lsq.at' op.lsqIdx) (MemPorts.memSize c.msys))

/-- One address-generation result. In Speculative mode a store address resolving is also
the moment ordering violations surface. -/
def aguDrainOne (c : OoOCore M) (i : Nat) : OoOCore M :=
  let op := (c.agus[i]?.getD default).out
  let c := c.fillOne i
  let le := c.lsq.at' op.lsqIdx
  if le.isStore ∧ c.cfg.memOrder = .Speculative ∧ (c.rob.e op.robIdx).fault = 0 then
    c.violationScan le
  else c

/-- Drain oldest first, reselecting after each completion, since a violation may have squashed other
outputs. Every round empties one output slot and none is filled, so the number of units bounds the
loop. -/
def aguDrainLoop : Nat → OoOCore M → OoOCore M
  | 0, c => c
  | n + 1, c =>
      match c.readyAgu with
      | none => c
      | some i => aguDrainLoop n (c.aguDrainOne i)

/-- Drain every address-generation unit. No port limits it. -/
def aguDrain (c : OoOCore M) : OoOCore M := aguDrainLoop c.agus.length c

/-! ## The memory engine -/

/-- `(1ull << 63) | (slot << 32) | txn`: bit 63 tells the two kinds of tags apart. -/
def storeTag (slot txn : Nat) : Nat := 2 ^ 63 ||| (slot <<< 32) % 2 ^ 64 ||| txn

/-- `(slot << 16) | gen`: the generation tells the loads apart that take a slot one after the other.
-/
def loadTag (slot gen : Nat) : Nat := (slot <<< 16) % 2 ^ 64 ||| gen

/-- A committed store's ack marks the entry it names. It names a live entry in flight, with this
transaction number; any other ack is ignored. -/
def storeAck (b : StoreBuffer) (tag : Nat) : StoreBuffer :=
  let txn := tag % 2 ^ 32
  let slot := (tag % 2 ^ 63) >>> 32 % 2 ^ 32
  let st := b.ring.e slot
  if b.ring.live slot ∧ st.inflight ∧ !st.acked ∧ st.txn = txn then
    b.setEntry slot { st with acked := true }
  else b

/-- A load response completes the load whose slot and generation it names, if it is still there and
waits. The answer to a squashed load finds another generation, or none, and is dropped. -/
def loadReply (q : LSQ) (tag : Nat) (data : Word) : LSQ :=
  let idx := tag >>> 16 % 2 ^ 32
  let gen := tag % 2 ^ 16
  let le := q.at' idx
  if q.ring.live idx ∧ !le.isStore ∧ le.issued ∧ !le.done ∧ le.gen = gen then
    q.completeLoad idx (extendLoad le.op data)
  else q

/-- Bit 63 of the tag says whether this answers a store or a load. -/
def dataResponse (c : OoOCore M) (r : MemResponse Nat) : OoOCore M :=
  if r.tag.testBit 63 then { c with sb := storeAck c.sb r.tag }
  else { c with lsq := loadReply c.lsq r.tag r.rdata }

/-- Pop up to `n` responses, each handled before the next is looked at. -/
def drainLoop : Nat → OoOCore M → OoOCore M
  | 0, c => c
  | n + 1, c =>
      match MemPorts.dResponse c.msys with
      | none => c
      | some r => drainLoop n ({ c with msys := MemPorts.dPop c.msys }.dataResponse r)

/-- Handle every response that is ready now. -/
def drainDataResponses (c : OoOCore M) : OoOCore M := drainLoop (MemPorts.dReady c.msys) c

end Lsq

/-- Acks can arrive out of order; entries pop in order. An acked entry behind one that is not waits.
-/
def popAcked : Nat → StoreBuffer → StoreBuffer
  | 0, b => b
  | n + 1, b => if !b.ring.empty && b.ring.head.acked then popAcked n b.popHead else b

/-- The first free load output slot at or after `k`, or their number when all are taken. The cursor
only moves forward within one walk. -/
def nextOutput (outs : List FuOp) (k : Nat) : Nat :=
  k + ((outs.drop k).takeWhile (·.valid)).length

/-- A waiting store whose data register is ready captures its data. It is done once its address is
known too. -/
def captureStore (c : OoOCore M) (slot : Nat) : OoOCore M :=
  let le := c.lsq.at' slot
  if le.isStore && !le.dataReady && c.prf.ready le.dataPreg then
    let v := c.prf.val le.dataPreg
    let c := { c with lsq := c.lsq.captureStoreData slot v }.addLog (.capture le.seq v)
    if le.addrValid then c.setRob le.robIdx { c.rob.e le.robIdx with done := true } else c
  else c

/-- A completed load moves to a free load output slot and from there to writeback. It is reported
once; with no free slot it waits for the next cycle. The cursor after it is returned. -/
def surfaceLoad (c : OoOCore M) (slot k : Nat) : OoOCore M × Nat :=
  let le := c.lsq.at' slot
  if !le.isStore && le.done && !le.reported then
    let j := nextOutput c.loadOuts k
    if j = c.loadOuts.length then (c, j)
    else
      let op : FuOp := { c.loadOuts[j]?.getD {} with
        valid := true, seq := le.seq, robIdx := le.robIdx, pdst := le.pdst, value := le.value }
      ({ c with
          loadOuts := c.loadOuts.set j op
          wbReady := c.wbReady ++ [.load j]
          lsq := c.lsq.reportLoad slot }, j + 1)
  else (c, k)

/-- The walk over the pending updates, with the output-slot cursor. A slot may have either kind of
update, and is checked for both. -/
def updateLoop : List Nat → OoOCore M × Nat → OoOCore M
  | [], (c, _) => c
  | slot :: rest, (c, k) => updateLoop rest ((c.captureStore slot).surfaceLoad slot k)

/-- Captures of store data and completed loads, oldest first. -/
def lsqUpdates (c : OoOCore M) : OoOCore M :=
  if c.lsq.needsUpdate then updateLoop c.lsq.visitUpdates (c, 0) else c

/-! ### Which load may go -/

/-- What the older stores mean for a load: nothing stands in its way, it has to wait, or a store
hands it the data. -/
inductive Verdict where
  | clear
  | blocked
  | forward (data : Word)
  deriving DecidableEq, Repr

/-- The verdict of one older store, if it decides. A store to exactly the bytes of the load forwards
its data or makes it wait for them; one that overlaps otherwise blocks the load until it is in
memory. -/
def olderStore (le : LsqEntry) (addr : Word) (size : Nat) (dataReady : Bool) (data : Word) :
    Option Verdict :=
  if addr = le.addr ∧ size = le.size then
    some (if dataReady then .forward data else .blocked)
  else if overlaps addr size le.addr le.size then some .blocked
  else none

/-- The verdict of the known older stores in the LSQ, newest first. The word counts skip the walk
when no store can touch the word. -/
def lsqVerdict (c : OoOCore M) (slot : Nat) : Option Verdict :=
  let le := c.lsq.at' slot
  if c.lsq.mayStoreToWord le.addr then
    (c.lsq.visitOlderStores slot).findSome? fun i =>
      let st := c.lsq.at' i
      olderStore le st.addr st.size st.dataReady st.data
  else none

/-- The verdict of the store buffer, newest first. Its stores have committed, so their data are
there. -/
def sbVerdict (c : OoOCore M) (slot : Nat) : Option Verdict :=
  let le := c.lsq.at' slot
  c.sb.ring.entries.reverse.findSome? fun st => olderStore le st.addr st.size true st.data

/-- The nearest older store that touches the load decides. Everything in the LSQ is younger than
everything in the store buffer. -/
def verdict (c : OoOCore M) (slot : Nat) : Verdict :=
  match c.lsqVerdict slot with
  | some v => v
  | none => (c.sbVerdict slot).getD .clear

/-- Must this load wait for unknown older addresses? Always, unless the mode is speculative, and
there when the dependence predictor remembers a violation. -/
def cautious (c : OoOCore M) (le : LsqEntry) : Bool :=
  c.cfg.memOrder != .Speculative ||
    (c.cfg.depPredictor && c.depTable ((le.pc >>> 2).toNat % c.cfg.depTableSize) ≥ 2)

/-- `seq < bound`, where `none` is `UINT64_MAX` as the source has it for no such instruction: then
nothing lies behind the bound. -/
def before (bound : Option Nat) (seq : Nat) : Bool :=
  match bound with
  | some b => decide (b < seq)
  | none => false

/-- Visit the candidates in age order: faulted loads complete with zero, forwarded ones with their
data, and the first one free to go is returned with its speculative flag. In conservative mode the
walk ends at a load that is held up or forwarded, and at a load older than which one is in flight.
-/
def visitLoads (unknownSeq pendingSeq : Option Nat) :
    List Nat → OoOCore M → OoOCore M × Option (Nat × Bool)
  | [], c => (c, none)
  | slot :: rest, c =>
      let le := c.lsq.at' slot
      let wall := before unknownSeq le.seq
      if before pendingSeq le.seq then (c, none)
      else if (c.rob.e le.robIdx).fault ≠ 0 then
        visitLoads unknownSeq pendingSeq rest { c with lsq := c.lsq.completeLoad slot 0 }
      else if wall && c.cautious le then visitLoads unknownSeq pendingSeq rest c
      else match c.verdict slot with
        | .forward data =>
            let c := { c with lsq := c.lsq.completeLoad slot (extendLoad le.op data) }
            if c.cfg.memOrder = .Conservative then (c, none)
            else visitLoads unknownSeq pendingSeq rest c
        | .clear => (c, some (slot, wall))
        | .blocked =>
            if c.cfg.memOrder = .Conservative then (c, none)
            else visitLoads unknownSeq pendingSeq rest c

/-- The bounds of the walk are the oldest store with an unknown address and, in conservative mode,
the oldest load in flight. -/
def findLoad (c : OoOCore M) : OoOCore M × Option (Nat × Bool) :=
  let pendingSeq := if c.cfg.memOrder = .Conservative then c.lsq.oldestPendingLoad else none
  visitLoads c.lsq.oldestUnknownStore pendingSeq c.lsq.visitCandidates c

section Access

variable [MemPorts Nat M]

/-- Send the oldest unsent committed store under a fresh transaction number. The entry stays in the
buffer until its ack comes back. -/
def sendStore (c : OoOCore M) (slot : Nat) : Except Fatal (OoOCore M) :=
  let st := c.sb.ring.e slot
  let req : MemRequest Nat :=
    { addr := st.addr.toNat, size := st.size, isWrite := true, wdata := st.data
      tag := storeTag c.sb.nextIssueSlot c.sbTxnCtr }
  match MemPorts.dAccess c.msys req with
  | .error err => .error err
  | .ok m =>
      .ok { c with
        msys := m
        sb := (c.sb.setEntry slot { st with txn := c.sbTxnCtr }).issue
        sbTxnCtr := (c.sbTxnCtr + 1) % 2 ^ 32 }

/-- Send a load under the tag of its slot and generation. -/
def sendLoad (c : OoOCore M) (slot : Nat) : Except Fatal (OoOCore M) :=
  let le := c.lsq.at' slot
  let req : MemRequest Nat :=
    { addr := le.addr.toNat, size := le.size, tag := loadTag slot le.gen }
  match MemPorts.dAccess c.msys req with
  | .error err => .error err
  | .ok m => .ok { c with msys := m, lsq := c.lsq.issueLoad slot }

/-- One data-port access, if there is one to make; true when it was sent. The store buffer goes
first only when full or when no load is ready. The search has run either way, so its loads are
completed even when nothing is sent. -/
def accessOne (c : OoOCore M) : Except Fatal (OoOCore M × Bool) :=
  let (c, cand) := c.findLoad
  let sent := fun (r : Except Fatal (OoOCore M)) => match r with
    | .error err => Except.error err
    | .ok c => .ok (c, true)
  match c.sb.nextToIssue, cand with
  | some slot, none => if MemPorts.dCanAccept c.msys then sent (c.sendStore slot) else .ok (c, false)
  | some slot, some (load, _) =>
      if c.sb.ring.full then
        if MemPorts.dCanAccept c.msys then sent (c.sendStore slot) else .ok (c, false)
      else if MemPorts.dCanAccept c.msys then sent (c.sendLoad load) else .ok (c, false)
  | none, some (load, _) =>
      if MemPorts.dCanAccept c.msys then sent (c.sendLoad load) else .ok (c, false)
  | none, none => .ok (c, false)

/-- Up to `n` accesses, until one cannot be made. Each searches afresh. -/
def accessLoop : Nat → OoOCore M → Except Fatal (OoOCore M)
  | 0, c => .ok c
  | n + 1, c =>
      match c.accessOne with
      | .error err => .error err
      | .ok (c, true) => accessLoop n c
      | .ok (c, false) => .ok c

/-- The memory engine: take the responses, pop the acked stores, capture and surface, then up to
`dataPorts` accesses, then the responses that a hit in the same cycle has made ready. -/
def lsqOperate (c : OoOCore M) : Except Fatal (OoOCore M) :=
  let c := c.drainDataResponses
  let c := { c with sb := popAcked c.sb.ring.n c.sb }
  let c := c.lsqUpdates
  match accessLoop c.cfg.dataPorts c with
  | .error err => .error err
  | .ok c => .ok c.drainDataResponses

end Access

/-! ## Issue -/

/-- A functional unit, by name. -/
inductive UnitRef where
  | wb (i : Nat)
  | agu (i : Nat)
  deriving DecidableEq, Repr

/-- The unit a name stands for. -/
def unitAt (c : OoOCore M) : UnitRef → FuUnit
  | .wb i => c.units[i]?.getD default
  | .agu i => c.agus[i]?.getD default

/-- `unit->accept(op)`. -/
def acceptAt (c : OoOCore M) (u : UnitRef) (op : FuOp) : OoOCore M :=
  match u with
  | .wb i => { c with units := c.units.modify i fun u => u.accept op }
  | .agu i => { c with agus := c.agus.modify i fun u => u.accept op }

/-- The first unit at or after `k` among the first `n` that can accept, or `n`. A unit that was busy
once is not looked at again in the same cycle. -/
def nextUnit (us : List FuUnit) (n k : Nat) : Nat :=
  k + (((us.take n).drop k).takeWhile fun u => !u.canAccept).length

/-- The unit search: the unit to try, and the two search cursors. ALUs and address-generation units
are searched for; the branch unit, the multiplier and the divider are one each, and are tried as
they are. -/
def pickUnit (c : OoOCore M) (kind : FuKind) (nextAlu nextAgu : Nat) :
    Option UnitRef × Nat × Nat :=
  match kind with
  | .ALU =>
      let j := nextUnit c.units c.cfg.aluCount nextAlu
      if j < c.cfg.aluCount then (some (.wb j), j + 1, nextAgu) else (none, j, nextAgu)
  | .BRANCH => (some (.wb c.cfg.aluCount), nextAlu, nextAgu)
  | .MUL => (some (.wb (c.cfg.aluCount + 1)), nextAlu, nextAgu)
  | .DIV => (some (.wb (c.cfg.aluCount + 2)), nextAlu, nextAgu)
  | .LSU =>
      let j := nextUnit c.agus c.agus.length nextAgu
      if j < c.agus.length then (some (.agu j), nextAlu, j + 1) else (none, nextAlu, j)
  | .NONE => (none, nextAlu, nextAgu)

/-- The op an issuing entry becomes. The operands are read from the physical registers and the
result is computed at once; the unit only delays it. -/
def issueOp (c : OoOCore M) (q : IqEntry) : FuOp :=
  let e := c.rob.e q.robIdx
  let r := execute e.ins e.pc (c.prf.val q.ps1) (c.prf.val q.ps2)
  { valid := true, seq := q.seq, robIdx := q.robIdx, lsqIdx := q.lsqIdx, pdst := e.pdst
    value := r.value, redirect := r.redirect, target := r.target }

/-- Issue the entry at `slot` to unit `u`: the unit accepts the op and the entry leaves the queue.
-/
def issueTo (c : OoOCore M) (slot : Nat) (u : UnitRef) : OoOCore M :=
  let q := c.iq.e slot
  let c := (c.acceptAt u (c.issueOp q)).addLog (.issue q.seq (c.prf.val q.ps1) (c.prf.val q.ps2))
  { c with iq := c.iq.release slot }

/-- Visit the ready entries oldest first; `n` more may issue. An entry whose unit cannot accept is
passed over, and younger ones may still go. -/
def issueLoop : List Nat → Nat → Nat → Nat → OoOCore M → OoOCore M
  | [], _, _, _, c => c
  | slot :: rest, n, nextAlu, nextAgu, c =>
      match c.pickUnit (c.iq.e slot).unit nextAlu nextAgu with
      | (none, nextAlu, nextAgu) => issueLoop rest n nextAlu nextAgu c
      | (some u, nextAlu, nextAgu) =>
          if (c.unitAt u).canAccept then
            if n - 1 = 0 then c.issueTo slot u
            else issueLoop rest (n - 1) nextAlu nextAgu (c.issueTo slot u)
          else issueLoop rest n nextAlu nextAgu c

/-- Issue up to `width` ready instructions, oldest first from the ROB head. -/
def issueStage (c : OoOCore M) : OoOCore M :=
  issueLoop (c.iq.visitReady (c.rob.indexOf 0)) c.cfg.width 0 0 c

/-! ## Dispatch -/

/-- Does the instruction have a renamed destination? `x0` is never renamed. -/
def hasDest (I : Instr) : Bool := writesRd I.op && I.rd != 0

/-- A load or a store: what gets an LSQ entry. -/
def isMemOp (I : Instr) : Bool := isLoad I.op || isStore I.op

/-- The LSQ after a memory operation is allocated. A store remembers its data register, and its data
at once if they are ready. -/
def dispatchLsq (q : LSQ) (e : RobEntry) (robIdx ps2 : Nat) (prf : PhysRegFile) : LSQ :=
  let slot := q.ring.allocIdx
  let q := q.alloc
  let q := q.setEntry slot { q.at' slot with
    seq := e.seq, robIdx := robIdx, pc := e.pc, op := e.ins.op
    isStore := isStore e.ins.op, pdst := e.pdst }
  if isStore e.ins.op then q.setStoreSource slot ps2 (prf.ready ps2) (prf.val ps2) else q

/-- The ROB entry of a dispatched instruction, before renaming: number, address, instruction and the
checkpoint of its fetch. -/
def robEntry (seq : Nat) (f : Fetched) (I : Instr) : RobEntry :=
  { seq := seq, pc := f.pc, ins := I, predBefore := f.predBefore }

/-- Dispatch a system instruction into the empty machine. It is done as it enters, and remembers
where the two registers of a syscall are. -/
def dispatchSystem (c : OoOCore M) (f : Fetched) (I : Instr) : OoOCore M :=
  let idx := c.rob.allocIdx
  let e := { robEntry c.seqCtr f I with
    done := true, isSystem := true, sysA0 := c.rmap 10, sysA7 := c.rmap 17 }
  let c := c.addLog (.dispatch c.seqCtr I c.rmap)
  { c with fetchQ := c.fetchQ.popHead, seqCtr := c.seqCtr + 1, rob := c.rob.alloc.set idx e }

/-- Rename, allocate and enqueue one instruction. Sources are looked up before the destination is
renamed. The prediction is copied for control transfers only. In the issue queue a store waits for
its address and not for its data, which the LSQ captures. -/
def dispatchOp (c : OoOCore M) (f : Fetched) (I : Instr) : OoOCore M :=
  let idx := c.rob.allocIdx
  let ps1 := c.rmap I.rs1
  let ps2 := c.rmap I.rs2
  let unit := fuKindOf I.op
  let dest := hasDest I
  let pdst := if dest then c.freeList.head else 0xFF
  let e := { robEntry c.seqCtr f I with
    pdst := pdst
    prevPhys := if dest then c.rmap I.rd else 0xFF
    isMem := isMemOp I
    isBranch := decide (unit = .BRANCH)
    predictedTaken := decide (unit = .BRANCH) && f.predTaken
    predictedTarget := if unit = .BRANCH then f.predTarget else 0
    predIdx := if unit = .BRANCH then f.predIdx else 0 }
  let ready := if dest then Function.update c.prf.ready pdst false else c.prf.ready
  let prf := { c.prf with ready := ready }
  let lsqIdx := if isMemOp I then c.lsq.ring.allocIdx else 0
  let q : IqEntry :=
    { seq := c.seqCtr, robIdx := idx, lsqIdx := lsqIdx, unit := unit, ps1 := ps1, ps2 := ps2
      valid := true }
  { c with
    log := c.log ++ [.dispatch c.seqCtr I c.rmap] ++
      (if isStore I.op && ready ps2 then [.capture c.seqCtr (c.prf.val ps2)] else [])
    fetchQ := c.fetchQ.popHead
    seqCtr := c.seqCtr + 1
    rob := c.rob.alloc.set idx e
    rmap := if dest then Function.update c.rmap I.rd pdst else c.rmap
    freeList := if dest then c.freeList.popHead else c.freeList
    prf := prf
    lsq := if isMemOp I then dispatchLsq c.lsq e idx ps2 prf else c.lsq
    iq := c.iq.enqueue q (!usesRs1 I.op || ready ps1)
      (!usesRs2 I.op || isStore I.op || ready ps2) }

/-- Dispatch one instruction; `first` says it is the first of the cycle. False stops the stage. A
system instruction waits for an empty ROB and an empty store buffer, and is the last of its cycle.
-/
def dispatchOne (c : OoOCore M) (first : Bool) : OoOCore M × Bool :=
  if c.fetchQ.empty then (c, false)
  else
    let f := c.fetchQ.head
    let I := decode f.raw
    let sys := decide (fuKindOf I.op = .NONE)
    if sys && (!first || !c.rob.empty || !c.sb.ring.empty) then (c, false)
    else if c.rob.full then (c, false)
    else if isMemOp I && c.lsq.ring.full then (c, false)
    else if c.iq.full then (c, false)
    else if hasDest I && c.freeList.empty then (c, false)
    else if sys then (c.dispatchSystem f I, false)
    else (c.dispatchOp f I, true)

/-- Up to `n` instructions in program order, until one has to wait. -/
def dispatchLoop : Nat → Bool → OoOCore M → OoOCore M
  | 0, _, c => c
  | n + 1, first, c =>
      match c.dispatchOne first with
      | (c, true) => dispatchLoop n false c
      | (c, false) => c

/-- Dispatch up to `width` instructions. -/
def dispatchStage (c : OoOCore M) : OoOCore M := dispatchLoop c.cfg.width true c

/-! ## Fetch -/

/-- Word `idx` of a fetched block. -/
def blockWord (line : Line) (idx : Nat) : Word := scalarOf 4 fun b => line (idx * 4 + b)

/-- The prediction for the word at `wpc`, with the predictor after it. -/
def predictAt (c : OoOCore M) (wpc : Word) : Predictor × Pred :=
  if c.cfg.usePredictor then c.pred.predict wpc else (c.pred, {})

/-- Word `idx` of the outstanding block, with its prediction. The predictor is asked for every word,
whether or not it is a control transfer. -/
def fetchWord (c : OoOCore M) (line : Line) (idx : Nat) : Fetched :=
  let wpc := c.fBlock + BitVec.ofNat 32 (idx * 4)
  let p := (c.predictAt wpc).2
  { pc := wpc, raw := blockWord line idx, predTaken := p.taken, predTarget := p.target
    predIdx := p.phtIdx, predBefore := p.before }

/-- Enqueue word `idx`, and keep what its prediction did to the predictor. -/
def fetchOne (c : OoOCore M) (line : Line) (idx : Nat) : OoOCore M :=
  { c with
    pred := (c.predictAt (c.fBlock + BitVec.ofNat 32 (idx * 4))).1
    fetchQ := c.fetchQ.push (c.fetchWord line idx) }

/-- Enqueue `n` words of the block from word `idx` on, up to a predicted taken one, which gives the
next fetch address. After the last word that is the next block. -/
def fetchLoop (line : Line) : Nat → Nat → OoOCore M → OoOCore M
  | 0, _, c => { c with pc := c.fBlock + BitVec.ofNat 32 c.cfg.fetchBlockBytes }
  | n + 1, idx, c =>
      let f := c.fetchWord line idx
      let c := c.fetchOne line idx
      if f.predTaken then { c with pc := f.predTarget } else fetchLoop line n (idx + 1) c

/-- Enqueue the block from the word that was asked for on. -/
def processFetch (c : OoOCore M) (r : MemResponse Nat) : OoOCore M :=
  let idx := (c.fFetchPc - c.fBlock).toNat / 4
  fetchLoop r.rline (c.cfg.fetchBlockBytes / 4 - idx) idx c

section Fetch

variable [MemPorts Nat M]

/-- Consume the outstanding block, or drop it if it was squashed in flight. -/
def consume (c : OoOCore M) (r : MemResponse Nat) : OoOCore M :=
  let c := { c with fOutstanding := false }
  let c := if c.fStale then { c with fStale := false } else c.processFetch r
  { c with msys := MemPorts.iPop c.msys }

/-- `consume` when the outstanding block has arrived. The stage tries this twice: before its
request, and after it for a hit in the same cycle. -/
def consumeIfReady (c : OoOCore M) : OoOCore M :=
  match MemPorts.iResponse c.msys with
  | some r => if c.fOutstanding then c.consume r else c
  | none => c

/-- Request the block that holds `pc`, aligned to the block size. -/
def requestBlock (c : OoOCore M) : Except Fatal (OoOCore M) :=
  let fBytes := c.cfg.fetchBlockBytes
  let block := c.pc &&& ~~~(BitVec.ofNat 32 (fBytes - 1))
  match MemPorts.iAccess c.msys { addr := block.toNat, size := fBytes, tag := 0 } with
  | .error err => .error err
  | .ok m =>
      .ok ({ c with msys := m, fOutstanding := true, fBlock := block, fFetchPc := c.pc }
        : OoOCore M).consumeIfReady

/-- One block may be outstanding. No request is made while a redirect is pending, while the queue
lacks room for a whole block, or at a misaligned address; a fetch outside memory is fatal only when
nothing is left in flight, since the path may be wrong. -/
def fetchStage (c : OoOCore M) : Except Fatal (OoOCore M) :=
  let c := c.consumeIfReady
  if c.fOutstanding || c.pendRedirect ||
      decide (c.fetchQ.count + c.cfg.fetchBlockBytes / 4 > c.cfg.fetchQSize) then .ok c
  else if c.pc.toNat % 4 ≠ 0 then .ok c
  else if c.pc.toNat ≥ MemPorts.memSize c.msys then
    if c.rob.empty && c.fetchQ.count == 0 then
      .error (.outOfRange "instruction fetch" c.pc.toNat)
    else .ok c
  else if !MemPorts.iCanAccept c.msys then .ok c
  else c.requestBlock

/-! ## The clock -/

/-- A redirect takes effect at the clock edge, and what is still outstanding belongs to the old
path. -/
def applyRedirect (c : OoOCore M) : OoOCore M :=
  if c.pendRedirect then
    { c with fStale := c.fOutstanding || c.fStale, pc := c.pendTarget, pendRedirect := false }
  else c

/-- The units advance; newly filled output slots wait for a writeback port. The outputs of address
generation do not wait: `aguDrain` takes them all. -/
def tickUnits (c : OoOCore M) : OoOCore M :=
  { c with
    wbReady := c.wbReady ++ ((List.range c.units.length).filter fun i =>
      (c.units[i]?.getD default).tick.2).map .unit
    units := c.units.map fun u => u.tick.1
    agus := c.agus.map fun u => u.tick.1 }

/-- The redirect, the units and then the memory system. -/
def clockEdge (c : OoOCore M) : Except Fatal (OoOCore M) :=
  let c := c.applyRedirect.tickUnits
  match MemPorts.tick c.msys with
  | .error err => .error err
  | .ok m => .ok { c with msys := m }

/-- One clock cycle: stages in reverse pipeline order, so that a value moves at most one stage a
cycle, redirect at the clock edge, units and memory ticking last. A halt at commit ends the cycle
there. -/
def stepCycle (c : OoOCore M) : Except Fatal (OoOCore M) :=
  match c.commitStage with
  | .error err => .error err
  | .ok c =>
    if c.halted then .ok c
    else
      match c.writebackStage.aguDrain.lsqOperate with
      | .error err => .error err
      | .ok c =>
        match c.issueStage.dispatchStage.fetchStage with
        | .error err => .error err
        | .ok c => c.clockEdge

/-- `n` cycles of `run`, which stops at a halt. -/
def run : Nat → OoOCore M → Except Fatal (OoOCore M)
  | 0, c => .ok c
  | n + 1, c =>
      if c.halted then .ok c
      else match c.stepCycle with
        | .error err => .error err
        | .ok c => run n c

end Fetch

end OoOCore

end RvO3
