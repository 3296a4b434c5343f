import RvO3.Core.SlotSet
import RvO3.Isa.Instr

/-!
# The load/store queue and the store buffer

`core/lsq.h`. The LSQ is a ring of entries whose slots carry a generation number, with
one set of slots for each question the core asks every cycle. The invariant `LSQ.Wf`
states that each of these work sets is what its comment says: a function of the live
entries.
-/

set_option autoImplicit false

namespace RvO3

/-- One memory operation in flight (`LsqEntry` of `core/lsq.h`). `value` and the flags `issued` and
`reported` are those of a load; `data` and its source register are those of a store. `done` says
that a load has its value. -/
structure LsqEntry where
  seq : Nat := 0
  robIdx : Nat := 0
  pc : Word := 0
  addr : Word := 0
  data : Word := 0
  value : Word := 0
  gen : Nat := 0
  op : Op := .ILLEGAL
  pdst : Nat := 0xFF
  size : Nat := 4
  dataPreg : Nat := 0xFF
  isStore : Bool := false
  addrValid : Bool := false
  dataReady : Bool := true
  done : Bool := false
  issued : Bool := false
  reported : Bool := false
  deriving DecidableEq, Repr

instance : Inhabited LsqEntry := ⟨{}⟩

/-- Do two accesses touch any byte in common? The sums are 32-bit, as in the source, and wrap at the
end of the address space. -/
def overlaps (a : Word) (aSize : Nat) (b : Word) (bSize : Nat) : Bool :=
  b.ult (a + BitVec.ofNat 32 aSize) && a.ult (b + BitVec.ofNat 32 bSize)

/-- The word bucket of an address: the low six bits of its word number. -/
def wordBucket (addr : Word) : Nat := ((addr >>> 2) &&& 63#32).toNat

/-! ## The questions the work sets answer -/

namespace LsqEntry

/-- The address of the last byte accessed. -/
def lastByte (le : LsqEntry) : Word := le.addr + BitVec.ofNat 32 le.size - 1

/-- A load with an address, not yet issued or completed. -/
def isCandidate (le : LsqEntry) : Bool := !le.isStore && le.addrValid && !le.issued && !le.done

/-- A load issued to the cache, awaiting data. -/
def isPending (le : LsqEntry) : Bool := !le.isStore && le.issued && !le.done

/-- A completed load not yet reported to writeback. -/
def isUnreported (le : LsqEntry) : Bool := !le.isStore && le.done && !le.reported

/-- A store still waiting for its data operand. -/
def isWaiting (le : LsqEntry) : Bool := le.isStore && !le.dataReady

/-- An entry that `lsqUpdates` has something to do for. -/
def isUpdate (le : LsqEntry) : Bool := le.isUnreported || le.isWaiting

/-- A store whose address has resolved. -/
def isKnownStore (le : LsqEntry) : Bool := le.isStore && le.addrValid

/-- A store whose address is still to come: what younger loads may pass or have to wait for. -/
def isUnknownStore (le : LsqEntry) : Bool := le.isStore && !le.addrValid

/-- A load that issued or completed: a replay candidate. -/
def isAccessed (le : LsqEntry) : Bool := !le.isStore && (le.issued || le.done)

/-- How many of the two word buckets a resolved store is counted in are `b`. A store that stays
within one word is counted once. -/
def wordsIn (le : LsqEntry) (b : Nat) : Nat :=
  if le.isStore && le.addrValid then
    (if wordBucket le.addr = b then 1 else 0) +
      (if wordBucket le.addr ≠ wordBucket le.lastByte ∧ wordBucket le.lastByte = b then 1 else 0)
  else 0

end LsqEntry

/-- The load/store queue: the ring of entries, a generation counter for each slot, and the work sets
and counts that answer the questions of each cycle without a walk over all entries. Every operation
keeps them in step with the entries (`Wf`). -/
structure LSQ where
  ring : Ring LsqEntry
  /-- Allocations of each slot; a generation is this count modulo `2 ^ 16`. -/
  genCtr : Nat → Nat := fun _ => 0
  candidates : SlotSet := SlotSet.none
  pending : SlotSet := SlotSet.none
  updates : SlotSet := SlotSet.none
  knownStores : SlotSet := SlotSet.none
  unknownStores : SlotSet := SlotSet.none
  accessedLoads : SlotSet := SlotSet.none
  storeWords : Nat → Nat := fun _ => 0
  pendingLoads : Nat := 0
  unreportedLoads : Nat := 0
  waitingStores : Nat := 0

namespace LSQ

/-- An empty queue. All generations start at zero. -/
def init (size : Nat) : LSQ := { ring := Ring.init size }

/-- The entry in a slot, live or not. -/
def at' (q : LSQ) (slot : Nat) : LsqEntry := q.ring.e slot

/-- Overwrite an entry. -/
def setEntry (q : LSQ) (slot : Nat) (le : LsqEntry) : LSQ := { q with ring := q.ring.set slot le }

/-- Count a resolved store in the one or two word buckets it touches. A misaligned store may reach
into the next word. -/
def countWords (words : Nat → Nat) (le : LsqEntry) : Nat → Nat :=
  let words := Function.update words (wordBucket le.addr) (words (wordBucket le.addr) + 1)
  if wordBucket le.addr ≠ wordBucket le.lastByte then
    Function.update words (wordBucket le.lastByte) (words (wordBucket le.lastByte) + 1)
  else words

/-- The reverse of `countWords`, for a store that leaves the queue. -/
def uncountWords (words : Nat → Nat) (le : LsqEntry) : Nat → Nat :=
  let words := Function.update words (wordBucket le.addr) (words (wordBucket le.addr) - 1)
  if wordBucket le.addr ≠ wordBucket le.lastByte then
    Function.update words (wordBucket le.lastByte) (words (wordBucket le.lastByte) - 1)
  else words

/-- Allocate the next slot with a fresh generation. The counter outlives the entry, so the answer to
a load that was squashed finds another generation in the slot. -/
def alloc (q : LSQ) : LSQ :=
  let idx := q.ring.allocIdx
  let genCtr := Function.update q.genCtr idx (q.genCtr idx + 1)
  { q with
    genCtr := genCtr
    ring := q.ring.alloc.set idx { gen := genCtr idx % 2 ^ 16 } }

/-- A load was sent to the data port: it is no longer a candidate, and is pending until its answer
comes. -/
def issueLoad (q : LSQ) (slot : Nat) : LSQ :=
  { q with
    candidates := q.candidates.reset slot
    pending := q.pending.set slot
    accessedLoads := q.accessedLoads.set slot
    ring := q.ring.set slot { q.at' slot with issued := true }
    pendingLoads := q.pendingLoads + 1 }

/-- A load's value arrived: cache reply, forward, or a faulted load's zero. -/
def completeLoad (q : LSQ) (slot : Nat) (value : Word) : LSQ :=
  { q with
    candidates := q.candidates.reset slot
    pending := q.pending.reset slot
    updates := q.updates.set slot
    accessedLoads := q.accessedLoads.set slot
    ring := q.ring.set slot { q.at' slot with value := value, done := true }
    pendingLoads := if (q.at' slot).issued then q.pendingLoads - 1 else q.pendingLoads
    unreportedLoads := q.unreportedLoads + 1 }

/-- A completed load was given to writeback. It stays in the queue until it commits. -/
def reportLoad (q : LSQ) (slot : Nat) : LSQ :=
  { q with
    updates := q.updates.reset slot
    ring := q.ring.set slot { q.at' slot with reported := true }
    unreportedLoads := q.unreportedLoads - 1 }

/-- A store is allocated with the register that its data come from, and with the data if they are
ready. Its address is not known yet. -/
def setStoreSource (q : LSQ) (slot preg : Nat) (ready : Bool) (value : Word) : LSQ :=
  let le := q.at' slot
  { q with
    unknownStores := q.unknownStores.set slot
    updates := if ready then q.updates else q.updates.set slot
    ring := q.ring.set slot
      { le with dataPreg := preg, dataReady := ready, data := if ready then value else le.data }
    waitingStores := if ready then q.waitingStores else q.waitingStores + 1 }

/-- The data register of a waiting store became ready. -/
def captureStoreData (q : LSQ) (slot : Nat) (value : Word) : LSQ :=
  { q with
    updates := q.updates.reset slot
    ring := q.ring.set slot { q.at' slot with data := value, dataReady := true }
    waitingStores := q.waitingStores - 1 }

/-- The address of an entry is known: a store is now known and counted in its word buckets, and a
load is a candidate for the data port. -/
def resolveAddress (q : LSQ) (slot : Nat) : LSQ :=
  let le := q.at' slot
  let q := { q with ring := q.ring.set slot { le with addrValid := true } }
  if le.isStore then
    { q with
      unknownStores := q.unknownStores.reset slot
      knownStores := q.knownStores.set slot
      storeWords := countWords q.storeWords le }
  else { q with candidates := q.candidates.set slot }

/-- Take a retired or squashed entry out of every work set. Membership is not checked: a bit that is
not set stays so, and the counts look at the entry. -/
def remove (q : LSQ) (slot : Nat) : LSQ :=
  let le := q.at' slot
  { q with
    candidates := q.candidates.reset slot
    pending := q.pending.reset slot
    updates := q.updates.reset slot
    knownStores := q.knownStores.reset slot
    unknownStores := q.unknownStores.reset slot
    accessedLoads := q.accessedLoads.reset slot
    storeWords := if le.isStore && le.addrValid then uncountWords q.storeWords le
      else q.storeWords
    pendingLoads := if le.issued && !le.done then q.pendingLoads - 1 else q.pendingLoads
    unreportedLoads := if !le.isStore && le.done && !le.reported then q.unreportedLoads - 1
      else q.unreportedLoads
    waitingStores := if le.isStore && !le.dataReady then q.waitingStores - 1
      else q.waitingStores }

/-- The oldest entry commits. -/
def popHead (q : LSQ) : LSQ :=
  let q := q.remove q.ring.headIdx
  { q with ring := q.ring.popHead }

/-- The youngest entry is squashed. -/
def popTail (q : LSQ) : LSQ :=
  let q := q.remove q.ring.tailIdx
  { q with ring := q.ring.popTail }

/-! ## Visits -/

/-- The entries with a pending update, oldest first. -/
def visitUpdates (q : LSQ) : List Nat := q.updates.visit (q.ring.indexOf 0) q.ring.capacity

/-- The candidate loads, oldest first. -/
def visitCandidates (q : LSQ) : List Nat := q.candidates.visit (q.ring.indexOf 0) q.ring.capacity

/-- The known stores older than the entry in slot `fin`, newest first. -/
def visitOlderStores (q : LSQ) (fin : Nat) : List Nat :=
  q.knownStores.visitOlder (q.ring.indexOf 0) fin q.ring.capacity

/-- The loads that have read, oldest first. -/
def visitAccessedLoads (q : LSQ) : List Nat :=
  q.accessedLoads.visit (q.ring.indexOf 0) q.ring.capacity

/-- May a known store touch the word of this address? A `false` is exact, a `true` need not be:
buckets are shared. -/
def mayStoreToWord (q : LSQ) (addr : Word) : Bool := q.storeWords (wordBucket addr) != 0

/-- `oldestSeq`: the sequence number of the first member, `none` for `UINT64_MAX`. -/
def oldestSeq (q : LSQ) (s : SlotSet) : Option Nat :=
  (s.visit (q.ring.indexOf 0) q.ring.capacity).head?.map fun slot => (q.at' slot).seq

/-- The sequence number of the oldest store without an address. -/
def oldestUnknownStore (q : LSQ) : Option Nat := q.oldestSeq q.unknownStores

/-- The sequence number of the oldest load in flight. -/
def oldestPendingLoad (q : LSQ) : Option Nat := q.oldestSeq q.pending

/-- Is a load in flight? -/
def hasPendingLoads (q : LSQ) : Bool := q.pendingLoads != 0

/-- Is there anything for `lsqUpdates` to do? -/
def needsUpdate (q : LSQ) : Bool := q.unreportedLoads != 0 || q.waitingStores != 0

/-! ## The work sets are functions of the live entries -/

/-- The live entries with property `p`. -/
def liveSet (q : LSQ) (p : LsqEntry → Bool) : SlotSet :=
  fun i => decide (i ∈ q.ring.slots) && p (q.ring.e i)

/-- How many live entries have property `p`. -/
def liveCount (q : LSQ) (p : LsqEntry → Bool) : Nat := (q.ring.slots.filter fun i => p (q.ring.e i)).length

/-- How many resolved stores touch word bucket `b`. -/
def wordCount (q : LSQ) (b : Nat) : Nat := (q.ring.slots.map fun i => (q.ring.e i).wordsIn b).sum

/-- Each work set and each count is what its name says, and no bit is set for a slot that is not
live. -/
structure Wf (q : LSQ) : Prop where
  ring : q.ring.Wf
  candidates : q.candidates = q.liveSet LsqEntry.isCandidate
  pending : q.pending = q.liveSet LsqEntry.isPending
  updates : q.updates = q.liveSet LsqEntry.isUpdate
  knownStores : q.knownStores = q.liveSet LsqEntry.isKnownStore
  unknownStores : q.unknownStores = q.liveSet LsqEntry.isUnknownStore
  accessedLoads : q.accessedLoads = q.liveSet LsqEntry.isAccessed
  storeWords : q.storeWords = q.wordCount
  pendingLoads : q.pendingLoads = q.liveCount LsqEntry.isPending
  unreportedLoads : q.unreportedLoads = q.liveCount LsqEntry.isUnreported
  waitingStores : q.waitingStores = q.liveCount LsqEntry.isWaiting

end LSQ

/-! ## The store buffer -/

/-- A committed store: its access, whether it has been sent and acknowledged, and the transaction
number it was sent under. -/
structure StoreBufEntry where
  addr : Word := 0
  size : Nat := 4
  data : Word := 0
  inflight : Bool := false
  acked : Bool := false
  txn : Nat := 0
  deriving DecidableEq, Repr

instance : Inhabited StoreBufEntry := ⟨{}⟩

/-- Committed stores waiting to be written to the cache: issued in order, popped in order. The first
`issued` of them have been sent. -/
structure StoreBuffer where
  ring : Ring StoreBufEntry
  issued : Nat := 0

namespace StoreBuffer

/-- An empty buffer. -/
def init (size : Nat) : StoreBuffer := { ring := Ring.init size }

/-- A store commits. -/
def push (b : StoreBuffer) (v : StoreBufEntry) : StoreBuffer := { b with ring := b.ring.push v }

/-- The slot of the oldest store that has not been sent, if any. -/
def nextToIssue (b : StoreBuffer) : Option Nat :=
  if b.issued < b.ring.count then some (b.ring.indexOf b.issued) else none

/-- The slot of the oldest store that has not been sent. The source calls this only when there is
one. -/
def nextIssueSlot (b : StoreBuffer) : Nat := b.ring.indexOf b.issued

/-- Overwrite an entry. -/
def setEntry (b : StoreBuffer) (slot : Nat) (v : StoreBufEntry) : StoreBuffer :=
  { b with ring := b.ring.set slot v }

/-- The oldest unsent store has been sent. -/
def issue (b : StoreBuffer) : StoreBuffer :=
  let slot := b.ring.indexOf b.issued
  { ring := b.ring.set slot { b.ring.e slot with inflight := true }, issued := b.issued + 1 }

/-- The oldest store leaves the buffer. It has been sent, so the number of sent ones falls with it.
-/
def popHead (b : StoreBuffer) : StoreBuffer :=
  { ring := b.ring.popHead, issued := b.issued - 1 }

end StoreBuffer

end RvO3
