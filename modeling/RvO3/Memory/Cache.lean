import RvO3.Memory.Dram
import RvO3.Sim.Config

/-!
# The nonblocking cache

`memory/cache.h` and `memory/cache.cpp`: one write-back, write-allocate
set-associative cache with MSHRs, a writeback queue and a response queue. A cache
does not call the level below: `tick` returns the request it would hand to `below`
(at most one a cycle, made when `below` can accept it). The statistics counters are
left out; nothing reads them.

Addresses are naturals below `2 ^ 32`; the shifts and masks are those of the source.
-/

set_option autoImplicit false

namespace RvO3

variable {τ : Type}

/-- The tag a cache puts on its own requests to the level below: `kWbTag` on a
writeback, else the index of the MSHR that the refill is for. -/
inductive LineTag where
  | wb
  | refill (mshrIdx : Nat)
  deriving DecidableEq, Repr

/-- `std::countr_zero` on 32 bits. -/
def countrZero (x : Nat) : Nat := ((List.range 32).find? fun i => x.testBit i).getD 32

/-- `invalidTag`, `UINT32_MAX`. -/
def invalidTag : Nat := 2 ^ 32 - 1

/-- A request that waits for a refill, with the tick at which it came. -/
structure Waiting (τ : Type) where
  req : MemRequest τ
  issueTick : Nat

/-- A miss status holding register: the line it fetches, whether its refill has been sent, and the
requests that wait for it, in order of arrival. -/
structure Mshr (τ : Type) where
  valid : Bool := false
  lineAddr : Nat := 0
  refillSent : Bool := false
  waiting : List (Waiting τ) := []

instance : Inhabited (Mshr τ) := ⟨{}⟩

/-- A dirty line on its way down. -/
structure WbEntry where
  addr : Nat
  line : Line

/-- A refill that came back while the writeback queue was full. -/
structure PendingInstall where
  mshrIdx : Nat
  line : Line

/-- One level: its geometry, the arrays with one entry for each line, the misses, the writeback
queue, the refills that wait for room, and the two places in which a response waits, the pipe of the
hits and the response queue. -/
structure Cache (τ : Type) where
  cfg : CacheConfig
  sets : Nat
  lineShift : Nat
  tagShift : Nat
  srcId : Src
  data : Nat → Line := fun _ _ => 0
  tags : Nat → Nat := fun _ => invalidTag
  dirty : Nat → Bool := fun _ => false
  lru : Nat → Nat := fun _ => 0
  lruTick : Nat := 0
  mshrs : List (Mshr τ)
  pendingMisses : Nat := 0
  wbq : List WbEntry := []
  pendingInstalls : List PendingInstall := []
  hitPipe : List (Txn τ) := []
  respQ : List (MemResponse τ) := []
  tickCount : Nat := 0

namespace Cache

/-- The constructor. A hit latency of 0 means 1, and the product of line and ways is a 32-bit value.
-/
def init (cfg : CacheConfig) (srcId : Src) : Cache τ :=
  let sets := cfg.sizeBytes / ((cfg.lineBytes * cfg.ways) % 2 ^ 32)
  let lineShift := countrZero cfg.lineBytes
  { cfg := { cfg with hitLatency := if cfg.hitLatency = 0 then 1 else cfg.hitLatency }
    sets := sets
    lineShift := lineShift
    tagShift := lineShift + countrZero sets
    srcId := srcId
    mshrs := List.replicate cfg.mshrs {} }

/-! ## Address geometry -/

/-- The set of an address. -/
def setOf (c : Cache τ) (addr : Nat) : Nat := (addr >>> c.lineShift) &&& (c.sets - 1)

/-- The tag of an address: what is above the set. -/
def tagOf (c : Cache τ) (addr : Nat) : Nat := addr >>> c.tagShift

/-- The offset of an address in its line. -/
def offsetOf (c : Cache τ) (addr : Nat) : Nat := addr &&& (c.cfg.lineBytes - 1)

/-- The address of the line that holds `addr`. -/
def lineBase (c : Cache τ) (addr : Nat) : Nat := addr - c.offsetOf addr

/-- The index of a way in the per-line arrays. -/
def lineIdx (c : Cache τ) (set way : Nat) : Nat := set * c.cfg.ways + way

/-- The address of the line in a way, put together from tag and set. -/
def lineAddrOf (c : Cache τ) (set way : Nat) : Nat :=
  ((c.tags (c.lineIdx set way) <<< c.tagShift) ||| (set <<< c.lineShift)) % 2 ^ 32

/-! ## Lookups -/

/-- Is there room for a miss, and for the dirty line that it may push out? -/
def canAccept (c : Cache τ) : Bool :=
  c.pendingMisses < c.mshrs.length && c.wbq.length < c.cfg.wbq

/-- The way that holds a tag, if one does. -/
def findWay (c : Cache τ) (set tag : Nat) : Option Nat :=
  (List.range c.cfg.ways).find? fun w => c.tags (c.lineIdx set w) == tag

/-- The least recently used way; among equals the first. A stamp of `2 ^ 64 - 1` or more would count
as no way at all, and way 0 is then the answer. -/
def oldestWay (c : Cache τ) (set : Nat) : Nat :=
  ((List.range c.cfg.ways).foldl
    (fun (victim, oldest) w =>
      if c.lru (c.lineIdx set w) < oldest then (w, c.lru (c.lineIdx set w)) else (victim, oldest))
    (0, 2 ^ 64 - 1)).1

/-- A free way first, else the least recently used. -/
def victimWay (c : Cache τ) (set : Nat) : Nat :=
  match (List.range c.cfg.ways).find? fun w => c.tags (c.lineIdx set w) == invalidTag with
  | some w => w
  | none => c.oldestWay set

/-- The first free MSHR. -/
def freeMshr (c : Cache τ) : Option Nat := c.mshrs.findIdx? fun m => !m.valid

/-- The MSHR that fetches a line, if one does. -/
def mshrFor (c : Cache τ) (lineAddr : Nat) : Option Nat :=
  c.mshrs.findIdx? fun m => m.valid && m.lineAddr == lineAddr

/-! ## Serving a request from the arrays -/

/-- Stamp a way as just used. -/
def touchLRU (c : Cache τ) (set way : Nat) : Cache τ :=
  { c with
    lruTick := c.lruTick + 1
    lru := Function.update c.lru (c.lineIdx set way) (c.lruTick + 1) }

/-- A line after a write request: a full-line payload, else the scalar's bytes at its
offset. -/
def writeOnLine (c : Cache τ) (req : MemRequest τ) (line : Line) : Line :=
  if req.size = c.cfg.lineBytes then
    fun b => if b < c.cfg.lineBytes then req.wline b else line b
  else
    let off := c.offsetOf req.addr
    fun b => if off ≤ b ∧ b < off + req.size then wordByte req.wdata (b - off) else line b

/-- The response to a request served from `line`. A write is acknowledged with no data, and a read
of more than a word is answered with a payload. -/
def respond (c : Cache τ) (req : MemRequest τ) (line : Line) : MemResponse τ :=
  let r : MemResponse τ := { src := req.src, tag := req.tag }
  let off := c.offsetOf req.addr
  if req.isWrite then r
  else if req.size > 4 then
    { r with rline := fun b => if b < req.size then line (off + b) else 0 }
  else { r with rdata := scalarOf req.size fun b => line (off + b) }

/-- Reads capture their data now; writes take effect now. -/
def performOnLine (c : Cache τ) (req : MemRequest τ) (set way : Nat) :
    Cache τ × MemResponse τ :=
  let i := c.lineIdx set way
  let r := c.respond req (c.data i)
  let c := if req.isWrite then
      { c with
        data := Function.update c.data i (c.writeOnLine req (c.data i))
        dirty := Function.update c.dirty i true }
    else c
  (c.touchLRU set way, r)

/-- `reserveHit`, with the response that is put in the reserved slot. With a latency of one it can
be taken at once. -/
def reserveHit (c : Cache τ) (r : MemResponse τ) : Cache τ :=
  if c.cfg.hitLatency = 1 then { c with respQ := c.respQ ++ [r] }
  else { c with hitPipe := c.hitPipe ++ [⟨r, c.tickCount + c.cfg.hitLatency - 1⟩] }

/-! ## Installing a line -/

/-- The value `installLine` returns: false when the victim is dirty and the writeback
queue has no room for it. -/
def installOk (c : Cache τ) (lineAddr : Nat) : Bool :=
  let i := c.lineIdx (c.setOf lineAddr) (c.victimWay (c.setOf lineAddr))
  !(c.tags i != invalidTag && c.dirty i && decide (c.wbq.length ≥ c.cfg.wbq))

/-- Put a line into the way picked for `lineAddr`, evicting a dirty occupant to the writeback queue;
nothing changes when that queue has no room for it. A clean occupant is dropped. -/
def installLine (c : Cache τ) (lineAddr : Nat) (src : Line) (isDirty : Bool) : Cache τ :=
  let set := c.setOf lineAddr
  let way := c.victimWay set
  let i := c.lineIdx set way
  if c.installOk lineAddr then
    { c with
      wbq := if c.tags i ≠ invalidTag ∧ c.dirty i then
          c.wbq ++ [⟨c.lineAddrOf set way, c.data i⟩] else c.wbq
      data := Function.update c.data i src
      tags := Function.update c.tags i (c.tagOf lineAddr)
      dirty := Function.update c.dirty i isDirty }
  else c

/-! ## Accepting a request -/

/-- Serve a request from a line in the arrays. -/
def serveHit (c : Cache τ) (req : MemRequest τ) (set way : Nat) : Cache τ :=
  (c.performOnLine req set way).1.reserveHit (c.performOnLine req set way).2

/-- Pull a line straight back from the writeback queue and serve the request. The line comes back
dirty, and its old entry is erased after the install may have pushed another. -/
def restore (c : Cache τ) (req : MemRequest τ) (lineAddr i : Nat) : Cache τ :=
  let set := c.setOf lineAddr
  let way := c.victimWay set
  let line := match c.wbq[i]? with
    | some e => e.line
    | none => fun _ => 0
  let c := c.installLine lineAddr line true
  { c with wbq := c.wbq.eraseIdx i }.serveHit req set way

/-- Join the waiting list of the MSHR that already fetches this line. No second refill is sent. -/
def merge (c : Cache τ) (req : MemRequest τ) (i : Nat) : Cache τ :=
  { c with
    mshrs := c.mshrs.modify i fun m => { m with waiting := m.waiting ++ [⟨req, c.tickCount⟩] } }

/-- A full-line write that misses: install it with no refill and acknowledge it. Nothing of the old
line is needed. -/
def installWrite (c : Cache τ) (req : MemRequest τ) (lineAddr : Nat) : Cache τ :=
  let set := c.setOf lineAddr
  let way := c.victimWay set
  ((c.installLine lineAddr req.wline true).touchLRU set way).reserveHit
    { src := req.src, tag := req.tag }

/-- Open an MSHR for a line with `req` as its first waiting request. -/
def allocMshr (c : Cache τ) (req : MemRequest τ) (lineAddr i : Nat) : Cache τ :=
  { c with
    pendingMisses := c.pendingMisses + 1
    mshrs := c.mshrs.set i
      { valid := true, lineAddr := lineAddr, refillSent := false
        waiting := [⟨req, c.tickCount⟩] } }

/-- Start a transaction: a hit, a line in the writeback queue, a line that is being fetched, a
full-line write, or a new miss, in this order. The source indexes `mshrs` with `freeMshr()`
unchecked; the model drops the request when there is none. -/
def access (c : Cache τ) (req : MemRequest τ) : Cache τ :=
  let lineAddr := c.lineBase req.addr
  match c.findWay (c.setOf req.addr) (c.tagOf req.addr) with
  | some way => c.serveHit req (c.setOf req.addr) way
  | none =>
    match c.wbq.findIdx? fun e => e.addr == lineAddr with
    | some i => c.restore req lineAddr i
    | none =>
      match c.mshrFor lineAddr with
      | some i => c.merge req i
      | none =>
        if req.isWrite ∧ req.size = c.cfg.lineBytes then c.installWrite req lineAddr
        else match c.freeMshr with
          | some i => c.allocMshr req lineAddr i
          | none => c

/-! ## Refills -/

/-- Re-apply one waiting request to the line just installed. -/
def replayOne (set way : Nat) (c : Cache τ) (w : Waiting τ) : Cache τ :=
  let (c, r) := c.performOnLine w.req set way
  { c with respQ := c.respQ ++ [r] }

/-- Install a refill and re-apply every request that waited for it, in arrival order, which frees
the MSHR; `none` when the victim could not be evicted yet. -/
def tryInstall (c : Cache τ) (mshrIdx : Nat) (line : Line) : Option (Cache τ) :=
  let m := c.mshrs[mshrIdx]?.getD {}
  let set := c.setOf m.lineAddr
  let way := c.victimWay set
  if c.installOk m.lineAddr then
    let c := m.waiting.foldl (replayOne set way) (c.installLine m.lineAddr line false)
    some { c with
      mshrs := c.mshrs.set mshrIdx {}
      pendingMisses := c.pendingMisses - 1 }
  else none

/-- An answer from below. An acknowledged writeback needs nothing more, and a refill is installed,
or waits for room in the writeback queue. -/
def deliverBelowResponse (c : Cache τ) (r : MemResponse LineTag) : Cache τ :=
  match r.tag with
  | .wb => c
  | .refill i =>
      match c.tryInstall i r.rline with
      | some c' => c'
      | none => { c with pendingInstalls := c.pendingInstalls ++ [⟨i, r.rline⟩] }

/-! ## The clock edge -/

/-- Hits whose latency is over move to the response queue. -/
def drainHits (c : Cache τ) : Cache τ :=
  { c with
    respQ := c.respQ ++ (c.hitPipe.takeWhile fun t => t.readyAt ≤ c.tickCount).map (·.resp)
    hitPipe := c.hitPipe.dropWhile fun t => t.readyAt ≤ c.tickCount }

/-- Installs that were waiting for writeback-queue room, front first; `n` bounds the
loop by the number of them. -/
def retryInstalls : Nat → Cache τ → Cache τ
  | 0, c => c
  | n + 1, c =>
      match c.pendingInstalls with
      | [] => c
      | p :: ps =>
          match c.tryInstall p.mshrIdx p.line with
          | some c' => retryInstalls n { c' with pendingInstalls := ps }
          | none => c

/-- The first valid MSHR whose refill has not been sent. -/
def unsentMshr (c : Cache τ) : Option Nat :=
  c.mshrs.findIdx? fun m => m.valid && !m.refillSent

/-- Send the oldest writeback. -/
def sendWriteback (c : Cache τ) (e : WbEntry) (rest : List WbEntry) :
    Cache τ × Option (MemRequest LineTag) :=
  ({ c with wbq := rest },
    some { addr := e.addr, size := c.cfg.lineBytes, isWrite := true, wline := e.line,
           src := c.srcId, tag := .wb })

/-- Send the refill of MSHR `i`. -/
def sendRefill (c : Cache τ) (i : Nat) : Cache τ × Option (MemRequest LineTag) :=
  ({ c with mshrs := c.mshrs.modify i fun m => { m with refillSent := true } },
    some { addr := (c.mshrs[i]?.getD {}).lineAddr, size := c.cfg.lineBytes, src := c.srcId,
           tag := .refill i })

/-- One transaction to the level below: refills first, unless the writeback queue is full or there
is no refill to send. A full queue goes first because it stops the cache from accepting. -/
def issueBelow (c : Cache τ) (belowCanAccept : Bool) :
    Cache τ × Option (MemRequest LineTag) :=
  if (c.pendingMisses ≠ 0 ∨ c.wbq ≠ []) ∧ belowCanAccept then
    let wbFirst := decide (c.wbq.length ≥ c.cfg.wbq)
    match c.wbq, c.unsentMshr with
    | e :: rest, none => c.sendWriteback e rest
    | e :: rest, some i => if wbFirst then c.sendWriteback e rest else c.sendRefill i
    | [], some i => c.sendRefill i
    | [], none => (c, none)
  else (c, none)

/-- One cycle: hits whose time has come are answered, installs that waited are tried again, and at
most one request goes down. -/
def tick (c : Cache τ) (belowCanAccept : Bool) : Cache τ × Option (MemRequest LineTag) :=
  let c := { c with tickCount := c.tickCount + 1 }.drainHits
  (retryInstalls c.pendingInstalls.length c).issueBelow belowCanAccept

/-- The oldest response is taken. -/
def popResponse (c : Cache τ) : Cache τ := { c with respQ := c.respQ.tail }

/-! ## The functional read -/

/-- The byte a waiting write holds for `addr`, if it covers it. -/
def waitingByte (addr : Nat) (w : Waiting τ) : Option Byte :=
  let r := w.req
  if !r.isWrite || addr < r.addr || addr ≥ r.addr + r.size then none
  else some (if r.size > 4 then r.wline (addr - r.addr) else wordByte r.wdata (addr - r.addr))

/-- The newest copy of a byte this cache owns: in the arrays, the writeback queue, or a
write waiting in an MSHR, scanned from the newest. -/
def peek8 (c : Cache τ) (addr : Nat) : Option Byte :=
  match c.findWay (c.setOf addr) (c.tagOf addr) with
  | some way => some (c.data (c.lineIdx (c.setOf addr) way) (c.offsetOf addr))
  | none =>
    match c.wbq.find? fun e => decide (addr ≥ e.addr) && decide (addr < e.addr + c.cfg.lineBytes) with
    | some e => some (e.line (addr - e.addr))
    | none => c.mshrs.findSome? fun m =>
        if m.valid then m.waiting.reverse.findSome? (waitingByte addr) else none

end Cache

end RvO3
