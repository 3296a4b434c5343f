import RvO3.Memory.Cache

/-!
# The assembled memory system

`memory/system.h` and `memory/system.cpp`: flat mode is two fixed-latency ports to
one backing store; cache mode is L1I and L1D over a unified L2 over DRAM. A run ends
as soon as a level reports a fatal access, so every operation that reaches the backing
store returns in `Except Fatal`.

`MemPorts` is the interface the core sees: its fetch and data ports (`MemPort *imem`,
`*dmem`), the clock, and the functional byte read.
-/

set_option autoImplicit false

namespace RvO3

variable {τ : Type}

/-- Flat mode: `dram` is the data port and `flatI` the fetch port. -/
structure FlatMemory (τ : Type) where
  backing : Memory
  dram : DRAM τ
  flatI : DRAM τ

/-- Cache mode. -/
structure CacheHierarchy (τ : Type) where
  backing : Memory
  dram : DRAM LineTag
  l2 : Cache LineTag
  l1i : Cache τ
  l1d : Cache τ

/-- The memory of a run, in one of its two modes. -/
inductive MemorySystem (τ : Type) where
  | flat (m : FlatMemory τ)
  | cached (m : CacheHierarchy τ)

/-! ## Cache mode -/

namespace CacheHierarchy

/-- The hierarchy out of reset: the image in main memory, and every level empty. -/
def init (cfg : SimConfig) (image : Nat → Byte) : CacheHierarchy τ :=
  { backing := { bytes := image, size := cfg.memBytes }
    dram := DRAM.init cfg.dramLatency
    l2 := Cache.init cfg.l2 .L2
    l1i := Cache.init cfg.l1i .L1I
    l1d := Cache.init cfg.l1d .L1D }

/-- DRAM completions go to the L2. -/
def drainDram (m : CacheHierarchy τ) : CacheHierarchy τ :=
  { m with
    l2 := m.dram.respQ.foldl (fun c r => c.deliverBelowResponse r) m.l2
    dram := { m.dram with respQ := [] } }

/-- Route one L2 completion to the L1 that asked. -/
def routeL2 (m : CacheHierarchy τ) (r : MemResponse LineTag) : CacheHierarchy τ :=
  if r.src = .L1I then { m with l1i := m.l1i.deliverBelowResponse r }
  else { m with l1d := m.l1d.deliverBelowResponse r }

/-- L2 completions go to the L1 named by their `src`. -/
def drainL2 (m : CacheHierarchy τ) : CacheHierarchy τ :=
  m.l2.respQ.foldl routeL2 { m with l2 := { m.l2 with respQ := [] } }

/-- `l2->tick()`, which may hand DRAM one request. -/
def tickL2 (m : CacheHierarchy τ) : Except Fatal (CacheHierarchy τ) :=
  match m.l2.tick m.dram.canAccept with
  | (l2, none) => .ok { m with l2 := l2 }
  | (l2, some req) =>
      match m.dram.access m.backing req with
      | .error e => .error e
      | .ok (dram, backing) => .ok { m with l2 := l2, dram := dram, backing := backing }

/-- Hand the L2 the request of an L1, if it made one. -/
def sendL2 (m : CacheHierarchy τ) (req : Option (MemRequest LineTag)) : CacheHierarchy τ :=
  match req with
  | some r => { m with l2 := m.l2.access r }
  | none => m

/-- `l1i->tick()`, which may hand the L2 one request. -/
def tickL1I (m : CacheHierarchy τ) : CacheHierarchy τ :=
  let (c, req) := m.l1i.tick m.l2.canAccept
  { m with l1i := c }.sendL2 req

/-- `l1d->tick()`, after the L1I: what is left of the room in the L2 is its. -/
def tickL1D (m : CacheHierarchy τ) : CacheHierarchy τ :=
  let (c, req) := m.l1d.tick m.l2.canAccept
  { m with l1d := c }.sendL2 req

/-- Advance the whole hierarchy one cycle, bottom-up, routing each level's completions
before and after the requester's own tick. -/
def tick (m : CacheHierarchy τ) : Except Fatal (CacheHierarchy τ) :=
  match { m with dram := m.dram.tick }.drainDram.tickL2 with
  | .error e => .error e
  | .ok m => .ok m.drainDram.drainL2.tickL1I.tickL1D.drainL2

/-- The newest copy wins: L1D, then L2, then the backing store. -/
def peek8 (m : CacheHierarchy τ) (addr : Nat) : Except Fatal Byte :=
  match m.backing.check addr 1 "load" with
  | .error e => .error e
  | .ok _ =>
      match m.l1d.peek8 addr with
      | some b => .ok b
      | none =>
          match m.l2.peek8 addr with
          | some b => .ok b
          | none => m.backing.load8 addr

end CacheHierarchy

/-! ## Flat mode -/

namespace FlatMemory

/-- Both ports have the same latency. -/
def init (cfg : SimConfig) (image : Nat → Byte) : FlatMemory τ :=
  { backing := { bytes := image, size := cfg.memBytes }
    dram := DRAM.init cfg.flatLatency
    flatI := DRAM.init cfg.flatLatency }

/-- Both ports advance. They share nothing but the store. -/
def tick (m : FlatMemory τ) : FlatMemory τ :=
  { m with dram := m.dram.tick, flatI := m.flatI.tick }

/-- A fetch through its own port. -/
def iAccess (m : FlatMemory τ) (req : MemRequest τ) : Except Fatal (FlatMemory τ) :=
  match m.flatI.access m.backing req with
  | .error e => .error e
  | .ok (d, backing) => .ok { m with flatI := d, backing := backing }

/-- A data access. Its effect on the store is at once visible to fetches. -/
def dAccess (m : FlatMemory τ) (req : MemRequest τ) : Except Fatal (FlatMemory τ) :=
  match m.dram.access m.backing req with
  | .error e => .error e
  | .ok (d, backing) => .ok { m with dram := d, backing := backing }

end FlatMemory

/-! ## The interface of the core -/

/-- The two ports and the clock of a memory system. `dResponse` and `iResponse` are
`hasResponse`/`frontResponse`; `dReady` counts the completions that are ready on the
data port, so that the loop draining them is bounded. -/
class MemPorts (τ : outParam Type) (M : Type) where
  iCanAccept : M → Bool
  iAccess : M → MemRequest τ → Except Fatal M
  iResponse : M → Option (MemResponse τ)
  iPop : M → M
  dCanAccept : M → Bool
  dAccess : M → MemRequest τ → Except Fatal M
  dResponse : M → Option (MemResponse τ)
  dReady : M → Nat
  dPop : M → M
  tick : M → Except Fatal M
  peek8 : M → Nat → Except Fatal Byte
  memSize : M → Nat

namespace MemorySystem

/-- The mode is a setting. -/
def init (cfg : SimConfig) (image : Nat → Byte) : MemorySystem τ :=
  if cfg.flatMemory then .flat (FlatMemory.init cfg image)
  else .cached (CacheHierarchy.init cfg image)

/-- Can the fetch port take a request? -/
def iCanAccept : MemorySystem τ → Bool
  | .flat m => m.flatI.canAccept
  | .cached m => m.l1i.canAccept

/-- Can the data port take a request? -/
def dCanAccept : MemorySystem τ → Bool
  | .flat m => m.dram.canAccept
  | .cached m => m.l1d.canAccept

/-- Start a fetch. In cache mode it cannot fail here: an access outside memory is found when it
reaches DRAM, at a later tick. -/
def iAccess (s : MemorySystem τ) (req : MemRequest τ) : Except Fatal (MemorySystem τ) :=
  match s with
  | .flat m =>
      match m.iAccess req with
      | .error e => .error e
      | .ok m => .ok (.flat m)
  | .cached m => .ok (.cached { m with l1i := m.l1i.access req })

/-- Start a data access. -/
def dAccess (s : MemorySystem τ) (req : MemRequest τ) : Except Fatal (MemorySystem τ) :=
  match s with
  | .flat m =>
      match m.dAccess req with
      | .error e => .error e
      | .ok m => .ok (.flat m)
  | .cached m => .ok (.cached { m with l1d := m.l1d.access req })

/-- The response queue of the fetch port. -/
def iQueue : MemorySystem τ → List (MemResponse τ)
  | .flat m => m.flatI.respQ
  | .cached m => m.l1i.respQ

/-- The response queue of the data port. -/
def dQueue : MemorySystem τ → List (MemResponse τ)
  | .flat m => m.dram.respQ
  | .cached m => m.l1d.respQ

/-- Take the oldest response of the fetch port. -/
def iPop : MemorySystem τ → MemorySystem τ
  | .flat m => .flat { m with flatI := m.flatI.popResponse }
  | .cached m => .cached { m with l1i := m.l1i.popResponse }

/-- Take the oldest response of the data port. -/
def dPop : MemorySystem τ → MemorySystem τ
  | .flat m => .flat { m with dram := m.dram.popResponse }
  | .cached m => .cached { m with l1d := m.l1d.popResponse }

/-- Advance one cycle. -/
def tick : MemorySystem τ → Except Fatal (MemorySystem τ)
  | .flat m => .ok (.flat m.tick)
  | .cached m =>
      match m.tick with
      | .error e => .error e
      | .ok m => .ok (.cached m)

/-- The functional read of one byte, which changes nothing. In flat mode every store has already
taken effect in the backing store. -/
def peek8 (s : MemorySystem τ) (addr : Nat) : Except Fatal Byte :=
  match s with
  | .flat m => m.backing.load8 addr
  | .cached m => m.peek8 addr

/-- The size of main memory. -/
def memSize : MemorySystem τ → Nat
  | .flat m => m.backing.size
  | .cached m => m.backing.size

instance : MemPorts τ (MemorySystem τ) where
  iCanAccept := iCanAccept
  iAccess := iAccess
  iResponse s := s.iQueue.head?
  iPop := iPop
  dCanAccept := dCanAccept
  dAccess := dAccess
  dResponse s := s.dQueue.head?
  dReady s := s.dQueue.length
  dPop := dPop
  tick := tick
  peek8 := peek8
  memSize := memSize

end MemorySystem

end RvO3
