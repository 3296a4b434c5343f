import RvO3.Memory.Request

/-!
# Fixed-latency main memory

`memory/dram.h` and `memory/dram.cpp`. A request is performed on the backing store
when it is accepted; the latency only delays the response. The backing store is
shared (flat mode attaches two of these to it), so it is passed in and returned.
-/

set_option autoImplicit false

namespace RvO3

variable {τ : Type}

/-- A response that becomes visible at `readyAt`. -/
structure Txn (τ : Type) where
  resp : MemResponse τ
  readyAt : Nat

/-- A port to main memory: its latency and clock, whether it has accepted a request in this cycle,
and the responses that are on their way or ready. -/
structure DRAM (τ : Type) where
  latency : Nat
  tickCount : Nat := 0
  acceptedThisCycle : Bool := false
  inflight : List (Txn τ) := []
  respQ : List (MemResponse τ) := []

namespace DRAM

/-- The constructor: latency 0 means 1. -/
def init (latency : Nat) : DRAM τ := { latency := if latency ≠ 0 then latency else 1 }

/-- One request is accepted in a cycle. -/
def canAccept (d : DRAM τ) : Bool := !d.acceptedThisCycle

/-- The read payload of a multi-byte request. -/
def readLine (bytes : Nat → Byte) (addr size : Nat) : Line :=
  fun b => if b < size then bytes (addr + b) else 0

/-- `memcpy` of a line payload into the store. -/
def writeLine (bytes : Nat → Byte) (addr size : Nat) (line : Line) : Nat → Byte :=
  fun x => if addr ≤ x ∧ x < addr + size then line (x - addr) else bytes x

/-- Perform the access on the backing store now. A scalar goes through `load` and `store`; a longer
access is checked as a whole and copied. An access outside memory is fatal. -/
def perform (backing : Memory) (req : MemRequest τ) : Except Fatal (Memory × MemResponse τ) :=
  let r : MemResponse τ := { src := req.src, tag := req.tag }
  if req.size ≤ 4 then
    if req.isWrite then
      match backing.store req.addr req.size req.wdata with
      | .ok m => .ok (m, r)
      | .error e => .error e
    else
      match backing.load req.addr req.size with
      | .ok v => .ok (backing, { r with rdata := v })
      | .error e => .error e
  else
    match backing.check req.addr req.size (if req.isWrite then "store" else "load") with
    | .error e => .error e
    | .ok _ =>
        if req.isWrite then
          .ok ({ backing with bytes := writeLine backing.bytes req.addr req.size req.wline }, r)
        else .ok (backing, { r with rline := readLine backing.bytes req.addr req.size })

/-- Accept a request: it takes effect now, and only its response is delayed. With a latency of one
there is no delay. -/
def access (d : DRAM τ) (backing : Memory) (req : MemRequest τ) :
    Except Fatal (DRAM τ × Memory) :=
  match perform backing req with
  | .error e => .error e
  | .ok (m, r) =>
      let d := { d with acceptedThisCycle := true }
      if d.latency = 1 then .ok ({ d with respQ := d.respQ ++ [r] }, m)
      else .ok ({ d with inflight := d.inflight ++ [⟨r, d.tickCount + d.latency - 1⟩] }, m)

/-- The oldest response is taken. -/
def popResponse (d : DRAM τ) : DRAM τ := { d with respQ := d.respQ.tail }

/-- Fixed latency preserves arrival order; only the front can finish next. -/
def tick (d : DRAM τ) : DRAM τ :=
  let now := d.tickCount + 1
  { d with
    tickCount := now
    acceptedThisCycle := false
    respQ := d.respQ ++ (d.inflight.takeWhile fun t => t.readyAt ≤ now).map (·.resp)
    inflight := d.inflight.dropWhile fun t => t.readyAt ≤ now }

/-- Everything accepted and not yet popped, oldest answer first. -/
def held (d : DRAM τ) : List (MemResponse τ) := d.respQ ++ d.inflight.map (·.resp)

@[simp] theorem held_tick (d : DRAM τ) : d.tick.held = d.held := by
  simp only [held, tick, List.append_assoc, ← List.map_append, List.takeWhile_append_dropWhile]

end DRAM

end RvO3
