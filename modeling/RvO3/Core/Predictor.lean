import RvO3.Isa.Instr
import RvO3.Sim.Config
import Mathlib.Logic.Function.Basic

/-!
# The branch predictor

`core/predictor.h` and `core/predictor.cpp`: a direction predictor (gshare or TAGE), a
branch target buffer and a return-address stack. Arrays are functions of their index.
The geometric history lengths come from floating-point `pow` and `lround`; they are a
parameter of the initial state.
-/

set_option autoImplicit false

namespace RvO3

/-- The kind of a control transfer, as the BTB records it. -/
inductive PredKind where
  | COND | UNCOND | CALL | RET
  deriving DecidableEq, Repr

/-- A branch-target entry: the address and target of a control transfer that was taken, its kind,
and when it was last used. -/
structure BtbEntry where
  valid : Bool := false
  kind : PredKind := .COND
  pc : Word := 0
  target : Word := 0
  lastUse : Nat := 0
  deriving DecidableEq, Repr

/-- An entry of a tagged table: a signed counter for the direction, a usefulness count and a tag. -/
structure TageEntry where
  ctr : Int := 0
  u : Nat := 0
  tag : Nat := 0
  deriving DecidableEq, Repr

/-- Speculative state before one prediction, for rewinding after a flush. -/
structure Checkpoint where
  hist : Nat := 0
  rasN : Nat := 0
  rasTop : Word := 0
  deriving DecidableEq, Repr

/-- What fetch learns of an address. `phtIdx` and `before` travel with the instruction, to train and
to rewind later. -/
structure Pred where
  taken : Bool := false
  target : Word := 0
  phtIdx : Nat := 0
  before : Checkpoint := {}
  deriving DecidableEq, Repr

/-- The result of one TAGE lookup; `provider` and `alt` are table numbers, `none` the base table.
`idx` and `tag` are the index and tag computed for each table, which training needs again. -/
structure Lookup where
  provider : Option Nat
  alt : Option Nat
  providerPred : Bool
  altPred : Bool
  pred : Bool
  weak : Bool
  idx : Nat → Nat
  tag : Nat → Nat

/-- The state of `Predictor` in `core/predictor.h`: the base table and the global history, the BTB,
the return-address stack and the TAGE tables with their history ring. The arrays are functions; that
each index stays inside its array is proved in `Core.PredictorBounds`. -/
structure Predictor where
  rasRepair : Bool
  phtSize : Nat
  pht : Nat → Nat := fun _ => 1
  ghr : Nat := 0
  ghrMask : Nat
  btb : Nat → BtbEntry := fun _ => {}
  btbWays : Nat
  btbSets : Nat
  btbClock : Nat := 0
  ras : Nat → Word := fun _ => 0
  rasSize : Nat
  rasN : Nat := 0
  nTables : Nat
  tableBits : Nat
  tagBits : Nat
  histLen : Nat → Nat
  tables : Nat → Nat → TageEntry := fun _ _ => {}
  histBits : Nat → Nat := fun _ => 0
  folded : Nat → Nat := fun _ => 0
  histPos : Nat := 0
  ringMask : Nat := 0
  useAltOnWeak : Int := 0
  updates : Nat := 0
  lfsr : Word := 0xace1#32

/-- `jal`/`jalr` with rd = ra is a call, `jalr x0, 0(ra)` is a return. Any other instruction that is
not a branch is an unconditional transfer, which is asked only of control transfers. -/
def kindOf (ins : Instr) : PredKind :=
  if isBranch ins.op then .COND
  else if ins.rd = 1 then .CALL
  else if ins.op = .JALR ∧ ins.rd = 0 ∧ ins.rs1 = 1 then .RET
  else .UNCOND

namespace Predictor

/-- The ring-sizing loop: double from 64 until the bound is reached. The bound is a
32-bit sum and the doubled size a 32-bit value; `fuel` is the number of doublings that
can change it. -/
def ringSize (bound : Nat) : Nat → Nat → Nat
  | 0, ring => ring
  | fuel + 1, ring => if ring < bound then ringSize bound fuel ((ring <<< 1) % 2 ^ 32) else ring

/-- The constructor. Without TAGE tables there is no history ring, and its mask is zero. -/
def init (cfg : SimConfig) (histLen : Nat → Nat) : Predictor :=
  let bound := (cfg.tageMaxHist + 2 * (cfg.robSize + cfg.fetchQSize) + 64) % 2 ^ 32
  { rasRepair := cfg.rasRepair
    phtSize := 1 <<< cfg.phtBits
    ghrMask := if cfg.ghrBits ≠ 0 then (1 <<< cfg.ghrBits) - 1 else 0
    btbWays := cfg.btbWays
    btbSets := cfg.btbEntries / cfg.btbWays
    rasSize := cfg.rasEntries
    nTables := cfg.tageTables
    tableBits := cfg.tageTableBits
    tagBits := cfg.tageTagBits
    histLen := histLen
    ringMask := if cfg.tageTables = 0 then 0 else ringSize bound 32 64 - 1 }

/-! ## Lookups -/

/-- The index of the base table. With TAGE tables it is the address alone, without them the global
history is hashed in. -/
def phtIndex (p : Predictor) (pc : Word) : Nat :=
  ((pc >>> 2).toNat ^^^ (if p.nTables ≠ 0 then 0 else p.ghr)) &&& (p.phtSize - 1)

/-- The index of way 0 of the BTB set of `pc`. -/
def btbBase (p : Predictor) (pc : Word) : Nat := (pc >>> 2).toNat % p.btbSets * p.btbWays

/-- The index of the BTB entry of `pc`, if it has one. -/
def btbLookup (p : Predictor) (pc : Word) : Option Nat :=
  ((List.range p.btbWays).map (p.btbBase pc + ·)).find? fun i =>
    (p.btb i).valid && (p.btb i).pc == pc

/-- Stamp a BTB entry as just used. The clock counts every touch and every update. -/
def btbTouch (p : Predictor) (i : Nat) : Predictor :=
  { p with
    btbClock := p.btbClock + 1
    btb := Function.update p.btb i { p.btb i with lastUse := p.btbClock + 1 } }

/-- A `width`-bit compression of the newest `len` history bits, updated as one bit enters and one
leaves, so that no lookup walks the history. The result is a 16-bit value. -/
def fold (comp inBit outBit len width : Nat) : Nat :=
  let c := (comp <<< 1) ^^^ inBit
  let c := c ^^^ (outBit <<< (len % width))
  let c := c ^^^ (c >>> width)
  (c &&& ((1 <<< width) - 1)) % 2 ^ 16

/-- The position of the folds of ring position `pos`. Each position of the ring has three folds for
each table, kept until the ring comes round, so a flush only moves the position back. -/
def foldsAt (p : Predictor) (pos : Nat) : Nat := (pos &&& p.ringMask) * p.nTables * 3

/-- The stored folds after pushing one bit: table `i`'s three folds sit at `3 * i`. They are those
of the old position with one bit in and the bit that leaves the table's window out. -/
def pushFolds (p : Predictor) (bit : Nat) (histBits : Nat → Nat) (pos : Nat) : Nat → Nat :=
  let old := p.foldsAt p.histPos
  let now := p.foldsAt pos
  (List.range p.nTables).foldl (fun folded i =>
    let len := p.histLen i
    let out := histBits ((pos + 2 ^ 32 - len) % 2 ^ 32 &&& p.ringMask)
    let folded := Function.update folded (now + 3 * i)
      (fold (folded (old + 3 * i)) bit out len p.tableBits)
    let folded := Function.update folded (now + 3 * i + 1)
      (fold (folded (old + 3 * i + 1)) bit out len p.tagBits)
    Function.update folded (now + 3 * i + 2)
      (fold (folded (old + 3 * i + 2)) bit out len (p.tagBits - 1))) p.folded

/-- Push an outcome: into the global history, or with TAGE tables into the history ring with its
folds. -/
def pushHistory (p : Predictor) (taken : Bool) : Predictor :=
  let bit := if taken then 1 else 0
  if p.nTables = 0 then { p with ghr := ((p.ghr <<< 1) ||| bit) &&& p.ghrMask }
  else
    let pos := (p.histPos + 1) % 2 ^ 32
    let histBits := Function.update p.histBits (pos &&& p.ringMask) bit
    { p with
      histPos := pos
      histBits := histBits
      folded := p.pushFolds bit histBits pos }

/-- Look up every table with the history at `pos`. The longest history that hits provides the
prediction and the next one is the alternative; a weak new entry may give way to the alternative. -/
def tageLookup (p : Predictor) (pc : Word) (pos : Nat) : Lookup :=
  let f := p.foldsAt pos
  let pcw := (pc >>> 2).toNat
  let idxMask := (1 <<< p.tableBits) - 1
  let tagMask := (1 <<< p.tagBits) - 1
  let idx := fun i =>
    (pcw ^^^ (pcw >>> (p.tableBits - i % p.tableBits)) ^^^ p.folded (f + 3 * i)) &&& idxMask
  let tag := fun i =>
    (pcw ^^^ p.folded (f + 3 * i + 1) ^^^ (p.folded (f + 3 * i + 2) <<< 1)) &&& tagMask
  let hits := (List.range p.nTables).reverse.filter fun i => (p.tables i (idx i)).tag == tag i
  let provider := hits[0]?
  let alt := hits[1]?
  let base := decide (p.pht (pcw &&& (p.phtSize - 1)) ≥ 2)
  let altPred := match alt with
    | some i => decide ((p.tables i (idx i)).ctr ≥ 0)
    | none => base
  match provider with
  | none =>
      { provider := none, alt := alt, providerPred := base, altPred := altPred, pred := base
        weak := false, idx := idx, tag := tag }
  | some i =>
      let c := (p.tables i (idx i)).ctr
      let providerPred := decide (c ≥ 0)
      let weak := decide (c = 0) || decide (c = -1)
      { provider := some i, alt := alt, providerPred := providerPred, altPred := altPred
        pred := if weak && decide (p.useAltOnWeak ≥ 0) then altPred else providerPred
        weak := weak, idx := idx, tag := tag }

/-! ## Prediction -/

/-- Push a return address: `ras[rasN % ras.size()] = addr; rasN++`. A full stack loses its oldest
entry, and the depth goes on counting. -/
def rasPush (p : Predictor) (addr : Word) : Predictor :=
  { p with
    ras := Function.update p.ras (p.rasN % p.rasSize) addr
    rasN := (p.rasN + 1) % 2 ^ 32 }

/-- The checkpoint of the current speculative state: the history, the depth of the stack, and its
top entry, which is the one that a wrong path overwrites first. -/
def checkpoint (p : Predictor) : Checkpoint :=
  { hist := if p.nTables ≠ 0 then p.histPos else p.ghr
    rasN := p.rasN
    rasTop := if p.rasN ≠ 0 then p.ras ((p.rasN - 1) % p.rasSize) else 0 }

/-- Fetch-time lookup for the instruction at `pc`; the speculative RAS and history updates happen
here. An address that the BTB does not know is predicted not taken and changes nothing. -/
def predict (p : Predictor) (pc : Word) : Predictor × Pred :=
  let base : Pred := { phtIdx := p.phtIndex pc, before := p.checkpoint }
  match p.btbLookup pc with
  | none => (p, base)
  | some i =>
      let b := p.btb i
      let p := p.btbTouch i
      match b.kind with
      | .COND =>
          let taken := if p.nTables ≠ 0 then (p.tageLookup pc p.histPos).pred
            else decide (p.pht base.phtIdx ≥ 2)
          (p.pushHistory taken, { base with taken := taken, target := b.target })
      | .CALL => (p.rasPush (pc + 4), { base with taken := true, target := b.target })
      | .RET =>
          if p.rasN > 0 then
            let n := p.rasN - 1
            ({ p with rasN := n }, { base with taken := true, target := p.ras (n % p.rasSize) })
          else (p, { base with taken := true, target := b.target })
      | .UNCOND => (p, { base with taken := true, target := b.target })

/-- Flush: rewind speculative state to a checkpoint. The stack is repaired only when so configured,
and then in its depth and top entry. -/
def restore (p : Predictor) (cp : Checkpoint) : Predictor :=
  let p := if p.nTables ≠ 0 then { p with histPos := cp.hist } else { p with ghr := cp.hist }
  if p.rasRepair then
    { p with
      rasN := cp.rasN
      ras := if cp.rasN ≠ 0 then Function.update p.ras ((cp.rasN - 1) % p.rasSize) cp.rasTop
        else p.ras }
  else p

/-- After `restore`: apply a resolved instruction's own speculative effect with its real outcome.
The instruction was rewound with the rest. -/
def replay (p : Predictor) (pc : Word) (ins : Instr) (taken : Bool) : Predictor :=
  match kindOf ins with
  | .COND => p.pushHistory taken
  | .CALL => if p.rasRepair then p.rasPush (pc + 4) else p
  | .RET => if p.rasRepair ∧ p.rasN > 0 then { p with rasN := p.rasN - 1 } else p
  | .UNCOND => p

/-! ## Training -/

/-- Move a saturating counter one step toward up/down within `[lo, hi]`. -/
def nudge (c : Int) (up : Bool) (lo hi : Int) : Int :=
  if up then (if c < hi then c + 1 else c) else if c > lo then c - 1 else c

/-- `nudge` on the 2-bit counters. -/
def nudge2 (c : Nat) (up : Bool) : Nat :=
  if up then (if c < 3 then c + 1 else c) else if c > 0 then c - 1 else c

/-- Overwrite an entry of a table. -/
def setTage (p : Predictor) (t i : Nat) (e : TageEntry) : Predictor :=
  { p with tables := Function.update p.tables t (Function.update (p.tables t) i e) }

/-- The counters of the provider, or of the base table. Where provider and alternative differ, the
provider's usefulness learns who was right; a weak provider without an alternative trains the base
table too. -/
def tageTrain (p : Predictor) (l : Lookup) (pc : Word) (taken : Bool) : Predictor :=
  let b := (pc >>> 2).toNat &&& (p.phtSize - 1)
  match l.provider with
  | none => { p with pht := Function.update p.pht b (nudge2 (p.pht b) taken) }
  | some t =>
      let i := l.idx t
      let e := p.tables t i
      let differ := l.providerPred != l.altPred
      let p := { p with
        useAltOnWeak := if l.weak && differ then nudge p.useAltOnWeak (l.altPred == taken) (-8) 7
          else p.useAltOnWeak }
      let e := { e with
        u := if differ then nudge2 e.u (l.providerPred == taken) else e.u
        ctr := nudge e.ctr taken (-4) 3 }
      let p := p.setTage t i e
      if l.alt = none ∧ l.weak then
        { p with pht := Function.update p.pht b (nudge2 (p.pht b) taken) }
      else p

/-- A misprediction earns an entry in a longer-history table: the first or, by chance, the second
one with a useless entry in the place. With none, all of these entries become less useful. -/
def tageAllocate (p : Predictor) (l : Lookup) (taken : Bool) : Predictor :=
  let start := match l.provider with
    | some t => t + 1
    | none => 0
  let p := { p with lfsr := (p.lfsr >>> 1) ^^^ ((-(p.lfsr &&& 1#32)) &&& 0xb400#32) }
  let longer := (List.range (p.nTables - start)).map (start + ·)
  let free := longer.filter fun j => (p.tables j (l.idx j)).u == 0
  match free[0]? with
  | none =>
      longer.foldl (fun p j =>
        let e := p.tables j (l.idx j)
        if e.u > 0 then p.setTage j (l.idx j) { e with u := e.u - 1 } else p) p
  | some first =>
      let j := match free[1]? with
        | some second => if p.lfsr &&& 3#32 = 0#32 then second else first
        | none => first
      p.setTage j (l.idx j) { tag := l.tag j % 2 ^ 16, ctr := if taken then 0 else -1, u := 0 }

/-- Age usefulness so stale entries eventually become replaceable: every `2 ^ 18` updates all counts
are halved. -/
def tageAge (p : Predictor) : Predictor :=
  let updates := (p.updates + 1) % 2 ^ 32
  let p := { p with updates := updates }
  if updates &&& ((1 <<< 18) - 1) = 0 then
    { p with tables := fun t i => { p.tables t i with u := (p.tables t i).u >>> 1 } }
  else p

/-- Training of the tagged tables, with the history at the time of the prediction. -/
def tageUpdate (p : Predictor) (pc : Word) (taken : Bool) (pos : Nat) : Predictor :=
  let l := p.tageLookup pc pos
  let p := p.tageTrain l pc taken
  let longest := match l.provider with
    | some t => decide (t < p.nTables - 1)
    | none => true
  let p := if l.pred != taken && longest then p.tageAllocate l taken else p
  p.tageAge

/-- The way a new BTB entry for `pc` replaces: the first free one, else the least
recently used. -/
def btbVictim (p : Predictor) (pc : Word) : Nat :=
  let ways := (List.range p.btbWays).map (p.btbBase pc + ·)
  match ways.find? fun i => !(p.btb i).valid with
  | some i => i
  | none => ways.foldl (fun b i => if (p.btb i).lastUse < (p.btb b).lastUse then i else b)
      (p.btbBase pc)

/-- Allocate or refresh the BTB entry of a taken control transfer. An entry that exists is touched
first, so the clock moves twice. -/
def btbUpdate (p : Predictor) (pc target : Word) (k : PredKind) : Predictor :=
  let found := p.btbLookup pc
  let p := match found with
    | some i => p.btbTouch i
    | none => p
  let i := match found with
    | some i => i
    | none => p.btbVictim pc
  { p with
    btbClock := p.btbClock + 1
    btb := Function.update p.btb i
      { valid := true, pc := pc, target := target, kind := k, lastUse := p.btbClock + 1 } }

/-- Commit-time training with the resolved outcome. Directions train for branches, and only
transfers that were taken enter the BTB. -/
def update (p : Predictor) (pc : Word) (ins : Instr) (taken : Bool) (target : Word)
    (phtIdx : Nat) (before : Checkpoint) : Predictor :=
  let k := kindOf ins
  let p := if k = .COND then
      if p.nTables ≠ 0 then p.tageUpdate pc taken before.hist
      else { p with pht := Function.update p.pht phtIdx (nudge2 (p.pht phtIdx) taken) }
    else p
  if taken then p.btbUpdate pc target k else p

end Predictor

end RvO3
