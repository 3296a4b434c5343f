import RvO3.Core.FoldedHistory
import RvO3.Lib.Bounded

/-!
# The predictor on its arrays

`core/predictor.cpp` with every index checked against the size its vector was constructed with,
every shift amount against 32 and every divisor against zero. The functions follow the source
statement by statement, its loops included, and answer `none` at the first access outside an
array.
-/

set_option autoImplicit false

namespace RvO3

/-- The sizes of the predictor's vectors; `tables` counts tables of `entries` entries. -/
structure ArraySizes where
  pht : Nat
  btb : Nat
  ras : Nat
  tables : Nat
  entries : Nat
  histBits : Nat
  folded : Nat

namespace Predictor

open Bounded

/-- What the constructor allocates. Without TAGE it returns before the last three. -/
def arraySizes (cfg : SimConfig) : ArraySizes :=
  let ring := if cfg.tageTables = 0 then 0 else ringSize (ringBound cfg % 2 ^ 32) 32 64
  { pht := 1 <<< cfg.phtBits
    btb := cfg.btbEntries
    ras := cfg.rasEntries
    tables := cfg.tageTables
    entries := 1 <<< cfg.tageTableBits
    histBits := ring
    folded := ring * cfg.tageTables * 3 }

/-- The constructor: its shifts, its division, and the loop that must have reached its bound. -/
def construct (cfg : SimConfig) (histLen : Nat → Nat) : Option Predictor := do
  let _ ← shl 1 cfg.phtBits
  let _ ← shl 1 cfg.ghrBits
  let _ ← div cfg.btbEntries cfg.btbWays
  if cfg.tageTables = 0 then return init cfg histLen
  else do
    let _ ← shl 1 cfg.tageTableBits
    let bound := ringBound cfg % 2 ^ 32
    if bound ≤ ringSize bound 32 64 then return init cfg histLen else none

namespace Arrays

variable (z : ArraySizes) (p : Predictor)

/-! ## Lookups -/

/-- Also stamps the entry it finds. -/
def btbFind (pc : Word) : Option (Predictor × Option Nat) := do
  let set ← mod (pc >>> 2).toNat p.btbSets
  let base := set * p.btbWays
  let _ ← get z.btb p.btb base
  let found ← ((List.range p.btbWays).map (base + ·)).findM? fun i => do
    let e ← get z.btb p.btb i
    return e.valid && e.pc == pc
  match found with
  | none => return (p, none)
  | some i => do
      let e ← get z.btb p.btb i
      let btb ← Bounded.set z.btb p.btb i { e with lastUse := p.btbClock + 1 }
      return ({ p with btbClock := p.btbClock + 1, btb := btb }, some i)

/-- `fold`, with its shifts checked against the width of the operand. -/
def fold (comp inBit outBit len width : Nat) : Option Nat := do
  let c := (comp <<< 1) ^^^ inBit
  let m ← mod len width
  let out ← shl outBit m
  let c := c ^^^ out
  let top ← shr c width
  let c := c ^^^ top
  let one ← shl 1 width
  return (c &&& (one - 1)) % 2 ^ 16

/-- One of the three folds of a table: `now[k] = fold(old[k], ...)`. -/
def foldEntry (bit out len width old now : Nat) (folded : Nat → Nat) : Option (Nat → Nat) := do
  let comp ← get z.folded folded old
  let c ← fold comp bit out len width
  Bounded.set z.folded folded now c

/-- The body of the loop over the tables. -/
def foldTable (bit : Nat) (histBits : Nat → Nat) (pos old now : Nat) (folded : Nat → Nat) (i : Nat) :
    Option (Nat → Nat) := do
  let len ← get z.tables p.histLen i
  let out ← get z.histBits histBits ((pos + 2 ^ 32 - len) % 2 ^ 32 &&& p.ringMask)
  let folded ← foldEntry z bit out len p.tableBits (old + 3 * i) (now + 3 * i) folded
  let folded ← foldEntry z bit out len p.tagBits (old + 3 * i + 1) (now + 3 * i + 1) folded
  foldEntry z bit out len (p.tagBits - 1) (old + 3 * i + 2) (now + 3 * i + 2) folded

/-- `pushHistory`, with every index into the ring and the folds checked. -/
def pushHistory (taken : Bool) : Option Predictor := do
  let bit := if taken then 1 else 0
  if p.nTables = 0 then return { p with ghr := ((p.ghr <<< 1) ||| bit) &&& p.ghrMask }
  else do
    let old := p.foldsAt p.histPos
    let _ ← get z.folded p.folded old
    let pos := (p.histPos + 1) % 2 ^ 32
    let histBits ← Bounded.set z.histBits p.histBits (pos &&& p.ringMask) bit
    let now := p.foldsAt pos
    let _ ← get z.folded p.folded now
    let folded ← (List.range p.nTables).foldlM (foldTable z p bit histBits pos old now) p.folded
    return { p with histPos := pos, histBits := histBits, folded := folded }

/-- `tables[t][i]`. -/
def entry (t i : Nat) : Option TageEntry := do
  let table ← get z.tables p.tables t
  get z.entries table i

/-- Overwrite an entry of a table, inside both. -/
def setEntry (t i : Nat) (e : TageEntry) : Option Predictor := do
  let table ← get z.tables p.tables t
  let table ← Bounded.set z.entries table i e
  let tables ← Bounded.set z.tables p.tables t table
  return { p with tables := tables }

/-- `idx[i]` and `tag[i]` of one lookup. -/
def slot (pc : Word) (pos i : Nat) : Option (Nat × Nat) := do
  let f := p.foldsAt pos
  let pcw := (pc >>> 2).toNat
  let idxMask ← shl 1 p.tableBits
  let tagMask ← shl 1 p.tagBits
  let m ← mod i p.tableBits
  let hashed ← shr pcw (p.tableBits - m)
  let f0 ← get z.folded p.folded (f + 3 * i)
  let f1 ← get z.folded p.folded (f + 3 * i + 1)
  let f2 ← get z.folded p.folded (f + 3 * i + 2)
  return ((pcw ^^^ hashed ^^^ f0) &&& (idxMask - 1), (pcw ^^^ f1 ^^^ (f2 <<< 1)) &&& (tagMask - 1))

/-- The prediction of a table, or of the base table. -/
def tablePred (idx : Nat → Nat) (base : Bool) : Option Nat → Option Bool
  | some i => do
      let e ← entry z p i (idx i)
      return decide (e.ctr ≥ 0)
  | none => some base

/-- The lookup, once `idx` and `tag` are filled. -/
def search (pc : Word) (idx tag : Nat → Nat) : Option Lookup := do
  let (provider, alt) ← firstTwo (fun i => do
    let e ← entry z p i (idx i)
    return e.tag == tag i) (List.range p.nTables).reverse
  let c ← get z.pht p.pht ((pc >>> 2).toNat &&& (p.phtSize - 1))
  let base := decide (c ≥ 2)
  let altPred ← tablePred z p idx base alt
  match provider with
  | none =>
      return { provider := none, alt := alt, providerPred := base, altPred := altPred, pred := base
               weak := false, idx := idx, tag := tag }
  | some i => do
      let e ← entry z p i (idx i)
      let providerPred := decide (e.ctr ≥ 0)
      let weak := decide (e.ctr = 0) || decide (e.ctr = -1)
      return { provider := some i, alt := alt, providerPred := providerPred, altPred := altPred
               pred := if weak && decide (p.useAltOnWeak ≥ 0) then altPred else providerPred
               weak := weak, idx := idx, tag := tag }

/-- `tageLookup`: each table is read at a checked index, and then the search runs over what was
read. -/
def tageLookup (pc : Word) (pos : Nat) : Option Lookup := do
  let _ ← get z.folded p.folded (p.foldsAt pos)
  let slots ← (List.range p.nTables).mapM (slot z p pc pos)
  search z p pc (fun i => (slots.getD i (0, 0)).1) (fun i => (slots.getD i (0, 0)).2)

/-! ## Prediction -/

/-- `rasPush`, inside the stack. -/
def rasPush (addr : Word) : Option Predictor := do
  let m ← mod p.rasN p.rasSize
  let ras ← Bounded.set z.ras p.ras m addr
  return { p with ras := ras, rasN := (p.rasN + 1) % 2 ^ 32 }

/-- The top of the stack, or zero when it is empty. -/
def rasTop : Option Word :=
  if p.rasN ≠ 0 then do
    let m ← mod (p.rasN - 1) p.rasSize
    get z.ras p.ras m
  else some 0

/-- `checkpoint`, which reads the top of the stack. -/
def checkpoint : Option Checkpoint := do
  let rasTop ← rasTop z p
  return { hist := if p.nTables ≠ 0 then p.histPos else p.ghr, rasN := p.rasN, rasTop := rasTop }

/-- The direction of a conditional branch. -/
def direction (pc : Word) (phtIdx : Nat) : Option Bool :=
  if p.nTables ≠ 0 then do
    let l ← tageLookup z p pc p.histPos
    return l.pred
  else do
    let c ← get z.pht p.pht phtIdx
    return decide (c ≥ 2)

/-- `predict`, with every access to the BTB, the tables and the stack checked. -/
def predict (pc : Word) : Option (Predictor × Pred) := do
  let before ← checkpoint z p
  let base : Pred := { phtIdx := p.phtIndex pc, before := before }
  let (p, found) ← btbFind z p pc
  match found with
  | none => return (p, base)
  | some i => do
      let b ← get z.btb p.btb i
      match b.kind with
      | .COND => do
          let taken ← direction z p pc base.phtIdx
          let p ← pushHistory z p taken
          return (p, { base with taken := taken, target := b.target })
      | .CALL => do
          let p ← rasPush z p (pc + 4)
          return (p, { base with taken := true, target := b.target })
      | .RET =>
          if p.rasN > 0 then do
            let n := p.rasN - 1
            let m ← mod n p.rasSize
            let target ← get z.ras p.ras m
            return ({ p with rasN := n }, { base with taken := true, target := target })
          else return (p, { base with taken := true, target := b.target })
      | .UNCOND => return (p, { base with taken := true, target := b.target })

/-- `restore`: the top entry is written back inside the stack. -/
def restore (cp : Checkpoint) : Option Predictor :=
  let p := if p.nTables ≠ 0 then { p with histPos := cp.hist } else { p with ghr := cp.hist }
  if p.rasRepair then
    if cp.rasN ≠ 0 then do
      let m ← mod (cp.rasN - 1) p.rasSize
      let ras ← Bounded.set z.ras p.ras m cp.rasTop
      return { p with rasN := cp.rasN, ras := ras }
    else some { p with rasN := cp.rasN }
  else some p

/-- `replay`, whose pushes are checked. -/
def replay (pc : Word) (ins : Instr) (taken : Bool) : Option Predictor :=
  match kindOf ins with
  | .COND => pushHistory z p taken
  | .CALL => if p.rasRepair then rasPush z p (pc + 4) else some p
  | .RET => if p.rasRepair ∧ p.rasN > 0 then some { p with rasN := p.rasN - 1 } else some p
  | .UNCOND => some p

/-! ## Training -/

/-- `tageTrain`, with the entries of the base table and of the provider checked. -/
def tageTrain (l : Lookup) (pc : Word) (taken : Bool) : Option Predictor := do
  let b := (pc >>> 2).toNat &&& (p.phtSize - 1)
  let base ← get z.pht p.pht b
  match l.provider with
  | none => do
      let pht ← Bounded.set z.pht p.pht b (nudge2 base taken)
      return { p with pht := pht }
  | some t => do
      let e ← entry z p t (l.idx t)
      let differ := l.providerPred != l.altPred
      let p := { p with
        useAltOnWeak := if l.weak && differ then nudge p.useAltOnWeak (l.altPred == taken) (-8) 7
          else p.useAltOnWeak }
      let e := { e with
        u := if differ then nudge2 e.u (l.providerPred == taken) else e.u
        ctr := nudge e.ctr taken (-4) 3 }
      let p ← setEntry z p t (l.idx t) e
      if l.alt = none ∧ l.weak then do
        let pht ← Bounded.set z.pht p.pht b (nudge2 base taken)
        return { p with pht := pht }
      else return p

/-- The table after the provider. -/
def firstLonger (l : Lookup) : Nat :=
  match l.provider with
  | some t => t + 1
  | none => 0

/-- `tageAllocate`: the candidate entries are read one by one, each inside its table. -/
def tageAllocate (l : Lookup) (taken : Bool) : Option Predictor := do
  let start := firstLonger l
  let p := { p with lfsr := (p.lfsr >>> 1) ^^^ ((-(p.lfsr &&& 1#32)) &&& 0xb400#32) }
  let longer := (List.range (p.nTables - start)).map (start + ·)
  let (first, second) ← firstTwo (fun j => do
    let e ← entry z p j (l.idx j)
    return e.u == 0) longer
  match first with
  | none => longer.foldlM (fun p j => do
      let e ← entry z p j (l.idx j)
      if e.u > 0 then setEntry z p j (l.idx j) { e with u := e.u - 1 } else return p) p
  | some first =>
      let j := match second with
        | some second => if p.lfsr &&& 3#32 = 0#32 then second else first
        | none => first
      setEntry z p j (l.idx j) { tag := l.tag j % 2 ^ 16, ctr := if taken then 0 else -1, u := 0 }

/-- A misprediction that the longest table has not provided. -/
def earns (l : Lookup) (taken : Bool) : Bool :=
  l.pred != taken && match l.provider with
    | some t => decide (t < p.nTables - 1)
    | none => true

/-- The allocation, if the misprediction earns one. -/
def tageMiss (l : Lookup) (taken : Bool) : Option Predictor :=
  if earns p l taken then tageAllocate z p l taken else some p

/-- `tageUpdate`, from the checked lookup on. -/
def tageUpdate (pc : Word) (taken : Bool) (pos : Nat) : Option Predictor := do
  let l ← tageLookup z p pc pos
  let p ← tageTrain z p l pc taken
  let p ← tageMiss z p l taken
  return p.tageAge

/-- The loop over the ways of a set: the first free one, else the least recently used. -/
def victimLoop : List Nat → Nat → Option Nat
  | [], b => some b
  | i :: ways, b => do
      let e ← get z.btb p.btb i
      if !e.valid then return i
      else do
        let eb ← get z.btb p.btb b
        victimLoop ways (if e.lastUse < eb.lastUse then i else b)

/-- The way to fill: the one found, else a victim. -/
def btbWay (pc : Word) : Option Nat → Option Nat
  | some i => some i
  | none => do
      let set ← mod (pc >>> 2).toNat p.btbSets
      let base := set * p.btbWays
      let _ ← get z.btb p.btb base
      victimLoop z p ((List.range p.btbWays).map (base + ·)) base

/-- `btbUpdate`: the way that is replaced is inside the BTB. -/
def btbUpdate (pc target : Word) (k : PredKind) : Option Predictor := do
  let (p, found) ← btbFind z p pc
  let i ← btbWay z p pc found
  let btb ← Bounded.set z.btb p.btb i
    { valid := true, pc := pc, target := target, kind := k, lastUse := p.btbClock + 1 }
  return { p with btbClock := p.btbClock + 1, btb := btb }

/-- The direction predictor learns from conditional branches. -/
def train (pc : Word) (k : PredKind) (taken : Bool) (phtIdx : Nat) (before : Checkpoint) : Option Predictor :=
  if k = .COND then
    if p.nTables ≠ 0 then tageUpdate z p pc taken before.hist
    else do
      let c ← get z.pht p.pht phtIdx
      let pht ← Bounded.set z.pht p.pht phtIdx (nudge2 c taken)
      return { p with pht := pht }
  else some p

/-- `update`, with every access checked. -/
def update (pc : Word) (ins : Instr) (taken : Bool) (target : Word) (phtIdx : Nat) (before : Checkpoint) :
    Option Predictor := do
  let p ← train z p pc (kindOf ins) taken phtIdx before
  if taken then btbUpdate z p pc target (kindOf ins) else return p

end Arrays

end Predictor

end RvO3
