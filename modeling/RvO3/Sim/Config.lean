import Mathlib.Algebra.Group.Nat.Defs
import Mathlib.Data.Nat.Basic
import Mathlib.Tactic.Common

/-!
# Simulation configuration

`sim/config.h` and `validateConfig` of `sim/config.cpp`. Knob fields are `uint32_t`
(`memBytes` and `maxCycles` are 64-bit), modelled as naturals; the one sum that can
wrap, `32 + robSize`, is taken modulo `2 ^ 32` as in the source. Knobs that only
choose what is printed (`trace`, `dumpRegs`, `diffCheck`) and the cycle budget of
`run` are left out: no modelled function reads them.
-/

set_option autoImplicit false

namespace RvO3

/-- Line-sized payloads are capped at this size (`kMaxLineBytes`). -/
def kMaxLineBytes : Nat := 128

/-- The parameters of one cache level. -/
structure CacheConfig where
  sizeBytes : Nat
  ways : Nat
  lineBytes : Nat
  hitLatency : Nat
  mshrs : Nat
  wbq : Nat
  deriving DecidableEq, Repr

/-- How aggressively loads move around older stores. -/
inductive MemOrder where
  | Conservative | Bypass | Speculative
  deriving DecidableEq, Repr

/-- The parameters of the machine (`SimConfig` of `sim/config.h`), with the defaults of the source.
The fields that only the driver reads are in `Settings`. -/
structure SimConfig where
  memBytes : Nat := 1 <<< 20
  flatMemory : Bool := false
  flatLatency : Nat := 1
  dramLatency : Nat := 30
  l1i : CacheConfig := ⟨32 * 1024, 8, 64, 1, 2, 2⟩
  l1d : CacheConfig := ⟨32 * 1024, 8, 64, 1, 4, 4⟩
  l2 : CacheConfig := ⟨256 * 1024, 8, 64, 4, 4, 4⟩
  aluCount : Nat := 2
  aguCount : Nat := 1
  dataPorts : Nat := 1
  mulLatency : Nat := 3
  mulPipelined : Bool := true
  divLatency : Nat := 12
  wbPorts : Nat := 2
  width : Nat := 2
  robSize : Nat := 32
  iqSize : Nat := 16
  lsqSize : Nat := 16
  sbSize : Nat := 8
  physRegs : Nat := 0
  fetchQSize : Nat := 8
  fetchBytes : Nat := 0
  usePredictor : Bool := true
  memOrder : MemOrder := .Speculative
  depPredictor : Bool := false
  depTableSize : Nat := 64
  phtBits : Nat := 10
  ghrBits : Nat := 0
  btbEntries : Nat := 64
  btbWays : Nat := 1
  rasEntries : Nat := 8
  rasRepair : Bool := false
  tageTables : Nat := 0
  tageTableBits : Nat := 10
  tageTagBits : Nat := 11
  tageMinHist : Nat := 4
  tageMaxHist : Nat := 128
  deriving DecidableEq, Repr

/-- Cache fetches use aligned power-of-two blocks. -/
def SimConfig.fetchBlockBytes (c : SimConfig) : Nat :=
  if c.fetchBytes ≠ 0 then c.fetchBytes
  else if c.width ≤ 2 then 8 else if c.width ≤ 4 then 16 else 32

/-- `std::has_single_bit`. -/
def hasSingleBit (x : Nat) : Bool := x != 0 && x &&& (x - 1) == 0

/-- How `validateConfig` can fail to return: its own fatal error, or the undefined
division `sizeBytes / lineBytes` that precedes the check of the line size. -/
inductive ConfigError where
  | fatal (what : String)
  | divisionByZero
  deriving DecidableEq, Repr

/-- A check with its message. -/
def require (ok : Bool) (what : String) : Except ConfigError Unit :=
  if ok then .ok () else .error (.fatal what)

/-- A C++ integer division. -/
def divide (a b : Nat) : Except ConfigError Nat :=
  if b = 0 then .error .divisionByZero else .ok (a / b)

/-- The number of lines of a cache. -/
def cacheLines (cache : CacheConfig) : Except ConfigError Nat :=
  if cache.ways ≠ 0 then divide cache.sizeBytes cache.lineBytes else .ok 0

/-- The body of the loop over `l1i`, `l1d` and `l2`. -/
def validateCache (cache : CacheConfig) : Except ConfigError Unit := do
  let lines ← cacheLines cache
  require (hasSingleBit cache.lineBytes && cache.lineBytes ≤ kMaxLineBytes)
    "cache lines must be a power of two up to 128 bytes"
  require (cache.ways ≥ 1 && lines % cache.ways == 0 && hasSingleBit (lines / cache.ways))
    "cache size / (line size x ways) must be a power-of-two set count"
  require (cache.mshrs ≥ 1 && cache.wbq ≥ 1)
    "caches need at least 1 MSHR and 1 writeback-queue entry"

/-- The checks of the three caches together. -/
def validateHierarchy (c : SimConfig) (fetchBytes : Nat) : Except ConfigError Unit := do
  validateCache c.l1i
  validateCache c.l1d
  validateCache c.l2
  require (c.l1i.lineBytes == c.l1d.lineBytes && c.l1d.lineBytes == c.l2.lineBytes)
    "all cache levels must share one line size"
  require (c.l1i.lineBytes % fetchBytes == 0) "the fetch block must divide the line size"

/-- The checks made in cache mode only. -/
def validateCaches (c : SimConfig) (fetchBytes : Nat) : Except ConfigError Unit :=
  if c.flatMemory then .ok () else validateHierarchy c fetchBytes

/-- The TAGE checks, made when there are tagged tables. -/
def validateTage (c : SimConfig) : Except ConfigError Unit := do
  require (c.tageTableBits ≥ 4 && c.tageTableBits ≤ 16) "tageTableBits must be 4..16"
  require (c.tageTagBits ≥ 4 && c.tageTagBits ≤ 16) "tageTagBits must be 4..16"
  require (c.tageMinHist ≥ 1 && c.tageMinHist ≤ c.tageMaxHist && c.tageMaxHist ≤ 1024)
    "TAGE history lengths must satisfy 1 <= min <= max <= 1024"

/-- The predictor checks. -/
def validatePredictor (c : SimConfig) : Except ConfigError Unit := do
  require (c.phtBits ≥ 1 && c.phtBits ≤ 24) "phtBits must be 1..24"
  require (c.ghrBits ≤ 30) "ghrBits must be 0..30"
  require (c.btbEntries ≥ 1 && c.rasEntries ≥ 1 && c.depTableSize ≥ 1)
    "predictor structures need at least 1 entry"
  require (c.btbWays ≥ 1 && c.btbEntries % c.btbWays == 0)
    "btbEntries must be a multiple of btbWays"
  require (c.tageTables ≤ 12) "tageTables must be 0..12"
  if c.tageTables ≠ 0 then validateTage c else .ok ()

/-- The checks of the core's own shape, on a configuration whose `physRegs` is set. -/
def validateCore (c : SimConfig) : Except ConfigError Unit := do
  require (c.physRegs ≥ 33) "physRegs must be at least 33 (32 arch + 1)"
  require (c.physRegs ≤ 255) "physRegs must fit 8-bit ids (max 255)"
  require (c.width ≥ 1 && c.width ≤ 8) "width must be in 1..8"
  let fetchBytes := c.fetchBlockBytes
  require (fetchBytes ≥ 8 && fetchBytes ≤ 64 && fetchBytes &&& (fetchBytes - 1) == 0)
    "fetchBytes must be 0 (automatic), 8, 16, 32, or 64"
  require (c.fetchQSize ≥ fetchBytes / 4) "fetchQSize must hold at least one fetch block"
  require (c.robSize ≥ 1 && c.iqSize ≥ 1 && c.lsqSize ≥ 1 && c.sbSize ≥ 1)
    "robSize/iqSize/lsqSize/sbSize must be at least 1"
  require (c.aluCount ≥ 1 && c.aluCount ≤ 8) "aluCount must be in 1..8"
  require (c.wbPorts ≥ 1) "need at least 1 writeback port"
  require (c.aguCount ≥ 1 && c.aguCount ≤ 8) "aguCount must be in 1..8"
  require (c.dataPorts ≥ 1 && c.dataPorts ≤ 8) "dataPorts must be in 1..8"
  require (c.mulLatency ≥ 1 && c.divLatency ≥ 1) "unit latencies are >= 1"

/-- `physRegs = 0` asks for one register per architectural register and ROB entry;
the 32-bit sum may wrap. -/
def derivePhysRegs (c : SimConfig) : SimConfig :=
  if c.physRegs = 0 then { c with physRegs := (32 + c.robSize) % 2 ^ 32 } else c

/-- Derived defaults and bounds checks, in the source's order. -/
def validateConfig (c₀ : SimConfig) : Except ConfigError SimConfig := do
  let c := derivePhysRegs c₀
  validateCore c
  validateCaches c c.fetchBlockBytes
  validatePredictor c
  require (c.memBytes ≥ 64 * 1024) "memBytes must be at least 64 KiB"
  return c

/-! ## What an accepted configuration satisfies -/

theorem require_eq_ok {b : Bool} {what : String} {u : Unit} (h : require b what = .ok u) :
    b = true := by
  unfold require at h
  split at h
  · assumption
  · cases h

/-- A successful bind of two computations runs both. -/
theorem except_bind_ok {ε α β : Type} {x : Except ε α} {f : α → Except ε β} {b : β}
    (h : (x >>= f) = .ok b) : ∃ a, x = .ok a ∧ f a = .ok b := by
  cases x with
  | error e => cases h
  | ok a => exact ⟨a, rfl, h⟩

/-- The facts about a cache that passed its checks. -/
structure CacheConfig.Accepted (c : CacheConfig) : Prop where
  lineBytes_pow : hasSingleBit c.lineBytes = true
  lineBytes_le : c.lineBytes ≤ kMaxLineBytes
  ways_pos : 1 ≤ c.ways
  lines_dvd : c.sizeBytes / c.lineBytes % c.ways = 0
  sets_pow : hasSingleBit (c.sizeBytes / c.lineBytes / c.ways) = true
  mshrs_pos : 1 ≤ c.mshrs
  wbq_pos : 1 ≤ c.wbq

theorem validateCache_ok {c : CacheConfig} {u : Unit} (h : validateCache c = .ok u) :
    c.Accepted := by
  unfold validateCache at h
  obtain ⟨lines, h0, h⟩ := except_bind_ok h
  obtain ⟨_, h1, h⟩ := except_bind_ok h
  obtain ⟨_, h2, h⟩ := except_bind_ok h
  have h3 := require_eq_ok h
  have h1 := require_eq_ok h1
  have h2 := require_eq_ok h2
  simp only [Bool.and_eq_true, decide_eq_true_eq, beq_iff_eq, ge_iff_le] at h1 h2 h3
  obtain ⟨⟨hw, hl⟩, hs⟩ := h2
  have hlines : lines = c.sizeBytes / c.lineBytes := by
    unfold cacheLines at h0
    rw [if_pos (by omega)] at h0
    unfold divide at h0
    split at h0
    · cases h0
    · simpa using h0.symm
  rw [hlines] at hl hs
  exact ⟨h1.1, h1.2, hw, hl, hs, h3.1, h3.2⟩

/-- What the rest of the model relies on in an accepted configuration. -/
structure SimConfig.Accepted (c : SimConfig) : Prop where
  physRegs_ge : 33 ≤ c.physRegs
  physRegs_le : c.physRegs ≤ 255
  width_pos : 1 ≤ c.width
  width_le : c.width ≤ 8
  fetch_ge : 8 ≤ c.fetchBlockBytes
  fetch_le : c.fetchBlockBytes ≤ 64
  fetch_pow : c.fetchBlockBytes &&& (c.fetchBlockBytes - 1) = 0
  fetchQ_ge : c.fetchBlockBytes / 4 ≤ c.fetchQSize
  rob_pos : 1 ≤ c.robSize
  iq_pos : 1 ≤ c.iqSize
  lsq_pos : 1 ≤ c.lsqSize
  sb_pos : 1 ≤ c.sbSize
  alu_pos : 1 ≤ c.aluCount
  wb_pos : 1 ≤ c.wbPorts
  agu_pos : 1 ≤ c.aguCount
  ports_pos : 1 ≤ c.dataPorts
  mul_pos : 1 ≤ c.mulLatency
  div_pos : 1 ≤ c.divLatency
  dep_pos : 1 ≤ c.depTableSize
  btb_pos : 1 ≤ c.btbEntries
  btbWays_pos : 1 ≤ c.btbWays
  btbWays_dvd : c.btbEntries % c.btbWays = 0
  ras_pos : 1 ≤ c.rasEntries
  mem_ge : 64 * 1024 ≤ c.memBytes
  caches : c.flatMemory = false → c.l1i.Accepted ∧ c.l1d.Accepted ∧ c.l2.Accepted ∧
    c.l1i.lineBytes = c.l1d.lineBytes ∧ c.l1d.lineBytes = c.l2.lineBytes ∧
    c.l1i.lineBytes % c.fetchBlockBytes = 0

theorem validateHierarchy_ok {c : SimConfig} {n : Nat} {u : Unit}
    (h : validateHierarchy c n = .ok u) :
    c.l1i.Accepted ∧ c.l1d.Accepted ∧ c.l2.Accepted ∧
      c.l1i.lineBytes = c.l1d.lineBytes ∧ c.l1d.lineBytes = c.l2.lineBytes ∧
      c.l1i.lineBytes % n = 0 := by
  unfold validateHierarchy at h
  obtain ⟨_, h1, h⟩ := except_bind_ok h
  obtain ⟨_, h2, h⟩ := except_bind_ok h
  obtain ⟨_, h3, h⟩ := except_bind_ok h
  obtain ⟨_, h4, h⟩ := except_bind_ok h
  have h4 := require_eq_ok h4
  have h5 := require_eq_ok h
  simp only [Bool.and_eq_true, beq_iff_eq] at h4 h5
  exact ⟨validateCache_ok h1, validateCache_ok h2, validateCache_ok h3, h4.1, h4.2, h5⟩

theorem validateConfig_ok {c₀ c : SimConfig} (h : validateConfig c₀ = .ok c) : c.Accepted := by
  unfold validateConfig at h
  obtain ⟨_, hcore, h⟩ := except_bind_ok h
  obtain ⟨_, hcaches, h⟩ := except_bind_ok h
  obtain ⟨_, hpred, h⟩ := except_bind_ok h
  obtain ⟨_, hmem, h⟩ := except_bind_ok h
  have hmem := require_eq_ok hmem
  have hc : derivePhysRegs c₀ = c := by
    simpa [pure, Except.pure] using h
  rw [hc] at hcore hcaches hpred hmem
  -- each check is followed by the next: peel them off in the order of the code
  unfold validateCore at hcore
  obtain ⟨_, a1, hcore⟩ := except_bind_ok hcore
  obtain ⟨_, a2, hcore⟩ := except_bind_ok hcore
  obtain ⟨_, a3, hcore⟩ := except_bind_ok hcore
  obtain ⟨_, a4, hcore⟩ := except_bind_ok hcore
  obtain ⟨_, a5, hcore⟩ := except_bind_ok hcore
  obtain ⟨_, a6, hcore⟩ := except_bind_ok hcore
  obtain ⟨_, a7, hcore⟩ := except_bind_ok hcore
  obtain ⟨_, a8, hcore⟩ := except_bind_ok hcore
  obtain ⟨_, a9, hcore⟩ := except_bind_ok hcore
  obtain ⟨_, a10, hcore⟩ := except_bind_ok hcore
  have a11 := require_eq_ok hcore
  have a1 := require_eq_ok a1
  have a2 := require_eq_ok a2
  have a3 := require_eq_ok a3
  have a4 := require_eq_ok a4
  have a5 := require_eq_ok a5
  have a6 := require_eq_ok a6
  have a7 := require_eq_ok a7
  have a8 := require_eq_ok a8
  have a9 := require_eq_ok a9
  have a10 := require_eq_ok a10
  unfold validatePredictor at hpred
  obtain ⟨_, _, hpred⟩ := except_bind_ok hpred
  obtain ⟨_, _, hpred⟩ := except_bind_ok hpred
  obtain ⟨_, b3, hpred⟩ := except_bind_ok hpred
  obtain ⟨_, b4, hpred⟩ := except_bind_ok hpred
  have b3 := require_eq_ok b3
  have b4 := require_eq_ok b4
  simp only [Bool.and_eq_true, decide_eq_true_eq, beq_iff_eq, ge_iff_le] at *
  exact {
    physRegs_ge := a1
    physRegs_le := a2
    width_pos := a3.1
    width_le := a3.2
    fetch_ge := a4.1.1
    fetch_le := a4.1.2
    fetch_pow := a4.2
    fetchQ_ge := a5
    rob_pos := a6.1.1.1
    iq_pos := a6.1.1.2
    lsq_pos := a6.1.2
    sb_pos := a6.2
    alu_pos := a7.1
    wb_pos := a8
    agu_pos := a9.1
    ports_pos := a10.1
    mul_pos := a11.1
    div_pos := a11.2
    dep_pos := b3.2
    btb_pos := b3.1.1
    btbWays_pos := b4.1
    btbWays_dvd := b4.2
    ras_pos := b3.1.2
    mem_ge := hmem
    caches := fun hf => validateHierarchy_ok (by
      simpa only [validateCaches, hf, Bool.false_eq_true, if_false] using hcaches) }

/-- The default machine, with the 64 physical registers that its ROB asks for. -/
def defaultConfig : SimConfig := { ({} : SimConfig) with physRegs := 64 }

theorem validateConfig_default : validateConfig {} = .ok defaultConfig := by decide

theorem defaultConfig_accepted : defaultConfig.Accepted := validateConfig_ok validateConfig_default

end RvO3
