import RvO3.Sim.Config

/-!
# Divisions in `validateConfig`

`checkedConfig` is `validateConfig` with every quotient and remainder by a variable computed by
an operation that fails at zero, in the source's order of evaluation. All of them but one stand
behind a check of their divisor. The exception is `sizeBytes / lineBytes`, which comes before the
line size is looked at.
-/

set_option autoImplicit false

namespace RvO3

/-! ## Checked arithmetic -/

/-- A C++ remainder. -/
def modulo (a b : Nat) : Except ConfigError Nat :=
  if b = 0 then .error .divisionByZero else .ok (a % b)

/-- `a && b`, where `b` is evaluated only if `a` holds. -/
def andAlso (a : Bool) (b : Except ConfigError Bool) : Except ConfigError Bool :=
  if a then b else .ok false

/-- The set-count check of a cache of `lines` lines. -/
def checkedSets (lines ways : Nat) : Except ConfigError Bool :=
  andAlso (ways ≥ 1) do
    let rest ← modulo lines ways
    andAlso (rest == 0) do
      let sets ← divide lines ways
      return hasSingleBit sets

/-- The checks of one cache level, with its divisions where the source makes them. -/
def checkedCache (cache : CacheConfig) : Except ConfigError Unit := do
  let lines ← cacheLines cache
  require (hasSingleBit cache.lineBytes && cache.lineBytes ≤ kMaxLineBytes)
    "cache lines must be a power of two up to 128 bytes"
  let ok ← checkedSets lines cache.ways
  require ok "cache size / (line size x ways) must be a power-of-two set count"
  require (cache.mshrs ≥ 1 && cache.wbq ≥ 1)
    "caches need at least 1 MSHR and 1 writeback-queue entry"

/-- The checks of the three levels, and those that compare them. -/
def checkedHierarchy (c : SimConfig) (fetchBytes : Nat) : Except ConfigError Unit := do
  checkedCache c.l1i
  checkedCache c.l1d
  checkedCache c.l2
  require (c.l1i.lineBytes == c.l1d.lineBytes && c.l1d.lineBytes == c.l2.lineBytes)
    "all cache levels must share one line size"
  let rest ← modulo c.l1i.lineBytes fetchBytes
  require (rest == 0) "the fetch block must divide the line size"

/-- The checks of the caches, which flat mode skips. -/
def checkedCaches (c : SimConfig) (fetchBytes : Nat) : Except ConfigError Unit :=
  if c.flatMemory then .ok () else checkedHierarchy c fetchBytes

/-- The checks of the predictor. -/
def checkedPredictor (c : SimConfig) : Except ConfigError Unit := do
  require (c.phtBits ≥ 1 && c.phtBits ≤ 24) "phtBits must be 1..24"
  require (c.ghrBits ≤ 30) "ghrBits must be 0..30"
  require (c.btbEntries ≥ 1 && c.rasEntries ≥ 1 && c.depTableSize ≥ 1)
    "predictor structures need at least 1 entry"
  let ok ← andAlso (c.btbWays ≥ 1) do
    let rest ← modulo c.btbEntries c.btbWays
    return rest == 0
  require ok "btbEntries must be a multiple of btbWays"
  require (c.tageTables ≤ 12) "tageTables must be 0..12"
  if c.tageTables ≠ 0 then validateTage c else .ok ()

/-- `validateConfig`; the divisor of `fetchBytes / 4` in `validateCore` is a literal. -/
def checkedConfig (c₀ : SimConfig) : Except ConfigError SimConfig := do
  let c := derivePhysRegs c₀
  validateCore c
  checkedCaches c c.fetchBlockBytes
  checkedPredictor c
  require (c.memBytes ≥ 64 * 1024) "memBytes must be at least 64 KiB"
  return c

theorem divide_ok {a b : Nat} (h : b ≠ 0) : divide a b = .ok (a / b) := if_neg h

theorem modulo_ok {a b : Nat} (h : b ≠ 0) : modulo a b = .ok (a % b) := if_neg h

/-- The divisions by `ways` stand behind `ways >= 1`. -/
theorem checkedSets_ok (lines ways : Nat) :
    checkedSets lines ways = .ok (ways ≥ 1 && lines % ways == 0 && hasSingleBit (lines / ways)) := by
  unfold checkedSets andAlso
  by_cases hw : ways ≥ 1
  · have hne : ways ≠ 0 := by omega
    rw [modulo_ok hne, divide_ok hne, decide_eq_true hw, if_pos rfl, Bool.true_and]
    show (if (lines % ways == 0) = true then _ else _) = _
    split
    · rename_i hz
      rw [hz, Bool.true_and]
      rfl
    · rename_i hz
      rw [Bool.not_eq_true] at hz
      rw [hz, Bool.false_and]
  · rw [decide_eq_false hw]
    rfl

theorem checkedCache_eq (cache : CacheConfig) : checkedCache cache = validateCache cache := by
  unfold checkedCache validateCache
  simp only [checkedSets_ok]
  rfl

theorem checkedHierarchy_eq (c : SimConfig) {fetchBytes : Nat} (h : fetchBytes ≠ 0) :
    checkedHierarchy c fetchBytes = validateHierarchy c fetchBytes := by
  unfold checkedHierarchy validateHierarchy
  simp only [checkedCache_eq, modulo_ok h]
  rfl

theorem checkedCaches_eq (c : SimConfig) {fetchBytes : Nat} (h : fetchBytes ≠ 0) :
    checkedCaches c fetchBytes = validateCaches c fetchBytes := by
  unfold checkedCaches validateCaches
  rw [checkedHierarchy_eq c h]

theorem checkedPredictor_eq (c : SimConfig) : checkedPredictor c = validatePredictor c := by
  have hways : (andAlso (c.btbWays ≥ 1) do
      let rest ← modulo c.btbEntries c.btbWays
      return rest == 0) = .ok (c.btbWays ≥ 1 && c.btbEntries % c.btbWays == 0) := by
    unfold andAlso
    by_cases hw : c.btbWays ≥ 1
    · rw [modulo_ok (by omega), decide_eq_true hw, if_pos rfl, Bool.true_and]
      rfl
    · rw [decide_eq_false hw]
      rfl
  unfold checkedPredictor validatePredictor
  rw [hways]
  rfl

/-! ## How the checks fail -/

section Except

variable {α β : Type}

theorem bind_ok_iff {x : Except ConfigError α} {f : α → Except ConfigError β} {b : β} :
    (x >>= f) = .ok b ↔ ∃ a, x = .ok a ∧ f a = .ok b := by
  refine ⟨except_bind_ok, ?_⟩
  rintro ⟨a, rfl, h⟩
  exact h

theorem bind_error_iff {x : Except ConfigError α} {f : α → Except ConfigError β} {e : ConfigError} :
    (x >>= f) = .error e ↔ x = .error e ∨ ∃ a, x = .ok a ∧ f a = .error e := by
  cases x with
  | error e' =>
      refine ⟨fun h => .inl ?_, ?_⟩
      · cases h
        rfl
      · rintro (h | ⟨a, h, -⟩)
        · cases h
          rfl
        · cases h
  | ok a =>
      refine ⟨fun h => .inr ⟨a, rfl, h⟩, ?_⟩
      rintro (h | ⟨a', h, hf⟩)
      · cases h
      · cases h
        exact hf

theorem require_ok_iff {b : Bool} {what : String} {u : Unit} : require b what = .ok u ↔ b = true := by
  refine ⟨require_eq_ok, ?_⟩
  rintro rfl
  rfl

theorem require_ne_zero (b : Bool) (what : String) : require b what ≠ .error .divisionByZero := by
  unfold require
  split <;> nofun

/-- A check that passes hands on to the rest. -/
theorem require_bind_ok {b : Bool} {what : String} {f : Unit → Except ConfigError β} {x : β} :
    (require b what >>= f) = .ok x ↔ b = true ∧ f () = .ok x := by
  rw [bind_ok_iff]
  constructor
  · rintro ⟨_, h, hf⟩
    exact ⟨require_eq_ok h, hf⟩
  · rintro ⟨rfl, hf⟩
    exact ⟨(), rfl, hf⟩

theorem require_bind_zero {b : Bool} {what : String} {f : Unit → Except ConfigError β} :
    (require b what >>= f) = .error .divisionByZero ↔ b = true ∧ f () = .error .divisionByZero := by
  rw [bind_error_iff]
  constructor
  · rintro (h | ⟨_, h, hf⟩)
    · exact absurd h (require_ne_zero b what)
    · exact ⟨require_eq_ok h, hf⟩
  · rintro ⟨rfl, hf⟩
    exact .inr ⟨(), rfl, hf⟩

end Except

/-- The bounds on the core's own shape. -/
structure SimConfig.CoreInRange (c : SimConfig) : Prop where
  physRegs : 33 ≤ c.physRegs ∧ c.physRegs ≤ 255
  width : 1 ≤ c.width ∧ c.width ≤ 8
  fetchBlock : (8 ≤ c.fetchBlockBytes ∧ c.fetchBlockBytes ≤ 64) ∧
    c.fetchBlockBytes &&& (c.fetchBlockBytes - 1) = 0
  fetchQ : c.fetchBlockBytes / 4 ≤ c.fetchQSize
  queues : ((1 ≤ c.robSize ∧ 1 ≤ c.iqSize) ∧ 1 ≤ c.lsqSize) ∧ 1 ≤ c.sbSize
  alus : 1 ≤ c.aluCount ∧ c.aluCount ≤ 8
  wbPorts : 1 ≤ c.wbPorts
  agus : 1 ≤ c.aguCount ∧ c.aguCount ≤ 8
  ports : 1 ≤ c.dataPorts ∧ c.dataPorts ≤ 8
  latencies : 1 ≤ c.mulLatency ∧ 1 ≤ c.divLatency

theorem validateCore_ok_iff {c : SimConfig} {u : Unit} : validateCore c = .ok u ↔ c.CoreInRange := by
  unfold validateCore
  simp only [require_bind_ok, require_ok_iff, Bool.and_eq_true, decide_eq_true_eq, beq_iff_eq, ge_iff_le]
  constructor
  · rintro ⟨h1, h2, h3, h4, h5, h6, h7, h8, h9, h10, h11⟩
    exact ⟨⟨h1, h2⟩, h3, h4, h5, h6, h7, h8, h9, h10, h11⟩
  · rintro ⟨⟨h1, h2⟩, h3, h4, h5, h6, h7, h8, h9, h10, h11⟩
    exact ⟨h1, h2, h3, h4, h5, h6, h7, h8, h9, h10, h11⟩

theorem validateCore_ne_zero (c : SimConfig) : validateCore c ≠ .error .divisionByZero := by
  unfold validateCore
  simp only [ne_eq, require_bind_zero, require_ne_zero, and_false, not_false_eq_true]

theorem validatePredictor_ne_zero (c : SimConfig) : validatePredictor c ≠ .error .divisionByZero := by
  have htage : validateTage c ≠ .error .divisionByZero := by
    unfold validateTage
    simp only [ne_eq, require_bind_zero, require_ne_zero, and_false, not_false_eq_true]
  unfold validatePredictor
  simp only [ne_eq, require_bind_zero]
  rintro ⟨-, -, -, -, -, h⟩
  split at h
  · exact htage h
  · cases h

/-- The bounds on TAGE, checked when it is on. -/
structure SimConfig.TageInRange (c : SimConfig) : Prop where
  tableBits : 4 ≤ c.tageTableBits ∧ c.tageTableBits ≤ 16
  tagBits : 4 ≤ c.tageTagBits ∧ c.tageTagBits ≤ 16
  hist : (1 ≤ c.tageMinHist ∧ c.tageMinHist ≤ c.tageMaxHist) ∧ c.tageMaxHist ≤ 1024

theorem validateTage_ok_iff {c : SimConfig} {u : Unit} : validateTage c = .ok u ↔ c.TageInRange := by
  unfold validateTage
  simp only [require_bind_ok, require_ok_iff, Bool.and_eq_true, decide_eq_true_eq, ge_iff_le]
  constructor
  · rintro ⟨h1, h2, h3⟩
    exact ⟨h1, h2, h3⟩
  · rintro ⟨h1, h2, h3⟩
    exact ⟨h1, h2, h3⟩

theorem validatePredictor_of_ok {c₀ c : SimConfig} (h : validateConfig c₀ = .ok c) :
    validatePredictor c = .ok () := by
  unfold validateConfig at h
  obtain ⟨_, -, h⟩ := except_bind_ok h
  obtain ⟨_, -, h⟩ := except_bind_ok h
  obtain ⟨_, hpred, h⟩ := except_bind_ok h
  obtain ⟨_, -, h⟩ := except_bind_ok h
  obtain rfl : derivePhysRegs c₀ = c := by simpa [pure, Except.pure] using h
  exact hpred

/-- The widths of the predictor's tables and history. -/
theorem predictorInRange {c₀ c : SimConfig} (h : validateConfig c₀ = .ok c) :
    (1 ≤ c.phtBits ∧ c.phtBits ≤ 24) ∧ c.ghrBits ≤ 30 := by
  have hpred := validatePredictor_of_ok h
  unfold validatePredictor at hpred
  simp only [require_bind_ok, Bool.and_eq_true, decide_eq_true_eq, ge_iff_le] at hpred
  obtain ⟨hpht, hghr, -⟩ := hpred
  exact ⟨hpht, hghr⟩

theorem tageInRange {c₀ c : SimConfig} (h : validateConfig c₀ = .ok c) (ht : c.tageTables ≠ 0) :
    c.TageInRange := by
  have hpred := validatePredictor_of_ok h
  unfold validatePredictor at hpred
  simp only [require_bind_ok] at hpred
  obtain ⟨-, -, -, -, -, hpred⟩ := hpred
  rw [if_pos ht] at hpred
  exact validateTage_ok_iff.mp hpred

theorem validateCache_ok_iff {k : CacheConfig} {u : Unit} : validateCache k = .ok u ↔ k.Accepted := by
  refine ⟨validateCache_ok, fun h => ?_⟩
  have hpow := h.lineBytes_pow
  have hne : k.lineBytes ≠ 0 := by
    unfold hasSingleBit at hpow
    simp only [Bool.and_eq_true, bne_iff_ne] at hpow
    exact hpow.1
  have hlines : cacheLines k = .ok (k.sizeBytes / k.lineBytes) := by
    have hw := h.ways_pos
    rw [cacheLines, if_pos (by omega), divide_ok hne]
  unfold validateCache
  rw [hlines, bind_ok_iff]
  refine ⟨_, rfl, ?_⟩
  simp only [require_bind_ok, require_ok_iff, Bool.and_eq_true, decide_eq_true_eq, beq_iff_eq, ge_iff_le]
  exact ⟨⟨hpow, h.lineBytes_le⟩, ⟨⟨h.ways_pos, h.lines_dvd⟩, h.sets_pow⟩, h.mshrs_pos, h.wbq_pos⟩

/-! ## The one division by zero -/

/-- A cache with ways and a line size of 0. -/
def CacheConfig.ZeroLine (k : CacheConfig) : Prop := k.ways ≠ 0 ∧ k.lineBytes = 0

theorem validateCache_zero_iff {k : CacheConfig} :
    validateCache k = .error .divisionByZero ↔ k.ZeroLine := by
  have hlines : cacheLines k = .error .divisionByZero ↔ k.ZeroLine := by
    unfold cacheLines divide CacheConfig.ZeroLine
    by_cases hw : k.ways ≠ 0
    · rw [if_pos hw]
      by_cases hl : k.lineBytes = 0
      · rw [if_pos hl]
        exact iff_of_true rfl ⟨hw, hl⟩
      · rw [if_neg hl]
        exact iff_of_false nofun fun h => hl h.2
    · rw [if_neg hw]
      exact iff_of_false nofun fun h => hw h.1
  unfold validateCache
  rw [bind_error_iff, hlines]
  simp only [require_bind_zero, require_ne_zero, and_false, exists_false, or_false]

/-- Of the caches in the order they are checked, the first that is not accepted has ways and a
line size of 0. -/
inductive SimConfig.ZeroLineFirst (c : SimConfig) : Prop
  | l1i : c.l1i.ZeroLine → ZeroLineFirst c
  | l1d : c.l1i.Accepted → c.l1d.ZeroLine → ZeroLineFirst c
  | l2 : c.l1i.Accepted → c.l1d.Accepted → c.l2.ZeroLine → ZeroLineFirst c

theorem validateHierarchy_zero_iff {c : SimConfig} {fetchBytes : Nat} :
    validateHierarchy c fetchBytes = .error .divisionByZero ↔ c.ZeroLineFirst := by
  unfold validateHierarchy
  simp only [bind_error_iff, validateCache_zero_iff, validateCache_ok_iff, require_ne_zero, and_false,
    exists_false, or_false]
  constructor
  · rintro (h | ⟨_, h1, h | ⟨_, h2, h⟩⟩)
    · exact .l1i h
    · exact .l1d h1 h
    · exact .l2 h1 h2 h
  · rintro (h | ⟨h1, h⟩ | ⟨h1, h2, h⟩)
    · exact .inl h
    · exact .inr ⟨(), h1, .inl h⟩
    · exact .inr ⟨(), h1, .inr ⟨(), h2, h⟩⟩

/-- The knob values on which the checks divide by zero. -/
structure SimConfig.DividesByZero (c : SimConfig) : Prop where
  core : c.CoreInRange
  cacheMode : c.flatMemory = false
  line : c.ZeroLineFirst

theorem checkedConfig_eq (c₀ : SimConfig) : checkedConfig c₀ = validateConfig c₀ := by
  unfold checkedConfig validateConfig
  dsimp only
  cases hcore : validateCore (derivePhysRegs c₀) with
  | error e => rfl
  | ok u =>
      -- the fetch block has been checked by then
      have hrange := validateCore_ok_iff.mp hcore
      have hblock : (derivePhysRegs c₀).fetchBlockBytes ≠ 0 := by
        have h8 := hrange.fetchBlock.1.1
        omega
      rw [checkedCaches_eq _ hblock, checkedPredictor_eq]

theorem validateConfig_zero_iff {c₀ : SimConfig} :
    validateConfig c₀ = .error .divisionByZero ↔ (derivePhysRegs c₀).DividesByZero := by
  unfold validateConfig
  generalize derivePhysRegs c₀ = c
  simp only [bind_error_iff, validateCore_ne_zero, validateCore_ok_iff, validatePredictor_ne_zero,
    require_ne_zero, false_or]
  constructor
  · rintro ⟨_, hcore, h | ⟨_, -, _, -, _, -, h⟩⟩
    · unfold validateCaches at h
      split at h
      · cases h
      · rename_i hflat
        exact ⟨hcore, by simpa using hflat, validateHierarchy_zero_iff.mp h⟩
    · cases h
  · rintro ⟨hcore, hflat, hline⟩
    refine ⟨(), hcore, .inl ?_⟩
    unfold validateCaches
    rw [hflat]
    exact validateHierarchy_zero_iff.mpr hline

/-- `validateConfig` exits with its config error or returns, and divides by zero nowhere. -/
def ValidateTotal (c₀ : SimConfig) : Prop :=
  (∃ c, checkedConfig c₀ = .ok c) ∨ ∃ what, checkedConfig c₀ = .error (.fatal what)

/-- `validateConfig` is total but for a line size of 0: on any other configuration it returns or
reports a fatal error, and a configuration that it returns is inside every range that it checks.
With such a line size it may divide before it has checked. -/
theorem validateConfig_total (c₀ : SimConfig) :
    ValidateTotal c₀ ↔ ¬ (derivePhysRegs c₀).DividesByZero := by
  rw [← validateConfig_zero_iff, ← checkedConfig_eq, ValidateTotal]
  cases h : checkedConfig c₀ with
  | ok c => exact iff_of_true (.inl ⟨c, rfl⟩) nofun
  | error e =>
      cases e with
      | fatal what => exact iff_of_true (.inr ⟨what, rfl⟩) nofun
      | divisionByZero => exact iff_of_false (by rintro (⟨c, hc⟩ | ⟨what, hc⟩) <;> cases hc) fun hn => hn rfl

/-- The default machine with `l1i.line=0`. -/
theorem zero_line_divides :
    checkedConfig { ({} : SimConfig) with l1i := ⟨32 * 1024, 8, 0, 1, 2, 2⟩ } =
        .error .divisionByZero ∧
      ¬ ValidateTotal { ({} : SimConfig) with l1i := ⟨32 * 1024, 8, 0, 1, 2, 2⟩ } := by
  have hrun : checkedConfig { ({} : SimConfig) with l1i := ⟨32 * 1024, 8, 0, 1, 2, 2⟩ } =
      .error .divisionByZero := by decide
  refine ⟨hrun, ?_⟩
  unfold ValidateTotal
  rw [hrun]
  rintro (⟨c, h⟩ | ⟨what, h⟩) <;> cases h

end RvO3
