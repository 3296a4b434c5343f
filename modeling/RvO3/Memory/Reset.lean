import RvO3.Memory.Hierarchy

/-!
# The hierarchy out of reset

What `validateConfig` checks of a cache gives its address geometry, and an empty cache
satisfies every invariant. `SizesFit` is what the type `uint32_t` of the size field says.
-/

set_option autoImplicit false

namespace RvO3

variable {τ : Type}

/-! ## Powers of two -/

theorem exists_pow_of_hasSingleBit {x : Nat} (h : hasSingleBit x = true) : ∃ k, x = 2 ^ k := by
  unfold hasSingleBit at h
  simp only [Bool.and_eq_true, bne_iff_ne, beq_iff_eq] at h
  exact Nat.ne_zero_and_sub_one_eq_zero_iff_isPowerOfTwo.mp h

theorem countrZero_pow {k : Nat} (hk : k < 32) : countrZero (2 ^ k) = k := by
  unfold countrZero
  have h : (List.range 32).find? (fun i => (2 ^ k).testBit i) = some k := by
    rw [List.find?_range_eq_some]
    refine ⟨by simp, List.mem_range.mpr hk, fun j hj => ?_⟩
    simp [Nat.ne_of_gt hj]
  rw [h, Option.getD_some]

/-- Two powers of two that do not exceed `2 ^ 32` together. -/
theorem pow_add_lt {i j n : Nat} (h : 2 ^ i * 2 ^ j < 2 ^ n) : i + j < n := by
  rw [← Nat.pow_add] at h
  exact (Nat.pow_lt_pow_iff_right (by decide)).mp h

/-! ## The geometry of an accepted cache -/

namespace Cache

variable {cfg : CacheConfig} {src : Src}

/-- Lines of `2 ^ k` bytes in `2 ^ j` sets: what the constructor computes, without a wrap. -/
structure Shape (cfg : CacheConfig) (src : Src) (k j : Nat) : Prop where
  line : cfg.lineBytes = 2 ^ k
  lineMin : 3 ≤ k
  lineMax : k ≤ 7
  product : cfg.lineBytes * cfg.ways < 2 ^ 32
  sets : (Cache.init (τ := Unit) cfg src).sets = 2 ^ j
  lineShift : (Cache.init (τ := Unit) cfg src).lineShift = k
  tagShift : (Cache.init (τ := Unit) cfg src).tagShift = k + j
  shifts : k + j < 32
  /-- The lines of the arrays are no more than the configured bytes. -/
  bytes : cfg.lineBytes * (cfg.ways * 2 ^ j) ≤ cfg.sizeBytes

/-- An accepted cache has a line size and a set count that are powers of two. -/
theorem exists_shape (src : Src) (h : cfg.Accepted) (hline : 8 ≤ cfg.lineBytes) (hsize : cfg.sizeBytes < 2 ^ 32) :
    ∃ k j, Shape cfg src k j := by
  obtain ⟨k, hk⟩ := exists_pow_of_hasSingleBit h.lineBytes_pow
  obtain ⟨j, hj⟩ := exists_pow_of_hasSingleBit h.sets_pow
  have hle : cfg.lineBytes ≤ 2 ^ 7 := h.lineBytes_le
  have hk7 : k ≤ 7 := by
    rw [hk] at hle
    exact (Nat.pow_le_pow_iff_right (by decide)).mp hle
  have hk3 : 3 ≤ k := by
    rw [hk, show 8 = 2 ^ 3 from rfl] at hline
    exact (Nat.pow_le_pow_iff_right (by decide)).mp hline
  -- a set holds at least one line, so the product in the constructor does not wrap
  have hlines : cfg.sizeBytes / cfg.lineBytes = cfg.ways * 2 ^ j := by
    rw [← hj]
    exact (Nat.mul_div_cancel' (Nat.dvd_of_mod_eq_zero h.lines_dvd)).symm
  have hbytes : cfg.lineBytes * (cfg.ways * 2 ^ j) ≤ cfg.sizeBytes := by
    rw [← hlines]
    exact Nat.mul_div_le _ _
  have hpos : 1 ≤ 2 ^ j := Nat.one_le_two_pow
  have hways := h.ways_pos
  have hwl : cfg.lineBytes * cfg.ways < 2 ^ 32 := by
    calc cfg.lineBytes * cfg.ways ≤ cfg.lineBytes * (cfg.ways * 2 ^ j) :=
          Nat.mul_le_mul_left _ (Nat.le_mul_of_pos_right _ hpos)
      _ ≤ cfg.sizeBytes := hbytes
      _ < 2 ^ 32 := hsize
  have hsets : cfg.sizeBytes / (cfg.lineBytes * cfg.ways % 2 ^ 32) = 2 ^ j := by
    rw [Nat.mod_eq_of_lt hwl, ← Nat.div_div_eq_div_mul, ← hj]
  have hjk : k + j < 32 := by
    apply pow_add_lt
    calc 2 ^ k * 2 ^ j ≤ 2 ^ k * (cfg.ways * 2 ^ j) :=
          Nat.mul_le_mul_left _ (Nat.le_mul_of_pos_left _ hways)
      _ ≤ cfg.sizeBytes := by rw [← hk]; exact hbytes
      _ < 2 ^ 32 := hsize
  have hshift : countrZero cfg.lineBytes = k := by rw [hk, countrZero_pow (by omega)]
  have hcz : countrZero (2 ^ j) = j := countrZero_pow (by omega)
  refine ⟨k, j, hk, hk3, hk7, hwl, hsets, hshift, ?_, hjk, hbytes⟩
  show countrZero cfg.lineBytes + countrZero (cfg.sizeBytes / (cfg.lineBytes * cfg.ways % 2 ^ 32)) = k + j
  rw [hsets, hshift, hcz]

theorem Shape.geometry {k j : Nat} (h : Shape cfg src k j) (hways : 1 ≤ cfg.ways) :
    (Cache.init (τ := τ) cfg src).Geometry := by
  have hl : (Cache.init (τ := τ) cfg src).lineShift = k := h.lineShift
  have ht : (Cache.init (τ := τ) cfg src).tagShift = k + j := h.tagShift
  have hs : (Cache.init (τ := τ) cfg src).sets = 2 ^ j := h.sets
  have hmin := h.lineMin
  have hmax := h.lineMax
  have hsh := h.shifts
  refine ⟨?_, ?_, ?_, ?_, ?_, ?_, hways⟩
  · rw [hl]
    exact h.line
  · rw [hs, hl, ht, Nat.add_sub_cancel_left]
  · omega
  · omega
  · omega
  · omega

theorem geometry_init (h : cfg.Accepted) (hline : 8 ≤ cfg.lineBytes) (hsize : cfg.sizeBytes < 2 ^ 32) :
    (Cache.init (τ := τ) cfg src).Geometry := by
  obtain ⟨k, j, hs⟩ := exists_shape src h hline hsize
  exact hs.geometry h.ways_pos

/-! ## An empty cache -/

theorem slotOf_init (hg : (Cache.init (τ := τ) cfg src).Geometry) (a : Nat) :
    (Cache.init (τ := τ) cfg src).slotOf a = none := by
  unfold slotOf
  split
  · rename_i ha
    rw [Option.map_eq_none_iff]
    unfold findWay
    rw [List.find?_eq_none]
    intro w _
    rw [beq_iff_eq]
    exact fun h => tagOf_ne_invalid hg ha h.symm
  · rfl

theorem mshrAt_init (i : Nat) : (Cache.init (τ := τ) cfg src).mshrAt i = {} := by
  unfold mshrAt Cache.init
  dsimp only
  rw [List.getElem?_replicate]
  split <;> rfl

/-- A cache with nothing in it meets the invariant of caches. -/
theorem cacheOk_init {P : Nat → Prop} (hg : (Cache.init (τ := τ) cfg src).Geometry) :
    CacheOk P (Cache.init (τ := τ) cfg src) := by
  have hslot := slotOf_init hg
  refine ⟨⟨hg, fun s w w' _ _ _ hne => absurd rfl hne, fun s w _ _ hne => absurd rfl hne⟩,
    fun a _ hne => absurd (hslot a) hne, nofun, List.nodup_nil, Nat.zero_le _, fun i hv => ?_,
    fun i j hv => ?_, fun i _ => mshrAt_init i, ?_⟩
  · rw [mshrAt_init] at hv
    cases hv
  · rw [mshrAt_init] at hv
    cases hv
  · unfold inUse tally
    rw [List.filter_eq_nil_iff.mpr]
    · rfl
    · intro i _
      rw [mshrAt_init]
      exact Bool.false_ne_true

theorem refillsOk_init : RefillsOk (Cache.init (τ := τ) cfg src) 0 := by
  unfold RefillsOk refillsSent tally
  rw [List.filter_eq_nil_iff.mpr]
  · rfl
  · intro i _
    rw [mshrAt_init]
    exact Bool.false_ne_true

theorem lineAt_init (hg : (Cache.init (τ := τ) cfg src).Geometry) (a : Nat) :
    (Cache.init (τ := τ) cfg src).lineAt a = none := lineAt_eq_none.mpr (slotOf_init hg a)

theorem dirtyAt_init (hg : (Cache.init (τ := τ) cfg src).Geometry) (a : Nat) :
    (Cache.init (τ := τ) cfg src).dirtyAt a = false := by
  unfold dirtyAt
  rw [slotOf_init hg]

theorem dataOk_init {below : Nat → Byte} (hg : (Cache.init (τ := τ) cfg src).Geometry) :
    DataOk (Cache.init (τ := τ) cfg src) below 0 := by
  refine ⟨fun a line _ hl => ?_, nofun, nofun⟩
  rw [lineAt_init hg] at hl
  cases hl

/-- A cache with nothing in it shows the memory below it. -/
theorem view_init {below : Nat → Byte} (hg : (Cache.init (τ := τ) cfg src).Geometry) :
    (Cache.init (τ := τ) cfg src).view below = below := by
  funext a
  by_cases ha : a < 2 ^ 32
  · refine Newest.view_eq (cacheOk_init (P := fun _ => True) hg) ha
      (.below (lineAt_init hg a) nofun fun i hv => ?_)
    rw [mshrAt_init] at hv
    cases hv
  · unfold view
    rw [if_neg ha]

theorem bag_init {β : Type} (f : Mshr τ → Multiset β) (hf : f {} = 0) :
    bag (Cache.init (τ := τ) cfg src).mshrs f = 0 := by
  apply bag_eq_zero
  intro m hm
  rw [List.eq_of_mem_replicate hm]
  exact hf

theorem owed_init {below : Nat → Byte} : (Cache.init (τ := τ) cfg src).owed below = 0 := by
  unfold Cache.owed
  rw [bag_init _ rfl]
  rfl

theorem fetchOk_init {same : Nat → Prop} {image : Nat → Byte}
    (hg : (Cache.init (τ := τ) cfg src).Geometry) :
    FetchOk (Cache.init (τ := τ) cfg src) same image 0 0 := by
  refine ⟨rfl, fun a _ => dirtyAt_init hg a, fun i w hw => ?_, fun a line _ hl => ?_, nofun, nofun, 0, ?_,
    .zero⟩
  · rw [mshrAt_init] at hw
    cases hw
  · rw [lineAt_init hg] at hl
    cases hl
  · unfold waitingReqs
    rw [bag_init _ rfl]
    rfl

end Cache

/-! ## The hierarchy -/

/-- The sizes of the caches are 32-bit values. -/
def SimConfig.SizesFit (cfg : SimConfig) : Prop :=
  cfg.l1i.sizeBytes < 2 ^ 32 ∧ cfg.l1d.sizeBytes < 2 ^ 32 ∧ cfg.l2.sizeBytes < 2 ^ 32

instance (cfg : SimConfig) : Decidable cfg.SizesFit := inferInstanceAs (Decidable (_ ∧ _))

theorem defaultConfig_sizesFit : defaultConfig.SizesFit := by decide

namespace CacheHierarchy

open Cache

/-- The fetch block divides the line, which all levels share. -/
theorem eight_le_lines {cfg : SimConfig} (hcfg : cfg.Accepted) (hcache : cfg.flatMemory = false) :
    8 ≤ cfg.l1i.lineBytes ∧ 8 ≤ cfg.l1d.lineBytes ∧ 8 ≤ cfg.l2.lineBytes := by
  obtain ⟨h1, -, -, h4, h5, h6⟩ := hcfg.caches hcache
  have hpos : 0 < cfg.l1i.lineBytes := by
    have hbit := h1.lineBytes_pow
    unfold hasSingleBit at hbit
    simp only [Bool.and_eq_true, bne_iff_ne] at hbit
    omega
  have h8 : 8 ≤ cfg.l1i.lineBytes :=
    Nat.le_trans hcfg.fetch_ge (Nat.le_of_dvd hpos (Nat.dvd_of_mod_eq_zero h6))
  exact ⟨h8, by omega, by omega⟩

/-- Every level has the geometry that its checks promise. -/
theorem geometries {cfg : SimConfig} (hcfg : cfg.Accepted) (hcache : cfg.flatMemory = false)
    (hfit : cfg.SizesFit) : (Cache.init (τ := τ) cfg.l1i .L1I).Geometry ∧
      (Cache.init (τ := τ) cfg.l1d .L1D).Geometry ∧
      (Cache.init (τ := LineTag) cfg.l2 .L2).Geometry ∧
      cfg.l1d.lineBytes = cfg.l2.lineBytes ∧ cfg.l1i.lineBytes = cfg.l2.lineBytes ∧
      cfg.fetchBlockBytes ∣ cfg.l2.lineBytes := by
  obtain ⟨h1, h2, h3, h4, h5, h6⟩ := hcfg.caches hcache
  obtain ⟨f1, f2, f3⟩ := hfit
  obtain ⟨l1, l2, l3⟩ := eight_le_lines hcfg hcache
  refine ⟨geometry_init h1 l1 f1, geometry_init h2 l2 f2, geometry_init h3 l3 f3, h5,
    h4.trans h5, ?_⟩
  rw [← h5, ← h4]
  exact Nat.dvd_of_mod_eq_zero h6

/-- The hierarchy at reset meets its invariant, for every image. -/
theorem hierOk_init {cfg : SimConfig} (image : Nat → Byte) (P : Nat → Prop) (hcfg : cfg.Accepted)
    (hcache : cfg.flatMemory = false) (hfit : cfg.SizesFit) :
    HierOk (τ := τ) P (fun _ => True) image 0 (.init cfg image) ∧
      (CacheHierarchy.init (τ := τ) cfg image).dataView = image ∧
      (CacheHierarchy.init (τ := τ) cfg image).dataOwed = 0 := by
  obtain ⟨g1, g2, g3, hd, hi, -⟩ := geometries (τ := τ) hcfg hcache hfit
  have hlower : (CacheHierarchy.init (τ := τ) cfg image).lowerView = image := view_init g3
  have howed : (CacheHierarchy.init (τ := τ) cfg image).lowerOwed = 0 := owed_init
  have hto : ∀ s, (CacheHierarchy.init (τ := τ) cfg image).owedTo s = 0 := by
    intro s
    rw [owedTo, howed]
    rfl
  have hview : (CacheHierarchy.init (τ := τ) cfg image).dataView = image := by
    rw [dataView, hlower]
    exact view_init g2
  refine ⟨⟨cacheOk_init g3, cacheOk_init g2, cacheOk_init g1, hd, hi, rfl, rfl, ?_, refillsOk_init, ?_,
    ?_, dataOk_init g3, ?_, ?_, ?_, ?_⟩, hview, owed_init⟩
  · rw [howed]
    intro a ha
    cases ha
  · rw [hto]
    exact refillsOk_init
  · rw [hto]
    exact refillsOk_init
  · rw [hto]
    exact dataOk_init g2
  · rw [hto]
    exact fetchOk_init g1
  · intro a _
    rw [hlower]
  · intro a _
    rw [hview]

end CacheHierarchy

end RvO3
