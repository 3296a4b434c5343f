import RvO3.Memory.Reset

/-!
# Cache address geometry

The checks of `validateConfig` and the constructor compute the set count by two chains of
truncating divisions. In every accepted configuration they agree, and the shifts and masks of
the lookups are then division and remainder: the set and the tag of an address give back its
line, and every index they lead to is inside the arrays.
-/

set_option autoImplicit false

namespace RvO3

namespace Cache

variable {τ : Type} {cfg : CacheConfig} {src : Src}

/-- What the geometry says of a 32-bit address. -/
structure AddressExact (c : Cache τ) (a : Nat) : Prop where
  setOf_lt : c.setOf a < c.sets
  tagOf_ne : c.tagOf a ≠ invalidTag
  /-- Neither shift of the rebuilt address leaves 32 bits. -/
  shifted : c.tagOf a <<< c.tagShift < 2 ^ 32 ∧ c.setOf a <<< c.lineShift < 2 ^ 32
  rebuilt : (c.tagOf a <<< c.tagShift) ||| (c.setOf a <<< c.lineShift) = a - c.offsetOf a
  /-- A line filed under the tag of the address is written back to the address's line. -/
  lineAddr : ∀ way, c.tags (c.lineIdx (c.setOf a) way) = c.tagOf a →
    c.lineAddrOf (c.setOf a) way = a - c.offsetOf a
  same : ∀ b, b < 2 ^ 32 → c.setOf a = c.setOf b → c.tagOf a = c.tagOf b →
    a - c.offsetOf a = b - c.offsetOf b
  /-- Every way of the set, the one found and the victim among them, is inside the arrays. -/
  inArrays : ∀ way, way < c.cfg.ways → c.lineIdx (c.setOf a) way < c.sets * c.cfg.ways
  found : ∀ way, c.findWay (c.setOf a) (c.tagOf a) = some way → way < c.cfg.ways
  victim : c.victimWay (c.setOf a) < c.cfg.ways
  /-- So is every byte of the line, and an aligned access stays in its line. -/
  inData : ∀ way, way < c.cfg.ways → ∀ i, i < c.cfg.lineBytes →
    c.lineIdx (c.setOf a) way * c.cfg.lineBytes + i < c.sets * c.cfg.ways * c.cfg.lineBytes
  inLine : ∀ n, n ∣ c.cfg.lineBytes → a % n = 0 → c.offsetOf a + n ≤ c.cfg.lineBytes

/-- The geometry of one cache of `sizeBytes` bytes. -/
structure GeometryExact (sizeBytes : Nat) (c : Cache τ) : Prop where
  sets_pow : ∃ j, c.sets = 2 ^ j
  shifts : c.lineShift < 32 ∧ c.tagShift < 32
  /-- The 32-bit product of the constructor and the indices do not wrap. -/
  product : c.cfg.lineBytes * c.cfg.ways < 2 ^ 32
  arrays : c.sets * c.cfg.ways < 2 ^ 32
  data : c.sets * c.cfg.ways * c.cfg.lineBytes ≤ sizeBytes
  address : ∀ a, a < 2 ^ 32 → c.AddressExact a

section Address

variable {c : Cache τ}

theorem lineIdx_lt {set way : Nat} (hs : set < c.sets) (hw : way < c.cfg.ways) :
    c.lineIdx set way < c.sets * c.cfg.ways := by
  unfold lineIdx
  calc set * c.cfg.ways + way < set * c.cfg.ways + c.cfg.ways := Nat.add_lt_add_left hw _
    _ = (set + 1) * c.cfg.ways := (Nat.succ_mul _ _).symm
    _ ≤ c.sets * c.cfg.ways := Nat.mul_le_mul_right _ hs

theorem dataIdx_lt {i j n m : Nat} (hi : i < n) (hj : j < m) : i * m + j < n * m := by
  calc i * m + j < i * m + m := Nat.add_lt_add_left hj _
    _ = (i + 1) * m := (Nat.succ_mul _ _).symm
    _ ≤ n * m := Nat.mul_le_mul_right _ hi

theorem Geometry.addressExact (hg : c.Geometry) (htag : c.tagShift < 32) {a : Nat} (ha : a < 2 ^ 32) :
    c.AddressExact a := by
  have hset := setOf_lt hg a
  have hways := hg.ways
  have hle : (c.tagOf a <<< c.tagShift) ≤ a := by
    rw [tagOf, Nat.shiftRight_eq_div_pow, Nat.shiftLeft_eq]
    exact Nat.div_mul_le_self _ _
  have hset32 : c.setOf a <<< c.lineShift < 2 ^ 32 := by
    rw [Nat.shiftLeft_eq]
    calc c.setOf a * 2 ^ c.lineShift
        < 2 ^ (c.tagShift - c.lineShift) * 2 ^ c.lineShift :=
          Nat.mul_lt_mul_of_pos_right (hg.sets ▸ hset) (Nat.two_pow_pos _)
      _ = 2 ^ c.tagShift := by rw [← Nat.pow_add, Nat.sub_add_cancel hg.shifts]
      _ ≤ 2 ^ 32 := Nat.pow_le_pow_right (by decide) (Nat.le_of_lt htag)
  have hshift : c.tagOf a <<< c.tagShift < 2 ^ 32 ∧ c.setOf a <<< c.lineShift < 2 ^ 32 :=
    ⟨Nat.lt_of_le_of_lt hle ha, hset32⟩
  have hbuilt : (c.tagOf a <<< c.tagShift) ||| (c.setOf a <<< c.lineShift) = a - c.offsetOf a := by
    have h := rebuild hg ha
    rw [Nat.mod_eq_of_lt (Nat.or_lt_two_pow hshift.1 hshift.2)] at h
    exact h
  refine ⟨hset, tagOf_ne_invalid hg ha, hshift, hbuilt, fun way htags => ?_,
    fun b _ hs ht => lineBase_inj hg hs ht, fun way hw => lineIdx_lt hset hw,
    fun way hf => (findWay_some hf).1, victimWay_lt hways _,
    fun way hw i hi => dataIdx_lt (lineIdx_lt hset hw) hi, fun n hn han => ?_⟩
  · rw [lineAddrOf, htags, hbuilt]
    exact Nat.mod_eq_of_lt (Nat.lt_of_le_of_lt (Nat.sub_le _ _) ha)
  · -- the offset is a multiple of `n` too
    have hoff := offset_lt hg a
    rw [offsetOf_eq hg] at hoff ⊢
    obtain ⟨m, hm⟩ := hn
    have hmod : a % c.cfg.lineBytes % n = 0 := by
      rw [hm, Nat.mod_mul_right_mod]
      exact han
    obtain ⟨q, hq⟩ := Nat.dvd_of_mod_eq_zero hmod
    rw [hq, hm] at hoff ⊢
    have hqm : q < m := Nat.lt_of_mul_lt_mul_left hoff
    calc n * q + n = n * (q + 1) := (Nat.mul_succ _ _).symm
      _ ≤ n * m := Nat.mul_le_mul_left _ hqm

end Address

theorem Shape.geometryExact {k j : Nat} (h : Shape cfg src k j) (hways : 1 ≤ cfg.ways)
    (hsize : cfg.sizeBytes < 2 ^ 32) :
    (Cache.init (τ := τ) cfg src).GeometryExact cfg.sizeBytes := by
  have hsets : (Cache.init (τ := τ) cfg src).sets = 2 ^ j := h.sets
  have htag : (Cache.init (τ := τ) cfg src).tagShift = k + j := h.tagShift
  have hline : (Cache.init (τ := τ) cfg src).lineShift = k := h.lineShift
  have hlt := h.shifts
  have hdata : 2 ^ j * cfg.ways * cfg.lineBytes ≤ cfg.sizeBytes := by
    calc 2 ^ j * cfg.ways * cfg.lineBytes = cfg.lineBytes * (cfg.ways * 2 ^ j) := by
          rw [Nat.mul_comm, Nat.mul_comm (2 ^ j)]
      _ ≤ cfg.sizeBytes := h.bytes
  have hpos : 1 ≤ cfg.lineBytes := by
    rw [h.line]
    exact Nat.one_le_two_pow
  refine ⟨⟨j, hsets⟩, ⟨by omega, by omega⟩, h.product, ?_, ?_, fun a ha =>
    (h.geometry hways).addressExact (by omega) ha⟩
  · show (Cache.init (τ := τ) cfg src).sets * cfg.ways < 2 ^ 32
    rw [hsets]
    calc 2 ^ j * cfg.ways ≤ 2 ^ j * cfg.ways * cfg.lineBytes := Nat.le_mul_of_pos_right _ hpos
      _ ≤ cfg.sizeBytes := hdata
      _ < 2 ^ 32 := hsize
  · show (Cache.init (τ := τ) cfg src).sets * cfg.ways * cfg.lineBytes ≤ cfg.sizeBytes
    rw [hsets]
    exact hdata

end Cache

namespace CacheHierarchy

/-- The three caches of an accepted configuration, of any sizes it accepts, have an exact address
geometry: the shifts and masks split an address into tag, set and offset, these give it back, and
every index that they lead to is inside the arrays. -/
theorem geometry_exact {τ : Type} {cfg : SimConfig} (hcfg : cfg.Accepted)
    (hcache : cfg.flatMemory = false) (hfit : cfg.SizesFit) :
    (Cache.init (τ := τ) cfg.l1i .L1I).GeometryExact cfg.l1i.sizeBytes ∧
      (Cache.init (τ := τ) cfg.l1d .L1D).GeometryExact cfg.l1d.sizeBytes ∧
      (Cache.init (τ := τ) cfg.l2 .L2).GeometryExact cfg.l2.sizeBytes := by
  obtain ⟨h1, h2, h3, -⟩ := hcfg.caches hcache
  obtain ⟨l1, l2, l3⟩ := eight_le_lines hcfg hcache
  obtain ⟨f1, f2, f3⟩ := hfit
  obtain ⟨_, _, s1⟩ := Cache.exists_shape .L1I h1 l1 f1
  obtain ⟨_, _, s2⟩ := Cache.exists_shape .L1D h2 l2 f2
  obtain ⟨_, _, s3⟩ := Cache.exists_shape .L2 h3 l3 f3
  exact ⟨s1.geometryExact h1.ways_pos f1, s2.geometryExact h2.ways_pos f2, s3.geometryExact h3.ways_pos f3⟩

/-- An L1D whose size is not a whole number of lines. -/
def raggedConfig : SimConfig :=
  { defaultConfig with l1d := { defaultConfig.l1d with sizeBytes := defaultConfig.l1d.sizeBytes + 63 } }

theorem geometry_exact_ragged :
    (Cache.init (τ := Nat) raggedConfig.l1d .L1D).GeometryExact raggedConfig.l1d.sizeBytes :=
  (geometry_exact (validateConfig_ok (by decide : validateConfig raggedConfig = .ok raggedConfig)) rfl
    (by decide)).2.1

end CacheHierarchy

end RvO3
