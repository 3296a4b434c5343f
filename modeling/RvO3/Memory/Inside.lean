import RvO3.Memory.Drain

/-!
# Accesses that stay inside memory

The levels move whole lines and fetch moves whole blocks, and the backing store checks each
range against its size. The ranges stay inside when memory is a whole number of them, or
covers every address (`portsInside_iff`); when neither holds, an access to the last byte that
an address can name already leaves it.
-/

set_option autoImplicit false

namespace RvO3

variable {τ : Type}

/-! ## The mode of the memory system -/

namespace MemorySystem

/-- The mode. -/
def isFlat : MemorySystem τ → Bool
  | .flat _ => true
  | .cached _ => false

theorem isFlat_init (cfg : SimConfig) (image : Nat → Byte) :
    (MemorySystem.init (τ := τ) cfg image).isFlat = cfg.flatMemory := by
  unfold MemorySystem.init
  cases hm : cfg.flatMemory <;> rfl

/-- No event changes the mode. -/
theorem isFlat_run {n bound : Nat} {s₀ s : MemorySystem τ} {evs : List (PortEvent τ)}
    (h : PortRun n bound s₀ evs s) : s.isFlat = s₀.isFlat := by
  -- the mode is the constructor of the state, and no event changes it
  induction h with
  | reset => rfl
  | @tick evs s s' _ ht ih =>
      rw [← ih]
      cases s with
      | flat m =>
          cases ht
          rfl
      | cached m =>
          unfold MemorySystem.tick at ht
          dsimp only at ht
          split at ht
          · cases ht
          · cases ht
            rfl
  | @dAccess evs s s' req _ _ _ hs ih =>
      rw [← ih]
      cases s with
      | flat m =>
          unfold MemorySystem.dAccess at hs
          dsimp only at hs
          split at hs
          · cases hs
          · cases hs
            rfl
      | cached m =>
          cases hs
          rfl
  | @iAccess evs s s' req _ _ _ hs ih =>
      rw [← ih]
      cases s with
      | flat m =>
          unfold MemorySystem.iAccess at hs
          dsimp only at hs
          split at hs
          · cases hs
          · cases hs
            rfl
      | cached m =>
          cases hs
          rfl
  | @dPop evs s r _ _ ih =>
      rw [← ih]
      cases s <;> rfl
  | @iPop evs s r _ _ ih =>
      rw [← ih]
      cases s <;> rfl

/-- A flat memory performs a fetch only inside memory. -/
theorem iAccess_inside {s s' : MemorySystem τ} {req : MemRequest τ} (hm : s.isFlat = true)
    (hs : 4 < req.size) (h : s.iAccess req = .ok s') : req.addr + req.size ≤ s.memSize := by
  cases s with
  | cached m => cases hm
  | flat m =>
      unfold MemorySystem.iAccess FlatMemory.iAccess DRAM.access DRAM.perform Memory.check at h
      dsimp only at h
      rw [if_neg (Nat.not_le.mpr hs)] at h
      by_contra hout
      have hlt : m.backing.size < req.addr + req.size := Nat.lt_of_not_le hout
      rw [if_pos hlt] at h
      cases h

end MemorySystem

/-! ## Whole blocks -/

/-- Memory ends where a line does, or a fetch block in flat mode, or past every address. -/
def SimConfig.WholeBlocks (cfg : SimConfig) : Prop := cfg.grain ∣ cfg.memBytes ∨ 2 ^ 32 ≤ cfg.memBytes

instance (cfg : SimConfig) : Decidable cfg.WholeBlocks := inferInstanceAs (Decidable (_ ∨ _))

/-- Nothing that may be asked of the ports, and no clock edge, leaves memory. -/
structure MemorySystem.Inside (cfg : SimConfig) (s : MemorySystem τ) : Prop where
  fetch : ∀ pc, pc < cfg.addressable → ∀ req : MemRequest τ, req.isWrite = false →
    req.addr = pc - pc % cfg.fetchBlockBytes → req.size = cfg.fetchBlockBytes → ∃ s', s.iAccess req = .ok s'
  data : ∀ req : MemRequest τ, req.Scalar cfg.addressable → ∃ s', s.dAccess req = .ok s'
  clock : ∃ s', s.tick = .ok s'

section Grid

variable {cfg : SimConfig}

theorem grain_eq_pow (hcfg : cfg.Accepted) (hfit : cfg.SizesFit) : ∃ k, k ≤ 7 ∧ cfg.grain = 2 ^ k := by
  cases hm : cfg.flatMemory with
  | true =>
      obtain ⟨k, hk, hn⟩ := hcfg.fetch_eq_pow
      exact ⟨k, by omega, by rw [SimConfig.grain, if_pos hm, hn]⟩
  | false =>
      obtain ⟨-, -, hg, -⟩ := CacheHierarchy.geometries (τ := Unit) hcfg hm hfit
      exact ⟨_, hg.lineMax, by rw [SimConfig.grain, if_neg (by simp [hm])]; exact hg.lineBytes⟩

/-- The block of an addressable byte lies inside memory. -/
theorem SimConfig.WholeBlocks.block_inside (h : cfg.WholeBlocks) (hcfg : cfg.Accepted)
    (hfit : cfg.SizesFit) {a : Nat} (ha : a < cfg.addressable) :
    a - a % cfg.grain + cfg.grain ≤ cfg.memBytes := by
  obtain ⟨hmem, htop⟩ := Nat.lt_min.mp ha
  rcases h with hd | hbig
  · exact block_end_le hd hmem
  · obtain ⟨k, hk, hn⟩ := grain_eq_pow hcfg hfit
    rw [hn]
    exact Nat.le_trans (block_end_le (Nat.pow_dvd_pow 2 (by omega)) htop) hbig

/-- Without whole blocks, the block of the last byte does not lie inside memory. -/
theorem last_block_outside (hpos : 0 < cfg.grain) (h : ¬ cfg.WholeBlocks) :
    cfg.memBytes < 2 ^ 32 ∧
      cfg.memBytes < (cfg.memBytes - 1) - (cfg.memBytes - 1) % cfg.grain + cfg.grain := by
  obtain ⟨hd, hbig⟩ := not_or.mp h
  have hsmall := Nat.lt_of_not_le hbig
  refine ⟨hsmall, ?_⟩
  by_contra hin
  have hmem : 0 < cfg.memBytes := by
    rw [Nat.pos_iff_ne_zero]
    intro h0
    rw [h0] at hd
    exact hd (Nat.dvd_zero _)
  -- the block that holds the last byte then ends at the end of memory
  have hsplit := Nat.div_add_mod (cfg.memBytes - 1) cfg.grain
  have hmod := Nat.mod_lt (cfg.memBytes - 1) hpos
  have heq : cfg.memBytes = cfg.grain * ((cfg.memBytes - 1) / cfg.grain + 1) := by
    rw [Nat.mul_add, Nat.mul_one]
    omega
  exact hd ⟨_, heq⟩

end Grid

/-! ## With whole blocks -/

section Whole

open MemorySystem

variable {cfg : SimConfig} {image : Nat → Byte} {evs : List (PortEvent τ)} {s : MemorySystem τ}

theorem PortRun.inside (hcfg : cfg.Accepted) (hfit : cfg.SizesFit) (h : cfg.WholeBlocks)
    (hrun : PortRun cfg.fetchBlockBytes cfg.addressable (.init cfg image) evs s) : s.Inside cfg := by
  have ht := run_tracks (P := fun la => la + cfg.grain ≤ cfg.memBytes) hcfg hfit (Nat.min_le_right _ _)
    (fun a ha => h.block_inside hcfg hfit ha) hrun
  obtain ⟨asked, -, hok, -, -⟩ := ht.fetches
  have hmode : s.isFlat = cfg.flatMemory := (isFlat_run hrun).trans (isFlat_init cfg image)
  cases s with
  | flat m =>
      have hgrain : cfg.grain = cfg.fetchBlockBytes := by rw [SimConfig.grain, if_pos (show cfg.flatMemory = true from hmode.symm)]
      refine ⟨fun pc hpc req _ haddr hsize => ?_, fun req hreq => ?_, ⟨_, rfl⟩⟩
      · have hin : req.addr + req.size ≤ m.backing.size := by
          have hblock := h.block_inside hcfg hfit hpc
          rw [hgrain] at hblock
          rw [haddr, hsize, hok.1]
          exact hblock
        obtain ⟨d, b, hacc⟩ := m.flatI.access_inRange hin
        refine ⟨.flat { m with flatI := d, backing := b }, ?_⟩
        unfold MemorySystem.iAccess FlatMemory.iAccess
        dsimp only
        rw [hacc]
      · have hin : req.addr + req.size ≤ m.backing.size := by
          rw [hok.1]
          exact Nat.le_trans hreq.inside (addressable_le_mem cfg)
        obtain ⟨d, b, hacc⟩ := m.dram.access_inRange hin
        refine ⟨.flat { m with dram := d, backing := b }, ?_⟩
        unfold MemorySystem.dAccess FlatMemory.dAccess
        dsimp only
        rw [hacc]
  | cached m =>
      obtain ⟨hsize, hline, hhier⟩ := hok
      obtain ⟨m', hm'⟩ := hhier.tick_ok fun la hla => by
        rw [hline, hsize]
        exact hla
      refine ⟨fun _ _ _ _ _ _ => ⟨_, rfl⟩, fun _ _ => ⟨_, rfl⟩, .cached m', ?_⟩
      unfold MemorySystem.tick
      dsimp only
      rw [hm']

end Whole

/-! ## Without whole blocks -/

namespace Cache

variable {c : Cache τ}

/-- A cache with nothing to do only counts the cycle. -/
theorem tick_idle (hp : c.pendingMisses = 0) (hw : c.wbq = []) (hi : c.pendingInstalls = [])
    (hh : c.hitPipe = []) (below : Bool) : c.tick below = ({ c with tickCount := c.tickCount + 1 }, none) := by
  unfold tick drainHits issueBelow
  dsimp only
  rw [hi, List.length_nil, retryInstalls]
  dsimp only
  rw [if_neg (by simp [hp, hw]), hh, List.takeWhile_nil, List.dropWhile_nil, List.map_nil, List.append_nil, ← hh]

/-- A miss in a cache without lines, queues or misses opens the first MSHR. -/
theorem access_first (req : MemRequest τ) (hway : c.findWay (c.setOf req.addr) (c.tagOf req.addr) = none)
    (hw : c.wbq = []) {n : Nat} (hm : c.mshrs = List.replicate (n + 1) {}) (hr : req.isWrite = false) :
    c.access req = c.allocMshr req (c.lineBase req.addr) 0 := by
  have hfree : c.freeMshr = some 0 := by
    unfold freeMshr
    rw [hm]
    rfl
  have hmiss : c.mshrFor (c.lineBase req.addr) = none := by
    unfold mshrFor
    rw [hm, List.findIdx?_eq_none_iff]
    intro m hmem
    rw [List.eq_of_mem_replicate hmem]
    rfl
  unfold access
  dsimp only
  rw [hway, hw]
  dsimp only [List.findIdx?_nil]
  rw [hmiss, hfree, if_neg (by simp [hr])]

/-- The refill of that MSHR is what the next clock edge asks for. -/
theorem tick_first {req : MemRequest τ} {la n : Nat} (hp : c.pendingMisses = 0) (hw : c.wbq = [])
    (hi : c.pendingInstalls = []) (hm : c.mshrs = List.replicate (n + 1) {}) :
    ((c.allocMshr req la 0).tick true).2 =
      some { addr := la, size := c.cfg.lineBytes, src := c.srcId, tag := .refill 0 } := by
  have hunsent : ∀ b : Cache τ, b.mshrs = (c.allocMshr req la 0).mshrs → b.unsentMshr = some 0 := by
    intro b hb
    unfold unsentMshr
    rw [hb]
    show ((c.mshrs.set 0 _).findIdx? _) = _
    rw [hm]
    rfl
  have hissue : ∀ d : Cache τ, d.pendingMisses = 1 → d.wbq = [] → d.cfg = c.cfg → d.srcId = c.srcId →
      d.mshrs = (c.allocMshr req la 0).mshrs → (d.issueBelow true).2 =
        some { addr := la, size := c.cfg.lineBytes, src := c.srcId, tag := .refill 0 } := by
    intro d h1 h2 h3 h4 h5
    have hla : (d.mshrAt 0).lineAddr = la := by
      unfold mshrAt
      rw [h5]
      unfold allocMshr
      dsimp only
      rw [hm]
      rfl
    unfold issueBelow
    rw [if_pos ⟨.inl (by rw [h1]; decide), rfl⟩, h2, hunsent d h5]
    show some ({ addr := (d.mshrAt 0).lineAddr, size := d.cfg.lineBytes, src := d.srcId, tag := .refill 0 } :
      MemRequest LineTag) = _
    rw [hla, h3, h4]
  unfold tick
  dsimp only
  rw [show ({ c.allocMshr req la 0 with tickCount := (c.allocMshr req la 0).tickCount + 1 } :
    Cache τ).drainHits.pendingInstalls = [] from hi, List.length_nil, retryInstalls]
  refine hissue _ ?_ hw rfl rfl rfl
  show c.pendingMisses + 1 = 1
  rw [hp]

end Cache

namespace CacheHierarchy

open Cache

theorem tick_eq {m m₁ m₂ : CacheHierarchy τ} (h₁ : ({ m with dram := m.dram.tick } : CacheHierarchy τ).drainDram = m₁)
    (h₂ : m₁.tickL2 = .ok m₂) : m.tick = .ok m₂.drainDram.drainL2.tickL1I.tickL1D.drainL2 := by
  unfold CacheHierarchy.tick
  rw [h₁, h₂]

/-- A cycle in which L2 asks for a line outside memory fails. -/
theorem tick_outside {m : CacheHierarchy τ} {req : MemRequest LineTag} (hr : m.dram.tick.respQ = [])
    (hreq : (m.l2.tick true).2 = some req) (hs : 4 < req.size)
    (hout : m.backing.size < req.addr + req.size) : ∃ e, m.tick = .error e := by
  have hdrain : ({ m with dram := m.dram.tick } : CacheHierarchy τ).drainDram = { m with dram := m.dram.tick } :=
    drainDram_nil hr
  have hfail : ∃ e, (m.dram.tick.access m.backing req) = .error e := by
    unfold DRAM.access DRAM.perform Memory.check
    rw [if_neg (Nat.not_le.mpr hs), if_pos hout]
    exact ⟨_, rfl⟩
  obtain ⟨e, he⟩ := hfail
  refine ⟨e, ?_⟩
  have htick : ({ m with dram := m.dram.tick } : CacheHierarchy τ).tickL2 = .error e := by
    have hcan : m.dram.tick.canAccept = true := rfl
    unfold tickL2
    dsimp only
    rw [hcan]
    generalize m.l2.tick true = r at hreq
    obtain ⟨l2, o⟩ := r
    obtain rfl : o = some req := hreq
    dsimp only
    rw [he]
  unfold CacheHierarchy.tick
  rw [hdrain, htick]

/-- The first cycle after the first miss of L1D brings it to L2. -/
theorem tick_firstMiss {cfg : SimConfig} (image : Nat → Byte) (req : MemRequest τ) {la n n₂ : Nat}
    (hm : cfg.l1d.mshrs = n + 1) (hm₂ : cfg.l2.mshrs = n₂ + 1) (hw₂ : 1 ≤ cfg.l2.wbq)
    (hway : (Cache.init (τ := LineTag) cfg.l2 .L2).findWay ((Cache.init (τ := LineTag) cfg.l2 .L2).setOf la)
      ((Cache.init (τ := LineTag) cfg.l2 .L2).tagOf la) = none) :
    ∃ (m : CacheHierarchy τ) (r : MemRequest LineTag) (l2 : Cache LineTag),
      ({ CacheHierarchy.init cfg image with
        l1d := (Cache.init cfg.l1d .L1D).allocMshr req la 0 } : CacheHierarchy τ).tick = .ok m ∧
      m.l2 = l2.allocMshr r (l2.lineBase la) 0 ∧ l2 = { Cache.init cfg.l2 .L2 with tickCount := 1 } ∧
      m.dram = (DRAM.init cfg.dramLatency).tick ∧ m.backing = (CacheHierarchy.init (τ := τ) cfg image).backing := by
  obtain ⟨m₁, h₁⟩ : ∃ m₁ : CacheHierarchy τ, m₁ = { CacheHierarchy.init cfg image with
    l1d := (Cache.init cfg.l1d .L1D).allocMshr req la 0, dram := (DRAM.init cfg.dramLatency).tick } := ⟨_, rfl⟩
  -- L2 and L1I have nothing to do
  have hl2 : m₁.tickL2 = .ok { m₁ with l2 := { Cache.init cfg.l2 .L2 with tickCount := 1 } } := by
    have hidle : m₁.l2.tick m₁.dram.canAccept = ({ Cache.init cfg.l2 .L2 with tickCount := 1 }, none) := by
      rw [h₁]
      exact tick_idle rfl rfl rfl rfl _
    unfold tickL2
    rw [hidle]
  obtain ⟨m₂, h₂⟩ : ∃ m₂ : CacheHierarchy τ, m₂ = { m₁ with l2 := { Cache.init cfg.l2 .L2 with tickCount := 1 } } :=
    ⟨_, rfl⟩
  have hl1i : m₂.tickL1I = { m₂ with l1i := { Cache.init cfg.l1i .L1I with tickCount := 1 } } := by
    have hidle : m₂.l1i.tick m₂.l2.canAccept = ({ Cache.init cfg.l1i .L1I with tickCount := 1 }, none) := by
      rw [h₂, h₁]
      exact tick_idle rfl rfl rfl rfl _
    unfold tickL1I
    rw [hidle]
    rfl
  obtain ⟨m₃, h₃⟩ : ∃ m₃ : CacheHierarchy τ, m₃ = { m₂ with l1i := { Cache.init cfg.l1i .L1I with tickCount := 1 } } :=
    ⟨_, rfl⟩
  have hcan : m₃.l2.canAccept = true := by
    rw [h₃, h₂]
    unfold Cache.canAccept Cache.init
    simp [hm₂, Nat.lt_of_succ_le hw₂]
  obtain ⟨r, hr⟩ : ∃ r : MemRequest LineTag,
    r = { addr := la, size := cfg.l1d.lineBytes, src := .L1D, tag := .refill 0 } := ⟨_, rfl⟩
  -- L1D sends its refill, which L2 misses
  have hl1d : m₃.tickL1D = { m₃ with
      l1d := (m₃.l1d.tick true).1
      l2 := m₃.l2.allocMshr r (m₃.l2.lineBase la) 0 } := by
    have hreq : (m₃.l1d.tick true).2 = some r := by
      rw [h₃, h₂, h₁, hr]
      exact tick_first rfl rfl rfl (by rw [← hm]; rfl)
    have hacc : m₃.l2.access r = m₃.l2.allocMshr r (m₃.l2.lineBase la) 0 := by
      have haddr : r.addr = la := by rw [hr]
      have hread : r.isWrite = false := by rw [hr]
      have hfirst := access_first (c := m₃.l2) (n := n₂) r (by rw [haddr, h₃, h₂]; exact hway)
        (by rw [h₃, h₂]; rfl) (by rw [h₃, h₂, ← hm₂]; rfl) hread
      rw [haddr] at hfirst
      exact hfirst
    unfold tickL1D
    rw [hcan]
    generalize m₃.l1d.tick true = t at hreq
    obtain ⟨l1d, o⟩ := t
    obtain rfl : o = some r := hreq
    show ({ m₃ with l1d := l1d, l2 := m₃.l2.access r } : CacheHierarchy τ) = _
    rw [hacc]
  refine ⟨m₃.tickL1D, r, m₃.l2, ?_, by rw [hl1d], by rw [h₃, h₂], by rw [hl1d, h₃, h₂, h₁],
    by rw [hl1d, h₃, h₂, h₁]⟩
  have hstart : ({ CacheHierarchy.init cfg image with
      l1d := (Cache.init cfg.l1d .L1D).allocMshr req la 0, dram := (DRAM.init cfg.dramLatency).tick } :
        CacheHierarchy τ).drainDram = m₁ := by
    rw [← h₁]
    exact drainDram_nil (by rw [h₁]; rfl)
  have hmid : m₂.drainDram.drainL2 = m₂ := by
    rw [drainDram_nil (by rw [h₂, h₁]; rfl), drainL2_nil (by rw [h₂]; rfl)]
  rw [tick_eq hstart (hl2.trans (by rw [← h₂])), hmid, hl1i, ← h₃, drainL2_nil (by rw [hl1d, h₃, h₂]; rfl)]

end CacheHierarchy

/-! ## Exactly when -/

/-- In every state that a legal use of the ports reaches, the next one stays inside memory. -/
def PortsInside (cfg : SimConfig) : Prop :=
  ∀ (image : Nat → Byte) (evs : List (PortEvent Nat)) (s : MemorySystem Nat),
    PortRun cfg.fetchBlockBytes cfg.addressable (.init cfg image) evs s → s.Inside cfg

/-- In flat mode the fetch of the last instruction leaves memory. -/
theorem flat_fetch_outside {cfg : SimConfig} (hcfg : cfg.Accepted) (hflat : cfg.flatMemory = true)
    (hsmall : cfg.memBytes < 2 ^ 32)
    (hout : cfg.memBytes < (cfg.memBytes - 1) - (cfg.memBytes - 1) % cfg.grain + cfg.grain) :
    ¬ PortsInside cfg := by
  intro h
  have hmem := hcfg.mem_ge
  have hge := hcfg.fetch_ge
  have hpc : cfg.memBytes - 1 < cfg.addressable := Nat.lt_min.mpr ⟨by omega, by omega⟩
  obtain ⟨s', hs'⟩ := (h (fun _ => 0) [] _ .reset).fetch _ hpc
    { addr := (cfg.memBytes - 1) - (cfg.memBytes - 1) % cfg.fetchBlockBytes, size := cfg.fetchBlockBytes, tag := 0 }
    rfl rfl rfl
  have hin := MemorySystem.iAccess_inside ((MemorySystem.isFlat_init cfg _).trans hflat)
    (Nat.lt_of_lt_of_le (by decide) hge) hs'
  have hsize : (MemorySystem.init (τ := Nat) cfg fun _ => 0).memSize = cfg.memBytes := by
    rw [MemorySystem.init, if_pos hflat]
    rfl
  rw [SimConfig.grain, if_pos hflat] at hout
  rw [hsize] at hin
  exact absurd hin (Nat.not_le_of_lt hout)

/-- In cache mode the refill after a miss of the last byte leaves memory. -/
theorem cached_refill_outside {cfg : SimConfig} (hcfg : cfg.Accepted) (hfit : cfg.SizesFit)
    (hcache : cfg.flatMemory = false) (hsmall : cfg.memBytes < 2 ^ 32)
    (hout : cfg.memBytes < (cfg.memBytes - 1) - (cfg.memBytes - 1) % cfg.grain + cfg.grain) :
    ¬ PortsInside cfg := by
  intro h
  have hmem := hcfg.mem_ge
  obtain ⟨-, gd, g2, hlines, -, -⟩ := CacheHierarchy.geometries (τ := Nat) hcfg hcache hfit
  obtain ⟨-, hd, h2, -⟩ := hcfg.caches hcache
  obtain ⟨n, hn⟩ : ∃ n, cfg.l1d.mshrs = n + 1 := ⟨cfg.l1d.mshrs - 1, by have := hd.mshrs_pos; omega⟩
  obtain ⟨n₂, hn₂⟩ : ∃ n, cfg.l2.mshrs = n + 1 := ⟨cfg.l2.mshrs - 1, by have := h2.mshrs_pos; omega⟩
  have hgrain : cfg.grain = cfg.l2.lineBytes := by rw [SimConfig.grain, if_neg (by simp [hcache])]
  rw [hgrain] at hout
  have hinit : MemorySystem.init (τ := Nat) cfg (fun _ => 0) = .cached (CacheHierarchy.init cfg fun _ => 0) := by
    rw [MemorySystem.init, if_neg (by simp [hcache])]
  -- a read of the last byte misses L1D
  obtain ⟨req, hreq⟩ : ∃ req : MemRequest Nat, req = { addr := cfg.memBytes - 1, size := 1, tag := 0 } := ⟨_, rfl⟩
  have hscalar : req.Scalar cfg.addressable := by
    rw [hreq]
    exact ⟨.inl rfl, Nat.mod_one _, Nat.le_min.mpr ⟨by show cfg.memBytes - 1 + 1 ≤ _; omega,
      by show cfg.memBytes - 1 + 1 ≤ _; omega⟩⟩
  obtain ⟨la, hla⟩ : ∃ la, la = (cfg.memBytes - 1) - (cfg.memBytes - 1) % cfg.l2.lineBytes := ⟨_, rfl⟩
  have hbase : (Cache.init (τ := Nat) cfg.l1d .L1D).lineBase req.addr = la := by
    rw [MemorySystem.lineBase_eq_sub gd, hreq, hla, ← hlines]
    rfl
  have hmiss : (Cache.init cfg.l1d .L1D).access req = (Cache.init (τ := Nat) cfg.l1d .L1D).allocMshr req la 0 := by
    rw [← hbase]
    have hfree : (Cache.init (τ := Nat) cfg.l1d .L1D).mshrs = List.replicate (n + 1) {} := by
      rw [← hn]
      rfl
    refine Cache.access_first req ((Cache.slotOf_eq_none ?_).mp (Cache.slotOf_init gd _)) rfl hfree (by rw [hreq])
    rw [hreq]
    show cfg.memBytes - 1 < 2 ^ 32
    omega
  have hcan : (MemorySystem.init (τ := Nat) cfg fun _ => 0).dCanAccept = true := by
    rw [hinit]
    show ((0 < (List.replicate cfg.l1d.mshrs ({} : Mshr Nat)).length : Bool) && (0 < cfg.l1d.wbq : Bool)) = true
    have := hd.wbq_pos
    simp [hn, Nat.lt_of_succ_le this]
  have hrun : PortRun cfg.fetchBlockBytes cfg.addressable (.init cfg fun _ => 0) [.dAccess req]
      (.cached { CacheHierarchy.init cfg (fun _ => 0) with
        l1d := (Cache.init cfg.l1d .L1D).allocMshr req la 0 }) := by
    apply PortRun.dAccess .reset hcan hscalar
    rw [hinit, ← hmiss]
    rfl
  -- one cycle later L2 has missed too, and asks DRAM for a line that ends outside memory
  have hway := (Cache.slotOf_eq_none (show la < 2 ^ 32 by omega)).mp (Cache.slotOf_init g2 la)
  obtain ⟨m, r, l2, ht, hl2, hl2', hdram, hback⟩ := CacheHierarchy.tick_firstMiss (fun _ => 0) req
    hn hn₂ h2.wbq_pos hway
  have hrun' := hrun.tick (show MemorySystem.tick _ = .ok (.cached m) by
    unfold MemorySystem.tick
    dsimp only
    rw [ht])
  have hla₂ : l2.lineBase la = la := by
    have hb : (Cache.init (τ := LineTag) cfg.l2 .L2).lineBase la = la := by
      have hb := Cache.lineBase_lineBase g2 (cfg.memBytes - 1)
      rw [MemorySystem.lineBase_eq_sub g2 (cfg.memBytes - 1)] at hb
      rw [hla]
      exact hb
    rw [hl2']
    exact hb
  have hfirst : (m.l2.tick true).2 =
      some { addr := la, size := cfg.l2.lineBytes, src := .L2, tag := .refill 0 } := by
    rw [hl2, hla₂, hl2']
    exact Cache.tick_first rfl rfl rfl (by rw [← hn₂]; rfl)
  have hline : 8 ≤ cfg.l2.lineBytes := Cache.eight_le g2
  obtain ⟨e, he⟩ := CacheHierarchy.tick_outside (by rw [hdram]; rfl) hfirst
    (show 4 < cfg.l2.lineBytes by omega) (by rw [hback, hla]; exact hout)
  obtain ⟨s', hs'⟩ := (h _ _ _ hrun').clock
  unfold MemorySystem.tick at hs'
  dsimp only at hs'
  rw [he] at hs'
  cases hs'

theorem portsInside_iff {cfg : SimConfig} (hcfg : cfg.Accepted) (hfit : cfg.SizesFit) :
    PortsInside cfg ↔ cfg.WholeBlocks := by
  refine ⟨fun h => ?_, fun h image evs s hrun => hrun.inside hcfg hfit h⟩
  by_contra hno
  obtain ⟨k, -, hk⟩ := grain_eq_pow hcfg hfit
  obtain ⟨hsmall, hout⟩ := last_block_outside (by rw [hk]; exact Nat.two_pow_pos k) hno
  cases hm : cfg.flatMemory with
  | true => exact flat_fetch_outside hcfg hm hsmall hout h
  | false => exact cached_refill_outside hcfg hfit hm hsmall hout h

end RvO3
