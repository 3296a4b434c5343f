import RvO3.Memory.Ports

/-!
# What the memory system guarantees

The hierarchy answers its data port as a flat byte memory does (`data_port_is_flat`), each
accepted request is answered once and held in one place until then (`answered_once`), a
line is in one table of a cache at a time (`residency`), and the functional byte read sees
the last write (`peek8_coherent`).
-/

set_option autoImplicit false

namespace RvO3

variable {τ : Type}

/-! ## Configurations -/

/-- The bytes that the levels move at once: a line, or a fetch block in flat mode. -/
def SimConfig.grain (cfg : SimConfig) : Nat :=
  if cfg.flatMemory then cfg.fetchBlockBytes else cfg.l2.lineBytes

theorem eight_dvd_pow {k : Nat} (h : 8 ≤ 2 ^ k) : 8 ∣ 2 ^ k := by
  have hk : 3 ≤ k := by
    rw [show 8 = 2 ^ 3 from rfl] at h
    exact (Nat.pow_le_pow_iff_right (by decide)).mp h
  exact Nat.pow_dvd_pow 2 hk

/-- A grid of blocks that ends at `bound` has the whole block of each byte below it. -/
theorem block_end_le {n a bound : Nat} (hd : n ∣ bound) (ha : a < bound) : a - a % n + n ≤ bound := by
  obtain ⟨q, rfl⟩ := hd
  have hsplit := Nat.div_add_mod a n
  have hlt : a / n < q := Nat.div_lt_of_lt_mul ha
  have hmul : n * (a / n + 1) ≤ n * q := Nat.mul_le_mul_left _ hlt
  rw [Nat.mul_add, Nat.mul_one] at hmul
  omega

/-- The bytes that an address can name. -/
def SimConfig.addressable (cfg : SimConfig) : Nat := min cfg.memBytes (2 ^ 32)

theorem addressable_le_mem (cfg : SimConfig) : cfg.addressable ≤ cfg.memBytes := Nat.min_le_left _ _

theorem SimConfig.Accepted.fetch_eq_pow {cfg : SimConfig} (hcfg : cfg.Accepted) :
    ∃ k, k ≤ 6 ∧ cfg.fetchBlockBytes = 2 ^ k := by
  have hge := hcfg.fetch_ge
  have hle := hcfg.fetch_le
  obtain ⟨k, hk⟩ := Nat.ne_zero_and_sub_one_eq_zero_iff_isPowerOfTwo.mp ⟨by omega, hcfg.fetch_pow⟩
  rw [hk] at hle
  exact ⟨k, (Nat.pow_le_pow_iff_right (by decide)).mp (show 2 ^ k ≤ 2 ^ 6 from hle), hk⟩

theorem SimConfig.Accepted.fetch_dvd {cfg : SimConfig} (hcfg : cfg.Accepted) :
    8 ∣ cfg.fetchBlockBytes := by
  have hge := hcfg.fetch_ge
  obtain ⟨k, -, hk⟩ := hcfg.fetch_eq_pow
  rw [hk] at hge ⊢
  exact eight_dvd_pow hge

namespace MemorySystem

open Cache

section

variable {cfg : SimConfig} {image : Nat → Byte} {bound : Nat} {P : Nat → Prop}
  {evs : List (PortEvent τ)} {s : MemorySystem τ}

theorem grid (hcfg : cfg.Accepted) (hfit : cfg.SizesFit) (hb : bound ≤ 2 ^ 32)
    (hP : ∀ a, a < bound → P (a - a % cfg.grain)) : Grid cfg.fetchBlockBytes bound cfg.grain P := by
  have hdvd := hcfg.fetch_dvd
  have hge := hcfg.fetch_ge
  cases hm : cfg.flatMemory with
  | true =>
      have hgrain : cfg.grain = cfg.fetchBlockBytes := by rw [SimConfig.grain, if_pos hm]
      exact ⟨by rw [hgrain], by rwa [hgrain], hb, by omega, hP⟩
  | false =>
      have hgrain : cfg.grain = cfg.l2.lineBytes := by rw [SimConfig.grain, if_neg (by simp [hm])]
      obtain ⟨-, -, -, -, -, hblock⟩ := CacheHierarchy.geometries (τ := Unit) hcfg hm hfit
      exact ⟨by rwa [hgrain], by rw [hgrain]; exact Nat.dvd_trans hdvd hblock, hb, by omega, hP⟩

theorem ok_init (hcfg : cfg.Accepted) (hfit : cfg.SizesFit) :
    (MemorySystem.init (τ := τ) cfg image).Ok cfg.memBytes cfg.grain P (fun _ => True) image 0 ∧
      (MemorySystem.init (τ := τ) cfg image).newest = image ∧
      (MemorySystem.init (τ := τ) cfg image).owed = 0 := by
  cases hm : cfg.flatMemory with
  | true =>
      have hinit : MemorySystem.init (τ := τ) cfg image = .flat (FlatMemory.init cfg image) := by
        rw [MemorySystem.init, if_pos hm]
      rw [hinit]
      exact ⟨⟨rfl, fun _ _ => rfl, .zero⟩, rfl, rfl⟩
  | false =>
      have hinit : MemorySystem.init (τ := τ) cfg image = .cached (CacheHierarchy.init cfg image) := by
        rw [MemorySystem.init, if_neg (by simp [hm])]
      have hgrain : cfg.grain = cfg.l2.lineBytes := by rw [SimConfig.grain, if_neg (by simp [hm])]
      obtain ⟨h1, h2, h3⟩ := CacheHierarchy.hierOk_init (τ := τ) image P hcfg hm hfit
      rw [hinit]
      exact ⟨⟨rfl, hgrain.symm, h1⟩, h2, h3⟩

/-- Every run from reset keeps the invariant, whatever lines the accesses are kept to. -/
theorem run_tracks (hcfg : cfg.Accepted) (hfit : cfg.SizesFit) (hb : bound ≤ 2 ^ 32)
    (hP : ∀ a, a < bound → P (a - a % cfg.grain))
    (h : PortRun cfg.fetchBlockBytes bound (.init cfg image) evs s) :
    Tracks cfg.memBytes cfg.grain P image evs s :=
  PortRun.tracks (grid hcfg hfit hb hP) (ok_init hcfg hfit) h

end

end MemorySystem

/-! ## The data port is a flat memory -/

section Flat

variable {image : Nat → Byte} {evs evs₁ evs₂ : List (PortEvent τ)} {a : Nat}

theorem memAfter_keeps (h : unwritten evs a) : ∀ mem : Nat → Byte, memAfter mem evs a = mem a := by
  induction evs with
  | nil => exact fun _ => rfl
  | cons e evs ih =>
      intro mem
      have hstep : memAfter mem (e :: evs) a = memAfter (e.apply mem) evs a := rfl
      rw [hstep, ih (fun req hreq => h req (List.mem_cons_of_mem _ hreq))]
      cases e with
      | dAccess req =>
          show req.apply mem a = mem a
          rw [MemRequest.apply, if_neg (h req List.mem_cons_self)]
      | tick => rfl
      | iAccess req => rfl
      | dResponse r => rfl
      | iResponse r => rfl

/-- A byte has the value of the last write that covered it. -/
theorem memAfter_last {w : MemRequest τ} (hw : w.isWrite = true) (hc : w.covers a)
    (h : unwritten evs₂ a) :
    memAfter image (evs₁ ++ .dAccess w :: evs₂) a = w.writeByte (a - w.addr) := by
  have hsplit : memAfter image (evs₁ ++ .dAccess w :: evs₂) =
      memAfter (w.apply (memAfter image evs₁)) evs₂ := by
    simp [memAfter, PortEvent.apply]
  rw [hsplit, memAfter_keeps h, MemRequest.apply, if_pos ⟨hw, hc⟩]

end Flat

section Flat

open MemorySystem

variable {cfg : SimConfig} {image : Nat → Byte} {evs : List (PortEvent τ)} {s : MemorySystem τ}

/-- Each response of the data port is the answer that a flat memory gives to an accepted access,
with the writes accepted before it and no others; each response of the fetch port has the image's
bytes where nothing was written. This holds in either mode, in every run of the two ports, whatever
the caches move in between. -/
theorem data_port_is_flat (hcfg : cfg.Accepted) (hfit : cfg.SizesFit) (hmem : cfg.memBytes < 2 ^ 32)
    (hrun : PortRun cfg.fetchBlockBytes cfg.memBytes (.init cfg image) evs s) :
    (↑(dResponses evs) : Multiset (MemResponse τ)) ≤ dAnswers image evs ∧
      (∀ r ∈ dResponses evs, ∃ evs₁ req evs₂, evs = evs₁ ++ .dAccess req :: evs₂ ∧ r.tag = req.tag ∧
        r.src = req.src ∧ (req.isWrite = false → ∀ b, b < req.size →
          r.byteOf req.size b = memAfter image evs₁ (req.addr + b))) ∧
      ∃ done, done ≤ (↑(iRequests evs) : Multiset (MemRequest τ)) ∧
        Multiset.Rel (Cache.Answers (unwritten evs) image) done ↑(iResponses evs) := by
  have ht := run_tracks (P := fun _ => True) hcfg hfit (Nat.le_of_lt hmem) (fun _ _ => trivial) hrun
  have hle : (↑(dResponses evs) : Multiset (MemResponse τ)) ≤ dAnswers image evs := by
    rw [ht.owed]
    exact Multiset.le_add_right _ _
  obtain ⟨asked, done, -, hreqs, hrel⟩ := ht.fetches
  refine ⟨hle, fun r hr => ?_, done, ?_, hrel⟩
  · have hmem : r ∈ dAnswers image evs := Multiset.mem_of_le hle (Multiset.mem_coe.mpr hr)
    obtain ⟨p, hp, rfl⟩ := List.mem_map.mp (Multiset.mem_coe.mp hmem)
    obtain ⟨evs₁, evs₂, hevs, hmem₁⟩ := mem_dAccepts hp
    refine ⟨evs₁, p.1, evs₂, hevs, MemRequest.answer_tag _ _, MemRequest.answer_src _ _,
      fun hread b hb => ?_⟩
    rw [MemRequest.answer_byte hread hb, hmem₁]
  · rw [hreqs]
    exact Multiset.le_add_right _ _

end Flat

/-- Caches of two and four lines of sixteen bytes, one way each. -/
def smallConfig : SimConfig :=
  { defaultConfig with
    dramLatency := 3, l1i := ⟨32, 1, 16, 1, 1, 1⟩, l1d := ⟨32, 1, 16, 1, 2, 2⟩
    l2 := ⟨64, 1, 16, 1, 2, 2⟩ }

theorem smallConfig_accepted : smallConfig.Accepted :=
  validateConfig_ok (by decide : validateConfig smallConfig = .ok smallConfig)

theorem smallConfig_sizesFit : smallConfig.SizesFit := by decide

/-- Two stores to lines of one set, each a miss, and a fetch beside the first; then a load of the
first store's word, whose refill evicts the second one's line, and beside it a load of another set
and a second fetch, both of them misses of L2. -/
def missUses : List (PortUse Nat) :=
  [.dAccess { tag := 1, addr := 0, size := 4, isWrite := true, wdata := 0x05060708 },
    .iAccess { tag := 2, addr := 64, size := 8 }, .tick, .tick, .tick, .tick, .tick, .iPop, .dPop,
    .dAccess { tag := 3, addr := 32, size := 1, isWrite := true, wdata := 9 }, .tick, .tick, .tick,
    .tick, .dPop, .dAccess { tag := 4, addr := 2, size := 2 },
    .dAccess { tag := 5, addr := 16, size := 4 }, .iAccess { tag := 6, addr := 96, size := 8 },
    .tick, .tick, .tick, .dPop]

/-- The load of the first store's upper half reads what was stored there, after its line went down to
L2 and came back. -/
theorem data_port_is_flat_misses : ∃ evs s, PortRun smallConfig.fetchBlockBytes smallConfig.memBytes
      (.init smallConfig fun a => BitVec.ofNat 8 a) evs s ∧
    (dResponses evs).map (fun r => (r.tag, r.rdata)) = [(1, 0), (3, 0), (4, 0x0506)] ∧
    (iResponses evs).map (·.tag) = [2] ∧
    (↑(dResponses evs) : Multiset (MemResponse Nat)) ≤ dAnswers (fun a => BitVec.ofNat 8 a) evs ∧
    (∀ r ∈ dResponses evs, ∃ evs₁ req evs₂, evs = evs₁ ++ .dAccess req :: evs₂ ∧ r.tag = req.tag ∧
      r.src = req.src ∧ (req.isWrite = false → ∀ b, b < req.size →
        r.byteOf req.size b = memAfter (fun a => BitVec.ofNat 8 a) evs₁ (req.addr + b))) ∧
    ∃ done, done ≤ (↑(iRequests evs) : Multiset (MemRequest Nat)) ∧
      Multiset.Rel (Cache.Answers (unwritten evs) fun a => BitVec.ofNat 8 a) done ↑(iResponses evs) := by
  obtain ⟨evs, s, hrun, hp⟩ := PortRun.eval smallConfig.fetchBlockBytes smallConfig.memBytes
    (.init smallConfig fun a => BitVec.ofNat 8 a) missUses
    (p := fun evs _ => decide ((dResponses evs).map (fun r => (r.tag, r.rdata)) =
      [(1, 0), (3, 0), (4, 0x0506)] ∧ (iResponses evs).map (·.tag) = [2])) (by decide +kernel)
  obtain ⟨hdata, hfetch⟩ := of_decide_eq_true hp
  exact ⟨evs, s, hrun, hdata, hfetch,
    data_port_is_flat smallConfig_accepted smallConfig_sizesFit (by decide) hrun⟩

/-! ## The functional byte read -/

namespace Cache

variable {c : Cache τ} {P : Nat → Prop} {below : Nat → Byte} {a : Nat}

/-- The newest write among the waiting ones covers the older ones. -/
theorem applyAll_eq_findSome (a : Nat) (ws : List (Waiting τ)) :
    applyAll ws below a = (ws.reverse.findSome? (waitingByte a)).getD (below a) := by
  induction ws using List.reverseRecOn with
  | nil => rfl
  | append_singleton ws w ih =>
      rw [applyAll_append, List.reverse_append, List.reverse_singleton, List.singleton_append,
        List.findSome?_cons]
      unfold waitingByte MemRequest.apply MemRequest.covers MemRequest.writeByte
      dsimp only
      by_cases hw : w.req.isWrite = true ∧ w.req.addr ≤ a ∧ a < w.req.addr + w.req.size
      · have hno : ¬((!w.req.isWrite || decide (a < w.req.addr) ||
            decide (a ≥ w.req.addr + w.req.size)) = true) := by
          rw [hw.1]
          simp only [Bool.not_true, Bool.false_or, Bool.or_eq_true, decide_eq_true_eq, ge_iff_le]
          omega
        rw [if_pos hw, if_neg hno, Option.getD_some]
        by_cases hs : w.req.size ≤ 4
        · rw [if_pos hs, if_neg (by omega)]
        · rw [if_neg hs, if_pos (by omega)]
      · rw [if_neg hw, if_pos (by
          simp only [Bool.or_eq_true, Bool.not_eq_true', decide_eq_true_eq, ge_iff_le]
          by_cases h1 : w.req.isWrite = true
          · have : ¬(w.req.addr ≤ a ∧ a < w.req.addr + w.req.size) := fun h => hw ⟨h1, h⟩
            omega
          · simp [h1])]
        exact ih

/-- A waiting request covers bytes of its line only. -/
theorem waitingByte_other {w : Waiting τ} (hg : c.Geometry) (hf : c.Fits w.req)
    (hb : c.lineBase a ≠ c.lineBase w.req.addr) : waitingByte a w = none := by
  have h := hf.apply_other hg hb fun _ => 0
  unfold waitingByte
  rw [if_pos]
  have hl := isLine_lineBase hg hf.addr
  have haddr := lineBase_add_offset hg w.req.addr
  have hin := hf.inLine
  by_cases hc : w.req.addr ≤ a ∧ a < w.req.addr + w.req.size
  · refine absurd ?_ hb
    obtain ⟨h1, -⟩ := lineBase_add hg hl.1 (b := a - c.lineBase w.req.addr) (by omega)
    rwa [show c.lineBase w.req.addr + (a - c.lineBase w.req.addr) = a by omega] at h1
  · simp only [Bool.or_eq_true, Bool.not_eq_true', decide_eq_true_eq, ge_iff_le]
    omega

/-- The byte read finds the newest copy that the cache owns. -/
theorem peek8_view (hc : CacheOk P c) (ha : a < 2 ^ 32) (below : Nat → Byte) :
    (c.peek8 a).getD (below a) = c.view below a := by
  have hg := hc.arrays.geometry
  refine (Newest.view_eq hc ha ?_).symm
  unfold peek8
  cases hway : c.findWay (c.setOf a) (c.tagOf a) with
  | some way =>
      have hs : c.slotOf a = some (c.lineIdx (c.setOf a) way) := by
        rw [slotOf, if_pos ha, hway]
        rfl
      exact .here (lineAt_eq hs)
  | none =>
      have hl : c.lineAt a = none := lineAt_eq_none.mpr ((slotOf_eq_none ha).mpr hway)
      have haddr := lineBase_add_offset hg a
      have hoff := offset_lt hg a
      -- the entries of the queue that cover the byte
      have hcov : ∀ e ∈ c.wbq, (e.addr ≤ a ∧ a < e.addr + c.cfg.lineBytes) ↔ e.addr = c.lineBase a := by
        intro e he
        have hline := (hc.leaving e he).1
        constructor
        · rintro ⟨h1, h2⟩
          obtain ⟨h3, -⟩ := lineBase_add hg hline.1 (b := a - e.addr) (by omega)
          rw [show e.addr + (a - e.addr) = a by omega] at h3
          exact h3.symm
        · intro h
          omega
      cases hfind : c.wbq.find? (fun e => decide (a ≥ e.addr) && decide (a < e.addr + c.cfg.lineBytes)) with
      | some e =>
          have hp := List.find?_some hfind
          have hmem := List.mem_of_find?_eq_some hfind
          simp only [Bool.and_eq_true, decide_eq_true_eq, ge_iff_le] at hp
          have hea := (hcov e hmem).mp hp
          have hsub : a - e.addr = c.offsetOf a := by omega
          dsimp only
          rw [hsub]
          exact .leaving hmem hea
      | none =>
          have hout : ∀ e ∈ c.wbq, e.addr ≠ c.lineBase a := by
            intro e he heq
            have hn := List.find?_eq_none.mp hfind e he
            have hin := (hcov e he).mpr heq
            simp only [Bool.and_eq_true, decide_eq_true_eq, ge_iff_le] at hn
            exact hn hin
          dsimp only
          -- an MSHR of another line holds nothing for the byte
          have hskip : ∀ i, ¬((c.mshrAt i).valid = true ∧ (c.mshrAt i).lineAddr = c.lineBase a) →
              (if (c.mshrAt i).valid then (c.mshrAt i).waiting.reverse.findSome? (waitingByte a)
                else none) = none := by
            intro i hno
            split
            · rename_i hv
              have hm := hc.misses i hv
              rw [List.findSome?_eq_none_iff]
              intro w hw
              obtain ⟨hf, hb⟩ := hm.fits w (List.mem_reverse.mp hw)
              refine waitingByte_other hg hf fun heq => hno ⟨hv, ?_⟩
              rw [heq, hb]
            · rfl
          have hat : ∀ m ∈ c.mshrs, ∃ i, c.mshrAt i = m := by
            intro m hm
            obtain ⟨i, hi, rfl⟩ := List.getElem_of_mem hm
            exact ⟨i, by rw [mshrAt, List.getElem?_eq_getElem hi]; rfl⟩
          by_cases hex : ∃ i, (c.mshrAt i).valid = true ∧ (c.mshrAt i).lineAddr = c.lineBase a
          · obtain ⟨i, hv, hla⟩ := hex
            have hmem : c.mshrAt i ∈ c.mshrs := List.mem_of_getElem? (mshrAt_of_lt (valid_lt hv))
            rw [findSome?_eq_of_mem hmem]
            · rw [if_pos hv, ← applyAll_eq_findSome]
              exact .fetching hv hla
            · intro m hm
              obtain ⟨j, rfl⟩ := hat m hm
              by_cases hj : (c.mshrAt j).valid = true ∧ (c.mshrAt j).lineAddr = c.lineBase a
              · rw [hc.missOnce j i hj.1 hv (hj.2.trans hla.symm)]
                exact .inr rfl
              · exact .inl (hskip j hj)
          · have hnone : c.mshrs.findSome? (fun m => if m.valid then
                m.waiting.reverse.findSome? (waitingByte a) else none) = none := by
              rw [List.findSome?_eq_none_iff]
              intro m hm
              obtain ⟨i, rfl⟩ := hat m hm
              exact hskip i fun h => hex ⟨i, h⟩
            rw [hnone]
            exact .below hl hout fun i hv hla => hex ⟨i, hv, hla⟩

end Cache

theorem Memory.load8_ok {m : Memory} {a : Nat} (h : a < m.size) : m.load8 a = .ok (m.bytes a) := by
  unfold Memory.load8 Memory.load
  rw [if_neg (by omega)]
  have hbyte := wordByte_scalarOf (fun b => m.bytes (a + b)) (show 1 ≤ 4 by decide) Nat.zero_lt_one
  rw [Nat.add_zero] at hbyte
  rw [← hbyte]
  simp [wordByte]

theorem CacheHierarchy.HierOk.peek8 {P same : Nat → Prop} {image : Nat → Byte}
    {asked : Multiset (MemRequest τ)} {m : CacheHierarchy τ} (h : m.HierOk P same image asked) {a : Nat}
    (ha : a < m.backing.size) (htop : a < 2 ^ 32) : m.peek8 a = .ok (m.dataView a) := by
  have h1 := Cache.peek8_view h.l1d htop m.lowerView
  have h2 := Cache.peek8_view h.l2 htop m.backing.bytes
  unfold CacheHierarchy.peek8 Memory.check
  rw [if_neg (by omega)]
  dsimp only
  rw [dataView, ← h1]
  cases hd : m.l1d.peek8 a with
  | some b => rfl
  | none =>
      rw [Option.getD_none, lowerView, ← h2]
      cases hl : m.l2.peek8 a with
      | some b => rfl
      | none => exact Memory.load8_ok ha

/-- The functional byte read sees the last write that the data port accepted. -/
theorem MemorySystem.peek8_coherent {cfg : SimConfig} {image : Nat → Byte} {evs : List (PortEvent τ)}
    {s : MemorySystem τ} (hcfg : cfg.Accepted) (hfit : cfg.SizesFit) (hmem : cfg.memBytes < 2 ^ 32)
    (hrun : PortRun cfg.fetchBlockBytes cfg.memBytes (.init cfg image) evs s) {a : Nat}
    (ha : a < cfg.memBytes) : s.peek8 a = .ok (memAfter image evs a) := by
  have ht := run_tracks (P := fun _ => True) hcfg hfit (Nat.le_of_lt hmem) (fun _ _ => trivial) hrun
  obtain ⟨asked, done, hok, -, -⟩ := ht.fetches
  rw [← ht.newest]
  cases s with
  | flat m => exact Memory.load8_ok (by rw [hok.1]; exact ha)
  | cached m => exact hok.2.2.peek8 (by rw [hok.1]; exact ha) (Nat.lt_trans ha hmem)

end RvO3
