import RvO3.Memory.Fetch
import RvO3.Memory.System

/-!
# The hierarchy over one memory

The newest byte of the data side is the view of L1D over the view of L2 over the backing
store. One invariant (`HierOk`) ties the three caches and DRAM together: what L2 owes is
what the L1s wait for, and what DRAM holds is what L2 waits for. Inside a cycle lines and
answers move, and neither the newest bytes nor what the data port owes change
(`SameFlat`); accepting a request changes them as it changes a flat memory.
-/

set_option autoImplicit false

namespace RvO3

variable {τ : Type}

/-! ## DRAM -/

/-- An accepted access is performed on the store, and its answer is held. -/
theorem DRAM.access_ok {d d' : DRAM τ} {backing backing' : Memory} {req : MemRequest τ}
    (h : d.access backing req = .ok (d', backing')) :
    backing'.size = backing.size ∧ backing'.bytes = req.apply backing.bytes ∧
      (↑d'.held : Multiset (MemResponse τ)) = req.answer backing.bytes ::ₘ ↑d.held := by
  -- the access itself, by kind and by size: words, or a line
  have hperform : ∀ {m : Memory} {r : MemResponse τ}, DRAM.perform backing req = .ok (m, r) →
      m.size = backing.size ∧ m.bytes = req.apply backing.bytes ∧ r = req.answer backing.bytes := by
    intro m r hp
    unfold DRAM.perform Memory.store Memory.load Memory.check at hp
    dsimp only at hp
    cases hw : req.isWrite with
    | false =>
        have happly : req.apply backing.bytes = backing.bytes := by
          funext a
          unfold MemRequest.apply
          rw [if_neg (by simp [hw])]
        rw [happly]
        unfold MemRequest.answer
        rw [hw] at hp ⊢
        simp only [Bool.false_eq_true, if_false] at hp ⊢
        by_cases hs : req.size ≤ 4
        · rw [if_pos hs] at hp
          rw [if_neg (by omega)]
          split at hp
          · rename_i v hv
            cases hp
            split at hv
            · cases hv
            · cases hv
              exact ⟨rfl, rfl, rfl⟩
          · cases hp
        · rw [if_neg hs] at hp
          rw [if_pos (by omega)]
          split at hp
          · cases hp
          · cases hp
            exact ⟨rfl, rfl, rfl⟩
    | true =>
        unfold MemRequest.answer MemRequest.apply MemRequest.covers MemRequest.writeByte
        rw [hw] at hp ⊢
        simp only [if_true, true_and] at hp ⊢
        by_cases hs : req.size ≤ 4
        · rw [if_pos hs] at hp
          split at hp
          · rename_i m' hm
            cases hp
            split at hm
            · cases hm
            · cases hm
              refine ⟨rfl, ?_, rfl⟩
              funext a
              unfold Memory.storeBytes
              rw [if_pos hs]
          · cases hp
        · rw [if_neg hs] at hp
          split at hp
          · cases hp
          · cases hp
            refine ⟨rfl, ?_, rfl⟩
            funext a
            unfold DRAM.writeLine
            rw [if_neg hs]
  unfold DRAM.access at h
  split at h
  · cases h
  · rename_i m r hp
    obtain ⟨h1, h2, rfl⟩ := hperform hp
    dsimp only at h
    -- without latency the answer is ready at once, else it is in flight; held either way
    split at h
    · cases h
      refine ⟨h1, h2, ?_⟩
      rw [Multiset.cons_coe, Multiset.coe_eq_coe]
      unfold DRAM.held
      rw [List.append_assoc, List.singleton_append]
      exact List.perm_middle
    · cases h
      refine ⟨h1, h2, ?_⟩
      rw [Multiset.cons_coe, Multiset.coe_eq_coe]
      unfold DRAM.held
      dsimp only
      rw [List.map_append, ← List.append_assoc]
      exact List.perm_append_singleton _ _

/-- An access inside memory does not fail. -/
theorem DRAM.access_inRange {d : DRAM τ} {backing : Memory} {req : MemRequest τ}
    (h : req.addr + req.size ≤ backing.size) : ∃ d' backing', d.access backing req = .ok (d', backing') := by
  unfold DRAM.access DRAM.perform Memory.store Memory.load Memory.check
  simp only [if_neg (Nat.not_lt.mpr h)]
  by_cases hs : req.size ≤ 4 <;> cases hw : req.isWrite <;> by_cases hl : d.latency = 1 <;>
    simp [hs, hl]

namespace Cache

variable {c c' : Cache τ} {below below' : Nat → Byte} {P : Nat → Prop}
  {refills : Multiset (MemResponse LineTag)} {tags : Multiset LineTag}

/-! ## The cycle of one cache -/

/-- Past the address space there is only the level below. -/
theorem view_ext (h : ∀ a, a < 2 ^ 32 → c'.view below' a = c.view below a)
    (hb : ∀ a, 2 ^ 32 ≤ a → below' a = below a) : c'.view below' = c.view below := by
  funext a
  by_cases ha : a < 2 ^ 32
  · exact h a ha
  · have hb := hb a (Nat.not_lt.mp ha)
    unfold view
    rw [if_neg ha, if_neg ha, hb]

/-- A request for one line stays inside the address space. -/
theorem Fits.apply_high {σ : Type} {req : MemRequest σ} (hg : c.Geometry) (hf : c.Fits req) {a : Nat}
    (ha : 2 ^ 32 ≤ a) (mem : Nat → Byte) : req.apply mem a = mem a := by
  have hl := isLine_lineBase hg hf.addr
  have hend := IsLine.end_le hg hl
  have haddr := lineBase_add_offset hg req.addr
  have hin := hf.inLine
  unfold MemRequest.apply MemRequest.covers
  rw [if_neg]
  rintro ⟨-, -, h⟩
  omega

/-- What a cache keeps before its request of the cycle. -/
structure Settled (P : Nat → Prop) (c : Cache τ) (below : Nat → Byte)
    (refills : Multiset (MemResponse LineTag)) (c' : Cache τ) : Prop where
  ok : CacheOk P c'
  refillsOk : RefillsOk c' (refills.map (·.tag))
  data : DataOk c' below refills
  cfg : c'.cfg = c.cfg
  srcId : c'.srcId = c.srcId
  view : c'.view below = c.view below
  owed : c'.owed below = c.owed below

theorem settles (hc : CacheOk P c) (hr : RefillsOk c (refills.map (·.tag)))
    (hd : DataOk c below refills) (n : Nat) :
    Settled P c below refills (retryInstalls n ({ c with tickCount := c.tickCount + 1 } : Cache τ).drainHits) := by
  refine retryInstalls_preserve (I := Settled P c below refills) (fun {c₁ c₂} hret hs => ?_) n ?_
  · obtain ⟨h1, h2, h3, h4, -⟩ := hs.ok.retries hs.refillsOk hret
    obtain ⟨hd', hv, ho⟩ := DataOk.retries hs.ok hs.data hs.refillsOk hret
    exact ⟨h1, h4, hd', h2.trans hs.cfg, h3.trans hs.srcId,
      (view_ext hv fun _ _ => rfl).trans hs.view, ho.trans hs.owed⟩
  · refine ⟨hc.drainHits, hr, ⟨hd.clean, hd.coming, hd.deferred⟩, rfl, rfl, rfl, ?_⟩
    unfold Cache.owed
    rw [drainHits_answered]
    rfl

/-- The same for L1I. -/
structure FetchSettled (P : Nat → Prop) (c : Cache τ) (same : Nat → Prop) (image : Nat → Byte)
    (asked : Multiset (MemRequest τ)) (refills : Multiset (MemResponse LineTag)) (c' : Cache τ) :
    Prop where
  ok : CacheOk P c'
  refillsOk : RefillsOk c' (refills.map (·.tag))
  fetch : FetchOk c' same image asked refills
  cfg : c'.cfg = c.cfg
  srcId : c'.srcId = c.srcId

theorem fetchSettles {same : Nat → Prop} {image : Nat → Byte} {asked : Multiset (MemRequest τ)}
    (hc : CacheOk P c) (hr : RefillsOk c (refills.map (·.tag)))
    (hf : FetchOk c same image asked refills) (n : Nat) :
    FetchSettled P c same image asked refills
      (retryInstalls n ({ c with tickCount := c.tickCount + 1 } : Cache τ).drainHits) := by
  refine retryInstalls_preserve (I := FetchSettled P c same image asked refills)
    (fun {c₁ c₂} hret hs => ?_) n ?_
  · obtain ⟨h1, h2, h3, h4, -⟩ := hs.ok.retries hs.refillsOk hret
    exact ⟨h1, h4, hs.fetch.retries hs.ok hs.refillsOk hret, h2.trans hs.cfg, h3.trans hs.srcId⟩
  · exact ⟨hc.drainHits, hr, hf.drainHits, rfl, rfl⟩

end Cache

/-! ## The invariant -/

namespace CacheHierarchy

open Cache

/-- The newest bytes of L2 and below, and the answers L2 owes. -/
def lowerView (m : CacheHierarchy τ) : Nat → Byte := m.l2.view m.backing.bytes

/-- The answers that the L2 owes to the caches above. -/
def lowerOwed (m : CacheHierarchy τ) : Multiset (MemResponse LineTag) := m.l2.owed m.backing.bytes

/-- The answers L2 owes one of its requesters. -/
def owedTo (m : CacheHierarchy τ) (s : Src) : Multiset (MemResponse LineTag) :=
  m.lowerOwed.filter fun r => r.src = s

/-- The newest bytes, and the answers that the data port owes. -/
def dataView (m : CacheHierarchy τ) : Nat → Byte := m.l1d.view m.lowerView

/-- The answers that the L1D owes to the core. -/
def dataOwed (m : CacheHierarchy τ) : Multiset (MemResponse τ) := m.l1d.owed m.lowerView

/-- `P` holds of the lines, `same` of the bytes never written, and `asked` are the fetches
not answered. -/
structure HierOk (P same : Nat → Prop) (image : Nat → Byte) (asked : Multiset (MemRequest τ))
    (m : CacheHierarchy τ) : Prop where
  l2 : CacheOk P m.l2
  l1d : CacheOk P m.l1d
  l1i : CacheOk P m.l1i
  lineD : m.l1d.cfg.lineBytes = m.l2.cfg.lineBytes
  lineI : m.l1i.cfg.lineBytes = m.l2.cfg.lineBytes
  srcD : m.l1d.srcId = .L1D
  srcI : m.l1i.srcId = .L1I
  srcs : ∀ r ∈ m.lowerOwed, r.src = .L1D ∨ r.src = .L1I
  refills2 : RefillsOk m.l2 ((m.dram.held : Multiset (MemResponse LineTag)).map (·.tag))
  refillsD : RefillsOk m.l1d ((m.owedTo .L1D).map (·.tag))
  refillsI : RefillsOk m.l1i ((m.owedTo .L1I).map (·.tag))
  data2 : DataOk m.l2 m.backing.bytes m.dram.held
  dataD : DataOk m.l1d m.lowerView (m.owedTo .L1D)
  fetch : FetchOk m.l1i same image asked (m.owedTo .L1I)
  lowerSame : ∀ a, same a → m.lowerView a = image a
  upperSame : ∀ a, same a → m.dataView a = image a

/-- The newest bytes, what the data port owes and the sizes of memory and lines stay. -/
structure SameFlat (m m' : CacheHierarchy τ) : Prop where
  view : m'.dataView = m.dataView
  owed : m'.dataOwed = m.dataOwed
  size : m'.backing.size = m.backing.size
  line : m'.l2.cfg.lineBytes = m.l2.cfg.lineBytes

theorem SameFlat.refl (m : CacheHierarchy τ) : SameFlat m m := ⟨rfl, rfl, rfl, rfl⟩

theorem SameFlat.trans {m m' m'' : CacheHierarchy τ} (h : SameFlat m m') (h' : SameFlat m' m'') :
    SameFlat m m'' :=
  ⟨h'.view.trans h.view, h'.owed.trans h.owed, h'.size.trans h.size, h'.line.trans h.line⟩

section Steps

variable {P same : Nat → Prop} {image : Nat → Byte} {asked : Multiset (MemRequest τ)}
  {m m' : CacheHierarchy τ}

/-- A step below the L1s that moves neither the newest bytes of L2 nor what L2 owes. -/
theorem HierOk.lower (h : HierOk P same image asked m) (hd : m'.l1d = m.l1d) (hi : m'.l1i = m.l1i)
    (hok : CacheOk P m'.l2) (hcfg : m'.l2.cfg = m.l2.cfg)
    (hr : RefillsOk m'.l2 ((m'.dram.held : Multiset (MemResponse LineTag)).map (·.tag)))
    (hdata : DataOk m'.l2 m'.backing.bytes m'.dram.held) (hview : m'.lowerView = m.lowerView)
    (howed : m'.lowerOwed = m.lowerOwed) (hsize : m'.backing.size = m.backing.size) :
    HierOk P same image asked m' ∧ SameFlat m m' := by
  have hto : ∀ s, m'.owedTo s = m.owedTo s := fun s => by rw [owedTo, howed, ← owedTo]
  have hflat : SameFlat m m' := by
    refine ⟨?_, ?_, hsize, by rw [hcfg]⟩
    · rw [dataView, hd, hview, ← dataView]
    · rw [dataOwed, hd, hview, ← dataOwed]
  refine ⟨⟨hok, ?_, ?_, ?_, ?_, ?_, ?_, ?_, hr, ?_, ?_, hdata, ?_, ?_, ?_, ?_⟩, hflat⟩
  · rw [hd]; exact h.l1d
  · rw [hi]; exact h.l1i
  · rw [hd, hcfg]; exact h.lineD
  · rw [hi, hcfg]; exact h.lineI
  · rw [hd]; exact h.srcD
  · rw [hi]; exact h.srcI
  · rw [howed]; exact h.srcs
  · rw [hd, hto]; exact h.refillsD
  · rw [hi, hto]; exact h.refillsI
  · rw [hd, hview, hto]; exact h.dataD
  · rw [hi, hto]; exact h.fetch
  · rw [hview]; exact h.lowerSame
  · rw [hflat.view]; exact h.upperSame

/-- One DRAM completion goes to the L2. -/
theorem HierOk.deliverDram (h : HierOk P same image asked m) {r : MemResponse LineTag}
    (hq : m.dram.respQ.head? = some r) :
    HierOk P same image asked { m with l2 := m.l2.deliverBelowResponse r, dram := m.dram.popResponse } ∧
      SameFlat m { m with l2 := m.l2.deliverBelowResponse r, dram := m.dram.popResponse } := by
  obtain ⟨rest, hrest⟩ := List.head?_eq_some_iff.mp hq
  have hheld : (m.dram.held : Multiset (MemResponse LineTag)) = r ::ₘ m.dram.popResponse.held := by
    rw [Multiset.cons_coe]
    congr 1
    simp [DRAM.held, DRAM.popResponse, hrest]
  have hr := h.refills2
  have hd := h.data2
  rw [hheld] at hr hd
  rw [Multiset.map_cons] at hr
  obtain ⟨h1, h2, -, h4⟩ := h.l2.deliver hr
  obtain ⟨h5, h6, h7⟩ := DataOk.deliver h.l2 hd hr
  exact h.lower rfl rfl h1 h2 h4 h5 (view_ext h6 fun _ _ => rfl) h7 rfl

theorem drainDram_nil (h : m.dram.respQ = []) : m.drainDram = m := by
  unfold CacheHierarchy.drainDram
  rw [h, List.foldl_nil, ← h]

theorem drainDram_cons {r : MemResponse LineTag} {rs : List (MemResponse LineTag)}
    (hq : m.dram.respQ = r :: rs) : m.drainDram =
      ({ m with l2 := m.l2.deliverBelowResponse r, dram := m.dram.popResponse } : CacheHierarchy τ).drainDram := by
  unfold drainDram DRAM.popResponse
  simp only [hq, List.foldl_cons, List.tail_cons]

theorem HierOk.drainDram (h : HierOk P same image asked m) :
    HierOk P same image asked m.drainDram ∧ SameFlat m m.drainDram := by
  generalize hq : m.dram.respQ = rs
  induction rs generalizing m with
  | nil =>
      rw [drainDram_nil hq]
      exact ⟨h, .refl m⟩
  | cons r rs ih =>
      obtain ⟨h1, h2⟩ := h.deliverDram (r := r) (by rw [hq]; rfl)
      rw [drainDram_cons hq]
      obtain ⟨h3, h4⟩ := ih h1 (by simp [DRAM.popResponse, hq])
      exact ⟨h3, h2.trans h4⟩

/-- The L2 clock edge; it may hand DRAM one request. -/
theorem HierOk.tickL2 (h : HierOk P same image asked m) (ht : m.tickL2 = .ok m') :
    HierOk P same image asked m' ∧ SameFlat m m' := by
  -- hits are answered and installs retried before a request is issued
  have hs := settles h.l2 h.refills2 h.data2 m.l2.pendingInstalls.length
  generalize hc₁ : retryInstalls m.l2.pendingInstalls.length
    ({ m.l2 with tickCount := m.l2.tickCount + 1 } : Cache LineTag).drainHits = c₁ at hs
  have htick : m.l2.tick m.dram.canAccept = c₁.issueBelow m.dram.canAccept := by
    rw [← hc₁]
    rfl
  have hi := issues c₁ m.dram.canAccept
  unfold CacheHierarchy.tickL2 at ht
  rw [htick] at ht
  generalize c₁.issueBelow m.dram.canAccept = r at hi ht
  obtain ⟨h1, h2, -, h4, h5⟩ := hi.cacheOk hs.ok hs.refillsOk
  obtain ⟨hnone, hsome⟩ := hi.data hs.ok hs.data hs.refillsOk
  obtain ⟨c₂, o⟩ := r
  cases o with
  | none =>
      cases ht
      obtain rfl : c₂ = c₁ := hnone rfl
      exact h.lower rfl rfl hs.ok hs.cfg hs.refillsOk hs.data hs.view hs.owed rfl
  | some req =>
      dsimp only at ht
      split at ht
      · cases ht
      · rename_i dram backing hacc
        cases ht
        obtain ⟨hsz, hbytes, hheld⟩ := DRAM.access_ok hacc
        obtain ⟨-, hr, -, hl, -, hsize⟩ := h5 req rfl
        obtain ⟨hd1, hd2, hd3, -⟩ := hsome req rfl
        -- an aligned line does not reach the end of the address space
        have hfit := IsLine.fits hs.ok.arrays.geometry hl hsize
        refine h.lower rfl rfl h1 (h2.trans hs.cfg) ?_ ?_ ?_ ?_ hsz
        · show RefillsOk c₂ ((dram.held : Multiset (MemResponse LineTag)).map (·.tag))
          rw [hheld, Multiset.map_cons]
          rw [MemRequest.answer_tag]
          exact hr
        · show DataOk c₂ backing.bytes dram.held
          rw [hbytes, hheld]
          exact hd1
        · show c₂.view backing.bytes = m.lowerView
          rw [hbytes, lowerView, ← hs.view]
          exact view_ext hd2 fun a ha => hfit.apply_high hs.ok.arrays.geometry ha _
        · show c₂.owed backing.bytes = m.lowerOwed
          rw [hbytes, lowerOwed, ← hs.owed]
          exact hd3

/-! ### L2 completions -/

theorem owedTo_cons {m₁ : CacheHierarchy τ} {r : MemResponse LineTag}
    (h : m.lowerOwed = r ::ₘ m₁.lowerOwed) (s : Src) :
    m.owedTo s = if r.src = s then r ::ₘ m₁.owedTo s else m₁.owedTo s := by
  rw [owedTo, h]
  split
  · rename_i hs
    exact Multiset.filter_cons_of_pos (p := fun r : MemResponse LineTag => r.src = s) _ hs
  · rename_i hs
    exact Multiset.filter_cons_of_neg (p := fun r : MemResponse LineTag => r.src = s) _ hs

/-- L2 without its oldest completion. -/
def popL2 (m : CacheHierarchy τ) : CacheHierarchy τ := { m with l2 := m.l2.popResponse }

/-- One L2 completion goes to the L1 that asked. -/
theorem HierOk.route (h : HierOk P same image asked m) {r : MemResponse LineTag}
    (hq : m.l2.respQ.head? = some r) :
    HierOk P same image asked (m.popL2.routeL2 r) ∧ SameFlat m (m.popL2.routeL2 r) := by
  have howed : m.lowerOwed = r ::ₘ m.popL2.lowerOwed := by
    unfold lowerOwed Cache.owed
    rw [popResponse_answered hq, Multiset.cons_add]
    rfl
  have hsrc := h.srcs r (by rw [howed]; exact Multiset.mem_cons_self _ _)
  have hsrcs : ∀ r' ∈ m.popL2.lowerOwed, r'.src = .L1D ∨ r'.src = .L1I := fun r' hr' =>
    h.srcs r' (by rw [howed]; exact Multiset.mem_cons_of_mem hr')
  have hto := owedTo_cons howed
  have h2 := h.l2.popResponse
  have hd2 : DataOk m.l2.popResponse m.backing.bytes m.dram.held :=
    ⟨h.data2.clean, h.data2.coming, h.data2.deferred⟩
  -- the cache it goes to owes one refill less; the other is not touched
  rcases hsrc with hsrc | hsrc
  · have hD := hto .L1D
    have hI := hto .L1I
    rw [if_pos hsrc] at hD
    rw [if_neg (by rw [hsrc]; exact nofun)] at hI
    have hrD := h.refillsD
    have hdD := h.dataD
    rw [hD] at hrD hdD
    rw [Multiset.map_cons] at hrD
    have hrI := h.refillsI
    have hfI := h.fetch
    rw [hI] at hrI hfI
    obtain ⟨a1, a2, a3, a4⟩ := h.l1d.deliver hrD
    obtain ⟨a5, a6, a7⟩ := DataOk.deliver h.l1d hdD hrD
    have hroute : m.popL2.routeL2 r =
        { m.popL2 with l1d := m.l1d.deliverBelowResponse r } := by
      unfold routeL2
      rw [if_neg (by rw [hsrc]; exact nofun)]
      rfl
    rw [hroute]
    have hflat : SameFlat m { m.popL2 with l1d := m.l1d.deliverBelowResponse r } :=
      ⟨view_ext a6 fun _ _ => rfl, a7, rfl, rfl⟩
    refine ⟨⟨h2, a1, h.l1i, ?_, h.lineI, a3.trans h.srcD, h.srcI, hsrcs, h.refills2, a4, hrI, hd2, a5,
      hfI, h.lowerSame, ?_⟩, hflat⟩
    · show (m.l1d.deliverBelowResponse r).cfg.lineBytes = m.l2.cfg.lineBytes
      rw [a2]
      exact h.lineD
    · rw [hflat.view]
      exact h.upperSame
  · have hD := hto .L1D
    have hI := hto .L1I
    rw [if_pos hsrc] at hI
    rw [if_neg (by rw [hsrc]; exact nofun)] at hD
    have hrI := h.refillsI
    have hfI := h.fetch
    rw [hI] at hrI hfI
    rw [Multiset.map_cons] at hrI
    have hrD := h.refillsD
    have hdD := h.dataD
    rw [hD] at hrD hdD
    obtain ⟨a1, a2, a3, a4⟩ := h.l1i.deliver hrI
    have hroute : m.popL2.routeL2 r =
        { m.popL2 with l1i := m.l1i.deliverBelowResponse r } := by
      unfold routeL2
      rw [if_pos hsrc]
      rfl
    rw [hroute]
    refine ⟨⟨h2, h.l1d, a1, h.lineD, ?_, h.srcD, a3.trans h.srcI, hsrcs, h.refills2, hrD, a4, hd2, hdD,
      hfI.deliver h.l1i hrI, h.lowerSame, h.upperSame⟩, ⟨rfl, rfl, rfl, rfl⟩⟩
    show (m.l1i.deliverBelowResponse r).cfg.lineBytes = m.l2.cfg.lineBytes
    rw [a2]
    exact h.lineI

theorem drainL2_nil (h : m.l2.respQ = []) : m.drainL2 = m := by
  unfold CacheHierarchy.drainL2
  rw [h, List.foldl_nil, ← h]

theorem drainL2_cons {r : MemResponse LineTag} {rs : List (MemResponse LineTag)}
    (hq : m.l2.respQ = r :: rs) : m.drainL2 = (m.popL2.routeL2 r).drainL2 := by
  unfold drainL2 routeL2 popL2 Cache.popResponse
  rw [hq, List.foldl_cons]
  by_cases hs : r.src = .L1I
  · simp only [if_pos hs, List.tail_cons]
  · simp only [if_neg hs, List.tail_cons]

theorem HierOk.drainL2 (h : HierOk P same image asked m) :
    HierOk P same image asked m.drainL2 ∧ SameFlat m m.drainL2 := by
  generalize hq : m.l2.respQ = rs
  induction rs generalizing m with
  | nil =>
      rw [drainL2_nil hq]
      exact ⟨h, .refl m⟩
  | cons r rs ih =>
      obtain ⟨h1, h2⟩ := h.route (r := r) (by rw [hq]; rfl)
      rw [drainL2_cons hq]
      obtain ⟨h3, h4⟩ := ih h1 (by
        unfold routeL2 popL2 Cache.popResponse
        split <;> simp [hq])
      exact ⟨h3, h2.trans h4⟩

/-! ### The L1s -/

/-- What L2 keeps when it accepts a line request. -/
structure LowerAccepts (P : Nat → Prop) (m : CacheHierarchy τ) (req : MemRequest LineTag) : Prop where
  ok : CacheOk P (m.l2.access req)
  cfg : (m.l2.access req).cfg = m.l2.cfg
  refills : RefillsOk (m.l2.access req) ((m.dram.held : Multiset (MemResponse LineTag)).map (·.tag))
  data : DataOk (m.l2.access req) m.backing.bytes m.dram.held
  view : (m.l2.access req).view m.backing.bytes = req.apply m.lowerView
  owed : (m.l2.access req).owed m.backing.bytes = req.answer m.lowerView ::ₘ m.lowerOwed

theorem HierOk.lowerAccepts (h : HierOk P same image asked m) {req : MemRequest LineTag}
    (ha : m.l2.canAccept = true) (hl : m.l2.IsLine req.addr) (hP : P req.addr)
    (hs : req.size = m.l2.cfg.lineBytes) : LowerAccepts P m req := by
  have hg := h.l2.arrays.geometry
  have hfit := IsLine.fits hg hl hs
  have hacc := h.l2.accepts ha hfit
  have hok := hacc.cacheOk h.l2 hfit (by rw [hl.1]; exact hP)
  have hdata := hacc.data h.l2 hok.ok hfit h.data2 h.refills2
  refine ⟨hok.ok, hok.cfg, ?_, hdata.data, ?_, hdata.owed⟩
  · rw [RefillsOk, hok.sent, hok.installs]
    exact h.refills2
  · funext a
    by_cases hlt : a < 2 ^ 32
    · exact hdata.view a hlt
    · have hge := Nat.not_lt.mp hlt
      rw [hfit.apply_high hg hge]
      unfold lowerView Cache.view
      rw [if_neg hlt, if_neg hlt]

/-- The L1I clock edge; it may hand L2 one refill. -/
theorem HierOk.tickL1I (h : HierOk P same image asked m) :
    HierOk P same image asked m.tickL1I ∧ SameFlat m m.tickL1I := by
  have hs := fetchSettles h.l1i h.refillsI h.fetch m.l1i.pendingInstalls.length
  generalize hc₁ : retryInstalls m.l1i.pendingInstalls.length
    ({ m.l1i with tickCount := m.l1i.tickCount + 1 } : Cache τ).drainHits = c₁ at hs
  have htick : m.l1i.tick m.l2.canAccept = c₁.issueBelow m.l2.canAccept := by
    rw [← hc₁]
    rfl
  have hi := issues c₁ m.l2.canAccept
  unfold CacheHierarchy.tickL1I
  rw [htick]
  generalize c₁.issueBelow m.l2.canAccept = r at hi
  obtain ⟨h1, h2, h3, h4, h5⟩ := hi.cacheOk hs.ok hs.refillsOk
  obtain ⟨hnone, hsome⟩ := hs.fetch.issues hs.ok hi h.lowerSame
  obtain ⟨c₂, o⟩ := r
  dsimp only at h1 h2 h3 h4 h5 hnone hsome ⊢
  have hline : c₂.cfg.lineBytes = m.l2.cfg.lineBytes := by
    rw [h2, hs.cfg]
    exact h.lineI
  cases o with
  | none =>
      obtain rfl : c₂ = c₁ := hnone rfl
      exact ⟨⟨h.l2, h.l1d, hs.ok, h.lineD, hline, h.srcD, hs.srcId.trans h.srcI, h.srcs, h.refills2,
        h.refillsD, hs.refillsOk, h.data2, h.dataD, hs.fetch, h.lowerSame, h.upperSame⟩, ⟨rfl, rfl, rfl, rfl⟩⟩
  | some req =>
      obtain ⟨hacc, hr, hsrc, hl, hP, hsize⟩ := h5 req rfl
      obtain ⟨hread, hfetch⟩ := hsome req rfl
      have hcfg : c₁.cfg.lineBytes = m.l2.cfg.lineBytes := by
        rw [hs.cfg]
        exact h.lineI
      have hl2 : m.l2.IsLine req.addr := by
        unfold IsLine lineBase offsetOf at hl ⊢
        rw [← hcfg]
        exact hl
      -- L2 accepts the refill: the level below then owes L1I one line more
      have hlow := h.lowerAccepts hacc hl2 hP (hsize.trans hcfg)
      have hsrc' : req.src = .L1I := hsrc.trans (hs.srcId.trans h.srcI)
      -- a refill is a read, so what the level below shows is unchanged
      have happly : req.apply m.lowerView = m.lowerView := by
        funext a
        unfold MemRequest.apply
        rw [if_neg (by simp [hread])]
      let m₂ : CacheHierarchy τ := { m with l1i := c₂, l2 := m.l2.access req }
      have hview : m₂.lowerView = m.lowerView := hlow.view.trans happly
      have howed : m₂.lowerOwed = req.answer m.lowerView ::ₘ m.lowerOwed := hlow.owed
      have hD : m₂.owedTo .L1D = m.owedTo .L1D := by
        rw [owedTo_cons howed, MemRequest.answer_src, hsrc', if_neg nofun]
      have hI : m₂.owedTo .L1I = req.answer m.lowerView ::ₘ m.owedTo .L1I := by
        rw [owedTo_cons howed, MemRequest.answer_src, hsrc', if_pos rfl]
      have hflat : SameFlat m m₂ := by
        refine ⟨?_, ?_, rfl, by rw [hlow.cfg]⟩
        · show m.l1d.view m₂.lowerView = m.l1d.view m.lowerView
          rw [hview]
        · show m.l1d.owed m₂.lowerView = m.l1d.owed m.lowerView
          rw [hview]
      show HierOk P same image asked m₂ ∧ SameFlat m m₂
      refine ⟨⟨hlow.ok, h.l1d, h1, ?_, ?_, h.srcD, h3.trans (hs.srcId.trans h.srcI), ?_, hlow.refills, ?_,
        ?_, hlow.data, ?_, ?_, ?_, ?_⟩, hflat⟩
      · rw [hlow.cfg]; exact h.lineD
      · rw [hlow.cfg]; exact hline
      · intro r hr
        rw [howed] at hr
        rcases Multiset.mem_cons.mp hr with rfl | hr
        · right
          rw [MemRequest.answer_src, hsrc']
        · exact h.srcs r hr
      · rw [hD]; exact h.refillsD
      · rw [hI, Multiset.map_cons, MemRequest.answer_tag]; exact hr
      · rw [hview, hD]; exact h.dataD
      · rw [hI]; exact hfetch
      · rw [hview]; exact h.lowerSame
      · rw [hflat.view]; exact h.upperSame

/-- The L1D clock edge; it may hand L2 a refill or a writeback. -/
theorem HierOk.tickL1D (h : HierOk P same image asked m) :
    HierOk P same image asked m.tickL1D ∧ SameFlat m m.tickL1D := by
  have hs := settles h.l1d h.refillsD h.dataD m.l1d.pendingInstalls.length
  generalize hc₁ : retryInstalls m.l1d.pendingInstalls.length
    ({ m.l1d with tickCount := m.l1d.tickCount + 1 } : Cache τ).drainHits = c₁ at hs
  have htick : m.l1d.tick m.l2.canAccept = c₁.issueBelow m.l2.canAccept := by
    rw [← hc₁]
    rfl
  have hi := issues c₁ m.l2.canAccept
  unfold CacheHierarchy.tickL1D
  rw [htick]
  generalize c₁.issueBelow m.l2.canAccept = r at hi
  obtain ⟨h1, h2, h3, h4, h5⟩ := hi.cacheOk hs.ok hs.refillsOk
  obtain ⟨hnone, hsome⟩ := hi.data hs.ok hs.data hs.refillsOk
  obtain ⟨c₂, o⟩ := r
  dsimp only at h1 h2 h3 h4 h5 hnone hsome ⊢
  have hline : c₂.cfg.lineBytes = m.l2.cfg.lineBytes := by
    rw [h2, hs.cfg]
    exact h.lineD
  cases o with
  | none =>
      obtain rfl : c₂ = c₁ := hnone rfl
      have hflat : SameFlat m { m with l1d := c₂ } := ⟨hs.view, hs.owed, rfl, rfl⟩
      refine ⟨⟨h.l2, hs.ok, h.l1i, hline, h.lineI, hs.srcId.trans h.srcD, h.srcI, h.srcs, h.refills2,
        hs.refillsOk, h.refillsI, h.data2, hs.data, h.fetch, h.lowerSame, ?_⟩, hflat⟩
      show ∀ a, same a → CacheHierarchy.dataView { m with l1d := c₂ } a = image a
      rw [hflat.view]
      exact h.upperSame
  | some req =>
      obtain ⟨hacc, hr, hsrc, hl, hP, hsize⟩ := h5 req rfl
      obtain ⟨hd1, hd2, hd3, hd4⟩ := hsome req rfl
      have hcfg : c₁.cfg.lineBytes = m.l2.cfg.lineBytes := by
        rw [hs.cfg]
        exact h.lineD
      have hl2 : m.l2.IsLine req.addr := by
        unfold IsLine lineBase offsetOf at hl ⊢
        rw [← hcfg]
        exact hl
      have hfit := IsLine.fits hs.ok.arrays.geometry hl hsize
      -- L2 accepts it; a writeback changes what the level below shows, a refill does not
      have hlow := h.lowerAccepts hacc hl2 hP (hsize.trans hcfg)
      have hsrc' : req.src = .L1D := hsrc.trans (hs.srcId.trans h.srcD)
      let m₂ : CacheHierarchy τ := { m with l1d := c₂, l2 := m.l2.access req }
      have hview : m₂.lowerView = req.apply m.lowerView := hlow.view
      have howed : m₂.lowerOwed = req.answer m.lowerView ::ₘ m.lowerOwed := hlow.owed
      have hD : m₂.owedTo .L1D = req.answer m.lowerView ::ₘ m.owedTo .L1D := by
        rw [owedTo_cons howed, MemRequest.answer_src, hsrc', if_pos rfl]
      have hI : m₂.owedTo .L1I = m.owedTo .L1I := by
        rw [owedTo_cons howed, MemRequest.answer_src, hsrc', if_neg nofun]
      have hflat : SameFlat m m₂ := by
        refine ⟨?_, ?_, rfl, by rw [hlow.cfg]⟩
        · rw [dataView, hview, dataView, ← hs.view]
          exact view_ext hd2 fun a ha => hfit.apply_high hs.ok.arrays.geometry ha _
        · rw [dataOwed, hview, dataOwed, ← hs.owed]
          exact hd3
      show HierOk P same image asked m₂ ∧ SameFlat m m₂
      refine ⟨⟨hlow.ok, h1, h.l1i, ?_, ?_, h3.trans (hs.srcId.trans h.srcD), h.srcI, ?_, hlow.refills, ?_,
        ?_, hlow.data, ?_, ?_, ?_, ?_⟩, hflat⟩
      · rw [hlow.cfg]; exact hline
      · rw [hlow.cfg]; exact h.lineI
      · intro r hr
        rw [howed] at hr
        rcases Multiset.mem_cons.mp hr with rfl | hr
        · left
          rw [MemRequest.answer_src, hsrc']
        · exact h.srcs r hr
      · rw [hD, Multiset.map_cons, MemRequest.answer_tag]; exact hr
      · rw [hI]; exact h.refillsI
      · rw [hview, hD]; exact hd1
      · rw [hI]; exact h.fetch
      · -- L2 only gets newer copies, and the newest copy of such a byte is the image's
        intro a ha
        rw [hview]
        by_cases hlt : a < 2 ^ 32
        · rcases hd4 a hlt with hk | hk
          · rw [hk]
            exact h.lowerSame a ha
          · rw [hk, hs.view]
            exact h.upperSame a ha
        · rw [hfit.apply_high hs.ok.arrays.geometry (Nat.not_lt.mp hlt)]
          exact h.lowerSame a ha
      · rw [hflat.view]; exact h.upperSame

theorem HierOk.dramTick (h : HierOk P same image asked m) :
    HierOk P same image asked { m with dram := m.dram.tick } ∧
      SameFlat m { m with dram := m.dram.tick } := by
  refine h.lower rfl rfl h.l2 rfl ?_ ?_ rfl rfl rfl
  · show RefillsOk m.l2 ((m.dram.tick.held : Multiset (MemResponse LineTag)).map (·.tag))
    rw [DRAM.held_tick]
    exact h.refills2
  · show DataOk m.l2 m.backing.bytes m.dram.tick.held
    rw [DRAM.held_tick]
    exact h.data2

/-- A cycle of the hierarchy moves lines and answers only. -/
theorem HierOk.tick (h : HierOk P same image asked m) (ht : m.tick = .ok m') :
    HierOk P same image asked m' ∧ SameFlat m m' := by
  unfold CacheHierarchy.tick at ht
  obtain ⟨h1, s1⟩ := h.dramTick
  obtain ⟨h2, s2⟩ := h1.drainDram
  split at ht
  · cases ht
  · rename_i m₁ hm₁
    cases ht
    obtain ⟨h3, s3⟩ := h2.tickL2 hm₁
    obtain ⟨h4, s4⟩ := h3.drainDram
    obtain ⟨h5, s5⟩ := h4.drainL2
    obtain ⟨h6, s6⟩ := h5.tickL1I
    obtain ⟨h7, s7⟩ := h6.tickL1D
    obtain ⟨h8, s8⟩ := h7.drainL2
    exact ⟨h8, ((((((s1.trans s2).trans s3).trans s4).trans s5).trans s6).trans s7).trans s8⟩

/-! ### The ports -/

/-- The data port accepts a request as a flat memory does. -/
theorem HierOk.dAccess (h : HierOk P same image asked m) {req : MemRequest τ}
    (ha : m.l1d.canAccept = true) (hf : m.l1d.Fits req) (hP : P (m.l1d.lineBase req.addr))
    (hm' : m' = { m with l1d := m.l1d.access req }) :
    HierOk P (fun a => same a ∧ ¬(req.isWrite = true ∧ req.covers a)) image asked m' ∧
      m'.dataView = req.apply m.dataView ∧ m'.dataOwed = req.answer m.dataView ::ₘ m.dataOwed := by
  have hacc := h.l1d.accepts ha hf
  have hok := hacc.cacheOk h.l1d hf hP
  have hdata := hacc.data h.l1d hok.ok hf h.dataD h.refillsD
  have hview : (m.l1d.access req).view m.lowerView = req.apply m.dataView := by
    funext a
    by_cases hlt : a < 2 ^ 32
    · exact hdata.view a hlt
    · rw [hf.apply_high h.l1d.arrays.geometry (Nat.not_lt.mp hlt)]
      unfold dataView Cache.view
      rw [if_neg hlt, if_neg hlt]
  subst hm'
  refine ⟨⟨h.l2, hok.ok, h.l1i, ?_, h.lineI, ?_, h.srcI, h.srcs, h.refills2, ?_, h.refillsI, h.data2,
    hdata.data, h.fetch.mono fun _ hs => hs.1, fun a hs => h.lowerSame a hs.1, fun a hs => ?_⟩,
    hview, hdata.owed⟩
  · rw [hok.cfg]
    exact h.lineD
  · rw [hok.srcId]
    exact h.srcD
  · show RefillsOk (m.l1d.access req) _
    rw [RefillsOk, hok.sent, hok.installs]
    exact h.refillsD
  · show (m.l1d.access req).view m.lowerView a = image a
    rw [hview, MemRequest.apply, if_neg hs.2]
    exact h.upperSame a hs.1

/-- The fetch port accepts a read. -/
theorem HierOk.iAccess (h : HierOk P same image asked m) {req : MemRequest τ}
    (ha : m.l1i.canAccept = true) (hf : m.l1i.Fits req) (hr : req.isWrite = false)
    (hP : P (m.l1i.lineBase req.addr)) (hm' : m' = { m with l1i := m.l1i.access req }) :
    HierOk P same image (req ::ₘ asked) m' ∧ SameFlat m m' := by
  have hacc := h.l1i.accepts ha hf
  have hok := hacc.cacheOk h.l1i hf hP
  subst hm'
  refine ⟨⟨h.l2, h.l1d, hok.ok, h.lineD, ?_, h.srcD, ?_, h.srcs, h.refills2, h.refillsD, ?_, h.data2,
    h.dataD, h.fetch.accepts h.l1i hf hr h.refillsI hacc, h.lowerSame, h.upperSame⟩, ⟨rfl, rfl, rfl, rfl⟩⟩
  · rw [hok.cfg]
    exact h.lineI
  · rw [hok.srcId]
    exact h.srcI
  · show RefillsOk (m.l1i.access req) _
    rw [RefillsOk, hok.sent, hok.installs]
    exact h.refillsI

/-- A response of the data port is one that a flat memory owes. -/
theorem HierOk.dPop (h : HierOk P same image asked m) {r : MemResponse τ}
    (hq : m.l1d.respQ.head? = some r) (hm' : m' = { m with l1d := m.l1d.popResponse }) :
    HierOk P same image asked m' ∧ m'.dataView = m.dataView ∧ m.dataOwed = r ::ₘ m'.dataOwed := by
  subst hm'
  refine ⟨⟨h.l2, h.l1d.popResponse, h.l1i, h.lineD, h.lineI, h.srcD, h.srcI, h.srcs, h.refills2,
    h.refillsD, h.refillsI, h.data2, ⟨h.dataD.clean, h.dataD.coming, h.dataD.deferred⟩, h.fetch,
    h.lowerSame, h.upperSame⟩, rfl, ?_⟩
  unfold dataOwed Cache.owed
  rw [popResponse_answered hq, Multiset.cons_add]
  rfl

/-- A response of the fetch port answers one of the fetches. -/
theorem HierOk.iPop (h : HierOk P same image asked m) {r : MemResponse τ}
    (hq : m.l1i.respQ.head? = some r) (hm' : m' = { m with l1i := m.l1i.popResponse }) :
    ∃ q rest, asked = q ::ₘ rest ∧ Answers same image q r ∧ HierOk P same image rest m' ∧ SameFlat m m' := by
  obtain ⟨q, rest, h1, h2, h3⟩ := h.fetch.pop hq
  subst hm'
  exact ⟨q, rest, h1, h2, ⟨h.l2, h.l1d, h.l1i.popResponse, h.lineD, h.lineI, h.srcD, h.srcI, h.srcs,
    h.refills2, h.refillsD, h.refillsI, h.data2, h.dataD, h3, h.lowerSame, h.upperSame⟩,
    ⟨rfl, rfl, rfl, rfl⟩⟩

end Steps

end CacheHierarchy

end RvO3
