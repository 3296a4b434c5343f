import RvO3.Memory.Coherent
import RvO3.Memory.Work

/-!
# The hierarchy drains

Left alone, with every response popped, the hierarchy comes to rest. A cycle that lowers no price
of `Work` has nothing in DRAM; so L2 is owed nothing, sends what it has and is quiet; so it accepts
what an L1 sends, and both L1s are quiet too.
-/

set_option autoImplicit false

namespace RvO3

variable {τ : Type}

namespace Cache

variable {c : Cache τ} {P : Nat → Prop}

/-- A quiet cache with room accepts requests. -/
theorem Quiet.canAccept (hq : c.Quiet) (hc : CacheOk P c) (hm : 1 ≤ c.mshrs.length)
    (hw : 1 ≤ c.cfg.wbq) : c.canAccept = true := by
  have hpending : c.pendingMisses = 0 := by
    rw [hc.pending, Multiset.card_eq_zero, Multiset.eq_zero_iff_forall_notMem]
    intro i hi
    obtain ⟨j, -, hv, -⟩ := mem_tally.mp hi
    rw [hq.misses j] at hv
    cases hv
  simp only [Cache.canAccept, hpending, hq.wbq, List.length_nil, Bool.and_eq_true, decide_eq_true_eq]
  omega

/-- A quiet cache whose responses were taken owes nothing. -/
theorem Quiet.owed (hq : c.Quiet) (hc : CacheOk P c) (hr : c.respQ = [])
    (below : Nat → Byte) : c.owed below = 0 := by
  have hwaiting : bag c.mshrs (fun m => (↑(promised below m.waiting) : Multiset (MemResponse τ))) = 0 := by
    apply bag_eq_zero
    intro m hm
    obtain ⟨i, hi⟩ := List.mem_iff_getElem?.mp hm
    have hidle := hc.idle i (hq.misses i)
    rw [mshrAt, hi, Option.getD_some] at hidle
    rw [hidle]
    rfl
  rw [Cache.owed, hwaiting, add_zero, answered, hr, hq.hitPipe]
  rfl

end Cache

namespace CacheHierarchy

open Cache

/-! ## Prices and shapes -/

/-- What the operations do not change: configurations, numbers of MSHRs and latencies. -/
structure SameShape (m m' : CacheHierarchy τ) : Prop where
  l2 : Cache.SameShape m.l2 m'.l2
  l1i : Cache.SameShape m.l1i m'.l1i
  l1d : Cache.SameShape m.l1d m'.l1d
  latency : m'.dram.latency = m.dram.latency

theorem SameShape.refl (m : CacheHierarchy τ) : SameShape m m := ⟨.refl _, .refl _, .refl _, rfl⟩

theorem SameShape.trans {m m' m'' : CacheHierarchy τ} (h : SameShape m m') (h' : SameShape m' m'') :
    SameShape m m'' :=
  ⟨h.l2.trans h'.l2, h.l1i.trans h'.l1i, h.l1d.trans h'.l1d, h'.latency.trans h.latency⟩

/-- All that is left to do, when a request to DRAM costs `k₂` and one to L2 `k₁`. -/
def work (k₂ k₁ : Nat) (m : CacheHierarchy τ) : Nat :=
  m.dram.work + m.l2.work k₂ + m.l1i.work k₁ + m.l1d.work k₁

/-- The prices cover what a request costs. -/
structure Priced (k₂ k₁ : Nat) (m : CacheHierarchy τ) : Prop where
  dram : m.dram.latency + 2 ≤ k₂
  l2 : acceptCost k₂ m.l2.cfg ≤ k₁

/-- Queues that can hold something. -/
structure Roomy (m : CacheHierarchy τ) : Prop where
  mshrs2 : 1 ≤ m.l2.mshrs.length
  wbq2 : 1 ≤ m.l2.cfg.wbq
  wbqI : 1 ≤ m.l1i.cfg.wbq
  wbqD : 1 ≤ m.l1d.cfg.wbq

variable {m m' : CacheHierarchy τ} {k₂ k₁ : Nat}

theorem Priced.same (h : Priced k₂ k₁ m) (hs : SameShape m m') : Priced k₂ k₁ m' :=
  ⟨by rw [hs.latency]; exact h.dram, by rw [hs.l2.cfg]; exact h.l2⟩

theorem Roomy.same (h : Roomy m) (hs : SameShape m m') : Roomy m' :=
  ⟨by rw [hs.l2.mshrs]; exact h.mshrs2, by rw [hs.l2.cfg]; exact h.wbq2, by rw [hs.l1i.cfg]; exact h.wbqI,
    by rw [hs.l1d.cfg]; exact h.wbqD⟩

/-! ## The steps of a cycle -/

section Steps

variable {P same : Nat → Prop} {image : Nat → Byte} {asked : Multiset (MemRequest τ)}

theorem dramTick_work (k₂ k₁ : Nat) (m : CacheHierarchy τ) : SameShape m { m with dram := m.dram.tick } ∧
    work k₂ k₁ { m with dram := m.dram.tick } + (if m.dram.inflight = [] then 0 else 1) ≤ work k₂ k₁ m := by
  have h := m.dram.tick_work
  refine ⟨⟨.refl _, .refl _, .refl _, rfl⟩, ?_⟩
  unfold work
  dsimp only
  omega

/-- Delivering the DRAM's answers pays for each of them. -/
theorem HierOk.drainDram_work (k₂ k₁ : Nat) (h : HierOk P same image asked m) : SameShape m m.drainDram ∧
    work k₂ k₁ m.drainDram + m.dram.respQ.length ≤ work k₂ k₁ m := by
  generalize hq : m.dram.respQ = rs
  induction rs generalizing m with
  | nil =>
      rw [drainDram_nil hq]
      exact ⟨.refl m, Nat.le_refl _⟩
  | cons r rs ih =>
      have h1 := (h.deliverDram (r := r) (by rw [hq]; rfl)).1
      have hheld : (m.dram.held : Multiset (MemResponse LineTag)) = r ::ₘ m.dram.popResponse.held := by
        rw [Multiset.cons_coe]
        congr 1
        simp [DRAM.held, DRAM.popResponse, hq]
      have hr := h.refills2
      rw [hheld, Multiset.map_cons] at hr
      obtain ⟨hs, hw⟩ := deliver_work (k := k₂) hr
      have hshape : SameShape m { m with l2 := m.l2.deliverBelowResponse r, dram := m.dram.popResponse } :=
        ⟨hs, .refl _, .refl _, rfl⟩
      have hpop : m.dram.popResponse.work + 1 = m.dram.work := by
        unfold DRAM.work DRAM.popResponse
        rw [hq, List.tail_cons, List.length_cons, Nat.add_assoc]
      have hone : work k₂ k₁ { m with l2 := m.l2.deliverBelowResponse r, dram := m.dram.popResponse } + 1 ≤
          work k₂ k₁ m := by
        unfold work
        dsimp only
        omega
      rw [drainDram_cons hq]
      obtain ⟨h3, h4⟩ := ih h1 (by simp [DRAM.popResponse, hq])
      refine ⟨hshape.trans h3, ?_⟩
      rw [List.length_cons]
      omega

/-- The clock edge of L2 does not fail when its lines are inside memory. -/
theorem HierOk.tickL2_ok (h : HierOk P same image asked m)
    (hin : ∀ la, P la → la + m.l2.cfg.lineBytes ≤ m.backing.size) : ∃ m', m.tickL2 = .ok m' := by
  unfold CacheHierarchy.tickL2
  have hreq : ∀ req, (m.l2.tick m.dram.canAccept).2 = some req →
      m.l2.IsLine req.addr ∧ P req.addr ∧ req.size = m.l2.cfg.lineBytes :=
    fun req => CacheOk.tick_request h.l2 h.refills2
  generalize m.l2.tick m.dram.canAccept = r at hreq
  obtain ⟨l2, o⟩ := r
  cases o with
  | none => exact ⟨_, rfl⟩
  | some req =>
      obtain ⟨-, hP, hs⟩ := hreq req rfl
      have hfits : req.addr + req.size ≤ m.backing.size := by
        rw [hs]
        exact hin _ hP
      obtain ⟨dram, backing, hacc⟩ := m.dram.access_inRange hfits
      dsimp only
      rw [hacc]
      exact ⟨_, rfl⟩

/-- A tick of the L2, with what it sends down, makes no work. -/
theorem HierOk.tickL2_work (h : HierOk P same image asked m) (hp : Priced k₂ k₁ m) (ht : m.tickL2 = .ok m') :
    SameShape m m' ∧ work k₂ k₁ m' ≤ work k₂ k₁ m := by
  obtain ⟨hs, hw⟩ := Cache.tick_work (k := k₂) h.l2 h.refills2 m.dram.canAccept
  unfold CacheHierarchy.tickL2 at ht
  generalize m.l2.tick m.dram.canAccept = r at hs hw ht
  obtain ⟨l2, o⟩ := r
  cases o with
  | none =>
      cases ht
      refine ⟨⟨hs, .refl _, .refl _, rfl⟩, ?_⟩
      rw [if_pos rfl] at hw
      unfold work
      dsimp only at hw ⊢
      omega
  | some req =>
      dsimp only at ht
      split at ht
      · cases ht
      · rename_i dram backing hacc
        cases ht
        obtain ⟨hlat, hcost⟩ := DRAM.access_work hacc
        have hprice := hp.dram
        refine ⟨⟨hs, .refl _, .refl _, hlat⟩, ?_⟩
        rw [if_neg nofun] at hw
        unfold work
        dsimp only at hw ⊢
        omega

/-- When nothing is below it, a clock edge of L2 that lowers nothing leaves it quiet. -/
theorem HierOk.tickL2_stuck (h : HierOk P same image asked m) (hp : Priced k₂ k₁ m) (hr : Roomy m)
    (hcan : m.dram.canAccept = true) (hheld : m.dram.held = []) (ht : m.tickL2 = .ok m')
    (hle : work k₂ k₁ m ≤ work k₂ k₁ m') :
    m' = { m with l2 := m'.l2 } ∧ m'.l2.Quiet ∧ m'.l2.respQ = m.l2.respQ := by
  have hrefills := h.refills2
  rw [hheld] at hrefills
  have hstuck := Cache.tick_stuck (k := k₂) h.l2 hrefills hr.wbq2
  obtain ⟨-, hw⟩ := Cache.tick_work (k := k₂) h.l2 h.refills2 m.dram.canAccept
  unfold CacheHierarchy.tickL2 at ht
  rw [hcan] at ht hw
  generalize m.l2.tick true = r at hstuck hw ht
  obtain ⟨l2, o⟩ := r
  cases o with
  | none =>
      cases ht
      unfold work at hle
      dsimp only at hle hstuck ⊢
      obtain ⟨-, hq, hresp⟩ := hstuck (by omega)
      exact ⟨rfl, hq, hresp⟩
  | some req =>
      -- a request would have lowered the price
      dsimp only at ht
      split at ht
      · cases ht
      · rename_i dram backing hacc
        cases ht
        obtain ⟨-, hcost⟩ := DRAM.access_work hacc
        have hprice := hp.dram
        rw [if_neg nofun] at hw
        unfold work at hle
        dsimp only at hle hw
        omega

/-- Delivering the L2's answers pays for each of them. -/
theorem HierOk.drainL2_work (k₂ k₁ : Nat) (h : HierOk P same image asked m) : SameShape m m.drainL2 ∧
    work k₂ k₁ m.drainL2 + m.l2.respQ.length ≤ work k₂ k₁ m := by
  generalize hq : m.l2.respQ = rs
  -- on the completions that wait in L2
  induction rs generalizing m with
  | nil =>
      rw [drainL2_nil hq]
      exact ⟨.refl m, Nat.le_refl _⟩
  | cons r rs ih =>
      have hhead : m.l2.respQ.head? = some r := by rw [hq]; rfl
      have h1 := (h.route hhead).1
      -- taken out of L2's queue it is one unit of work less there
      have hpop : m.popL2.l2.work k₂ + 1 = m.l2.work k₂ := by
        unfold popL2 Cache.popResponse Cache.work
        dsimp only
        rw [hq, List.tail_cons, List.length_cons, Nat.add_assoc]
      have howed : m.lowerOwed = r ::ₘ m.popL2.lowerOwed := by
        unfold lowerOwed Cache.owed
        rw [popResponse_answered hhead, Multiset.cons_add]
        rfl
      have hto := owedTo_cons howed
      have hone : SameShape m (m.popL2.routeL2 r) ∧ work k₂ k₁ (m.popL2.routeL2 r) + 1 ≤ work k₂ k₁ m := by
        unfold routeL2
        split
        · next hs =>
            have hr := h.refillsI
            rw [hto, if_pos hs, Multiset.map_cons] at hr
            obtain ⟨h2, h3⟩ := deliver_work (k := k₁) hr
            refine ⟨⟨⟨rfl, rfl⟩, h2, .refl _, rfl⟩, ?_⟩
            have hl1 : m.popL2.l1i = m.l1i := rfl
            have hl2 : m.popL2.l1d = m.l1d := rfl
            have hl3 : m.popL2.dram = m.dram := rfl
            unfold work
            rw [hl1, hl2, hl3]
            dsimp only
            omega
        · next hs =>
            -- L2 owes to the two caches above it only
            have hsrc : r.src = .L1D := by
              rcases h.srcs r (by rw [howed]; exact Multiset.mem_cons_self _ _) with h0 | h0
              · exact h0
              · exact absurd h0 hs
            have hr := h.refillsD
            rw [hto, if_pos hsrc, Multiset.map_cons] at hr
            obtain ⟨h2, h3⟩ := deliver_work (k := k₁) hr
            refine ⟨⟨⟨rfl, rfl⟩, .refl _, h2, rfl⟩, ?_⟩
            have hl1 : m.popL2.l1i = m.l1i := rfl
            have hl2 : m.popL2.l1d = m.l1d := rfl
            have hl3 : m.popL2.dram = m.dram := rfl
            unfold work
            rw [hl1, hl2, hl3]
            dsimp only
            omega
      have hrest : (m.popL2.routeL2 r).l2.respQ = rs := by
        unfold routeL2 popL2 Cache.popResponse
        split
        · rw [hq]
          rfl
        · rw [hq]
          rfl
      rw [drainL2_cons hq]
      obtain ⟨h3, h4⟩ := ih h1 hrest
      refine ⟨hone.1.trans h3, ?_⟩
      rw [List.length_cons]
      omega

/-- What L2 makes of a request costs at most its price. -/
theorem sendL2_work (hp : Priced k₂ k₁ m) (req : Option (MemRequest LineTag)) :
    SameShape m (m.sendL2 req) ∧
      work k₂ k₁ (m.sendL2 req) ≤ work k₂ k₁ m + (if req = none then 0 else k₁) := by
  cases req with
  | none => exact ⟨.refl m, Nat.le_refl _⟩
  | some req =>
      obtain ⟨h1, h2⟩ := access_work (k := k₂) m.l2 req
      have hprice := hp.l2
      refine ⟨⟨h1, .refl _, .refl _, rfl⟩, ?_⟩
      rw [if_neg nofun]
      unfold work sendL2
      dsimp only
      omega

/-- The clock edge of an L1 pays for the request it makes and for what L2 makes of it. -/
theorem sendTick_work {c : Cache τ} {tags : Multiset LineTag} (hc : CacheOk P c) (hr : RefillsOk c tags)
    (below : Bool) (hp : Priced k₂ k₁ m) :
    Cache.SameShape c (c.tick below).1 ∧ SameShape m (m.sendL2 (c.tick below).2) ∧
      work k₂ k₁ (m.sendL2 (c.tick below).2) + (c.tick below).1.work k₁ +
        (if (c.tick below).2 = none then 0 else 1) ≤ work k₂ k₁ m + c.work k₁ := by
  obtain ⟨hs, hw⟩ := Cache.tick_work (k := k₁) hc hr below
  obtain ⟨h1, h2⟩ := sendL2_work hp (c.tick below).2
  refine ⟨hs, h1, ?_⟩
  by_cases hnone : (c.tick below).2 = none
  · rw [if_pos hnone] at hw h2 ⊢
    omega
  · rw [if_neg hnone] at hw h2 ⊢
    omega

theorem HierOk.tickL1I_work (h : HierOk P same image asked m) (hp : Priced k₂ k₁ m) :
    SameShape m m.tickL1I ∧ work k₂ k₁ m.tickL1I +
      (if (m.l1i.tick m.l2.canAccept).2 = none then 0 else 1) ≤ work k₂ k₁ m := by
  have hp' : Priced k₂ k₁ { m with l1i := (m.l1i.tick m.l2.canAccept).1 } := ⟨hp.dram, hp.l2⟩
  obtain ⟨hs, h1, hw⟩ := sendTick_work h.l1i h.refillsI m.l2.canAccept hp'
  have heq : m.tickL1I = ({ m with l1i := (m.l1i.tick m.l2.canAccept).1 } : CacheHierarchy τ).sendL2
    (m.l1i.tick m.l2.canAccept).2 := rfl
  rw [← heq] at h1 hw
  refine ⟨⟨h1.l2, hs.trans h1.l1i, h1.l1d, h1.latency⟩, ?_⟩
  have hold : work k₂ k₁ { m with l1i := (m.l1i.tick m.l2.canAccept).1 } + m.l1i.work k₁ =
      work k₂ k₁ m + (m.l1i.tick m.l2.canAccept).1.work k₁ := by
    unfold work
    dsimp only
    omega
  omega

/-- When L2 owes it nothing and accepts what it sends, a clock edge that lowers nothing leaves L1I
quiet. -/
theorem HierOk.tickL1I_stuck (h : HierOk P same image asked m) (hp : Priced k₂ k₁ m) (hr : Roomy m)
    (hcan : m.l2.canAccept = true) (howed : m.owedTo .L1I = 0) (hle : work k₂ k₁ m ≤ work k₂ k₁ m.tickL1I) :
    m.tickL1I = { m with l1i := m.tickL1I.l1i } ∧ m.tickL1I.l1i.Quiet := by
  have hrefills := h.refillsI
  rw [howed] at hrefills
  have hstuck := Cache.tick_stuck (k := k₁) h.l1i hrefills hr.wbqI
  obtain ⟨-, hw⟩ := h.tickL1I_work hp
  rw [hcan] at hw
  have hnone : (m.l1i.tick true).2 = none := by
    by_contra h0
    rw [if_neg h0] at hw
    omega
  have heq : m.tickL1I = { m with l1i := (m.l1i.tick true).1 } := by
    unfold CacheHierarchy.tickL1I
    rw [hcan]
    dsimp only
    rw [hnone]
    rfl
  rw [heq] at hle ⊢
  unfold work at hle
  dsimp only at hle
  exact ⟨rfl, (hstuck (by omega)).2.1⟩

theorem HierOk.tickL1D_work (h : HierOk P same image asked m) (hp : Priced k₂ k₁ m) :
    SameShape m m.tickL1D ∧ work k₂ k₁ m.tickL1D +
      (if (m.l1d.tick m.l2.canAccept).2 = none then 0 else 1) ≤ work k₂ k₁ m := by
  have hp' : Priced k₂ k₁ { m with l1d := (m.l1d.tick m.l2.canAccept).1 } := ⟨hp.dram, hp.l2⟩
  obtain ⟨hs, h1, hw⟩ := sendTick_work h.l1d h.refillsD m.l2.canAccept hp'
  have heq : m.tickL1D = ({ m with l1d := (m.l1d.tick m.l2.canAccept).1 } : CacheHierarchy τ).sendL2
    (m.l1d.tick m.l2.canAccept).2 := rfl
  rw [← heq] at h1 hw
  refine ⟨⟨h1.l2, h1.l1i, hs.trans h1.l1d, h1.latency⟩, ?_⟩
  have hold : work k₂ k₁ { m with l1d := (m.l1d.tick m.l2.canAccept).1 } + m.l1d.work k₁ =
      work k₂ k₁ m + (m.l1d.tick m.l2.canAccept).1.work k₁ := by
    unfold work
    dsimp only
    omega
  omega

/-- When L2 owes it nothing and accepts what it sends, a clock edge that lowers nothing leaves L1D
quiet. -/
theorem HierOk.tickL1D_stuck (h : HierOk P same image asked m) (hp : Priced k₂ k₁ m) (hr : Roomy m)
    (hcan : m.l2.canAccept = true) (howed : m.owedTo .L1D = 0) (hle : work k₂ k₁ m ≤ work k₂ k₁ m.tickL1D) :
    m.tickL1D = { m with l1d := m.tickL1D.l1d } ∧ m.tickL1D.l1d.Quiet := by
  have hrefills := h.refillsD
  rw [howed] at hrefills
  have hstuck := Cache.tick_stuck (k := k₁) h.l1d hrefills hr.wbqD
  obtain ⟨-, hw⟩ := h.tickL1D_work hp
  rw [hcan] at hw
  have hnone : (m.l1d.tick true).2 = none := by
    by_contra h0
    rw [if_neg h0] at hw
    omega
  have heq : m.tickL1D = { m with l1d := (m.l1d.tick true).1 } := by
    unfold CacheHierarchy.tickL1D
    rw [hcan]
    dsimp only
    rw [hnone]
    rfl
  rw [heq] at hle ⊢
  unfold work at hle
  dsimp only at hle
  exact ⟨rfl, (hstuck (by omega)).2.1⟩

/-! ## A whole cycle -/

/-- Nothing on its way below the ports. -/
structure Rested (m : CacheHierarchy τ) : Prop where
  l1i : m.l1i.Quiet
  l1d : m.l1d.Quiet
  l2 : m.l2.Quiet
  l2Resp : m.l2.respQ = []
  dramInflight : m.dram.inflight = []
  dramResp : m.dram.respQ = []

/-- What is needed of a hierarchy that drains. -/
structure Draining (P same : Nat → Prop) (image : Nat → Byte) (asked : Multiset (MemRequest τ)) (k₂ k₁ : Nat)
    (m : CacheHierarchy τ) : Prop where
  ok : HierOk P same image asked m
  priced : Priced k₂ k₁ m
  roomy : Roomy m
  inside : ∀ la, P la → la + m.l2.cfg.lineBytes ≤ m.backing.size

/-- A draining hierarchy stays one through every step that keeps the invariant, the shape and the
size of memory. -/
theorem Draining.step (h : Draining P same image asked k₂ k₁ m) {asked' : Multiset (MemRequest τ)}
    (hok : HierOk P same image asked' m') (hs : SameShape m m') (hflat : m'.backing.size = m.backing.size) :
    Draining P same image asked' k₂ k₁ m' :=
  ⟨hok, h.priced.same hs, h.roomy.same hs, by rw [hs.l2.cfg, hflat]; exact h.inside⟩

/-- The cycle does not fail when the lines of L2 are inside memory. -/
theorem HierOk.tick_ok (h : HierOk P same image asked m)
    (hin : ∀ la, P la → la + m.l2.cfg.lineBytes ≤ m.backing.size) : ∃ m', m.tick = .ok m' := by
  obtain ⟨h1, s1⟩ := h.dramTick
  obtain ⟨h2, s2⟩ := h1.drainDram
  have s := s1.trans s2
  obtain ⟨m₃, hm₃⟩ := h2.tickL2_ok (by rw [s.line, s.size]; exact hin)
  unfold CacheHierarchy.tick
  rw [hm₃]
  exact ⟨_, rfl⟩

/-- Over a quiet L2 both L1s are quiet when their clock edges lower nothing. -/
theorem Draining.l1_stuck (h : Draining P same image asked k₂ k₁ m) (hq : m.l2.Quiet)
    (hr : m.l2.respQ = []) (hle : work k₂ k₁ m ≤ work k₂ k₁ m.tickL1I.tickL1D) :
    m.tickL1I.tickL1D.l1i.Quiet ∧ m.tickL1I.tickL1D.l1d.Quiet ∧ m.tickL1I.tickL1D.l2 = m.l2 ∧
      m.tickL1I.tickL1D.dram = m.dram := by
  have hcan : m.l2.canAccept = true := hq.canAccept h.ok.l2 h.roomy.mshrs2 h.roomy.wbq2
  have howed : m.lowerOwed = 0 := hq.owed h.ok.l2 hr m.backing.bytes
  obtain ⟨h1, f1⟩ := h.ok.tickL1I
  obtain ⟨s1, w1⟩ := h.ok.tickL1I_work h.priced
  have d1 := h.step h1 s1 f1.size
  obtain ⟨-, w2⟩ := h1.tickL1D_work d1.priced
  obtain ⟨e1, q1⟩ := h.ok.tickL1I_stuck h.priced h.roomy hcan (by rw [owedTo, howed]; rfl) (by omega)
  -- L1I sent nothing: L2 is as it was
  have hl2 : m.tickL1I.l2 = m.l2 := by rw [e1]
  have howed1 : m.tickL1I.lowerOwed = 0 := by
    have hb : m.tickL1I.backing = m.backing := by rw [e1]
    rw [lowerOwed, hl2, hb]
    exact howed
  obtain ⟨e2, q2⟩ := h1.tickL1D_stuck d1.priced d1.roomy (by rw [hl2]; exact hcan)
    (by rw [owedTo, howed1]; rfl) (by omega)
  have hl1i : m.tickL1I.tickL1D.l1i = m.tickL1I.l1i := by rw [e2]
  refine ⟨by rw [hl1i]; exact q1, q2, ?_, ?_⟩
  · rw [e2]
    exact hl2
  · rw [e2]
    show m.tickL1I.dram = m.dram
    rw [e1]

/-- A cycle adds no work, and when it lowers none it leaves the hierarchy at rest. -/
theorem Draining.tick (h : Draining P same image asked k₂ k₁ m) (ht : m.tick = .ok m') :
    Draining P same image asked k₂ k₁ m' ∧ SameShape m m' ∧ work k₂ k₁ m' ≤ work k₂ k₁ m ∧
      (work k₂ k₁ m ≤ work k₂ k₁ m' → Rested m') := by
  unfold CacheHierarchy.tick at ht
  -- the states inside the cycle, in order
  obtain ⟨h1, f1⟩ := h.ok.dramTick
  obtain ⟨s1, w1⟩ := dramTick_work k₂ k₁ m
  have hcan : ({ m with dram := m.dram.tick } : CacheHierarchy τ).dram.canAccept = true := rfl
  have hinflight : ({ m with dram := m.dram.tick } : CacheHierarchy τ).dram.inflight =
    m.dram.inflight.dropWhile fun t => t.readyAt ≤ m.dram.tickCount + 1 := rfl
  generalize ({ m with dram := m.dram.tick } : CacheHierarchy τ) = m₁ at *
  have d1 := h.step h1 s1 f1.size
  obtain ⟨h2, f2⟩ := h1.drainDram
  obtain ⟨s2, w2⟩ := h1.drainDram_work k₂ k₁
  have d2 := d1.step h2 s2 f2.size
  split at ht
  · cases ht
  · rename_i m₃ hm₃
    cases ht
    obtain ⟨h3, f3⟩ := h2.tickL2 hm₃
    obtain ⟨s3, w3⟩ := h2.tickL2_work d2.priced hm₃
    have d3 := d2.step h3 s3 f3.size
    obtain ⟨h4, f4⟩ := h3.drainDram
    obtain ⟨s4, w4⟩ := h3.drainDram_work k₂ k₁
    have d4 := d3.step h4 s4 f4.size
    obtain ⟨h5, f5⟩ := h4.drainL2
    obtain ⟨s5, w5⟩ := h4.drainL2_work k₂ k₁
    have d5 := d4.step h5 s5 f5.size
    obtain ⟨h6, f6⟩ := h5.tickL1I
    obtain ⟨s6, w6⟩ := h5.tickL1I_work d5.priced
    have d6 := d5.step h6 s6 f6.size
    obtain ⟨h7, f7⟩ := h6.tickL1D
    obtain ⟨s7, w7⟩ := h6.tickL1D_work d6.priced
    have d7 := d6.step h7 s7 f7.size
    obtain ⟨h8, f8⟩ := h7.drainL2
    obtain ⟨s8, w8⟩ := h7.drainL2_work k₂ k₁
    refine ⟨d7.step h8 s8 f8.size, ((((((s1.trans s2).trans s3).trans s4).trans s5).trans s6).trans s7).trans
      s8, by omega, fun hle => ?_⟩
    -- nothing in DRAM
    have hempty : m.dram.inflight = [] := by
      by_contra h0
      rw [if_neg h0] at w1
      omega
    rw [hempty, List.dropWhile_nil] at hinflight
    have hresp : m₁.dram.respQ = [] := List.eq_nil_of_length_eq_zero (by omega)
    have e2 := drainDram_nil hresp
    rw [e2] at hm₃ h2 d2
    -- so L2 is quiet
    have hheld : m₁.dram.held = [] := by
      unfold DRAM.held
      rw [hresp, hinflight]
      rfl
    have hstep : work k₂ k₁ m₁ ≤ work k₂ k₁ m₃ := by
      rw [e2] at w2 w3
      omega
    obtain ⟨e3, hq2, hr2⟩ := h1.tickL2_stuck d1.priced d1.roomy hcan hheld hm₃ hstep
    have hdram3 : m₃.dram = m₁.dram := by rw [e3]
    have e4 : m₃.drainDram = m₃ := drainDram_nil (by rw [hdram3]; exact hresp)
    simp only [e4] at w4 w5 w6 w7 w8 hle ⊢
    have hresp2 : m₃.l2.respQ = [] := List.eq_nil_of_length_eq_zero (by omega)
    have e5 : m₃.drainL2 = m₃ := drainL2_nil hresp2
    simp only [e5] at w6 w7 w8 hle ⊢
    -- and so are the L1s
    obtain ⟨hqI, hqD, hl2, hdram7⟩ := d3.l1_stuck hq2 hresp2 (by omega)
    have e8 : m₃.tickL1I.tickL1D.drainL2 = m₃.tickL1I.tickL1D := drainL2_nil (by rw [hl2]; exact hresp2)
    rw [e8]
    refine ⟨hqI, hqD, by rw [hl2]; exact hq2, by rw [hl2]; exact hresp2, ?_, ?_⟩
    · rw [hdram7, hdram3]
      exact hinflight
    · rw [hdram7, hdram3]
      exact hresp

end Steps

end CacheHierarchy

/-! ## Cycles in which the core only pops -/

namespace MemorySystem

/-- The core takes every response that is ready. -/
def popAll (s : MemorySystem τ) : MemorySystem τ :=
  iPop^[s.iQueue.length] (dPop^[s.dQueue.length] s)

/-- `n` cycles without an access. -/
def drain : Nat → MemorySystem τ → Except Fatal (MemorySystem τ)
  | 0, s => .ok s
  | n + 1, s =>
      match s.tick with
      | .error e => .error e
      | .ok s => drain n s.popAll

end MemorySystem

/-- Nothing in a cache is on its way, and nothing waits in it. -/
structure Cache.Idle (c : Cache τ) : Prop where
  misses : ∀ m ∈ c.mshrs, m.valid = false ∧ m.waiting = []
  installs : c.pendingInstalls = []
  wbq : c.wbq = []
  hitPipe : c.hitPipe = []
  respQ : c.respQ = []

namespace CacheHierarchy

/-- No miss, deferred install, unsent writeback or unanswered request at any level. -/
structure Idle (m : CacheHierarchy τ) : Prop where
  l1i : m.l1i.Idle
  l1d : m.l1d.Idle
  l2 : m.l2.Idle
  dram : m.dram.inflight = [] ∧ m.dram.respQ = []

section Pops

open Cache

variable {P same : Nat → Prop} {image : Nat → Byte} {asked : Multiset (MemRequest τ)} {k₂ k₁ : Nat}

/-- The L1s with empty response queues. -/
def popped (m : CacheHierarchy τ) : CacheHierarchy τ :=
  { m with l1i := { m.l1i with respQ := [] }, l1d := { m.l1d with respQ := [] } }

theorem popResponse_work (c : Cache τ) (k : Nat) : c.popResponse.work k ≤ c.work k := by
  unfold Cache.popResponse Cache.work
  dsimp only
  rw [List.length_tail]
  omega

theorem Draining.dPops : ∀ (rs : List (MemResponse τ)) {m : CacheHierarchy τ},
    Draining P same image asked k₂ k₁ m → m.l1d.respQ = rs →
    MemorySystem.dPop^[rs.length] (.cached m) = .cached { m with l1d := { m.l1d with respQ := [] } } ∧
      Draining P same image asked k₂ k₁ { m with l1d := { m.l1d with respQ := [] } } ∧
      work k₂ k₁ { m with l1d := { m.l1d with respQ := [] } } ≤ work k₂ k₁ m
  | [], m, h, hq => by
      have heq : ({ m with l1d := { m.l1d with respQ := [] } } : CacheHierarchy τ) = m := by rw [← hq]
      rw [heq]
      exact ⟨rfl, h, Nat.le_refl _⟩
  | r :: rs, m, h, hq => by
      have hpop := (h.ok.dPop (r := r) (by rw [hq]; rfl) rfl).1
      have hnext := h.step hpop ⟨.refl _, .refl _, ⟨rfl, rfl⟩, rfl⟩ rfl
      obtain ⟨h1, h2, h3⟩ := Draining.dPops rs hnext (by rw [Cache.popResponse, hq, List.tail_cons])
      refine ⟨?_, h2, Nat.le_trans h3 ?_⟩
      · rw [List.length_cons, Function.iterate_succ_apply]
        exact h1
      · have hw := popResponse_work m.l1d k₁
        unfold work
        dsimp only
        omega

theorem Draining.iPops : ∀ (rs : List (MemResponse τ)) {m : CacheHierarchy τ} {asked : Multiset (MemRequest τ)},
    Draining P same image asked k₂ k₁ m → m.l1i.respQ = rs →
    MemorySystem.iPop^[rs.length] (.cached m) = .cached { m with l1i := { m.l1i with respQ := [] } } ∧
      (∃ rest, Draining P same image rest k₂ k₁ { m with l1i := { m.l1i with respQ := [] } }) ∧
      work k₂ k₁ { m with l1i := { m.l1i with respQ := [] } } ≤ work k₂ k₁ m
  | [], m, asked, h, hq => by
      have heq : ({ m with l1i := { m.l1i with respQ := [] } } : CacheHierarchy τ) = m := by rw [← hq]
      rw [heq]
      exact ⟨rfl, ⟨asked, h⟩, Nat.le_refl _⟩
  | r :: rs, m, asked, h, hq => by
      obtain ⟨-, rest, -, -, hpop, -⟩ := h.ok.iPop (r := r) (by rw [hq]; rfl) rfl
      have hnext := h.step hpop ⟨.refl _, ⟨rfl, rfl⟩, .refl _, rfl⟩ rfl
      obtain ⟨h1, h2, h3⟩ := Draining.iPops rs hnext (by rw [Cache.popResponse, hq, List.tail_cons])
      refine ⟨?_, h2, Nat.le_trans h3 ?_⟩
      · rw [List.length_cons, Function.iterate_succ_apply]
        exact h1
      · have hw := popResponse_work m.l1i k₁
        unfold work
        dsimp only
        omega

theorem Draining.popAll {m : CacheHierarchy τ} (h : Draining P same image asked k₂ k₁ m) :
    (MemorySystem.cached m).popAll = .cached m.popped ∧
      (∃ rest, Draining P same image rest k₂ k₁ m.popped) ∧ work k₂ k₁ m.popped ≤ work k₂ k₁ m := by
  obtain ⟨h1, h2, h3⟩ := h.dPops m.l1d.respQ rfl
  obtain ⟨h4, h5, h6⟩ := h2.iPops m.l1i.respQ rfl
  refine ⟨?_, h5, Nat.le_trans h6 h3⟩
  show MemorySystem.iPop^[m.l1i.respQ.length] (MemorySystem.dPop^[m.l1d.respQ.length] (.cached m)) = _
  rw [h1]
  exact h4

theorem idle_of_quiet {c : Cache τ} {P : Nat → Prop} (hc : CacheOk P c) (hq : c.Quiet) (hr : c.respQ = []) :
    c.Idle := by
  refine ⟨fun m hm => ?_, hq.installs, hq.wbq, hq.hitPipe, hr⟩
  obtain ⟨i, hi⟩ := List.mem_iff_getElem?.mp hm
  have hidle := hc.idle i (hq.misses i)
  rw [mshrAt, hi, Option.getD_some] at hidle
  rw [hidle]
  exact ⟨rfl, rfl⟩

theorem Rested.idle {m : CacheHierarchy τ} (h : Rested m) (hok : HierOk P same image asked m.popped) :
    m.popped.Idle where
  l1i := idle_of_quiet hok.l1i ⟨h.l1i.misses, h.l1i.installs, h.l1i.wbq, h.l1i.hitPipe⟩ rfl
  l1d := idle_of_quiet hok.l1d ⟨h.l1d.misses, h.l1d.installs, h.l1d.wbq, h.l1d.hitPipe⟩ rfl
  l2 := idle_of_quiet hok.l2 h.l2 h.l2Resp
  dram := ⟨h.dramInflight, h.dramResp⟩

/-- Every cycle lowers the work, until the hierarchy is at rest. -/
theorem Draining.drains {m : CacheHierarchy τ} (h : Draining P same image asked k₂ k₁ m) :
    ∃ n m', MemorySystem.drain n (.cached m) = .ok (.cached m') ∧ m'.Idle := by
  induction hw : work k₂ k₁ m using Nat.strong_induction_on generalizing m asked with
  | _ w ih =>
      obtain ⟨m₁, ht⟩ := h.ok.tick_ok h.inside
      obtain ⟨h1, -, hle, hrest⟩ := h.tick ht
      obtain ⟨hpop, ⟨rest, h2⟩, hle2⟩ := h1.popAll
      have hstep : ∀ n, MemorySystem.drain (n + 1) (.cached m) = MemorySystem.drain n (.cached m₁.popped) := by
        intro n
        rw [MemorySystem.drain, MemorySystem.tick, ht]
        dsimp only
        rw [hpop]
      by_cases hdone : work k₂ k₁ m ≤ work k₂ k₁ m₁
      · exact ⟨1, m₁.popped, hstep 0, (hrest hdone).idle h2.ok⟩
      · obtain ⟨n, m', hn, hidle⟩ := ih _ (by omega) h2 rfl
        exact ⟨n + 1, m', (hstep n).trans hn, hidle⟩

end Pops

end CacheHierarchy

/-! ## Runs -/

section Runs

open MemorySystem CacheHierarchy

variable {cfg : SimConfig} {image : Nat → Byte} {evs : List (PortEvent τ)} {s : MemorySystem τ}
  {m : CacheHierarchy τ}

/-- The price of a request to DRAM and of one to L2. -/
def SimConfig.belowL2 (cfg : SimConfig) : Nat := (DRAM.init (τ := Unit) cfg.dramLatency).latency + 2

/-- What the request of an L1 costs the levels below it, at most. -/
def SimConfig.belowL1 (cfg : SimConfig) : Nat :=
  Cache.acceptCost cfg.belowL2 (Cache.init (τ := Unit) cfg.l2 .L2).cfg

/-- The lines inside memory. -/
def SimConfig.LineInside (cfg : SimConfig) (la : Nat) : Prop := la + cfg.l2.lineBytes ≤ cfg.memBytes

theorem lineInside_of_lt (hcache : cfg.flatMemory = false) (hline : cfg.memBytes % cfg.l2.lineBytes = 0)
    {a : Nat} (ha : a < cfg.memBytes) : cfg.LineInside (a - a % cfg.grain) := by
  have hgrain : cfg.grain = cfg.l2.lineBytes := by rw [SimConfig.grain, if_neg (by simp [hcache])]
  unfold SimConfig.LineInside
  rw [hgrain]
  exact block_end_le (Nat.dvd_of_mod_eq_zero hline) ha

/-- A hierarchy of the shape that the configuration gives drains. -/
theorem draining_of_shape (hcfg : cfg.Accepted) (hcache : cfg.flatMemory = false)
    (hshape : CacheHierarchy.SameShape (CacheHierarchy.init cfg image) m) {same : Nat → Prop}
    {asked : Multiset (MemRequest τ)} (hok : HierOk cfg.LineInside same image asked m)
    (hsize : m.backing.size = cfg.memBytes) :
    Draining cfg.LineInside same image asked cfg.belowL2 cfg.belowL1 m := by
  obtain ⟨hi, hd, h2, -⟩ := hcfg.caches hcache
  have hpriced : Priced cfg.belowL2 cfg.belowL1 (CacheHierarchy.init (τ := τ) cfg image) :=
    ⟨Nat.le_refl _, Nat.le_refl _⟩
  have hroomy : Roomy (CacheHierarchy.init (τ := τ) cfg image) := by
    refine ⟨?_, h2.wbq_pos, hi.wbq_pos, hd.wbq_pos⟩
    show 1 ≤ (List.replicate cfg.l2.mshrs ({} : Mshr LineTag)).length
    rw [List.length_replicate]
    exact h2.mshrs_pos
  have hlines : m.l2.cfg.lineBytes = cfg.l2.lineBytes := by rw [hshape.l2.cfg]; rfl
  exact ⟨hok, hpriced.same hshape, hroomy.same hshape, by rw [hlines, hsize]; exact fun _ h => h⟩

/-- After a run that kept the shape, the hierarchy drains: the rest every run keeps. -/
theorem draining_of_run (hcfg : cfg.Accepted) (hfit : cfg.SizesFit)
    (hcache : cfg.flatMemory = false) (hline : cfg.memBytes % cfg.l2.lineBytes = 0)
    (hrun : PortRun cfg.fetchBlockBytes cfg.addressable (.init cfg image) evs (.cached m))
    (hshape : CacheHierarchy.SameShape (CacheHierarchy.init cfg image) m) : ∃ same asked,
      Draining cfg.LineInside same image asked cfg.belowL2 cfg.belowL1 m := by
  have ht := run_tracks (P := cfg.LineInside) hcfg hfit (Nat.min_le_right _ _)
    (fun a ha => lineInside_of_lt hcache hline (Nat.lt_of_lt_of_le ha (addressable_le_mem cfg))) hrun
  obtain ⟨asked, -, hok, -, -⟩ := ht.fetches
  exact ⟨_, asked, draining_of_shape hcfg hcache hshape hok.2.2 hok.1⟩

/-- A tick that leaves a hierarchy is the tick of the hierarchy that was there. -/
theorem tick_cached (h : s.tick = .ok (.cached m)) : ∃ m₀, s = .cached m₀ ∧ m₀.tick = .ok m := by
  cases s with
  | flat _ => cases h
  | cached m₀ =>
      rw [MemorySystem.tick] at h
      split at h
      · cases h
      · rename_i m₁ hm₁
        cases h
        exact ⟨m₀, rfl, hm₁⟩

/-- An access to the data port keeps the shape: it moves queues and arrays, not their sizes. -/
theorem dAccess_cached {req : MemRequest τ} (h : s.dAccess req = .ok (.cached m)) :
    ∃ m₀, s = .cached m₀ ∧ CacheHierarchy.SameShape m₀ m := by
  cases s with
  | flat _ =>
      rw [MemorySystem.dAccess] at h
      split at h <;> cases h
  | cached m₀ =>
      cases h
      exact ⟨m₀, rfl, .refl _, .refl _, (Cache.access_work (k := 0) m₀.l1d req).1, rfl⟩

/-- So does a fetch. -/
theorem iAccess_cached {req : MemRequest τ} (h : s.iAccess req = .ok (.cached m)) :
    ∃ m₀, s = .cached m₀ ∧ CacheHierarchy.SameShape m₀ m := by
  cases s with
  | flat _ =>
      rw [MemorySystem.iAccess] at h
      split at h <;> cases h
  | cached m₀ =>
      cases h
      exact ⟨m₀, rfl, .refl _, (Cache.access_work (k := 0) m₀.l1i req).1, .refl _, rfl⟩

/-- Popping an answer of the data port keeps the shape. -/
theorem dPop_cached (h : s.dPop = .cached m) : ∃ m₀, s = .cached m₀ ∧ CacheHierarchy.SameShape m₀ m := by
  cases s with
  | flat _ => cases h
  | cached m₀ =>
      cases h
      exact ⟨m₀, rfl, .refl _, .refl _, ⟨rfl, rfl⟩, rfl⟩

/-- So does popping a fetched block. -/
theorem iPop_cached (h : s.iPop = .cached m) : ∃ m₀, s = .cached m₀ ∧ CacheHierarchy.SameShape m₀ m := by
  cases s with
  | flat _ => cases h
  | cached m₀ =>
      cases h
      exact ⟨m₀, rfl, .refl _, ⟨rfl, rfl⟩, .refl _, rfl⟩

/-- A run keeps the shape that the configuration gives the hierarchy, so the bounds of the start are
good for the whole run. -/
theorem run_shape (hcfg : cfg.Accepted) (hfit : cfg.SizesFit)
    (hcache : cfg.flatMemory = false) (hline : cfg.memBytes % cfg.l2.lineBytes = 0)
    (hrun : PortRun cfg.fetchBlockBytes cfg.addressable (.init cfg image) evs s) :
    ∀ {m : CacheHierarchy τ}, s = .cached m →
      CacheHierarchy.SameShape (CacheHierarchy.init cfg image) m := by
  induction hrun with
  | reset =>
      intro m hm
      rw [MemorySystem.init, if_neg (by simp [hcache])] at hm
      cases hm
      exact .refl _
  | tick hrun ht ih =>
      intro m hm
      subst hm
      obtain ⟨m₀, rfl, hm₀⟩ := tick_cached ht
      obtain ⟨same, asked, hd⟩ := draining_of_run hcfg hfit hcache hline hrun (ih rfl)
      exact (ih rfl).trans (hd.tick hm₀).2.1
  | dAccess _ _ _ hacc ih =>
      intro m hm
      subst hm
      obtain ⟨m₀, rfl, hs⟩ := dAccess_cached hacc
      exact (ih rfl).trans hs
  | iAccess _ _ _ hacc ih =>
      intro m hm
      subst hm
      obtain ⟨m₀, rfl, hs⟩ := iAccess_cached hacc
      exact (ih rfl).trans hs
  | dPop _ _ ih =>
      intro m hm
      obtain ⟨m₀, rfl, hs⟩ := dPop_cached hm
      exact (ih rfl).trans hs
  | iPop _ _ ih =>
      intro m hm
      obtain ⟨m₀, rfl, hs⟩ := iPop_cached hm
      exact (ih rfl).trans hs

/-- From every state of every run, cycles in which the core only pops come to an idle hierarchy: no
miss, no line on its way down and no response is left at any level. So no request waits for ever. -/
theorem memory_drains (hcfg : cfg.Accepted) (hfit : cfg.SizesFit)
    (hcache : cfg.flatMemory = false) (hline : cfg.memBytes % cfg.l2.lineBytes = 0)
    (hrun : PortRun cfg.fetchBlockBytes cfg.addressable (.init cfg image) evs (.cached m)) :
    ∃ n m', MemorySystem.drain n (.cached m) = .ok (.cached m') ∧ m'.Idle := by
  have hshape := run_shape hcfg hfit hcache hline hrun rfl
  obtain ⟨same, asked, hd⟩ := draining_of_run hcfg hfit hcache hline hrun hshape
  exact hd.drains

/-- With an L1D line on its way down, refills outstanding at each level and a fetch that misses,
ticks alone empty the hierarchy. -/
theorem memory_drains_misses : ∃ (evs : List (PortEvent Nat)) (m : CacheHierarchy Nat) (n : Nat)
    (m' : CacheHierarchy Nat),
    PortRun smallConfig.fetchBlockBytes smallConfig.addressable
      (.init smallConfig fun a => BitVec.ofNat 8 a) evs (.cached m) ∧
    m.l1d.wbq.map (·.addr) = [32] ∧ m.l1d.pendingMisses = 1 ∧ m.l1i.pendingMisses = 1 ∧
    m.l2.pendingMisses = 2 ∧ MemorySystem.drain n (.cached m) = .ok (.cached m') ∧ m'.Idle := by
  obtain ⟨evs, s, hrun, hp⟩ := PortRun.eval smallConfig.fetchBlockBytes smallConfig.addressable
    (.init smallConfig fun a => BitVec.ofNat 8 a) missUses
    (p := fun _ s => s.caches.any fun (m : CacheHierarchy Nat) => decide (m.l1d.wbq.map (·.addr) = [32] ∧
      m.l1d.pendingMisses = 1 ∧ m.l1i.pendingMisses = 1 ∧ m.l2.pendingMisses = 2)) (by decide +kernel)
  obtain ⟨m, hm, hp⟩ := (Option.any_eq_true _ _).mp hp
  obtain ⟨hwbq, hdata, hfetch, hlower⟩ := of_decide_eq_true hp
  rw [eq_cached hm] at hrun
  obtain ⟨n, m', h, hidle⟩ := memory_drains smallConfig_accepted smallConfig_sizesFit rfl (by decide) hrun
  exact ⟨evs, m, n, m', hrun, hwbq, hdata, hfetch, hlower, h, hidle⟩

end Runs

end RvO3
