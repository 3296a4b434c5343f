import RvO3.Memory.Coherent

/-!
# One place, one answer

Each accepted request is answered at most once, on the port that accepted it and with its
tag, and is held in one place until then (`answered_once`). A line is in one table of a
cache at a time, at every point of a cycle, so a cache that accepts a request has an MSHR
and room for a victim (`residency`).
-/

set_option autoImplicit false

namespace RvO3

open MemorySystem

variable {τ : Type}

/-! ## Exactly once -/

/-- The accesses that the data port accepted. -/
def dRequests (evs : List (PortEvent τ)) : List (MemRequest τ) :=
  evs.filterMap fun | .dAccess req => some req | _ => none

/-- The tags that a DRAM holds: in flight, or in its response queue. -/
def DRAM.holds (d : DRAM τ) : Multiset τ :=
  ↑(d.inflight.map (·.resp.tag)) + ↑(d.respQ.map (·.tag))

/-- The tags that a cache holds: in its hit pipe, its response queue or a waiting list. -/
def Cache.holds (c : Cache τ) : Multiset τ :=
  ↑(c.hitPipe.map (·.resp.tag)) + ↑(c.respQ.map (·.tag)) +
    bag c.mshrs fun m => ↑(m.waiting.map (·.req.tag))

namespace MemorySystem

/-- The tags held below the data port, and below the fetch port. -/
def dHolds : MemorySystem τ → Multiset τ
  | .flat m => m.dram.holds
  | .cached m => m.l1d.holds

/-- The tags that the fetch port holds. -/
def iHolds : MemorySystem τ → Multiset τ
  | .flat m => m.flatI.holds
  | .cached m => m.l1i.holds

end MemorySystem

section Tags

theorem dAccepts_requests : ∀ (mem : Nat → Byte) (evs : List (PortEvent τ)),
    (dAccepts mem evs).map (·.1) = dRequests evs := by
  intro mem evs
  induction evs generalizing mem with
  | nil => rfl
  | cons e evs ih =>
      cases e with
      | dAccess req => exact congrArg (req :: ·) (ih _)
      | tick => exact ih mem
      | iAccess req => exact ih mem
      | dResponse r => exact ih mem
      | iResponse r => exact ih mem

theorem dAnswers_tags (image : Nat → Byte) (evs : List (PortEvent τ)) :
    (dAnswers image evs).map (·.tag) = (↑((dRequests evs).map (·.tag)) : Multiset τ) := by
  unfold dAnswers
  rw [Multiset.map_coe, List.map_map, ← dAccepts_requests image evs, List.map_map]
  congr 1
  exact List.map_congr_left fun p _ => MemRequest.answer_tag _ _

theorem Cache.Answers.tags {same : Nat → Prop} {image : Nat → Byte} {reqs : Multiset (MemRequest τ)}
    {rs : Multiset (MemResponse τ)} (h : Multiset.Rel (Answers same image) reqs rs) :
    rs.map (·.tag) = reqs.map (·.tag) := by
  induction h with
  | zero => rfl
  | cons hqr _ ih => rw [Multiset.map_cons, Multiset.map_cons, ih, hqr.tag]

theorem promised_tags (mem : Nat → Byte) (ws : List (Waiting τ)) :
    (promised mem ws).map (·.tag) = ws.map (·.req.tag) := by
  induction ws generalizing mem with
  | nil => rfl
  | cons w ws ih => rw [promised, List.map_cons, List.map_cons, ih, MemRequest.answer_tag]

theorem map_bag {α β γ : Type} (us : List α) (g : α → Multiset β) (f : β → γ) :
    (bag us g).map f = bag us fun u => (g u).map f := by
  induction us with
  | nil => rfl
  | cons u us ih => rw [bag_cons, bag_cons, Multiset.map_add, ih]

theorem DRAM.held_tags (d : DRAM τ) :
    (↑d.held : Multiset (MemResponse τ)).map (·.tag) = d.holds := by
  unfold DRAM.held DRAM.holds
  rw [← Multiset.coe_add, Multiset.map_add, Multiset.map_coe, Multiset.map_coe, List.map_map, add_comm]
  rfl

/-- The tags of the answers a cache holds are those in its hit pipe and in its answer queue. -/
theorem Cache.answered_tags (c : Cache τ) : c.answered.map (·.tag) =
    (↑(c.hitPipe.map (·.resp.tag)) : Multiset τ) + ↑(c.respQ.map (·.tag)) := by
  unfold answered
  rw [← Multiset.coe_add, Multiset.map_add, Multiset.map_coe, Multiset.map_coe, List.map_map, add_comm]
  rfl

/-- The tags of what a cache owes are those it holds, in the hit pipe, the queue and the misses. -/
theorem Cache.owed_tags (c : Cache τ) (below : Nat → Byte) : (c.owed below).map (·.tag) = c.holds := by
  unfold Cache.owed Cache.holds
  rw [Multiset.map_add, answered_tags, map_bag]
  congr 1
  exact bag_congr fun m _ => by rw [Multiset.map_coe, promised_tags]

/-- What a fetch port holds is what was asked of it and not answered. -/
theorem MemorySystem.Ok.asked_tags {size L : Nat} {P same : Nat → Prop} {image : Nat → Byte}
    {asked : Multiset (MemRequest τ)} {s : MemorySystem τ} (h : s.Ok size L P same image asked) :
    asked.map (·.tag) = s.iHolds := by
  cases s with
  | flat m =>
      rw [← Cache.Answers.tags h.2.2]
      exact m.flatI.held_tags
  | cached m =>
      obtain ⟨done, hasked, hrel⟩ := h.2.2.fetch.ledger
      rw [hasked, Multiset.map_add, ← Cache.Answers.tags hrel, Cache.answered_tags]
      show _ = m.l1i.holds
      unfold Cache.holds Cache.waitingReqs
      rw [map_bag]
      congr 1
      exact bag_congr fun m _ => by rw [Multiset.map_coe, List.map_map]; rfl

theorem MemorySystem.owed_tags (s : MemorySystem τ) : s.owed.map (·.tag) = s.dHolds := by
  cases s with
  | flat m => exact m.dram.held_tags
  | cached m => exact m.l1d.owed_tags _

end Tags

/-- At each port, the tags of the accepted requests are those of the responses given together with
those held, each in one place. So no request is lost and none is answered twice. -/
theorem answered_once {cfg : SimConfig} {image : Nat → Byte} {evs : List (PortEvent τ)}
    {s : MemorySystem τ} (hcfg : cfg.Accepted) (hfit : cfg.SizesFit)
    (hrun : PortRun cfg.fetchBlockBytes (2 ^ 32) (.init cfg image) evs s) :
    (↑((dRequests evs).map (·.tag)) : Multiset τ) = ↑((dResponses evs).map (·.tag)) + s.dHolds ∧
      (↑((iRequests evs).map (·.tag)) : Multiset τ) = ↑((iResponses evs).map (·.tag)) + s.iHolds := by
  have ht := run_tracks (P := fun _ => True) hcfg hfit (Nat.le_refl _) (fun _ _ => trivial) hrun
  obtain ⟨asked, done, hok, hreqs, hrel⟩ := ht.fetches
  constructor
  · rw [← dAnswers_tags image evs, ht.owed, Multiset.map_add, owed_tags, Multiset.map_coe]
  · rw [← Multiset.map_coe, hreqs, Multiset.map_add, ← Cache.Answers.tags hrel, hok.asked_tags,
      Multiset.map_coe]

/-- Three of the four data accesses were answered, each once, and the fourth is held; of the two
fetches the first was answered. -/
theorem answered_once_misses : ∃ evs s, PortRun smallConfig.fetchBlockBytes (2 ^ 32)
      (.init smallConfig fun a => BitVec.ofNat 8 a) evs s ∧
    (dRequests evs).map (·.tag) = [1, 3, 4, 5] ∧ (dResponses evs).map (·.tag) = [1, 3, 4] ∧
    (iRequests evs).map (·.tag) = [2, 6] ∧ (iResponses evs).map (·.tag) = [2] ∧
    (↑((dRequests evs).map (·.tag)) : Multiset Nat) = ↑((dResponses evs).map (·.tag)) + s.dHolds ∧
    (↑((iRequests evs).map (·.tag)) : Multiset Nat) = ↑((iResponses evs).map (·.tag)) + s.iHolds := by
  obtain ⟨evs, s, hrun, hp⟩ := PortRun.eval smallConfig.fetchBlockBytes (2 ^ 32)
    (.init smallConfig fun a => BitVec.ofNat 8 a) missUses
    (p := fun evs _ => decide ((dRequests evs).map (·.tag) = [1, 3, 4, 5] ∧
      (dResponses evs).map (·.tag) = [1, 3, 4] ∧ (iRequests evs).map (·.tag) = [2, 6] ∧
      (iResponses evs).map (·.tag) = [2])) (by decide +kernel)
  obtain ⟨hd, hd', hi, hi'⟩ := of_decide_eq_true hp
  exact ⟨evs, s, hrun, hd, hd', hi, hi', answered_once smallConfig_accepted smallConfig_sizesFit hrun⟩

/-! ## Residency -/

/-- One of the steps that a cycle of the hierarchy is made of. -/
inductive CacheHierarchy.CycleStep : CacheHierarchy τ → CacheHierarchy τ → Prop
  | dram {m : CacheHierarchy τ} : CycleStep m { m with dram := m.dram.tick }
  | drainDram {m : CacheHierarchy τ} : CycleStep m m.drainDram
  | tickL2 {m m' : CacheHierarchy τ} : m.tickL2 = .ok m' → CycleStep m m'
  | drainL2 {m : CacheHierarchy τ} : CycleStep m m.drainL2
  | tickL1I {m : CacheHierarchy τ} : CycleStep m m.tickL1I
  | tickL1D {m : CacheHierarchy τ} : CycleStep m m.tickL1D

/-- The states inside a cycle. -/
abbrev CacheHierarchy.Inside : CacheHierarchy τ → CacheHierarchy τ → Prop :=
  Relation.ReflTransGen CycleStep

/-- A line is in one of the three tables of a cache, once; an MSHR whose refill was sent has
one refill on its way, of which `below` are those that the level below owes. -/
structure Cache.Resident (c : Cache τ) (below : Multiset LineTag) : Prop where
  arraysOnce : ∀ s w w', w < c.cfg.ways → w' < c.cfg.ways →
    c.tags (c.lineIdx s w) = c.tags (c.lineIdx s w') → c.tags (c.lineIdx s w) ≠ invalidTag → w = w'
  queueOnce : (c.wbq.map (·.addr)).Nodup
  missOnce : ∀ i j, (c.mshrAt i).valid = true → (c.mshrAt j).valid = true →
    (c.mshrAt i).lineAddr = (c.mshrAt j).lineAddr → i = j
  queueNotArrays : ∀ e ∈ c.wbq, c.findWay (c.setOf e.addr) (c.tagOf e.addr) = none
  missNotArrays : ∀ i, (c.mshrAt i).valid = true →
    c.findWay (c.setOf (c.mshrAt i).lineAddr) (c.tagOf (c.mshrAt i).lineAddr) = none
  missNotQueue : ∀ i, (c.mshrAt i).valid = true → ∀ e ∈ c.wbq, e.addr ≠ (c.mshrAt i).lineAddr
  pending : c.pendingMisses = c.mshrs.countP (·.valid)
  room : c.wbq.length ≤ c.cfg.wbq
  refill : ∀ i, (c.mshrAt i).valid = true → (c.mshrAt i).refillSent = true →
    (c.mshrAt i).waiting ≠ [] ∧ below.count (.refill i) + (c.pendingInstalls.map (·.mshrIdx)).count i = 1
  accepts : c.canAccept = true → c.freeMshr ≠ none ∧ ∀ la, c.installOk la = true

/-- An array line that differs from the level below is marked dirty. -/
def Cache.MarkedDirty (c : Cache τ) (below : Nat → Byte) : Prop :=
  ∀ a line, a < 2 ^ 32 → c.lineAt a = some line → line (c.offsetOf a) ≠ below a → c.dirtyAt a = true

namespace Cache

variable {c : Cache τ} {P : Nat → Prop} {below : Multiset LineTag}

theorem count_filterMap_refillOf (below : Multiset LineTag) (i : Nat) :
    (below.filterMap refillOf).count i = below.count (.refill i) := by
  induction below using Multiset.induction_on with
  | empty => rfl
  | cons t below ih =>
      cases t with
      | wb =>
          rw [Multiset.filterMap_cons_none _ _ (by rfl), ih, Multiset.count_cons_of_ne (show LineTag.refill i ≠ .wb from nofun)]
      | refill j =>
          rw [Multiset.filterMap_cons_some refillOf _ _ (b := j) rfl, Multiset.count_cons, ih,
            Multiset.count_cons]
          simp

theorem card_inUse (c : Cache τ) : c.inUse.card = c.mshrs.countP (·.valid) := by
  have h := tally_range c.mshrs (·.valid) id
  have hcard : c.inUse.card = (tally c.mshrs (·.valid) id).card := by
    rw [← h]
    unfold inUse tally mshrAt
    simp only [Multiset.coe_card, List.length_map]
    rfl
  rw [hcard]
  unfold tally
  rw [Multiset.coe_card, List.length_map, List.countP_eq_length_filter]

theorem CacheOk.resident (hc : CacheOk P c) (hr : RefillsOk c below) : Resident c below := by
  refine ⟨hc.arrays.distinct, hc.leavingOnce, hc.missOnce, fun e he => ?_, fun i hv => ?_,
    fun i hv => (hc.misses i hv).notLeaving, ?_, hc.room, fun i hv hs => ?_, fun ha => ?_⟩
  · obtain ⟨hl, -, hn⟩ := hc.leaving e he
    exact (slotOf_eq_none hl.2).mp hn
  · have hm := hc.misses i hv
    exact (slotOf_eq_none hm.line.2).mp hm.notHere
  · rw [hc.pending, card_inUse]
  · refine ⟨(hc.misses i hv).nonempty, ?_⟩
    have hone := Multiset.count_eq_one_of_mem (refillsSent_nodup c) (mem_refillsSent.mpr ⟨hv, hs⟩)
    rw [hr, Multiset.count_add, count_filterMap_refillOf, Multiset.coe_count] at hone
    exact hone
  · exact ⟨(hc.free ha).1, fun la => installOk_of_room (hc.free ha).2 la⟩

theorem DataOk.markedDirty {mem : Nat → Byte} {refills : Multiset (MemResponse LineTag)}
    (h : DataOk c mem refills) : MarkedDirty c mem := by
  intro a line ha hl hne
  by_contra hd
  rw [Bool.not_eq_true] at hd
  exact hne (h.clean a line ha hl hd)

end Cache

namespace CacheHierarchy

variable {P same : Nat → Prop} {image : Nat → Byte} {asked : Multiset (MemRequest τ)}
  {m m' : CacheHierarchy τ}

/-- The parts of a cycle keep the hierarchy's invariant. -/
theorem HierOk.cycleStep (h : HierOk P same image asked m) (hs : CycleStep m m') :
    HierOk P same image asked m' := by
  cases hs with
  | dram => exact h.dramTick.1
  | drainDram => exact h.drainDram.1
  | tickL2 ht => exact (h.tickL2 ht).1
  | drainL2 => exact h.drainL2.1
  | tickL1I => exact h.tickL1I.1
  | tickL1D => exact h.tickL1D.1

theorem HierOk.inside (h : HierOk P same image asked m) (hs : Inside m m') :
    HierOk P same image asked m' := by
  induction hs with
  | refl => exact h
  | tail _ hstep ih => exact ih.cycleStep hstep

end CacheHierarchy

/-- Each line is in one place of each cache, at every point of every cycle of every run: in one way
of its set, in the writeback queue, or on its way in. A refill that came back finds its miss still
open. -/
theorem residency {cfg : SimConfig} {image : Nat → Byte} {evs : List (PortEvent τ)}
    {m m' : CacheHierarchy τ} (hcfg : cfg.Accepted) (hfit : cfg.SizesFit)
    (hrun : PortRun cfg.fetchBlockBytes (2 ^ 32) (.init cfg image) evs (.cached m))
    (hin : m.Inside m') :
    m'.l1i.Resident ((m'.owedTo .L1I).map (·.tag)) ∧
      m'.l1d.Resident ((m'.owedTo .L1D).map (·.tag)) ∧
      m'.l2.Resident ↑(m'.dram.held.map (·.tag)) ∧
      m'.l1d.MarkedDirty m'.lowerView ∧ m'.l2.MarkedDirty m'.backing.bytes := by
  have ht := run_tracks (P := fun _ => True) hcfg hfit (Nat.le_refl _) (fun _ _ => trivial) hrun
  obtain ⟨asked, done, hok, -, -⟩ := ht.fetches
  have h := hok.2.2.inside hin
  exact ⟨h.l1i.resident h.refillsI, h.l1d.resident h.refillsD, h.l2.resident h.refills2,
    h.dataD.markedDirty, h.data2.markedDirty⟩

/-- L1D holds a dirty line that waits for L2 and a miss whose refill was sent, and L2 a line that
differs from the backing store. -/
theorem residency_misses : ∃ (evs : List (PortEvent Nat)) (m : CacheHierarchy Nat),
    PortRun smallConfig.fetchBlockBytes (2 ^ 32)
      (.init smallConfig fun a => BitVec.ofNat 8 a) evs (.cached m) ∧
    m.l1d.wbq.map (·.addr) = [32] ∧ (m.l1d.mshrAt 1).lineAddr = 16 ∧
    (m.l1d.mshrAt 1).refillSent = true ∧ m.l2.findWay 0 0 = some 0 ∧ m.l2.dirtyAt 0 = true ∧
    m.l1i.Resident ((m.owedTo .L1I).map (·.tag)) ∧ m.l1d.Resident ((m.owedTo .L1D).map (·.tag)) ∧
    m.l2.Resident ↑(m.dram.held.map (·.tag)) ∧ m.l1d.MarkedDirty m.lowerView ∧
    m.l2.MarkedDirty m.backing.bytes := by
  obtain ⟨evs, s, hrun, hp⟩ := PortRun.eval smallConfig.fetchBlockBytes (2 ^ 32)
    (.init smallConfig fun a => BitVec.ofNat 8 a) missUses
    (p := fun _ s => s.caches.any fun (m : CacheHierarchy Nat) => decide (m.l1d.wbq.map (·.addr) = [32] ∧
      (m.l1d.mshrAt 1).lineAddr = 16 ∧ (m.l1d.mshrAt 1).refillSent = true ∧
      m.l2.findWay 0 0 = some 0 ∧ m.l2.dirtyAt 0 = true)) (by decide +kernel)
  obtain ⟨m, hm, hp⟩ := (Option.any_eq_true _ _).mp hp
  obtain ⟨hwbq, hline, hsent, hway, hdirty⟩ := of_decide_eq_true hp
  rw [eq_cached hm] at hrun
  exact ⟨evs, m, hrun, hwbq, hline, hsent, hway, hdirty,
    residency smallConfig_accepted smallConfig_sizesFit hrun .refl⟩

end RvO3
