import RvO3.Core.Alone

/-!
# Data ports that work in order

What the loads of the core need of the memory system: its data port lets accesses take effect in the
order in which it accepts them (`PortInOrder`). When their answers come back, and in which order, is
left open. The assembled memory system is one (`MemorySystem.inOrder`).

On any of them the newest bytes are those of the committed stores that were sent, and an action adds
the answer to one access at most to what is owed (`Action.portStep`).
-/

set_option autoImplicit false

namespace RvO3

open OoOCore

/-- A memory system whose data port works in order. `newest` are the bytes that the accepted accesses leave,
wherever they have got to, and `owed` the answers that the port has still to give. -/
structure PortInOrder (cfg : SimConfig) (M : Type) [MemPorts Nat M] where
  ok : M → Prop
  newest : M → Nat → Byte
  owed : M → Multiset (MemResponse Nat)
  keepsSize : KeepsSize M
  access : ∀ {m m' : M} {req : MemRequest Nat}, ok m → MemPorts.dCanAccept m = true →
    req.Scalar cfg.addressable → MemPorts.dAccess m req = .ok m' →
    ok m' ∧ newest m' = req.apply (newest m) ∧ owed m' = req.answer (newest m) ::ₘ owed m
  response : ∀ {m : M} {r : MemResponse Nat}, ok m → MemPorts.dResponse m = some r →
    ok (MemPorts.dPop m) ∧ newest (MemPorts.dPop m) = newest m ∧ owed m = r ::ₘ owed (MemPorts.dPop m)
  fetch : ∀ {m m' : M} {req : MemRequest Nat} {pc : Word}, ok m → MemPorts.memSize m = cfg.memBytes →
    MemPorts.iCanAccept m = true → pc.toNat < cfg.memBytes → req.BlockAt cfg pc →
    MemPorts.iAccess m req = .ok m' → ok m' ∧ newest m' = newest m ∧ owed m' = owed m
  fetched : ∀ {m : M} {r : MemResponse Nat}, ok m → MemPorts.iResponse m = some r →
    ok (MemPorts.iPop m) ∧ newest (MemPorts.iPop m) = newest m ∧ owed (MemPorts.iPop m) = owed m
  tick : ∀ {m m' : M}, ok m → MemPorts.tick m = .ok m' → ok m' ∧ newest m' = newest m ∧ owed m' = owed m

section Steps

variable {M : Type} [MemPorts Nat M] {cfg : SimConfig} {p : PortInOrder cfg M} {image : Nat → Byte}
  {c c' : OoOCore M}

/-- The answer that the port makes to the load at `slot` if it accepts it now. -/
def PortInOrder.answerTo (p : PortInOrder cfg M) (c : OoOCore M) (slot : Nat) : MemResponse Nat :=
  ((c.lsq.at' slot).request (loadTag slot (c.lsq.at' slot).gen)).answer (p.newest c.msys)

/-- The newest bytes are those of the committed stores that were sent. -/
structure PortOk (p : PortInOrder cfg M) (image : Nat → Byte) (c : OoOCore M) : Prop where
  ok : p.ok c.msys
  newest : ∃ ws, StoresSent c ws ∧ p.newest c.msys = storesApplied image ws

/-- What an action adds to what the data port owes: the answer to a load, or acks. -/
inductive OwedStep (p : PortInOrder cfg M) (c c' : OoOCore M) : Prop
  | load {slot : Nat} : SendsLoad c c' slot → p.owed c'.msys = p.answerTo c slot ::ₘ p.owed c.msys →
      OwedStep p c c'
  | other : (∀ r ∈ p.owed c'.msys, isStoreTag r.tag ∨ r ∈ p.owed c.msys) → OwedStep p c c'

/-- What one action does at the data port. -/
theorem Action.portStep (hcfg : cfg.Accepted) (ha : Action c c') (hc : AccessesOk cfg cfg.memBytes c)
    (h : PortOk p image c) : PortOk p image c' ∧ OwedStep p c c' := by
  obtain ⟨ws, hsent, hnew⟩ := h.newest
  obtain ⟨new, hmove, hstores⟩ := ha.portMove hc
  have hsame : new = [] → p.ok c'.msys → p.newest c'.msys = p.newest c.msys → PortOk p image c' := by
    intro hno hok heq
    subst hno
    exact ⟨hok, _, hstores ws hsent, by rw [heq, hnew, List.append_nil]⟩
  cases hmove with
  | kept hm => exact ⟨hsame rfl (by rw [hm]; exact h.ok) (by rw [hm]), .other fun r hr => .inr (hm ▸ hr)⟩
  | @response r hr hm =>
      obtain ⟨hok, heq, howed⟩ := p.response h.ok hr
      rw [← hm] at hok heq howed
      refine ⟨hsame rfl hok heq, .other fun r' hr' => .inr ?_⟩
      rw [howed]
      exact Multiset.mem_cons_of_mem hr'
  | load hs hscalar hm =>
      obtain ⟨hok, heq, howed⟩ := p.access h.ok hs.accepts hscalar hm
      refine ⟨hsame rfl hok ?_, .load hs howed⟩
      rw [heq]
      exact funext fun a => if_neg fun hw => Bool.false_ne_true hw.1
  | @store slot hacc hscalar hm =>
      obtain ⟨hok, heq, howed⟩ := p.access h.ok hacc hscalar hm
      refine ⟨⟨hok, _, hstores ws hsent, ?_⟩, .other fun r hr => ?_⟩
      · rw [heq, storesApplied_append, ← hnew]
        have happly := MemRequest.asWrite_apply hscalar (Nat.min_le_right _ _) rfl (p.newest c.msys)
        rw [StoreBufEntry.request_asWrite] at happly
        exact happly.symm
      · rw [howed] at hr
        rcases Multiset.mem_cons.mp hr with rfl | hr
        · left
          rw [MemRequest.answer_tag]
          exact isStoreTag_storeTag _ _
        · exact .inr hr
  | @fetched r hr hm =>
      obtain ⟨hok, heq, howed⟩ := p.fetched h.ok hr
      rw [← hm] at hok heq howed
      exact ⟨hsame rfl hok heq, .other fun r hr => .inr (howed ▸ hr)⟩
  | fetch hacc hpc hm =>
      obtain ⟨hok, heq, howed⟩ := p.fetch h.ok hc.size hacc (hc.size ▸ hpc)
        (blockRequest_at hcfg hc.core.config) hm
      exact ⟨hsame rfl hok heq, .other fun r hr => .inr (howed ▸ hr)⟩
  | tick hm =>
      obtain ⟨hok, heq, howed⟩ := p.tick h.ok hm
      exact ⟨hsame rfl hok heq, .other fun r hr => .inr (howed ▸ hr)⟩

end Steps

/-! ## The assembled memory system -/

section Assembled

variable {cfg : SimConfig} {image : Nat → Byte} {m : MemorySystem Nat} {evs : List (PortEvent Nat)}

/-- After a run of its ports the memory system meets its invariant. -/
theorem PortRun.system_ok (hcfg : cfg.Accepted) (hfit : cfg.SizesFit)
    (h : PortRun cfg.fetchBlockBytes cfg.addressable (.init cfg image) evs m) :
    MemorySystem.Grid cfg.fetchBlockBytes cfg.addressable cfg.grain (fun _ => True) ∧
      ∃ asked, m.Ok cfg.memBytes cfg.grain (fun _ => True) (unwritten evs) image asked := by
  have htop : cfg.addressable ≤ 2 ^ 32 := Nat.min_le_right _ _
  obtain ⟨asked, done, hok, -, -⟩ :=
    (MemorySystem.run_tracks (P := fun _ => True) hcfg hfit htop (fun _ _ => trivial) h).fetches
  exact ⟨MemorySystem.grid hcfg hfit htop fun _ _ => trivial, asked, hok⟩

/-- The data port of the assembled memory system works in order, in flat mode and behind caches whose
lines memory is made of. -/
def MemorySystem.inOrder (image : Nat → Byte) (hcfg : cfg.Accepted) (hfit : cfg.SizesFit)
    (hline : cfg.flatMemory = false → cfg.fetchBlockBytes ∣ cfg.memBytes ∨ 2 ^ 32 ≤ cfg.memBytes) :
    PortInOrder cfg (MemorySystem Nat) where
  ok m := ∃ evs, PortRun cfg.fetchBlockBytes cfg.addressable (.init cfg image) evs m
  newest := MemorySystem.newest
  owed := MemorySystem.owed
  keepsSize := MemorySystem.keepsSize
  access := by
    rintro m m' req ⟨evs, hrun⟩ hacc hscalar hm
    obtain ⟨hgrid, asked, hok⟩ := hrun.system_ok hcfg hfit
    exact ⟨⟨_, hrun.dAccess hacc hscalar hm⟩, (hok.dAccess hgrid hacc hscalar hm).2⟩
  response := by
    rintro m r ⟨evs, hrun⟩ hr
    obtain ⟨-, asked, hok⟩ := hrun.system_ok hcfg hfit
    exact ⟨⟨_, hrun.dPop hr⟩, (hok.dPop hr).2⟩
  fetch := by
    rintro m m' req pc ⟨evs, hrun⟩ hsize hacc hpc hreq hm
    obtain ⟨hgrid, asked, hok⟩ := hrun.system_ok hcfg hfit
    have hblock := hreq.block hcfg (MemorySystem.blockInside hcfg hline hsize hrun hpc hreq hm)
    exact ⟨⟨_, hrun.iAccess hacc hblock hm⟩, (hok.iAccess hgrid hacc hblock hm).2⟩
  fetched := by
    rintro m r ⟨evs, hrun⟩ hr
    obtain ⟨-, asked, hok⟩ := hrun.system_ok hcfg hfit
    obtain ⟨-, -, -, -, -, heq⟩ := hok.iPop hr
    exact ⟨⟨_, hrun.iPop hr⟩, heq⟩
  tick := by
    rintro m m' ⟨evs, hrun⟩ hm
    obtain ⟨-, asked, hok⟩ := hrun.system_ok hcfg hfit
    exact ⟨⟨_, hrun.tick hm⟩, (hok.tick hm).2⟩

/-- Where a run of the ports has brought it, its newest bytes are those of the stores among the events. -/
theorem Traced.portOk {c : OoOCore (MemorySystem Nat)} (hcfg : cfg.Accepted) (hfit : cfg.SizesFit)
    (hline : cfg.flatMemory = false → cfg.fetchBlockBytes ∣ cfg.memBytes ∨ 2 ^ 32 ≤ cfg.memBytes)
    (h : Traced cfg image c evs) : PortOk (MemorySystem.inOrder image hcfg hfit hline) image c := by
  have htop : cfg.addressable ≤ 2 ^ 32 := Nat.min_le_right _ _
  have htracks := MemorySystem.run_tracks (P := fun _ => True) hcfg hfit htop (fun _ _ => trivial) h.run
  exact ⟨⟨evs, h.run⟩, _, h.stores, htracks.newest.trans (h.run.memAfter_stores htop)⟩

end Assembled

end RvO3
