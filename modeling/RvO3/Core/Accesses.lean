import RvO3.Core.RobSteps
import RvO3.Core.StoreBuf
import RvO3.Memory.Ports

/-!
# The accesses the core makes

An LSQ entry that knows its address has the size of its operation, and its ROB entry the
fault which that address raises (`AddrKnown`). So a load that may go is an aligned access
inside memory, a store that commits is one, and so is everything in the store buffer.
-/

set_option autoImplicit false

namespace RvO3

open OoOCore

/-! ## What resolves with the address -/

/-- The fields of an entry that no step changes once its address is known. -/
def LsqEntry.access (le : LsqEntry) : LsqEntry :=
  { le with
    data := 0, value := 0, dataReady := false, done := false, issued := false, reported := false }

/-- The size and the fault of a known address. -/
structure AddrKnown (memBytes : Nat) (e : RobEntry) (le : LsqEntry) : Prop where
  size : le.size = accessSize le.op
  fault : e.fault = faultOf memBytes le.addr le.size

/-- Every entry with an address is described by its ROB entry. -/
def AddrsKnown (memBytes : Nat) (r : Ring RobEntry) (q : LSQ) : Prop :=
  ∀ j ∈ q.ring.slots, (q.at' j).addrValid = true → AddrKnown memBytes (r.e (lsqRob q j)) (q.at' j)

/-- An access without a fault is aligned and inside memory. -/
theorem faultOf_eq_zero {memBytes n : Nat} {addr : Word} :
    faultOf memBytes addr n = 0 ↔ addr.toNat % n = 0 ∧ addr.toNat + n ≤ memBytes := by
  unfold faultOf
  split
  · rename_i h
    exact ⟨nofun, fun h' => absurd h'.1 h⟩
  · rename_i h
    split
    · exact ⟨nofun, fun h' => absurd h'.2 (by omega)⟩
    · exact ⟨fun _ => ⟨not_not.mp h, by omega⟩, fun _ => rfl⟩

/-- The access of an entry without a fault is a scalar one: aligned, of its size, and inside memory.
-/
theorem AddrKnown.scalar {memBytes : Nat} {e : RobEntry} {le : LsqEntry} (h : AddrKnown memBytes e le)
    (hf : e.fault = 0) (tag : Nat) : (le.request tag).Scalar memBytes := by
  have hz := faultOf_eq_zero.mp (h.fault.symm.trans hf)
  refine ⟨?_, hz.1, hz.2⟩
  show le.size = 1 ∨ le.size = 2 ∨ le.size = 4
  rw [h.size]
  exact accessSize_cases le.op

section Queue

variable {q q' : LSQ} {op : LsqOp} {J : LsqOp → Prop}

theorem LsqOp.rewrite_access (h : op.isResolve = false) (j : Nat) (le : LsqEntry) :
    (op.rewrite j le).access = le.access := by
  cases op with
  | resolve slot addr size => cases h
  | dispatch e robIdx ps2 prf => rfl
  | popHead => rfl
  | popTail => rfl
  | capture slot v =>
      simp only [LsqOp.rewrite]
      split <;> rfl
  | issueLoad slot =>
      simp only [LsqOp.rewrite]
      split <;> rfl
  | completeLoad slot v =>
      simp only [LsqOp.rewrite]
      split <;> rfl
  | reportLoad slot =>
      simp only [LsqOp.rewrite]
      split <;> rfl

/-- Operations other than resolving leave every known address where it was. -/
theorem LsqSteps.access (hJ : ∀ op, J op → op.isResolve = false) (hq : q.Ordered)
    (hs : LsqSteps J q q') {j : Nat} (hj : j ∈ q'.ring.slots) (hv : (q'.at' j).addrValid = true) :
    j ∈ q.ring.slots ∧ (q'.at' j).access = (q.at' j).access := by
  have hboth : q'.Ordered ∧ ∀ j ∈ q'.ring.slots, (q'.at' j).addrValid = true →
      j ∈ q.ring.slots ∧ (q'.at' j).access = (q.at' j).access := by
    refine hs.preserve (I := fun p => p.Ordered ∧ ∀ j ∈ p.ring.slots, (p.at' j).addrValid = true →
      j ∈ q.ring.slots ∧ (p.at' j).access = (q.at' j).access) ?_ ⟨hq, fun j hj _ => ⟨hj, rfl⟩⟩
    intro p op hop ha hp
    refine ⟨hp.1.run ha, fun j hj hv => ?_⟩
    have hsl := op.slotAfter hp.1.wf ha hj
    generalize (op.run p).at' j = le at hsl hv ⊢
    cases hsl with
    | new _ => cases hv
    | old hmem =>
        have hacc := op.rewrite_access (hJ op hop) j (p.at' j)
        have hvalid : (p.at' j).addrValid = true := by
          rw [← hv]
          exact (congrArg LsqEntry.addrValid hacc :).symm
        obtain ⟨h1, h2⟩ := hp.2 j hmem hvalid
        exact ⟨h1, hacc.trans h2⟩
  exact hboth.2 j hj hv

end Queue

/-! ## The core keeps it -/

section Core

variable {M : Type} [MemPorts Nat M] {c c' : OoOCore M} {memBytes : Nat}

theorem aguDrainOne_rob_e (hb : BackOk c) {i : Nat} (hi : c.readyAgu = some i) :
    (c.aguDrainOne i).rob.e = (c.fillOne i).rob.e := by
  unfold OoOCore.aguDrainOne
  dsimp only
  split
  · exact violationScan_rob_e (hb.fillOne hi) _
  · rfl

/-- The LSQ entry that a result fills. -/
theorem fillOne_at (c : OoOCore M) (i j : Nat) :
    (c.fillOne i).lsq.at' j =
      if j = (c.agus[i]?.getD default).out.lsqIdx then
        { c.lsq.at' j with
          addr := (c.agus[i]?.getD default).out.value
          size := accessSize (c.lsq.at' j).op
          addrValid := true }
      else c.lsq.at' j := by
  show (fillAddress c.lsq (c.agus[i]?.getD default).out).at' j = _
  rw [LSQ.at', fillAddress_ring, Ring.set_e, Function.update_apply]
  split
  · rename_i he
    rw [he]
  · rfl

/-- A step that resolves nothing and changes no settled fault. -/
theorem AddrsKnown.steps {r r' : Ring RobEntry} {q q' : LSQ} {J : LsqOp → Prop}
    (h : AddrsKnown memBytes r q) (ho : q.Ordered) (hJ : ∀ op, J op → op.isResolve = false)
    (hs : LsqSteps J q q')
    (hf : ∀ j ∈ q.ring.slots, (q.at' j).addrValid = true →
      (r'.e (q.at' j).robIdx).fault = (r.e (q.at' j).robIdx).fault) : AddrsKnown memBytes r' q' := by
  intro j hj hv
  obtain ⟨hmem, hacc⟩ := hs.access hJ ho hj hv
  have hv' : (q.at' j).addrValid = true := (congrArg LsqEntry.addrValid hacc :).symm.trans hv
  obtain ⟨h1, h2⟩ := h j hmem hv'
  have hop : (q'.at' j).op = (q.at' j).op := (congrArg LsqEntry.op hacc :)
  have haddr : (q'.at' j).addr = (q.at' j).addr := (congrArg LsqEntry.addr hacc :)
  have hsz : (q'.at' j).size = (q.at' j).size := (congrArg LsqEntry.size hacc :)
  have hrob : lsqRob q' j = (q.at' j).robIdx := (congrArg LsqEntry.robIdx hacc :)
  refine ⟨by rw [hsz, hop]; exact h1, ?_⟩
  rw [hrob, hf j hmem hv', haddr, hsz]
  exact h2

/-- An address that is handed to the LSQ brings its fault with it when it is misaligned or outside
memory. -/
theorem AddrsKnown.fillOne (h : AddrsKnown memBytes c.rob c.lsq) (hb : BackOk c)
    (hsize : MemPorts.memSize c.msys = memBytes) {i : Nat} (hi : c.readyAgu = some i) :
    AddrsKnown memBytes (c.fillOne i).rob (c.fillOne i).lsq := by
  have hd := (hb.delivered hi).lsq
  intro j hj hv
  have hmem : j ∈ c.lsq.ring.slots := by
    rw [show (c.fillOne i).lsq.ring = (fillAddress c.lsq (c.agus[i]?.getD default).out).ring from rfl,
      fillAddress_ring, Ring.slots_set] at hj
    exact hj
  by_cases hjs : j = (c.agus[i]?.getD default).out.lsqIdx
  · -- the entry that was just filled
    have hat := fillOne_at c i j
    rw [if_pos hjs] at hat
    have hname : lsqRob (c.fillOne i).lsq j = (c.agus[i]?.getD default).out.robIdx := by
      rw [lsqRob, hat, hjs]
      exact hd.robIdx
    refine ⟨by rw [hat], ?_⟩
    rw [hname, fillOne_eq]
    dsimp only
    rw [Ring.set_e, Function.update_self]
    show faultOf _ ((c.fillOne i).lsq.at' _).addr ((c.fillOne i).lsq.at' _).size = _
    rw [← hjs, hsize]
    rfl
  · have hat := fillOne_at c i j
    rw [if_neg hjs] at hat
    rw [hat] at hv ⊢
    obtain ⟨h1, h2⟩ := h j hmem hv
    refine ⟨h1, ?_⟩
    have hne : lsqRob c.lsq j ≠ (c.agus[i]?.getD default).out.robIdx := by
      intro he
      exact hjs (hb.lsq.rob_inj hb.rob.wf hmem hd.live (he.trans hd.robIdx.symm))
    rw [show lsqRob (c.fillOne i).lsq j = lsqRob c.lsq j by rw [lsqRob, hat, lsqRob], fillOne_eq]
    dsimp only
    rw [Ring.set_e, Function.update_of_ne hne]
    exact h2

theorem Action.addrsKnown (ha : Action c c') (hb : BackOk c) (ho : c.lsq.Ordered)
    (hsize : MemPorts.memSize c.msys = memBytes) (h : AddrsKnown memBytes c.rob c.lsq) :
    AddrsKnown memBytes c'.rob c'.lsq := by
  have hpop : ∀ op : LsqOp, op = .popTail → op.isResolve = false := by
    rintro _ rfl
    rfl
  rcases ha.lsqPlain hb with ⟨i, hi, rfl⟩ | hs | hs
  · have ho₁ : (c.fillOne i).lsq.Ordered :=
      LsqSteps.preserve (I := LSQ.Ordered) (fun _ ha hq => hq.run ha)
        (fillOne_once hb hi).to_reflTransGen ho
    apply (h.fillOne hb hsize hi).steps ho₁ hpop (aguDrainOne_steps hb hi)
    intro j _ _
    rw [aguDrainOne_rob_e hb hi]
  · exact h.steps ho (fun op hop => hop.2) hs.to_reflTransGen fun j hj hv => ha.fault_eq hb hj hv
  · exact h.steps ho hpop hs fun j hj hv => ha.fault_eq hb hj hv

/-! ## The store buffer -/

/-- Only a commit of the head extends the commit stream. -/
theorem Action.commits_or (ha : Action c c') (hb : BackOk c) :
    (c.rob.empty = false ∧ c.rob.head.done = true ∧ ∃ b, c.commitOne = .ok (c', b)) ∨
      c'.commits = c.commits := by
  cases ha.flow with
  | commit hne hd hc => exact .inl ⟨hne, hd, _, hc⟩
  | writeback hne => exact .inr (writebackOne_side hb hne).commits
  | drain hi =>
      right
      unfold OoOCore.aguDrainOne
      dsimp only
      split
      · -- a squash for a violated load logs no commit
        exact (violationScan_side (hb.fillOne hi) _).commits
      · rfl
  | @issue slot u _ _ _ => cases u <;> exact .inr rfl
  | @dispatch first _ =>
      rcases dispatchOne_cases c first with heq | ⟨-, heq⟩ | ⟨-, heq⟩ <;> rw [heq] <;> exact .inr rfl
  | tickUnits => exact .inr rfl
  | aside h => exact .inr h.commits

/-- Every store in the buffer is an aligned access inside memory. -/
def StoresLegal (memBytes : Nat) (b : StoreBuffer) : Prop :=
  ∀ st ∈ b.ring.entries, (st.request 0).Scalar memBytes

omit [MemPorts Nat M] in
/-- The LSQ entry of a memory operation at the ROB head. -/
theorem BackOk.lsqHead (h : BackOk c) (hne : c.rob.empty = false) (hm : c.rob.head.isMem = true) :
    c.lsq.ring.headIdx ∈ c.lsq.ring.slots ∧ lsqRob c.lsq c.lsq.ring.headIdx = c.rob.headIdx := by
  obtain ⟨rest, hr⟩ := Ring.slots_eq_cons h.rob.wf hne
  obtain ⟨qrest, hq, hrob, -⟩ := h.lsq.head_slot hr hm
  exact ⟨by rw [hq]; exact List.mem_cons_self, hrob⟩

omit [MemPorts Nat M] in
/-- A finished head that commits has no fault. -/
theorem commitFault_none {e : RobEntry} (h : c.commitFault e = none) : e.fault = 0 := by
  unfold OoOCore.commitFault at h
  dsimp only at h
  split at h
  · cases h
  · split at h
    · assumption
    · split at h <;> cases h

omit [MemPorts Nat M] in
/-- What a store that commits carries to the buffer. -/
theorem OpCommit.store_scalar (h : OpCommit c c') (hb : BackOk c) (hk : AddrsKnown memBytes c.rob c.lsq)
    (hne : c.rob.empty = false) (hd : c.rob.head.done = true) (hm : c.rob.head.isMem = true)
    (hst : c.lsq.ring.head.isStore = true) :
    (c.lsq.ring.head.request 0).Scalar memBytes ∧ c.lsq.ring.head.dataReady = true := by
  obtain ⟨hj, hrob⟩ := hb.lsqHead hne hm
  have hmatch := hb.lsq.agrees _ hj
  have hdone : (c.rob.e (lsqRob c.lsq c.lsq.ring.headIdx)).done = true := by
    rw [hrob]
    exact hd
  obtain ⟨hv, hdata⟩ := hmatch.store_done hst hdone
  refine ⟨(hk _ hj hv).scalar ?_ 0, hdata⟩
  rw [hrob]
  exact commitFault_none h.noFault

theorem StoresLegal.push {b : StoreBuffer} (h : StoresLegal memBytes b) (hwf : b.ring.Wf)
    (hf : b.ring.full = false) {v : StoreBufEntry} (hv : (v.request 0).Scalar memBytes) :
    StoresLegal memBytes (b.push v) := by
  intro st hst
  rw [show (b.push v).ring.entries = b.ring.entries ++ [v] from Ring.entries_push hwf hf v] at hst
  rcases List.mem_append.mp hst with hst | hst
  · exact h st hst
  · rw [List.mem_singleton.mp hst]
    exact hv

/-- Marking an entry as sent or acked keeps what it stores. -/
theorem StoresLegal.set {b b' : StoreBuffer} (h : StoresLegal memBytes b) {s : Nat} {v : StoreBufEntry}
    (hr : b'.ring = b.ring.set s v) (ha : v.addr = (b.ring.e s).addr)
    (hs : v.size = (b.ring.e s).size) : StoresLegal memBytes b' := by
  intro st hst
  rw [hr] at hst
  obtain ⟨i, hi, rfl⟩ := Ring.mem_entries.mp hst
  rw [Ring.slots_set] at hi
  have hold := h _ (Ring.mem_entries.mpr ⟨i, hi, rfl⟩)
  rw [Ring.set_e, Function.update_apply]
  split
  · rename_i he
    rw [he] at hold
    refine ⟨?_, ?_, ?_⟩
    · show v.size = 1 ∨ v.size = 2 ∨ v.size = 4
      rw [hs]
      exact hold.size
    · show v.addr.toNat % v.size = 0
      rw [ha, hs]
      exact hold.aligned
    · show v.addr.toNat + v.size ≤ memBytes
      rw [ha, hs]
      exact hold.inside
  · exact hold

theorem Action.storesLegal (ha : Action c c') (hb : BackOk c) (hsb : c.sb.InOrder)
    (hk : AddrsKnown memBytes c.rob c.lsq) (h : StoresLegal memBytes c.sb) :
    StoresLegal memBytes c'.sb := by
  have hsame : c'.sb = c.sb → StoresLegal memBytes c'.sb := fun heq => by rw [heq]; exact h
  -- by what the action does to the memory side; two of the cases write an entry of the buffer
  cases ha.memSide hb with
  | quiet hs => exact hsame hs.sb
  | commit _ _ hs => exact hsame hs
  | @store rec addr data size hf _ _ hs hc =>
      rcases ha.commits_or hb with ⟨hne, hd, b, hcom⟩ | hno
      · rcases commitOne_cases hcom with ⟨rfl, -⟩ | ⟨rec', hsys, -⟩ | ⟨hop, -⟩
        · exact h
        · obtain ⟨ret, prf, pos, hal, ex, rfl, -⟩ := hsys.frame
          exact h
        · by_cases hst : c.rob.head.isMem = true ∧ c.lsq.ring.head.isStore = true
          · -- the committed store: its access was found legal when the address was filled in
            obtain ⟨hsc, -⟩ := hop.store_scalar hb hk hne hd hst.1 hst.2
            have hsb' : c'.sb = c.sb.push
                ⟨c.lsq.ring.head.addr, c.lsq.ring.head.size, c.lsq.ring.head.data, false, false, 0⟩ := by
              rw [(congrArg OoOCore.sb hop.frame :)]
              exact if_pos hst
            rw [hsb']
            exact h.push hsb.wf hf ⟨hsc.size, hsc.aligned, hsc.inside⟩
          · apply hsame
            rw [(congrArg OoOCore.sb hop.frame :)]
            exact if_neg hst
      · rw [hno] at hc
        simp at hc
  | response _ _ hs =>
      rcases hsb.response_cases hs with heq | ⟨s, -, -, heq⟩
      · rw [heq]
        exact h
      · rw [heq]
        exact h.set (s := s) (v := { c.sb.ring.e s with acked := true }) rfl rfl rfl
  | popAck _ _ _ hs =>
      rw [hs]
      intro st hst
      rw [show c.sb.popHead.ring.entries = c.sb.ring.entries.tail from Ring.entries_popHead hsb.wf] at hst
      -- the entries that stay were legal before
      exact h st (List.mem_of_mem_tail hst)
  | sendLoad _ _ hs => exact hsame hs
  | @sendStore slot hn _ _ hs =>
      rw [hs]
      exact h.set (StoreBuffer.sentBuffer_ring _ hn) rfl rfl
  | fetched _ _ hs => exact hsame hs
  | fetch _ _ _ hs => exact hsame hs
  | tick _ hs => exact hsame hs

/-- The sent stores stay a prefix of the buffer, whatever the memory system answers. -/
theorem Action.sbInOrder (ha : Action c c') (hb : BackOk c) (h : c.sb.InOrder) : c'.sb.InOrder := by
  cases ha.memSide hb with
  | quiet hs => rw [hs.sb]; exact h
  | commit _ _ hs => rw [hs]; exact h
  | store hf _ _ hs => rw [hs]; exact (h.push _ _ _ hf).1
  | response _ _ hs =>
      rcases h.response_cases hs with heq | ⟨s, hmem, hna, heq⟩
      · rw [heq]
        exact h
      · rw [heq]
        exact (h.mark hmem hna).1
  | popAck he hack _ hs => rw [hs]; exact (h.popHead he hack).1
  | sendLoad _ _ hs => rw [hs]; exact h
  | sendStore hn _ _ hs => rw [hs]; exact (h.send _ hn).1
  | fetched _ _ hs => rw [hs]; exact h
  | fetch _ _ _ hs => rw [hs]; exact h
  | tick _ hs => rw [hs]; exact h

end Core

/-! ## Every run -/

/-- No operation of the ports changes the size of memory. -/
structure KeepsSize (M : Type) [MemPorts Nat M] : Prop where
  access : ∀ {m m' : M} {req : MemRequest Nat}, MemPorts.dAccess m req = .ok m' →
    MemPorts.memSize m' = MemPorts.memSize m
  fetch : ∀ {m m' : M} {req : MemRequest Nat}, MemPorts.iAccess m req = .ok m' →
    MemPorts.memSize m' = MemPorts.memSize m
  response : ∀ m : M, MemPorts.memSize (MemPorts.dPop m) = MemPorts.memSize m
  fetched : ∀ m : M, MemPorts.memSize (MemPorts.iPop m) = MemPorts.memSize m
  tick : ∀ {m m' : M}, MemPorts.tick m = .ok m' → MemPorts.memSize m' = MemPorts.memSize m

section Run

variable {M : Type} [MemPorts Nat M] {cfg : SimConfig} {c c' : OoOCore M} {memBytes : Nat}

theorem Action.memSize_eq (hM : KeepsSize M) (ha : Action c c') (hb : BackOk c) :
    MemPorts.memSize c'.msys = MemPorts.memSize c.msys := by
  cases ha.memSide hb with
  | quiet hs => rw [hs.msys]
  | commit _ hm => rw [hm]
  | store _ _ hm => rw [hm]
  | response _ hm => rw [hm]; exact hM.response _
  | popAck _ _ hm => rw [hm]
  | sendLoad _ hm => exact hM.access hm
  | sendStore _ _ hm => exact hM.access hm
  | fetched _ hm => rw [hm]; exact hM.fetched _
  | fetch _ _ hm => exact hM.fetch hm
  | tick hm => exact hM.tick hm

/-- What the core keeps about its accesses. -/
structure AccessesOk (cfg : SimConfig) (memBytes : Nat) (c : OoOCore M) : Prop where
  core : CoreOk cfg c
  lsq : c.lsq.Ordered
  sb : c.sb.InOrder
  size : MemPorts.memSize c.msys = memBytes
  addrs : AddrsKnown memBytes c.rob c.lsq
  stores : StoresLegal memBytes c.sb

/-- Every action keeps that addresses are checked where they are known, and committed stores are
legal. -/
theorem Action.accessesOk (hcfg : cfg.Accepted) (hM : KeepsSize M) (ha : Action c c')
    (h : AccessesOk cfg memBytes c) : AccessesOk cfg memBytes c' :=
  ⟨ha.coreOk hcfg h.core, ha.lsqOrdered h.core.back h.lsq, ha.sbInOrder h.core.back h.sb,
    (ha.memSize_eq hM h.core.back).trans h.size, ha.addrsKnown h.core.back h.lsq h.size h.addrs,
    ha.storesLegal h.core.back h.sb h.addrs h.stores⟩

theorem init_accessesOk (hcfg : cfg.Accepted) (frames : Bool) (inputs : Nat → Word)
    (histLen : Nat → Nat) (msys : M) (hsize : MemPorts.memSize msys = memBytes) :
    AccessesOk cfg memBytes (OoOCore.init cfg frames inputs histLen msys) := by
  have hlsq : (OoOCore.init cfg frames inputs histLen msys).lsq.ring.slots = [] := Ring.slots_init _
  have hsb : (OoOCore.init cfg frames inputs histLen msys).sb.ring.slots = [] := Ring.slots_init _
  refine ⟨init_coreOk frames inputs histLen msys hcfg, LSQ.Ordered.init (LSQ.wf_init hcfg.lsq_pos),
    .init hcfg.sb_pos, hsize, fun j hj => ?_, fun st hst => ?_⟩
  · rw [hlsq] at hj
    cases hj
  · rw [Ring.entries, hsb] at hst
    cases hst

theorem Actions.accessesOk (hcfg : cfg.Accepted) (hM : KeepsSize M) {frames : Bool}
    {inputs : Nat → Word} {histLen : Nat → Nat} {msys : M} (hsize : MemPorts.memSize msys = memBytes)
    (h : Actions (OoOCore.init cfg frames inputs histLen msys) c) : AccessesOk cfg memBytes c :=
  h.preserve (I := AccessesOk cfg memBytes) (fun ha hi => ha.accessesOk hcfg hM hi)
    (init_accessesOk hcfg frames inputs histLen msys hsize)

end Run

/-! ## The assembled memory system -/

namespace CacheHierarchy

variable {τ : Type}

theorem sendL2_backing (m : CacheHierarchy τ) (req : Option (MemRequest LineTag)) :
    (m.sendL2 req).backing = m.backing := by
  cases req <;> rfl

theorem drainL2_backing (m : CacheHierarchy τ) : m.drainL2.backing = m.backing := by
  have hfold : ∀ (rs : List (MemResponse LineTag)) (m : CacheHierarchy τ),
      (rs.foldl routeL2 m).backing = m.backing := by
    intro rs
    induction rs with
    | nil => exact fun _ => rfl
    | cons r rs ih =>
        intro m
        rw [List.foldl_cons, ih]
        unfold routeL2
        split <;> rfl
  unfold drainL2
  rw [hfold]

theorem tickL2_size {m m' : CacheHierarchy τ} (h : m.tickL2 = .ok m') :
    m'.backing.size = m.backing.size := by
  unfold tickL2 at h
  split at h
  · cases h
    rfl
  · split at h
    · cases h
    · rename_i hacc
      cases h
      exact (DRAM.access_ok hacc).1

/-- A tick does not change the size of memory. -/
theorem tick_size {m m' : CacheHierarchy τ} (h : m.tick = .ok m') :
    m'.backing.size = m.backing.size := by
  unfold tick at h
  split at h
  · cases h
  · rename_i m₁ hm₁
    cases h
    have h1 := tickL2_size hm₁
    unfold tickL1D tickL1I
    dsimp only
    rw [drainL2_backing, sendL2_backing]
    dsimp only
    rw [sendL2_backing]
    dsimp only
    rw [drainL2_backing]
    exact h1

end CacheHierarchy

/-- The assembled memory system keeps its size. -/
theorem MemorySystem.keepsSize : KeepsSize (MemorySystem Nat) where
  access := by
    intro m m' req h
    cases m with
    | cached m =>
        cases h
        rfl
    | flat m =>
        simp only [MemPorts.dAccess, dAccess, FlatMemory.dAccess] at h
        split at h
        · cases h
        · rename_i m₁ hm₁
          cases h
          split at hm₁
          · cases hm₁
          · rename_i hacc
            cases hm₁
            exact (DRAM.access_ok hacc).1
  fetch := by
    intro m m' req h
    cases m with
    | cached m =>
        cases h
        rfl
    | flat m =>
        simp only [MemPorts.iAccess, iAccess, FlatMemory.iAccess] at h
        split at h
        · cases h
        · rename_i m₁ hm₁
          cases h
          split at hm₁
          · cases hm₁
          · rename_i hacc
            cases hm₁
            exact (DRAM.access_ok hacc).1
  response m := by cases m <;> rfl
  fetched m := by cases m <;> rfl
  tick := by
    intro m m' h
    cases m with
    | flat m =>
        cases h
        rfl
    | cached m =>
        simp only [MemPorts.tick, MemorySystem.tick] at h
        split at h
        · cases h
        · rename_i m₁ hm₁
          cases h
          exact CacheHierarchy.tick_size hm₁

theorem MemorySystem.memSize_init (cfg : SimConfig) (image : Nat → Byte) :
    MemPorts.memSize (MemorySystem.init (τ := Nat) cfg image) = cfg.memBytes := by
  show MemorySystem.memSize _ = _
  unfold MemorySystem.init
  split <;> rfl

end RvO3
