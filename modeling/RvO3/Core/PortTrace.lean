import RvO3.Core.Accesses
import RvO3.Memory.Inside

/-!
# The core at its ports

Every state of a run of the core over the assembled memory system comes with a legal run of
the ports (`Actions.traced`): scalars and fetch blocks inside memory, each accepted when its
port can accept. The writes of that run are, in order, the stores that have been committed
and sent.
-/

set_option autoImplicit false

namespace RvO3

open OoOCore

/-! ## Fetch blocks -/

/-- Clearing the low `k` bits. -/
theorem toNat_and_not_mask (x : Word) (k : Nat) :
    (x &&& ~~~(BitVec.ofNat 32 (2 ^ k - 1))).toNat = x.toNat - x.toNat % 2 ^ k := by
  have hshift : x &&& ~~~(BitVec.ofNat 32 (2 ^ k - 1)) = x >>> k <<< k := by
    apply BitVec.eq_of_getLsbD_eq
    intro i hi
    rw [BitVec.getLsbD_and, BitVec.getLsbD_not, BitVec.getLsbD_ofNat, Nat.testBit_two_pow_sub_one,
      BitVec.getLsbD_shiftLeft, BitVec.getLsbD_ushiftRight]
    by_cases hik : i < k
    · simp [hi, hik]
    · simp [hi, hik, Nat.add_sub_cancel' (Nat.le_of_not_lt hik)]
  have hdiv := Nat.div_add_mod x.toNat (2 ^ k)
  have hlt : x.toNat / 2 ^ k * 2 ^ k < 2 ^ 32 :=
    Nat.lt_of_le_of_lt (Nat.div_mul_le_self _ _) x.isLt
  rw [hshift, BitVec.toNat_shiftLeft, BitVec.toNat_ushiftRight, Nat.shiftRight_eq_div_pow,
    Nat.shiftLeft_eq, Nat.mod_eq_of_lt hlt, Nat.mul_comm]
  omega

section Blocks

variable {M : Type} {cfg : SimConfig} {c : OoOCore M}

theorem blockRequest_addr (hcfg : cfg.Accepted) (hc : c.cfg = cfg) :
    c.blockRequest.addr = c.pc.toNat - c.pc.toNat % cfg.fetchBlockBytes := by
  obtain ⟨k, hk, hn⟩ := hcfg.fetch_eq_pow
  show (c.pc &&& ~~~(BitVec.ofNat 32 (c.cfg.fetchBlockBytes - 1))).toNat = _
  rw [hc, hn]
  exact toNat_and_not_mask c.pc k

/-- The read of the fetch block around `pc`. -/
structure MemRequest.BlockAt (cfg : SimConfig) (pc : Word) (req : MemRequest Nat) : Prop where
  read : req.isWrite = false
  size : req.size = cfg.fetchBlockBytes
  addr : req.addr = pc.toNat - pc.toNat % cfg.fetchBlockBytes

/-- The core fetches the block of its address. -/
theorem blockRequest_at (hcfg : cfg.Accepted) (hc : c.cfg = cfg) : c.blockRequest.BlockAt cfg c.pc :=
  ⟨rfl, by rw [← hc]; rfl, blockRequest_addr hcfg hc⟩

/-- The block of a fetch, when it ends inside memory. -/
theorem MemRequest.BlockAt.block {req : MemRequest Nat} {pc : Word} (hcfg : cfg.Accepted) (h : req.BlockAt cfg pc)
    (hin : req.addr + cfg.fetchBlockBytes ≤ cfg.memBytes) : req.Block cfg.fetchBlockBytes cfg.addressable := by
  have haligned : req.addr % cfg.fetchBlockBytes = 0 := by
    rw [h.addr]
    exact Nat.sub_mod_eq_zero_of_mod_eq (Nat.mod_mod _ _).symm
  refine ⟨h.read, h.size, haligned, Nat.le_min.mpr ⟨hin, ?_⟩⟩
  -- the address space is a whole number of blocks
  obtain ⟨k, hk, hn⟩ := hcfg.fetch_eq_pow
  rw [h.addr, hn]
  exact block_end_le (Nat.pow_dvd_pow 2 (by omega)) pc.isLt

theorem blockRequest_block (hcfg : cfg.Accepted) (hc : c.cfg = cfg)
    (hin : c.blockRequest.addr + cfg.fetchBlockBytes ≤ cfg.memBytes) :
    c.blockRequest.Block cfg.fetchBlockBytes cfg.addressable :=
  (blockRequest_at hcfg hc).block hcfg hin

end Blocks

/-- A scalar inside memory has an address, so it is inside what addresses can name. -/
theorem MemRequest.Scalar.addressable {τ : Type} {cfg : SimConfig} {req : MemRequest τ}
    (h : req.Scalar cfg.memBytes) (ha : req.addr < 2 ^ 32) : req.Scalar cfg.addressable := by
  have hsize := h.size
  have haligned := h.aligned
  have hdvd : req.size ∣ 2 ^ 32 := by rcases hsize with hs | hs | hs <;> rw [hs] <;> decide
  have hend := block_end_le hdvd ha
  rw [haligned, Nat.sub_zero] at hend
  exact ⟨hsize, haligned, Nat.le_min.mpr ⟨h.inside, hend⟩⟩

section Scalars

variable {M : Type} [MemPorts Nat M] {cfg : SimConfig} {c : OoOCore M}

/-- The load that may go is an aligned access inside memory. -/
theorem AccessesOk.loadScalar (h : AccessesOk cfg cfg.memBytes c) {slot : Nat} (hg : c.MayGo slot) (tag : Nat) :
    ((c.lsq.at' slot).request tag).Scalar cfg.addressable := by
  obtain ⟨hlive, hcand⟩ := h.lsq.wf.candidate hg.candidate
  simp only [LsqEntry.isCandidate, Bool.and_eq_true] at hcand
  exact ((h.addrs slot hlive hcand.1.1.2).scalar hg.noFault tag).addressable (BitVec.isLt _)

/-- So is the store that the buffer sends. -/
theorem AccessesOk.storeScalar (h : AccessesOk cfg cfg.memBytes c) {slot : Nat}
    (hn : c.sb.nextToIssue = some slot) (tag : Nat) :
    ((c.sb.ring.e slot).request tag).Scalar cfg.addressable := by
  obtain ⟨-, -, hslots⟩ := StoreBuffer.nextToIssue_some hn
  have hmem : c.sb.ring.e slot ∈ c.sb.ring.entries := by
    refine Ring.mem_entries.mpr ⟨slot, ?_, rfl⟩
    rw [hslots]
    exact List.mem_append_right _ List.mem_cons_self
  have hlegal := h.stores _ hmem
  have hscalar : ((c.sb.ring.e slot).request tag).Scalar cfg.memBytes :=
    ⟨hlegal.size, hlegal.aligned, hlegal.inside⟩
  exact hscalar.addressable (BitVec.isLt _)

end Scalars

/-! ## Stores in the commit stream -/

/-- The stores of a commit stream, oldest first. -/
def archStores (rs : List CommitRecord) : List MemoryWrite := rs.filterMap fun r => r.memoryWrite

/-- The store that a write of the data port performs. -/
def MemRequest.asWrite {τ : Type} (req : MemRequest τ) : MemoryWrite :=
  MemoryWrite.mk' (BitVec.ofNat 32 req.addr) req.wdata req.size

/-- The request that sends an entry writes the store of the entry. -/
theorem StoreBufEntry.request_asWrite (st : StoreBufEntry) (tag : Nat) :
    (st.request tag).asWrite = st.asWrite := by
  simp [MemRequest.asWrite, StoreBufEntry.request, StoreBufEntry.asWrite]

/-- The stores that the data port accepted, oldest first. -/
def portStores {τ : Type} (evs : List (PortEvent τ)) : List MemoryWrite :=
  evs.filterMap fun
    | .dAccess req => if req.isWrite then some req.asWrite else none
    | _ => none

theorem portStores_append {τ : Type} (evs evs' : List (PortEvent τ)) :
    portStores (evs ++ evs') = portStores evs ++ portStores evs' := List.filterMap_append

/-! ## What an action asks of memory -/

section Moves

variable {M : Type} {cfg : SimConfig} {c c' : OoOCore M} {ws : List MemoryWrite}

/-- The stores `ws` were sent: they are the committed ones, but for those that wait in the buffer for their
turn. -/
def StoresSent (c : OoOCore M) (ws : List MemoryWrite) : Prop :=
  ∃ gone, archStores c.commits = gone ++ c.sb.writes ∧ ws = gone ++ c.sb.writes.take c.sb.issued

/-- Nothing was committed or sent. -/
theorem StoresSent.same (h : StoresSent c ws) (hcs : archStores c'.commits = archStores c.commits)
    (hw : c'.sb.writes = c.sb.writes) (hi : c'.sb.issued = c.sb.issued) : StoresSent c' (ws ++ []) := by
  obtain ⟨gone, hcom, hsent⟩ := h
  exact ⟨gone, by rw [hcs, hw]; exact hcom, by rw [List.append_nil, hw, hi]; exact hsent⟩

variable [MemPorts Nat M]

/-- What an action asks of the memory system, with the stores that it sends there. Scalars lie inside
what addresses can name. -/
inductive PortMove (cfg : SimConfig) (c c' : OoOCore M) : List MemoryWrite → Prop
  | kept : c'.msys = c.msys → PortMove cfg c c' []
  | response {r : MemResponse Nat} : MemPorts.dResponse c.msys = some r → c'.msys = MemPorts.dPop c.msys →
      PortMove cfg c c' []
  | load {slot : Nat} : SendsLoad c c' slot →
      ((c.lsq.at' slot).request (loadTag slot (c.lsq.at' slot).gen)).Scalar cfg.addressable →
      MemPorts.dAccess c.msys ((c.lsq.at' slot).request (loadTag slot (c.lsq.at' slot).gen)) = .ok c'.msys →
      PortMove cfg c c' []
  | store {slot : Nat} : MemPorts.dCanAccept c.msys = true →
      ((c.sb.ring.e slot).request (storeTag slot c.sbTxnCtr)).Scalar cfg.addressable →
      MemPorts.dAccess c.msys ((c.sb.ring.e slot).request (storeTag slot c.sbTxnCtr)) = .ok c'.msys →
      PortMove cfg c c' [(c.sb.ring.e slot).asWrite]
  | fetched {r : MemResponse Nat} : MemPorts.iResponse c.msys = some r → c'.msys = MemPorts.iPop c.msys →
      PortMove cfg c c' []
  | fetch : MemPorts.iCanAccept c.msys = true → c.pc.toNat < MemPorts.memSize c.msys →
      MemPorts.iAccess c.msys c.blockRequest = .ok c'.msys → PortMove cfg c c' []
  | tick : MemPorts.tick c.msys = .ok c'.msys → PortMove cfg c c' []

/-- The stores that an action sends are the next ones of the buffer. -/
theorem Action.portMove (ha : Action c c') (hc : AccessesOk cfg cfg.memBytes c) :
    ∃ new, PortMove cfg c c' new ∧ ∀ ws, StoresSent c ws → StoresSent c' (ws ++ new) := by
  -- the committed stores move from the buffer to `gone` when their entry leaves
  cases ha.memSide hc.core.back with
  | quiet hs =>
      exact ⟨[], .kept hs.msys, fun _ h => h.same (by rw [hs.commits]) (by rw [hs.sb]) (by rw [hs.sb])⟩
  | commit hw hm hsb hcs _ =>
      refine ⟨[], .kept hm, fun _ h => h.same ?_ (by rw [hsb]) (by rw [hsb])⟩
      rw [hcs, archStores, List.filterMap_append, List.filterMap_cons_none hw]
      exact List.append_nil _
  | store hf hw hm hsb hcs _ =>
      -- committed, in the buffer, and not sent yet
      obtain ⟨-, -, h3, h4⟩ := hc.sb.push _ _ _ hf
      refine ⟨[], .kept hm, fun ws hs => ?_⟩
      obtain ⟨gone, hcom, hsent⟩ := hs
      refine ⟨gone, ?_, ?_⟩
      · rw [hcs, hsb, h3, ← List.append_assoc, ← hcom, archStores, List.filterMap_append,
          List.filterMap_cons_some hw]
        rfl
      · rw [List.append_nil, hsb, hsent, ← h4]
        rfl
  | response hr hm hsb hcs _ =>
      refine ⟨[], .response hr hm, fun ws h => ?_⟩
      rcases hc.sb.response_cases hsb with heq | ⟨s, hmem, hna, heq⟩
      · exact h.same (by rw [hcs]) (by rw [heq]) (by rw [heq])
      · exact h.same (by rw [hcs]) (by rw [heq]; exact (hc.sb.mark hmem hna).2.2) (by rw [heq]; rfl)
  | popAck he hack hm hsb hcs _ =>
      -- acknowledged: the oldest entry leaves, and both lists are split one later
      obtain ⟨-, -, -, h4, h5⟩ := hc.sb.popHead he hack
      refine ⟨[], .kept hm, fun ws hs => ?_⟩
      obtain ⟨gone, hcom, hsent⟩ := hs
      refine ⟨gone ++ [c.sb.ring.head.asWrite], ?_, ?_⟩
      · rw [hcs, hsb, List.append_assoc, List.singleton_append, ← h4]
        exact hcom
      · rw [List.append_nil, hsb, List.append_assoc, List.singleton_append, ← h5]
        exact hsent
  | sendLoad hs hm hsb hcs _ =>
      exact ⟨[], .load hs (hc.loadScalar hs.mayGo _) hm,
        fun _ h => h.same (by rw [hcs]) (by rw [hsb]) (by rw [hsb])⟩
  | @sendStore slot hn hacc hm hsb hcs _ =>
      -- one more write of the buffer is sent
      obtain ⟨-, -, h3, h4⟩ := hc.sb.send c.sbTxnCtr hn
      refine ⟨_, .store hacc (hc.storeScalar hn _) hm, fun ws hs => ?_⟩
      obtain ⟨gone, hcom, hsent⟩ := hs
      refine ⟨gone, ?_, ?_⟩
      · rw [hcs, hsb, h3]
        exact hcom
      · rw [hsent, hsb, h4, List.append_assoc]
  | fetched hr hm hsb hcs _ =>
      exact ⟨[], .fetched hr hm, fun _ h => h.same (by rw [hcs]) (by rw [hsb]) (by rw [hsb])⟩
  | fetch hacc hpc hm hsb hcs _ =>
      exact ⟨[], .fetch hacc hpc hm, fun _ h => h.same (by rw [hcs]) (by rw [hsb]) (by rw [hsb])⟩
  | tick hm hsb hcs _ =>
      exact ⟨[], .tick hm, fun _ h => h.same (by rw [hcs]) (by rw [hsb]) (by rw [hsb])⟩

end Moves

/-! ## The run behind a run -/

section Trace

variable {cfg : SimConfig} {image : Nat → Byte} {c c' : OoOCore (MemorySystem Nat)}
  {evs : List (PortEvent Nat)}

/-- The events `evs` bring the memory system where the core has it, and the writes among them
are the committed stores that were sent. -/
structure Traced (cfg : SimConfig) (image : Nat → Byte) (c : OoOCore (MemorySystem Nat))
    (evs : List (PortEvent Nat)) : Prop where
  run : PortRun cfg.fetchBlockBytes cfg.addressable (.init cfg image) evs c.msys
  stores : StoresSent c (portStores evs)

/-- The block of an accepted fetch ends inside memory. -/
theorem MemorySystem.blockInside {m m' : MemorySystem Nat} {req : MemRequest Nat} {pc : Word} (hcfg : cfg.Accepted)
    (hline : cfg.flatMemory = false → cfg.fetchBlockBytes ∣ cfg.memBytes ∨ 2 ^ 32 ≤ cfg.memBytes)
    (hsize : m.memSize = cfg.memBytes)
    (hrun : PortRun cfg.fetchBlockBytes cfg.addressable (.init cfg image) evs m) (hpc : pc.toNat < cfg.memBytes)
    (hreq : req.BlockAt cfg pc) (hm : m.iAccess req = .ok m') : req.addr + cfg.fetchBlockBytes ≤ cfg.memBytes := by
  have hge := hcfg.fetch_ge
  cases hflat : cfg.flatMemory with
  | true =>
      -- the flat memory performs the access at once, and faults outside
      have hmode : m.isFlat = true := by
        rw [MemorySystem.isFlat_run hrun, MemorySystem.isFlat_init, hflat]
      have hperf := MemorySystem.iAccess_inside hmode (by rw [hreq.size]; omega) hm
      rw [hreq.size, hsize] at hperf
      exact hperf
  | false =>
      rw [hreq.addr]
      rcases hline hflat with hd | htop
      · exact block_end_le hd hpc
      · obtain ⟨k, hk, hn⟩ := hcfg.fetch_eq_pow
        rw [hn]
        exact Nat.le_trans (block_end_le (Nat.pow_dvd_pow 2 (by omega)) pc.isLt) htop

/-- So does the block that the core fetches. -/
theorem AccessesOk.blockInside {m : MemorySystem Nat} (hcfg : cfg.Accepted)
    (hline : cfg.flatMemory = false → cfg.fetchBlockBytes ∣ cfg.memBytes ∨ 2 ^ 32 ≤ cfg.memBytes)
    (hc : AccessesOk cfg cfg.memBytes c)
    (hrun : PortRun cfg.fetchBlockBytes cfg.addressable (.init cfg image) evs c.msys)
    (hpc : c.pc.toNat < MemorySystem.memSize c.msys)
    (hm : MemorySystem.iAccess c.msys c.blockRequest = .ok m) :
    c.blockRequest.addr + cfg.fetchBlockBytes ≤ cfg.memBytes := by
  have hsize : MemorySystem.memSize c.msys = cfg.memBytes := hc.size
  exact MemorySystem.blockInside hcfg hline hsize hrun (hsize ▸ hpc) (blockRequest_at hcfg hc.core.config) hm

/-- What one action appends to the events. -/
theorem Action.traced (hcfg : cfg.Accepted)
    (hline : cfg.flatMemory = false → cfg.fetchBlockBytes ∣ cfg.memBytes ∨ 2 ^ 32 ≤ cfg.memBytes)
    (ha : Action c c') (hc : AccessesOk cfg cfg.memBytes c) (h : Traced cfg image c evs) :
    ∃ new, Traced cfg image c' (evs ++ new) := by
  obtain ⟨hrun, hsent⟩ := h
  obtain ⟨ws, hmove, hstores⟩ := ha.portMove hc
  have hnext : ∀ {ev : PortEvent Nat}, portStores [ev] = ws →
      PortRun cfg.fetchBlockBytes cfg.addressable (.init cfg image) (evs ++ [ev]) c'.msys →
      ∃ new, Traced cfg image c' (evs ++ new) := by
    intro ev hws hrun'
    refine ⟨[ev], hrun', ?_⟩
    rw [portStores_append, hws]
    exact hstores _ hsent
  cases hmove with
  | kept hm =>
      refine ⟨[], ?_, ?_⟩
      · rw [List.append_nil, hm]
        exact hrun
      · rw [portStores_append]
        exact hstores _ hsent
  | @response r hr hm =>
      exact hnext (show portStores [.dResponse r] = [] from rfl) (by rw [hm]; exact hrun.dPop hr)
  | load hs hscalar hm => exact hnext rfl (hrun.dAccess hs.accepts hscalar hm)
  | @store slot hacc hscalar hm =>
      refine hnext (List.filterMap_cons_some ?_) (hrun.dAccess hacc hscalar hm)
      exact congrArg some ((c.sb.ring.e slot).request_asWrite _)
  | @fetched r hr hm =>
      exact hnext (show portStores [.iResponse r] = [] from rfl) (by rw [hm]; exact hrun.iPop hr)
  | fetch hacc hpc hm =>
      have hin := hc.blockInside hcfg hline hrun hpc hm
      exact hnext rfl (hrun.iAccess hacc (blockRequest_block hcfg hc.core.config hin) hm)
  | tick hm => exact hnext rfl (hrun.tick hm)

theorem Actions.traced (hcfg : cfg.Accepted)
    (hline : cfg.flatMemory = false → cfg.fetchBlockBytes ∣ cfg.memBytes ∨ 2 ^ 32 ≤ cfg.memBytes)
    {frames : Bool} {inputs : Nat → Word} {histLen : Nat → Nat}
    (h : Actions (OoOCore.init cfg frames inputs histLen (MemorySystem.init cfg image)) c) :
    AccessesOk cfg cfg.memBytes c ∧ ∃ evs, Traced cfg image c evs := by
  have hsize := MemorySystem.memSize_init cfg image
  have hboth : ∀ {c}, Actions (OoOCore.init cfg frames inputs histLen (MemorySystem.init cfg image)) c →
      AccessesOk cfg cfg.memBytes c := fun hr => hr.accessesOk hcfg MemorySystem.keepsSize hsize
  refine ⟨hboth h, ?_⟩
  induction h with
  | refl => exact ⟨[], .reset, [], rfl, rfl⟩
  | tail hr ha ih =>
      obtain ⟨evs, ht⟩ := ih
      obtain ⟨new, ht'⟩ := ha.traced hcfg hline (hboth hr) ht
      exact ⟨evs ++ new, ht'⟩

end Trace

end RvO3
