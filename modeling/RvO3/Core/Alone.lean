import RvO3.Core.PortTrace

/-!
# A system instruction and memory

A system instruction dispatches into an empty machine and leaves it alone until it commits, so
while one is in the ROB every committed store has left the store buffer. What it reads through
the functional port is then the image with the committed stores applied in order
(`system_alone`).
-/

set_option autoImplicit false

namespace RvO3

open OoOCore

/-! ## Nothing waits beside a system instruction -/

section Waits

variable {M : Type} [MemPorts Nat M] {c c' : OoOCore M}

/-- A system instruction in the ROB finds no store in the buffer. -/
def SystemWaits (c : OoOCore M) : Prop :=
  ∀ i ∈ c.rob.slots, (c.rob.e i).isSystem = true → c.sb.ring.n = 0

omit [MemPorts Nat M] in
/-- The commit of a system instruction leaves the ROB empty. -/
theorem BackOk.alone_popHead (hb : BackOk c) {i : Nat} (hi : i ∈ c.rob.slots)
    (hsys : (c.rob.e i).isSystem = true) : c.rob.popHead.slots = [] := by
  rw [Ring.slots_popHead hb.rob.wf, hb.rob.alone i hi hsys]
  rfl

/-- The store buffer stays empty through every action but a commit. -/
theorem Action.sbStaysEmpty (ha : Action c c') (hb : BackOk c) (hsb : c.sb.InOrder)
    (hcom : c'.commits = c.commits) (h : c.sb.ring.n = 0) : c'.sb.ring.n = 0 := by
  cases ha.memSide hb with
  | quiet hs =>
      rw [hs.sb]
      exact h
  | commit _ _ hs =>
      rw [hs]
      exact h
  | store _ _ _ _ hc =>
      rw [hcom] at hc
      exact absurd (List.self_eq_append_right.mp hc) nofun
  | response _ _ hs =>
      rcases hsb.response_cases hs with heq | ⟨s, -, -, heq⟩
      · rw [heq]
        exact h
      · rw [heq]
        exact h
  | popAck he =>
      have hnil : c.sb.ring.empty = true := decide_eq_true h
      rw [hnil] at he
      cases he
  | sendLoad _ _ hs =>
      rw [hs]
      exact h
  | sendStore _ _ _ hs =>
      rw [hs]
      exact h
  | fetched _ _ hs =>
      rw [hs]
      exact h
  | fetch _ _ _ hs =>
      rw [hs]
      exact h
  | tick _ hs =>
      rw [hs]
      exact h

theorem Action.systemWaits (ha : Action c c') (hb : BackOk c) (hsb : c.sb.InOrder)
    (h : SystemWaits c) : SystemWaits c' := by
  intro i hi hsys
  rcases ha.commits_or hb with ⟨-, -, b, hc⟩ | hcom
  · -- a commit of the system instruction would have left no entry
    rcases commitOne_rob hc with ⟨-, hstop, -⟩ | ⟨hr, -⟩
    · rcases commitOne_cases hc with ⟨rfl, -⟩ | ⟨-, -, hgo⟩ | ⟨-, hgo⟩
      · exact h i hi hsys
      · rw [hstop] at hgo
        cases hgo
      · rw [hstop] at hgo
        cases hgo
    · rw [hr] at hi hsys
      have hlive : i ∈ c.rob.slots := by
        rw [Ring.slots_popHead hb.rob.wf] at hi
        exact List.mem_of_mem_tail hi
      rw [hb.alone_popHead hlive hsys] at hi
      cases hi
  · apply ha.sbStaysEmpty hb hsb hcom
    cases ha.robMoves hb with
    | kept hd =>
        have hold : (c'.rob.e i).isSystem = (c.rob.e i).isSystem :=
          (congrArg RobEntry.isSystem (hd.static i) :)
        exact h i (hd.live i hi) (hold ▸ hsys)
    | system hr _ => exact of_decide_eq_true hr.sbEmpty
    | op hr heq =>
        have hp := pushed hb.rob.wf hr.rob (opEntry c c.fetchQ.head)
        rw [heq, dispatchOp_eq] at hi hsys
        rcases List.mem_append.mp (hp.slots ▸ hi) with hold | hnew
        · exact h i hold (by rw [← hp.old i hold]; exact hsys)
        · rw [List.mem_singleton.mp hnew] at hsys
          rw [show (pushRob c.rob (opEntry c c.fetchQ.head)).e c.rob.allocIdx = _ from hp.new] at hsys
          cases hsys

end Waits

/-! ## Memory after the committed stores -/

/-- Memory after a store. -/
def MemoryWrite.apply (w : MemoryWrite) (mem : Nat → Byte) : Nat → Byte :=
  Memory.storeBytes mem w.addr.toNat w.size w.value

/-- Memory after stores, oldest first. -/
def storesApplied (image : Nat → Byte) (ws : List MemoryWrite) : Nat → Byte :=
  ws.foldl (fun mem w => w.apply mem) image

@[simp] theorem storesApplied_append (image : Nat → Byte) (ws : List MemoryWrite) (w : MemoryWrite) :
    storesApplied image (ws ++ [w]) = w.apply (storesApplied image ws) := by
  simp [storesApplied]

/-- A record keeps the bytes that the store writes. -/
theorem wordByte_mk' (addr v : Word) {size b : Nat} (hs : size = 1 ∨ size = 2 ∨ size = 4)
    (hb : b < size) : wordByte (MemoryWrite.mk' addr v size).value b = wordByte v b := by
  have hmask : size ≠ 4 → (1#32 <<< (8 * size)) - 1 = BitVec.ofNat 32 (2 ^ (8 * size) - 1) := by
    intro hne
    rcases hs with rfl | rfl | rfl
    · rfl
    · rfl
    · exact absurd rfl hne
  have hbit : ∀ i, 8 * b + i < 8 * size →
      (MemoryWrite.mk' addr v size).value.getLsbD (8 * b + i) = v.getLsbD (8 * b + i) := by
    intro i hi
    unfold MemoryWrite.mk'
    dsimp only
    by_cases h4 : size = 4
    · rw [if_pos h4]
    · have hlt : 8 * b + i < 32 := by omega
      rw [if_neg h4, hmask h4, BitVec.getLsbD_and, BitVec.getLsbD_ofNat, Nat.testBit_two_pow_sub_one,
        decide_eq_true hi, decide_eq_true hlt, Bool.and_self, Bool.and_true]
  apply BitVec.eq_of_getLsbD_eq
  intro i hi
  unfold wordByte
  rw [BitVec.getLsbD_setWidth, BitVec.getLsbD_setWidth, BitVec.getLsbD_ushiftRight,
    BitVec.getLsbD_ushiftRight, hbit i (by omega)]

section Stores

variable {τ : Type} {image : Nat → Byte} {n bound : Nat} {s₀ s : MemorySystem τ}
  {evs : List (PortEvent τ)} {req : MemRequest τ}

theorem MemRequest.asWrite_apply (h : req.Scalar bound) (hb : bound ≤ 2 ^ 32)
    (hw : req.isWrite = true) (mem : Nat → Byte) : req.asWrite.apply mem = req.apply mem := by
  have haddr : (BitVec.ofNat 32 req.addr).toNat = req.addr := by
    have hin := h.inside
    have hsize := h.size
    rw [BitVec.toNat_ofNat]
    exact Nat.mod_eq_of_lt (by omega)
  funext a
  show (if (BitVec.ofNat 32 req.addr).toNat ≤ a ∧ a < (BitVec.ofNat 32 req.addr).toNat + req.size then
    wordByte _ (a - (BitVec.ofNat 32 req.addr).toNat) else mem a) = _
  rw [haddr, MemRequest.apply]
  by_cases hin : req.addr ≤ a ∧ a < req.addr + req.size
  · have hsmall : req.size ≤ 4 := by
      have hsize := h.size
      omega
    rw [if_pos hin, if_pos ⟨hw, hin⟩, MemRequest.writeByte, if_pos hsmall]
    exact wordByte_mk' _ _ h.size (by omega)
  · rw [if_neg hin, if_neg (fun h' => hin h'.2)]

/-- The bytes of a run are those that the accepted stores wrote. -/
theorem PortRun.memAfter_stores (h : PortRun n bound s₀ evs s) (hb : bound ≤ 2 ^ 32) :
    memAfter image evs = storesApplied image (portStores evs) := by
  have hother : ∀ {evs : List (PortEvent τ)} {ev : PortEvent τ}, portStores [ev] = [] →
      ev.apply (memAfter image evs) = memAfter image evs →
      memAfter image evs = storesApplied image (portStores evs) →
      memAfter image (evs ++ [ev]) = storesApplied image (portStores (evs ++ [ev])) := by
    intro evs ev hno hid ih
    rw [memAfter_append, hid, portStores_append, hno, List.append_nil]
    exact ih
  induction h with
  | reset => rfl
  | tick _ _ ih => exact hother rfl rfl ih
  | @dAccess evs s s' req _ _ hs _ ih =>
      cases hw : req.isWrite with
      | true =>
          have hone : portStores [PortEvent.dAccess req] = [req.asWrite] :=
            List.filterMap_cons_some (if_pos hw)
          rw [memAfter_append, portStores_append, hone, storesApplied_append, ← ih]
          exact (MemRequest.asWrite_apply hs hb hw _).symm
      | false =>
          have hno : ¬req.isWrite = true := by simp [hw]
          refine hother (List.filterMap_cons_none (if_neg hno)) (funext fun a => ?_) ih
          exact if_neg fun h => hno h.1
  | iAccess _ _ _ _ ih => exact hother rfl rfl ih
  | dPop _ _ ih => exact hother rfl rfl ih
  | iPop _ _ ih => exact hother rfl rfl ih

end Stores

/-! ## What a system instruction reads -/

section Machine

variable {cfg : SimConfig} {image : Nat → Byte} {frames : Bool} {inputs : Nat → Word}
  {histLen : Nat → Nat} {c : OoOCore (MemorySystem Nat)}

/-- The functional read of a byte shows the last write that covered it, or the image. -/
structure PeekNewest {τ : Type} (image : Nat → Byte) (evs : List (PortEvent τ)) (s : MemorySystem τ)
    (a : Nat) : Prop where
  written : ∀ evs₁ w evs₂, evs = evs₁ ++ .dAccess w :: evs₂ → w.isWrite = true → w.covers a →
    unwritten evs₂ a → s.peek8 a = .ok (w.writeByte (a - w.addr))
  initial : unwritten evs a → s.peek8 a = .ok (image a)

/-- The machine around a system instruction at ROB index `i`. -/
structure SystemAlone (image : Nat → Byte) (memBytes : Nat) (c : OoOCore (MemorySystem Nat)) (i : Nat) :
    Prop where
  rob : c.rob.slots = [i]
  lsq : c.lsq.ring.slots = []
  iq : ∀ s, c.iq.occupied s = false
  sb : c.sb.ring.slots = []
  memory : ∀ a, a < memBytes → c.msys.peek8 a = .ok (storesApplied image (archStores c.commits) a)

theorem Actions.systemWaits (hcfg : cfg.Accepted)
    (h : Actions (OoOCore.init cfg frames inputs histLen (MemorySystem.init cfg image)) c) :
    SystemWaits c := by
  have hstep : ∀ {c c' : OoOCore (MemorySystem Nat)}, Action c c' →
      AccessesOk cfg cfg.memBytes c ∧ SystemWaits c → AccessesOk cfg cfg.memBytes c' ∧ SystemWaits c' :=
    fun ha hc => ⟨ha.accessesOk hcfg MemorySystem.keepsSize hc.1,
      ha.systemWaits hc.1.core.back hc.1.sb hc.2⟩
  refine (h.preserve hstep ⟨?_, ?_⟩).2
  · exact init_accessesOk hcfg frames inputs histLen _ (MemorySystem.memSize_init cfg image)
  · intro i hi
    rw [init_rob_slots] at hi
    cases hi

/-- Every byte read through the functional port is the newest one written, and around a system
instruction that is the bytes of the committed stores: while such an instruction is live, it is
alone in the machine, and the store buffer is empty. -/
theorem system_alone (hcfg : cfg.Accepted) (hfit : cfg.SizesFit) (hmem : cfg.memBytes < 2 ^ 32)
    (hline : cfg.flatMemory = false → cfg.l2.lineBytes ∣ cfg.memBytes) :
    (∀ {τ : Type} {evs : List (PortEvent τ)} {s : MemorySystem τ},
      PortRun cfg.fetchBlockBytes cfg.memBytes (.init cfg image) evs s →
        ∀ a, a < cfg.memBytes → PeekNewest image evs s a) ∧
    ∀ c, Actions (OoOCore.init cfg frames inputs histLen (MemorySystem.init cfg image)) c →
      ∀ i ∈ c.rob.slots, (c.rob.e i).isSystem = true → SystemAlone image cfg.memBytes c i := by
  refine ⟨fun hrun a ha => ⟨fun evs₁ w evs₂ heq hw hc hno => ?_, fun hno => ?_⟩, fun c h i hi hsys => ?_⟩
  · rw [MemorySystem.peek8_coherent hcfg hfit hmem hrun ha, heq, memAfter_last hw hc hno]
  · rw [MemorySystem.peek8_coherent hcfg hfit hmem hrun ha, memAfter_keeps hno]
  · have hgrain : cfg.flatMemory = false → cfg.fetchBlockBytes ∣ cfg.memBytes ∨ 2 ^ 32 ≤ cfg.memBytes := by
      intro hcache
      obtain ⟨-, -, -, -, -, hblock⟩ := CacheHierarchy.geometries (τ := Nat) hcfg hcache hfit
      exact .inl (hblock.trans (hline hcache))
    obtain ⟨hk, evs, hrun, gone, hcom, hsent⟩ := h.traced hcfg hgrain
    have hb := hk.core.back
    have hrob := hb.rob.alone i hi hsys
    have hn := h.systemWaits hcfg i hi hsys
    have hnil : c.sb.ring.slots = [] := List.length_eq_zero_iff.mp ((Ring.length_slots _).trans hn)
    have hwrites : c.sb.writes = [] := by
      rw [StoreBuffer.writes, Ring.entries, hnil]
      rfl
    refine ⟨hrob, ?_, fun s => ?_, hnil, fun a ha => ?_⟩
    · -- the LSQ holds the memory operations of the ROB
      have hslots := hb.lsq.slots
      rw [hrob, List.filter_cons_of_neg
        (by rw [(hb.rob.consistent i hi).system_not_mem hsys]; exact Bool.false_ne_true)] at hslots
      exact List.map_eq_nil_iff.mp hslots
    · rw [← Bool.not_eq_true]
      intro ho
      have hname := hb.iq.names s ho
      have hlive := hname.live
      rw [hrob, List.mem_singleton] at hlive
      have hno := hname.notSystem
      rw [hlive, hsys] at hno
      cases hno
    · have htop : cfg.addressable = cfg.memBytes := Nat.min_eq_left (Nat.le_of_lt hmem)
      rw [htop] at hrun
      rw [MemorySystem.peek8_coherent hcfg hfit hmem hrun ha,
        hrun.memAfter_stores (Nat.le_of_lt hmem), hsent, hcom, hwrites, List.take_nil]

/-- A store, and a fence that waits for it. -/
def fencedProgram : Nat → Word
  | 0 => 0x00500093#32 -- addi x1, x0, 5
  | 1 => 0x04102023#32 -- sw x1, 64(x0)
  | 2 => 0x0FF0000F#32 -- fence
  | _ => 0x00000013#32 -- nop

/-- The machine with small caches. -/
def fencedCore : OoOCore (MemorySystem Nat) :=
  OoOCore.init smallConfig false (fun _ => 0) (fun _ => 0)
    (MemorySystem.init smallConfig fun a => wordByte (fencedProgram (a / 4)) (a % 4))

/-- When the fence is in the machine it is alone there, and the functional port reads the stored word,
whose line is dirty in L1D. -/
theorem system_alone_fence : ∃ c, Reach fencedCore .boundary c ∧ c.commits.map (·.pc) = [0, 4] ∧
    (c.rob.e 2).isSystem = true ∧ (c.msys.caches.any fun m => m.l1d.dirtyAt 64) = true ∧
    SystemAlone (fun a => wordByte (fencedProgram (a / 4)) (a % 4)) smallConfig.memBytes c 2 ∧
    c.msys.peek8 64 = .ok 5 := by
  have hcfg := smallConfig_accepted
  obtain ⟨c, hr, hp⟩ := Reach.eval fencedCore 104 .boundary
    (p := fun c => decide (c.commits.map (·.pc) = [0, 4] ∧ (c.rob.e 2).isSystem = true ∧
      2 ∈ c.rob.slots ∧ (c.msys.caches.any fun m => m.l1d.dirtyAt 64) = true ∧
      storesApplied (fun a => wordByte (fencedProgram (a / 4)) (a % 4)) (archStores c.commits) 64 = 5))
    (by decide +kernel)
  obtain ⟨hpcs, hsys, hlive, hdirty, hbyte⟩ := of_decide_eq_true hp
  have halone := (system_alone hcfg smallConfig_sizesFit (by decide) (by decide)).2 c
    (hr.actions hcfg (init_coreOk _ _ _ _ hcfg)) 2 hlive hsys
  refine ⟨c, hr, hpcs, hsys, hdirty, halone, ?_⟩
  rw [halone.memory 64 (by decide), hbyte]

end Machine

end RvO3
