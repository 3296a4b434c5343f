import RvO3.Core.PortTrace

/-!
# What can end a run

The core checks a fetch address and a scalar access, and not the block or line that the
levels round it to. When memory is a whole number of those, no access to it fails
(`accesses_inside`): then only an instruction that commits, or a fetch from outside memory
with nothing older in flight, ends a run. `validateConfig` does not ask for whole blocks.
-/

set_option autoImplicit false

namespace RvO3

open OoOCore

section Errors

variable {M : Type} [MemPorts Nat M] {cfg : SimConfig} {c : OoOCore M} {e : Fatal}

/-- The access of a failed attempt: a store of the buffer or the load that the visit chose. -/
inductive AccessFailed (r : OoOCore M × Option (Nat × Bool)) (e : Fatal) : Prop
  | store {slot : Nat} : r.1.sb.nextToIssue = some slot → r.1.sendStore slot = .error e → AccessFailed r e
  | load {slot : Nat} {wall : Bool} : r.2 = some (slot, wall) → r.1.sendLoad slot = .error e → AccessFailed r e

theorem accessOne_failed (h : c.accessOne = .error e) : AccessFailed c.findLoad e := by
  unfold OoOCore.accessOne at h
  generalize c.findLoad = r at h
  obtain ⟨c₁, cand⟩ := r
  dsimp only at h
  have hsent : ∀ {x : Except Fatal (OoOCore M)}, reported x = .error e → x = .error e := by
    intro x hx
    cases x with
    | error err =>
        cases hx
        rfl
    | ok c => cases hx
  split at h
  · rename_i slot hn
    split at h
    · exact .store hn (hsent h)
    · cases h
  · rename_i slot load wall hn
    split at h
    · split at h
      · exact .store hn (hsent h)
      · cases h
    · split at h
      · exact .load rfl (hsent h)
      · cases h
  · rename_i load wall hn
    split at h
    · exact .load rfl (hsent h)
    · cases h
  · cases h

theorem accessLoop_failed (hcfg : cfg.Accepted) (n : Nat) : ∀ {c : OoOCore M}, CoreOk cfg c →
    c.accessLoop n = .error e → ∃ c₁, Actions c c₁ ∧ CoreOk cfg c₁ ∧ c₁.accessOne = .error e := by
  induction n with
  | zero =>
      intro c _ h
      cases h
  | succ n ih =>
      intro c hk h
      unfold accessLoop at h
      split at h
      · rename_i err hc
        cases h
        exact ⟨c, .refl, hk, hc⟩
      · rename_i c₁ hc
        obtain ⟨h1, -⟩ := accessOne_actions hk hc
        obtain ⟨c₂, h2, hk₂, h3⟩ := ih (h1.coreOk hcfg hk) h
        exact ⟨c₂, h1.trans h2, hk₂, h3⟩
      · cases h

/-- The stage fails only in one of its accesses. -/
theorem lsqOperate_failed (hcfg : cfg.Accepted) (hk : CoreOk cfg c) (h : c.lsqOperate = .error e) :
    ∃ c₁, Actions c c₁ ∧ CoreOk cfg c₁ ∧ AccessFailed c₁.findLoad e := by
  unfold OoOCore.lsqOperate at h
  dsimp only at h
  obtain ⟨a1, -⟩ := drainLoop_actions (MemPorts.dReady c.msys) c
  change Actions c c.drainDataResponses at a1
  generalize c.drainDataResponses = c₁ at h a1
  have a2 := popAcked_actions c₁.sb.ring.n c₁
  generalize ({ c₁ with sb := popAcked c₁.sb.ring.n c₁.sb } : OoOCore M) = c₂ at h a2
  have hk₂ := Actions.coreOk hcfg (a1.trans a2) hk
  obtain ⟨a3, -⟩ := lsqUpdates_actions hk₂
  generalize c₂.lsqUpdates = c₃ at h a3
  split at h
  · rename_i err hc
    cases h
    obtain ⟨c₄, a4, hk₄, h4⟩ := accessLoop_failed hcfg _ (Actions.coreOk hcfg a3 hk₂) hc
    exact ⟨c₄, ((a1.trans a2).trans a3).trans a4, hk₄, accessOne_failed h4⟩
  · cases h

/-- The stage fails at a `pc` outside memory, once nothing older is in flight, or in its access. -/
theorem fetchStage_failed (h : c.fetchStage = .error e) :
    (c.consumeIfReady.rob.empty = true ∧ c.consumeIfReady.fetchQ.count = 0 ∧
      MemPorts.memSize c.consumeIfReady.msys ≤ c.consumeIfReady.pc.toNat) ∨
    (c.consumeIfReady.pc.toNat < MemPorts.memSize c.consumeIfReady.msys ∧
      MemPorts.iAccess c.consumeIfReady.msys c.consumeIfReady.blockRequest = .error e) := by
  unfold OoOCore.fetchStage at h
  dsimp only at h
  generalize c.consumeIfReady = c₁ at h
  split at h
  · cases h
  · split at h
    · cases h
    · split at h
      · rename_i hout
        split at h
        · rename_i hidle
          simp only [Bool.and_eq_true, beq_iff_eq] at hidle
          exact .inl ⟨hidle.1, hidle.2, hout⟩
        · cases h
      · rename_i hin
        split at h
        · cases h
        · unfold OoOCore.requestBlock at h
          dsimp only at h
          split at h
          · rename_i err hm
            cases h
            exact .inr ⟨Nat.lt_of_not_le hin, hm⟩
          · cases h

/-- What commit fails on is its head: a fault, or a system call. -/
theorem commitStage_failed (n : Nat) : ∀ {c : OoOCore M}, c.commitLoop n = .error e →
    ∃ c₁, Actions c c₁ ∧ c₁.rob.empty = false ∧ c₁.rob.head.done = true ∧
      (c₁.commitFault c₁.rob.head = some e ∨ c₁.rob.head.isSystem = true) := by
  induction n with
  | zero =>
      intro c h
      cases h
  | succ n ih =>
      intro c h
      unfold commitLoop at h
      split at h
      · rename_i hg
        simp only [Bool.and_eq_true, Bool.not_eq_true'] at hg
        split at h
        · rename_i err hc
          cases h
          refine ⟨c, .refl, hg.1.1, hg.1.2, ?_⟩
          unfold OoOCore.commitOne at hc
          dsimp only at hc
          split at hc
          · rename_i err hf
            cases hc
            exact .inl hf
          · split at hc
            · rename_i hs
              exact .inr hs
            · split at hc <;> cases hc
        · rename_i c₁ hc
          obtain ⟨c₂, h2, h3⟩ := ih h
          exact ⟨c₂, .head (.commit hg.1.1 hg.1.2 hg.2 hc) h2, h3⟩
        · cases h
      · cases h

end Errors

/-! ## Whole runs -/

section Runs

variable {cfg : SimConfig} {image : Nat → Byte} {frames : Bool} {inputs : Nat → Word}
  {histLen : Nat → Nat} {c : OoOCore (MemorySystem Nat)}

/-- In every run from `c₀` the stages before commit ask memory for nothing outside it. A run ends
in commit, with a fault of its head or in a system call, or with a fetch from outside memory
when nothing older is in flight. -/
structure RunsInside (c₀ : OoOCore (MemorySystem Nat)) : Prop where
  operate : ∀ c, Reach c₀ .drained c → ∃ c', c.lsqOperate = .ok c'
  fetch : ∀ c e, Reach c₀ .dispatched c → c.fetchStage = .error e →
    c.consumeIfReady.rob.empty = true ∧ c.consumeIfReady.fetchQ.count = 0 ∧
      c₀.msys.memSize ≤ c.consumeIfReady.pc.toNat
  edge : ∀ c, Reach c₀ .fetched c → ∃ c', c.clockEdge = .ok c'
  commit : ∀ c e, Reach c₀ .boundary c → c.commitStage = .error e →
    ∃ c₁, Actions c c₁ ∧ c₁.rob.empty = false ∧ c₁.rob.head.done = true ∧
      (c₁.commitFault c₁.rob.head = some e ∨ c₁.rob.head.isSystem = true)

/-- What holds of memory in the states of a run. -/
theorem Actions.inside (hcfg : cfg.Accepted) (hfit : cfg.SizesFit) (hw : cfg.WholeBlocks)
    (h : Actions (OoOCore.init cfg frames inputs histLen (MemorySystem.init cfg image)) c) :
    AccessesOk cfg cfg.memBytes c ∧ c.msys.Inside cfg := by
  have hline : cfg.flatMemory = false → cfg.fetchBlockBytes ∣ cfg.memBytes ∨ 2 ^ 32 ≤ cfg.memBytes := by
    intro hcache
    have hgrain : cfg.grain = cfg.l2.lineBytes := by rw [SimConfig.grain, if_neg (by simp [hcache])]
    obtain ⟨-, -, -, -, -, hd⟩ := CacheHierarchy.geometries (τ := Unit) hcfg hcache hfit
    rcases hw with hwhole | hbig
    · rw [hgrain] at hwhole
      exact .inl (Nat.dvd_trans hd hwhole)
    · exact .inr hbig
  obtain ⟨hacc, evs, ht⟩ := h.traced hcfg hline
  exact ⟨hacc, ht.run.inside hcfg hfit hw⟩

theorem runsInside (hcfg : cfg.Accepted) (hfit : cfg.SizesFit) (hw : cfg.WholeBlocks) :
    RunsInside (OoOCore.init cfg frames inputs histLen (MemorySystem.init cfg image)) := by
  have h₀ : CoreOk cfg (OoOCore.init cfg frames inputs histLen (MemorySystem.init (τ := Nat) cfg image)) :=
    init_coreOk frames inputs histLen _ hcfg
  have hmem : (MemorySystem.init (τ := Nat) cfg image).memSize = cfg.memBytes := MemorySystem.memSize_init cfg image
  refine ⟨fun c hr => ?_, fun c e hr he => ?_, fun c hr => ?_, fun c e _ he => commitStage_failed _ he⟩
  · have hact := hr.actions hcfg h₀
    cases hop : c.lsqOperate with
    | ok c' => exact ⟨c', rfl⟩
    | error e =>
        -- a whole block of a pc inside is inside
        exfalso
        -- an access that fails is one the LSQ was about to make
        obtain ⟨c₁, h1, hk₁, hfail⟩ := lsqOperate_failed hcfg (hr.coreOk hcfg h₀) hop
        obtain ⟨h2, -, hch⟩ := findLoad_actions hk₁
        obtain ⟨hacc, hin⟩ := Actions.inside hcfg hfit hw ((hact.trans h1).trans h2)
        cases hfail with
        | @store slot hn hs =>
            -- but the store is legal, and the memory serves a legal access
            obtain ⟨s', hs'⟩ := hin.data _ (hacc.storeScalar hn (storeTag c₁.findLoad.1.sb.nextIssueSlot _))
            unfold OoOCore.sendStore at hs
            dsimp only at hs
            split at hs
            · rename_i err hm
              exact absurd (hm.symm.trans hs') nofun
            · cases hs
        | @load slot wall hcd hs =>
            rw [hcd] at hch
            obtain ⟨s', hs'⟩ := hin.data _ (hacc.loadScalar hch.1 (loadTag slot (c₁.findLoad.1.lsq.at' slot).gen))
            unfold OoOCore.sendLoad at hs
            dsimp only at hs
            split at hs
            · rename_i err hm
              exact absurd (hm.symm.trans hs') nofun
            · cases hs
  · have hact := hr.actions hcfg h₀
    obtain ⟨hacc, hin⟩ := Actions.inside hcfg hfit hw (hact.trans (consumeIfReady_actions c))
    -- a failing fetch is one of a pc outside, or of a block outside
    rcases fetchStage_failed he with ⟨h1, h2, h3⟩ | ⟨hpc, hm⟩
    · rw [show MemPorts.memSize c.consumeIfReady.msys = cfg.memBytes from hacc.size] at h3
      exact ⟨h1, h2, by show (MemorySystem.init (τ := Nat) cfg image).memSize ≤ _; rw [hmem]; exact h3⟩
    · exfalso
      have hconf := hacc.core.config
      rw [show MemPorts.memSize c.consumeIfReady.msys = cfg.memBytes from hacc.size] at hpc
      obtain ⟨s', hs'⟩ := hin.fetch _ (Nat.lt_min.mpr ⟨hpc, BitVec.isLt _⟩) c.consumeIfReady.blockRequest rfl
        (blockRequest_addr hcfg hconf) (by rw [← hconf]; rfl)
      have hm' : MemorySystem.iAccess c.consumeIfReady.msys c.consumeIfReady.blockRequest = .error e := hm
      rw [hs'] at hm'
      cases hm'
  · obtain ⟨-, hin⟩ := Actions.inside hcfg hfit hw (hr.actions hcfg h₀)
    obtain ⟨s', hs'⟩ := hin.clock
    have hsame : c.applyRedirect.tickUnits.msys = c.msys := by
      unfold OoOCore.applyRedirect
      split <;> rfl
    refine ⟨{ c.applyRedirect.tickUnits with msys := s' }, ?_⟩
    unfold OoOCore.clockEdge
    dsimp only
    rw [hsame, show MemPorts.tick c.msys = .ok s' from hs']

/-- No access to memory fails, at the ports and in the runs of the core, exactly when memory is a
whole number of the blocks that the levels move, or covers every address. The core checks each
access before it sends it, but a block or a line is checked as a whole. -/
theorem accesses_inside (hcfg : cfg.Accepted) (hfit : cfg.SizesFit) :
    (PortsInside cfg ∧ ∀ (frames : Bool) (inputs : Nat → Word) (histLen : Nat → Nat) (image : Nat → Byte),
      RunsInside (OoOCore.init cfg frames inputs histLen (MemorySystem.init cfg image))) ↔ cfg.WholeBlocks :=
  ⟨fun h => (portsInside_iff hcfg hfit).mp h.1,
    fun h => ⟨(portsInside_iff hcfg hfit).mpr h, fun _ _ _ _ => runsInside hcfg hfit h⟩⟩

theorem accesses_inside_default : PortsInside defaultConfig :=
  ((accesses_inside defaultConfig_accepted defaultConfig_sizesFit).mpr (.inl (by decide))).1

end Runs

/-! ## A block that ends outside memory -/

/-- A flat memory that ends in the middle of a fetch block. -/
def partialConfig : SimConfig :=
  { defaultConfig with flatMemory := true, fetchBytes := 8, memBytes := 65540 }

/-- A jump to the last word of that memory. -/
def jumpProgram : Nat → Word
  | 0 => 0x0001006F#32 -- jal x0, 65536
  | _ => 0x00000013#32 -- nop

/-- The machine out of reset with `jumpProgram` in a memory that ends within a fetch block. -/
def partialCore : OoOCore (MemorySystem Nat) :=
  OoOCore.init partialConfig false (fun _ => 0) (fun _ => 0)
    (MemorySystem.init partialConfig fun a => wordByte (jumpProgram (a / 4)) (a % 4))

/-- A memory that ends in the middle of a fetch block: the fetch of the last word ends the run,
although the word is in memory. -/
theorem last_word_not_fetched :
    validateConfig partialConfig = .ok partialConfig ∧ ¬ RunsInside partialCore ∧
      ∃ c, Reach partialCore .dispatched c ∧ c.consumeIfReady.pc = 65536 ∧
        c.fetchStage = .error (.outOfRange "load" 65536) := by
  have hfails : ∃ c, Reach partialCore .dispatched c ∧ c.consumeIfReady.pc = 65536 ∧
      c.fetchStage = .error (.outOfRange "load" 65536) := by
    -- four cycles, and the stages of the fifth up to the fetch
    obtain ⟨c, hr, hp⟩ := Reach.eval partialCore 38 .dispatched
      (p := fun c => decide (c.consumeIfReady.pc = 65536 ∧
        c.fetchStage.map (fun _ => ()) = .error (.outOfRange "load" 65536))) (by decide +kernel)
    obtain ⟨hpc, he⟩ := of_decide_eq_true hp
    exact ⟨c, hr, hpc, map_eq_error he⟩
  refine ⟨by decide, fun hin => ?_, hfails⟩
  obtain ⟨c, hr, hpc, he⟩ := hfails
  obtain ⟨-, -, hout⟩ := hin.fetch c _ hr he
  rw [hpc] at hout
  exact absurd hout (by decide)

end RvO3
