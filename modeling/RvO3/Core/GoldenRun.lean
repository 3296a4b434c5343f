import RvO3.Core.Golden
import RvO3.Core.Halt
import RvO3.Core.TagAge

/-!
# Every record of a run is one of the reference model

In every run that asks for fresh tags only, each commit record is
what the reference model records for its word, in the state that the records before it left
(`commits_retire`). The reference model halts with the core, and with its exit code.
-/

set_option autoImplicit false

namespace RvO3

open OoOCore

/-! ## One commit -/

section Commits

variable {cfg : SimConfig} {image : Nat → Byte} {frames : Bool} {c c' : OoOCore (MemorySystem Nat)}

theorem Memory.load8_outside {m : Memory} {a : Nat} (h : m.size ≤ a) :
    m.load8 a = .error (.outOfRange "load" a) := by
  unfold Memory.load8 Memory.load
  rw [if_pos (Nat.lt_succ_of_le h)]

theorem MemorySystem.peek8_outside {τ : Type} {s : MemorySystem τ} {a : Nat} (h : s.memSize ≤ a) :
    s.peek8 a = .error (.outOfRange "load" a) := by
  cases s with
  | flat m => exact Memory.load8_outside h
  | cached m =>
      have hout : a + 1 > m.backing.size := Nat.lt_succ_of_le h
      change m.peek8 a = _
      unfold CacheHierarchy.peek8 Memory.check
      rw [if_pos hout]

/-- With no store left in the buffer the functional port shows the committed memory. -/
theorem Traced.peek8_eq {evs : List (PortEvent Nat)} (hcfg : cfg.Accepted) (hfit : cfg.SizesFit)
    (hmem : cfg.memBytes < 2 ^ 32) (ht : Traced cfg image c evs) (hsb : c.sb.ring.n = 0) {a : Nat}
    (ha : a < cfg.memBytes) : c.msys.peek8 a = .ok (storesApplied image (archStores c.commits) a) := by
  obtain ⟨gone, hcom, hsent⟩ := ht.stores
  have hrun := ht.run
  rw [show cfg.addressable = cfg.memBytes from Nat.min_eq_left (Nat.le_of_lt hmem)] at hrun
  have hwrites : c.sb.writes = [] := by
    rw [StoreBuffer.writes, Ring.entries, List.length_eq_zero_iff.mp ((Ring.length_slots _).trans hsb)]
    rfl
  rw [hwrites, List.append_nil] at hcom
  rw [hwrites, List.take_nil, List.append_nil, ← hcom] at hsent
  rw [MemorySystem.peek8_coherent hcfg hfit hmem hrun ha, hrun.memAfter_stores (Nat.le_of_lt hmem), hsent]

/-- So a syscall reads what the reference model reads, inside memory and outside. -/
theorem Traced.peek8 {evs : List (PortEvent Nat)} (hcfg : cfg.Accepted) (hfit : cfg.SizesFit)
    (hmem : cfg.memBytes < 2 ^ 32) (ht : Traced cfg image c evs) (hsize : c.msys.memSize = cfg.memBytes)
    (hsb : c.sb.ring.n = 0) (pc : Word) (a : Nat) :
    c.msys.peek8 a = (archState image cfg.memBytes c.commits pc).mem.load8 a := by
  have hsize' : (archState image cfg.memBytes c.commits pc).mem.size = cfg.memBytes := rfl
  by_cases ha : a < cfg.memBytes
  · rw [ht.peek8_eq hcfg hfit hmem hsb ha, Memory.load8_ok (hsize' ▸ ha)]
    rfl
  · have hout := Nat.not_lt.mp ha
    rw [MemorySystem.peek8_outside (hsize ▸ hout), Memory.load8_outside (hsize' ▸ hout)]

/-- Each record is one of the reference model, which halts where the core does. -/
def AllRetire (image : Nat → Byte) (memBytes : Nat) (frames : Bool) (c : OoOCore (MemorySystem Nat)) : Prop :=
  ∀ rs r rest, c.commits = rs ++ r :: rest → ∃ m', Retires image memBytes frames rs r m' ∧
    m'.halted = (rest.isEmpty && c.halted) ∧ (m'.halted = true → m'.exitCode = c.exitCode)

/-- What the core keeps for the reference model. -/
structure GoldenOk (cfg : SimConfig) (image : Nat → Byte) (frames : Bool) (c : OoOCore (MemorySystem Nat)) :
    Prop where
  memory : MemoryOk cfg image c
  port : ∃ evs, Traced cfg image c evs
  waits : SystemWaits c
  running : c.halted = false → c.retired = c.commits.length ∧ c.exitCode = 0
  halted : c.halted = true → c.commits ≠ []
  retires : AllRetire image cfg.memBytes frames c

/-- The head that commits did what the reference model does with its word. -/
theorem GoldenOk.commitOne {b : Bool} (hcfg : cfg.Accepted) (hfit : cfg.SizesFit) (hmem : cfg.memBytes < 2 ^ 32)
    (h : GoldenOk cfg image frames c) (hne : c.rob.empty = false) (hd : c.rob.head.done = true)
    (hh : c.halted = false) (hc : c.commitOne = .ok (c', b)) :
    c' = c ∨ ∃ rec, c'.commits = c.commits ++ [rec] ∧
      (c'.halted = false → c'.retired = c'.commits.length ∧ c'.exitCode = 0) ∧
      ∃ m', Retires image cfg.memBytes frames c.commits rec m' ∧ m'.halted = c'.halted ∧
        (m'.halted = true → m'.exitCode = c'.exitCode) := by
  obtain ⟨hret, hex⟩ := h.running hh
  rcases commitOne_cases hc with ⟨heq, -⟩ | ⟨rec, hs, -⟩ | ⟨hs, -⟩
  · exact .inl heq
  · obtain ⟨evs, ht⟩ := h.port
    have hn := h.waits _ (headIdx_mem h.memory.values.core.back hne) hs.isSystem
    refine .inr ⟨rec, ?_, fun hrun => ?_, h.memory.system_retires hne hs hret hex hh fun a b hb =>
      (ht.peek8 hcfg hfit hmem h.memory.access.size hn _ a).symm.trans hb⟩
    · obtain ⟨ret, prf, pos, hal, ex, rfl, -⟩ := hs.frame
      rfl
    · obtain ⟨ret, prf, pos, hal, ex, rfl, hsys⟩ := hs.frame
      obtain ⟨hret', hex'⟩ := commitSystem_runs hsys hrun
      dsimp only at hret' hex' ⊢
      rw [hret', hex', hret, List.length_append]
      exact ⟨rfl, hex⟩
  · refine .inr ⟨c.opRecord, (congrArg OoOCore.commits hs.frame :), fun _ => ?_, ?_⟩
    · have hret' : c'.retired = c.retired + 1 := (congrArg OoOCore.retired hs.frame :)
      have hcom' : c'.commits = c.commits ++ [c.opRecord] := (congrArg OoOCore.commits hs.frame :)
      have hex' : c'.exitCode = c.exitCode := by
        rw [hs.frame]
      rw [hret', hcom', hret, List.length_append]
      exact ⟨rfl, hex'.trans hex⟩
    · obtain ⟨m', hm, hhalt⟩ := h.memory.op_retires hne hd hs hret
      have hh' : c'.halted = c.halted := by
        rw [hs.frame]
      exact ⟨m', hm, by rw [hhalt, hh', hh], fun hm' => by rw [hhalt] at hm'; cases hm'⟩

/-- A commit adds one record to those of the reference model. -/
theorem AllRetire.append {memBytes : Nat} {rec : CommitRecord} {m' : RefModel}
    (h : AllRetire image memBytes frames c) (hh : c.halted = false) (hc : c'.commits = c.commits ++ [rec])
    (hm : Retires image memBytes frames c.commits rec m') (hhalt : m'.halted = c'.halted)
    (hcode : m'.halted = true → m'.exitCode = c'.exitCode) : AllRetire image memBytes frames c' := by
  intro rs r rest heq
  rw [hc] at heq
  rcases List.eq_nil_or_concat rest with rfl | ⟨init, last, rfl⟩
  · obtain ⟨rfl, hr⟩ := List.append_inj' heq rfl
    cases hr
    exact ⟨m', hm, hhalt, hcode⟩
  · rw [List.concat_eq_append, ← List.cons_append, ← List.append_assoc] at heq
    obtain ⟨hinit, -⟩ := List.append_inj' heq rfl
    obtain ⟨m, hr, hrun, -⟩ := h rs r init hinit
    rw [hh, Bool.and_false] at hrun
    have hmore : (init.concat last).isEmpty = false := by
      cases init <;> rfl
    refine ⟨m, hr, by rw [hrun, hmore]; rfl, fun hm => ?_⟩
    rw [hrun] at hm
    cases hm

/-- An action keeps the records, given what it keeps about memory operations. -/
theorem Action.goldenOk (hcfg : cfg.Accepted) (hfit : cfg.SizesFit) (hmem : cfg.memBytes < 2 ^ 32)
    (hline : cfg.flatMemory = false → cfg.fetchBlockBytes ∣ cfg.memBytes ∨ 2 ^ 32 ≤ cfg.memBytes)
    (ha : Action c c') (hmemory : MemoryOk cfg image c') (h : GoldenOk cfg image frames c) :
    GoldenOk cfg image frames c' := by
  have hb := h.memory.values.core.back
  have hwaits := ha.systemWaits hb h.memory.access.sb h.waits
  obtain ⟨evs, ht⟩ := h.port
  obtain ⟨new, ht'⟩ := ha.traced hcfg hline h.memory.access ht
  rcases ha.clerk with ⟨hne, hd, hh, b, hc⟩ | hclerk
  · rcases h.commitOne hcfg hfit hmem hne hd hh hc with rfl | ⟨rec, hcommits, hrun, m', hm, hhalt, hcode⟩
    · exact h
    · refine ⟨hmemory, ⟨_, ht'⟩, hwaits, hrun, fun _ => ?_, h.retires.append hh hcommits hm hhalt hcode⟩
      rw [hcommits]
      exact List.concat_ne_nil _ _
  · obtain ⟨hhalt, hcode, hret, hcommits⟩ := clerk_inj hclerk
    refine ⟨hmemory, ⟨_, ht'⟩, hwaits, ?_, ?_, ?_⟩
    · rw [hhalt, hret, hcommits, hcode]
      exact h.running
    · rw [hhalt, hcommits]
      exact h.halted
    · unfold AllRetire
      rw [hcommits, hhalt, hcode]
      exact h.retires

end Commits

/-! ## Every run -/

section Runs

variable {cfg : SimConfig} {image : Nat → Byte} {frames quiet : Bool} {inputs : Nat → Word}
  {histLen : Nat → Nat} {c : OoOCore (MemorySystem Nat)} {ph : Phase}

theorem GuardedActions.goldenOk (hcfg : cfg.Accepted) (hfit : cfg.SizesFit) (hmem : cfg.memBytes < 2 ^ 32)
    (hlsq : cfg.lsqSize ≤ 2 ^ 32) (hline : cfg.flatMemory = false → cfg.l2.lineBytes ∣ cfg.memBytes)
    (h : GuardedActions (TakesFresh MemorySystem.owed)
      (OoOCore.init cfg frames inputs histLen (MemorySystem.init cfg image)) c) : GoldenOk cfg image quiet c := by
  have hmemory : ∀ {d}, GuardedActions (TakesFresh MemorySystem.owed)
      (OoOCore.init cfg frames inputs histLen (MemorySystem.init cfg image)) d → MemoryOk cfg image d :=
    fun hd => hd.memoryOk hcfg hfit hmem hlsq (hcfg.blocks hfit hline)
  induction h with
  | refl =>
      refine ⟨hmemory .refl, ⟨[], .reset, [], rfl, rfl⟩, fun i hi => ?_, fun _ => ⟨rfl, rfl⟩, nofun,
        fun rs r rest heq => ?_⟩
      · rw [init_rob_slots] at hi
        cases hi
      · cases rs <;> cases heq
  | tail hd ha ih => exact ha.1.goldenOk hcfg hfit hmem (hcfg.blocks hfit hline) (hmemory (hd.tail ha)) ih

/-- Each commit record of a run is one of the reference model, in the state that the records before
it left. The record has the register written, the address and data stored and the exception, and the
model goes on from the state after it. -/
theorem commits_retire (hcfg : cfg.Accepted) (hfit : cfg.SizesFit) (hmem : cfg.memBytes < 2 ^ 32)
    (hlsq : cfg.lsqSize ≤ 2 ^ 32) (hline : cfg.flatMemory = false → cfg.l2.lineBytes ∣ cfg.memBytes)
    (h : ReachWhen (DispatchesWhen TagsFresh)
      (OoOCore.init cfg frames inputs histLen (MemorySystem.init cfg image)) ph c) :
    AllRetire image cfg.memBytes quiet c := by
  have hk₀ := init_coreOk frames inputs histLen (MemorySystem.init (τ := Nat) cfg image) hcfg
  exact ((h.fresh hcfg hk₀).goldenOk hcfg hfit hmem hlsq hline).retires

/-- The records of the rewriting machine, that of the rewritten word among them. -/
theorem commits_retire_rewriting : ∃ c : OoOCore (MemorySystem Nat),
    c.commits.map (·.pc) = [0, 4, 12, 16, 20, 4, 12] ∧
    AllRetire (fun a => wordByte (rewritingProgram (a / 4)) (a % 4)) flatConfig.memBytes false c := by
  have hcfg : flatConfig.Accepted :=
    validateConfig_ok (show validateConfig flatConfig = .ok flatConfig by decide)
  have hfit : flatConfig.SizesFit := ⟨by decide, by decide, by decide⟩
  obtain ⟨c, hr, hrecs, hseq⟩ := rewriting_reached
  refine ⟨c, ?_, commits_retire hcfg hfit (by decide) (by decide) nofun
    (Reach.dispatchesFresh hcfg hfit (by decide) nofun hr (.of_few hcfg (by omega)))⟩
  have hpcs := congrArg (List.map Prod.fst) hrecs
  rwa [List.map_map] at hpcs

end Runs

end RvO3
