import RvO3.Core.Reach

/-!
# The reset state

The core as constructed for an accepted configuration satisfies the structural
invariant, hence so does every state of every run.
-/

set_option autoImplicit false

namespace RvO3

open OoOCore

/-! ## The parts -/

theorem LSQ.wf_init {size : Nat} (h : 1 ≤ size) : (LSQ.init size).Wf := by
  have hslots : (LSQ.init size).ring.slots = [] := Ring.slots_init size
  have hset : ∀ p, SlotSet.none = (LSQ.init size).liveSet p := by
    intro p
    funext i
    simp [LSQ.liveSet, hslots, SlotSet.none]
  have hcount : ∀ p, 0 = (LSQ.init size).liveCount p := by
    intro p
    simp [LSQ.liveCount, hslots]
  refine ⟨Ring.wf_init (by omega), hset _, hset _, hset _, hset _, hset _, hset _, ?_, hcount _,
    hcount _, hcount _⟩
  funext b
  simp [LSQ.wordCount, LSQ.init]

theorem mem_initUnits {cfg : SimConfig} (h : cfg.Accepted) {u : FuUnit} (hu : u ∈ initUnits cfg) :
    ∃ latency pipelined, 1 ≤ latency ∧ u = FuUnit.init latency pipelined := by
  rw [initUnits, List.mem_append] at hu
  rcases hu with hu | hu
  · exact ⟨1, true, Nat.le_refl 1, (List.mem_replicate.mp hu).2⟩
  · simp only [List.mem_cons, List.not_mem_nil, or_false] at hu
    rcases hu with rfl | rfl | rfl
    · exact ⟨1, true, Nat.le_refl 1, rfl⟩
    · exact ⟨_, _, h.mul_pos, rfl⟩
    · exact ⟨_, _, h.div_pos, rfl⟩

theorem ops_init (latency : Nat) (pipelined : Bool) : (FuUnit.init latency pipelined).ops = [] := by
  rw [List.eq_nil_iff_forall_not_mem]
  intro op hop
  have hmem : op ∈ (FuUnit.init latency pipelined).stages ++
      [(FuUnit.init latency pipelined).cur] ++ [(FuUnit.init latency pipelined).out] ∧
      op.valid = true := by
    rw [FuUnit.ops, FuUnit.inner, ← List.filter_append] at hop
    exact List.mem_filter.mp hop
  have hblank : op = ({} : FuOp) := by
    have hm := hmem.1
    simp only [FuUnit.init, List.mem_append, List.mem_singleton] at hm
    rcases hm with (hm | hm) | hm
    · split at hm
      · exact (List.mem_replicate.mp hm).2
      · cases hm
    · exact hm
    · exact hm
  rw [hblank] at hmem
  cases hmem.2

theorem unitsHeld_init {us : List FuUnit}
    (h : ∀ u ∈ us, ∃ latency pipelined, 1 ≤ latency ∧ u = FuUnit.init latency pipelined) :
    unitsHeld us = 0 := by
  apply bag_eq_zero
  intro u hu
  obtain ⟨latency, pipelined, -, rfl⟩ := h u hu
  rw [ops_init]
  rfl

theorem out_init {us : List FuUnit}
    (h : ∀ u ∈ us, ∃ latency pipelined, 1 ≤ latency ∧ u = FuUnit.init latency pipelined) (i : Nat) :
    (us[i]?.getD default).out.valid = false := by
  cases hi : us[i]? with
  | none => rfl
  | some u =>
      obtain ⟨latency, pipelined, -, rfl⟩ := h u (List.mem_of_getElem? hi)
      rfl

theorem initFreeList_entries {physRegs : Nat} (h : 33 ≤ physRegs) :
    (initFreeList physRegs).Wf ∧ (initFreeList physRegs).capacity = physRegs ∧
      (initFreeList physRegs).entries = (List.range (physRegs - 32)).map (32 + ·) := by
  have hwf : (Ring.init physRegs : Ring Nat).Wf := Ring.wf_init (by omega)
  have hroom : (Ring.init physRegs : Ring Nat).n + ((List.range (physRegs - 32)).map (32 + ·)).length ≤
      (Ring.init physRegs : Ring Nat).capacity := by
    rw [List.length_map, List.length_range]
    show 0 + (physRegs - 32) ≤ physRegs
    omega
  have hp := Ring.foldl_push _ hwf hroom
  rw [List.foldl_map] at hp
  obtain ⟨h1, h2, h3⟩ := hp
  exact ⟨h1, h2, h3⟩

/-! ## The whole -/

section Init

variable {M : Type} {cfg : SimConfig} (frames : Bool) (inputs : Nat → Word) (histLen : Nat → Nat)
  (msys : M)

theorem init_rob_slots : (OoOCore.init cfg frames inputs histLen msys).rob.slots = [] :=
  Ring.slots_init cfg.robSize

theorem init_backOk (h : cfg.Accepted) : BackOk (OoOCore.init cfg frames inputs histLen msys) := by
  have hrob := @init_rob_slots _ cfg frames inputs histLen msys
  have hnone : ∀ i, i ∉ (OoOCore.init cfg frames inputs histLen msys).rob.slots := fun i hi => by
    rw [hrob] at hi
    cases hi
  have hlsq : (OoOCore.init cfg frames inputs histLen msys).lsq.ring.slots = [] :=
    Ring.slots_init cfg.lsqSize
  -- every ring is empty and every unit idle, so what follows has nothing to say of them
  have hunits : ∀ u ∈ (OoOCore.init cfg frames inputs histLen msys).units,
      ∃ latency pipelined, 1 ≤ latency ∧ u = FuUnit.init latency pipelined :=
    fun u hu => mem_initUnits h hu
  have hagus : ∀ u ∈ (OoOCore.init cfg frames inputs histLen msys).agus,
      ∃ latency pipelined, 1 ≤ latency ∧ u = FuUnit.init latency pipelined :=
    fun u hu => ⟨1, true, Nat.le_refl 1, (List.mem_replicate.mp hu).2⟩
  have houts : ∀ op ∈ (OoOCore.init cfg frames inputs histLen msys).loadOuts, op.valid = false :=
    fun op hop => by rw [(List.mem_replicate.mp hop).2]
  exact {
    rob := by
      refine ⟨Ring.wf_init (by have := h.rob_pos; omega), ?_, ?_, ?_, ?_⟩
      · rw [hrob]
        exact List.Pairwise.nil
      all_goals exact fun i hi => absurd hi (hnone i)
    lsq := by
      refine ⟨LSQ.wf_init h.lsq_pos, ?_, ?_, ?_⟩
      · rw [hlsq, hrob]
        rfl
      all_goals
        rw [hlsq]
        exact nofun
    iq := ⟨IssueQueue.wf_init _ _, rfl, fun s ho => by cases ho⟩
    units := by
      refine ⟨fun u hu => ?_, fun u hu op hop => ?_⟩
      · obtain ⟨latency, pipelined, hl, rfl⟩ := hunits u hu
        exact FuUnit.wf_init hl
      · obtain ⟨latency, pipelined, -, rfl⟩ := hunits u hu
        rw [ops_init] at hop
        cases hop
    agus := by
      refine ⟨fun u hu => ?_, fun u hu op hop => ?_⟩
      · obtain ⟨latency, pipelined, hl, rfl⟩ := hagus u hu
        exact FuUnit.wf_init hl
      · obtain ⟨latency, pipelined, -, rfl⟩ := hagus u hu
        rw [ops_init] at hop
        cases hop
    loads := fun op hop hv => by
      rw [houts op hop] at hv
      cases hv
    ready := by
      refine ⟨List.nodup_nil, fun i => ?_, fun j => ?_⟩
      · rw [out_init hunits]
        exact ⟨nofun, nofun⟩
      · have hno : ((OoOCore.init cfg frames inputs histLen msys).loadOuts[j]?.getD {}).valid =
            false := by
          cases hj : (OoOCore.init cfg frames inputs histLen msys).loadOuts[j]? with
          | none => rfl
          | some op => exact houts op (List.mem_of_getElem? hj)
        rw [hno]
        exact ⟨nofun, nofun⟩
    held := by
      -- nobody holds a number, and no number is unfinished
      unfold Held heldBy unfinished lsqHeld iqHeld outsHeld
      rw [unitsHeld_init hunits, unitsHeld_init hagus, hrob, hlsq,
        bag_eq_zero fun op hop => by rw [houts op hop]; rfl]
      have hiq : tally (List.range (OoOCore.init cfg frames inputs histLen msys).iq.robSize)
          (OoOCore.init cfg frames inputs histLen msys).iq.occupied
          (fun s => ((OoOCore.init cfg frames inputs histLen msys).iq.e s).seq) = 0 := by
        rw [tally, List.filter_eq_nil_iff.mpr]
        · rfl
        · exact fun s _ ho => by cases ho
      rw [hiq]
      rfl }

theorem init_renameOk (h : cfg.Accepted) : RenameOk (OoOCore.init cfg frames inputs histLen msys) := by
  have hrob := @init_rob_slots _ cfg frames inputs histLen msys
  have hphys := h.physRegs_ge
  obtain ⟨h1, h2, h3⟩ := initFreeList_entries hphys
  have hw : (OoOCore.init cfg frames inputs histLen msys).writes = [] := by
    rw [OoOCore.writes, Ring.entries, hrob]
    rfl
  refine ⟨?_, fun i hi => ?_⟩
  · rw [hw]
    refine ⟨h1, h2, rfl, ?_, rfl, fun _ he => by cases he⟩
    show heldValues (fun i : Reg => i.val) + 0 + ↑(initFreeList cfg.physRegs).entries =
      Multiset.range cfg.physRegs
    have h32 : heldValues (fun i : Reg => i.val) = ↑(List.range 32) := by decide
    have hsplit : List.range cfg.physRegs =
        List.range 32 ++ (List.range (cfg.physRegs - 32)).map (32 + ·) := by
      rw [← List.range_add]
      congr 1
      omega
    rw [h32, h3, add_zero, Multiset.coe_add, ← hsplit]
    rfl
  · rw [hrob] at hi
    cases hi

theorem init_coreOk (h : cfg.Accepted) :
    CoreOk cfg (OoOCore.init cfg frames inputs histLen msys) :=
  ⟨rfl, by simp [OoOCore.init, initUnits], init_backOk frames inputs histLen msys h,
    init_renameOk frames inputs histLen msys h⟩

end Init

/-! ## A busy machine -/

/-- A flat memory that answers after four cycles. -/
def busyConfig : SimConfig := { defaultConfig with flatMemory := true, flatLatency := 4 }

theorem busyConfig_accepted : busyConfig.Accepted :=
  validateConfig_ok (by decide : validateConfig busyConfig = .ok busyConfig)

/-- A program that keeps most of the core busy at once: a quotient that a store address waits for, a
second one that waits for the divider, two loads younger than the store, the first of them of the
word that is stored, and a branch that is predicted wrong. -/
def busyProgram : Nat → Word
  | 0 => 0x00500093#32 -- addi x1, x0, 5
  | 1 => 0x02104333#32 -- div x6, x0, x1
  | 2 => 0x0210C433#32 -- div x8, x1, x1
  | 3 => 0x04132023#32 -- sw x1, 64(x6)
  | 4 => 0x04002103#32 -- lw x2, 64(x0)
  | 5 => 0x08002183#32 -- lw x3, 128(x0)
  | 6 => 0x00009463#32 -- bne x1, x0, 8
  | 7 => 0x00700293#32 -- addi x5, x0, 7
  | 8 => 0x00108233#32 -- add x4, x1, x1
  | _ => 0x00000013#32 -- nop

/-- The machine at reset, with the program at address zero. -/
def busyCore : OoOCore (MemorySystem Nat) :=
  OoOCore.init busyConfig false (fun _ => 0) (fun _ => 0)
    (MemorySystem.init busyConfig fun a => wordByte (busyProgram (a / 4)) (a % 4))

end RvO3
