import RvO3.Core.FetchWords
import RvO3.Core.GoldenRun
import RvO3.Sim.DiffCheck

/-!
# The core in lockstep with the reference model

A program that keeps its code fetches no byte that it has stored to (`KeepsCode`, a condition on the
reference model alone). The core runs such a program as the reference model does: the callback of the
differential check accepts every record of every run that asks for fresh tags only, and ends with the
registers, the memory and the exit state of the core (`ReachWhen.agrees`).

The three parts are proved apart: what a record says of the word that was fetched (`commits_retire`),
which word that was (`commits_fetched`), and which address comes next (`PathOk`). The last needs that
no word but a branch was guessed taken. On a word that was stored to the predictor may guess what it
learned before the store, so these are the stray addresses of the path. None of them commits, for the
reference model does not come there again.
-/

set_option autoImplicit false

namespace RvO3

open OoOCore

/-! ## Programs -/

/-- What the reference model records for some replayed events. -/
def RefModel.Runs (m₀ : RefModel) (frames : Bool) (rs : List CommitRecord) (m : RefModel) : Prop :=
  ∃ inputs, m₀.records frames inputs = .ok (some (m, rs))

/-- No byte that the program has stored to is fetched as part of an instruction. The address is one that
the reference model can fetch from. -/
def KeepsCode (frames : Bool) (m₀ : RefModel) : Prop :=
  ∀ rs m, m₀.Runs frames rs m → m.halted = false → m.pc.toNat % 4 = 0 → m.pc.toNat + 4 ≤ m.mem.size →
    ∀ b < 4, Untouched (archStores rs) (m.pc.toNat + b)

/-- Committed stores have touched the word at `pc`. -/
def OoOCore.StoredTo {M : Type} (c : OoOCore M) (pc : Word) : Prop :=
  ¬ ∀ b < 4, Untouched (archStores c.commits) (pc.toNat + b)

/-- One word is a syscall. -/
theorem decode_ecall {w : Word} (h : (decode w).op = .ECALL) : w = 0x73#32 := by
  unfold decode kBranch kLoad kStore kOpImm kOp kOpAlt kMulDiv at h
  dsimp only at h
  repeat' split at h
  all_goals first | assumption | cases h

/-! ## One record -/

section Record

variable {image : Nat → Byte} {memBytes : Nat} {frames : Bool} {rs : List CommitRecord} {r : CommitRecord}
  {m' : RefModel} {d : DiffCheck} {pc raw : Word}

/-- The reference model fetches the word of the image where nothing was stored. -/
theorem WordOk.load32 (h : WordOk image memBytes (archStores rs) pc raw)
    (hu : ∀ b < 4, Untouched (archStores rs) (pc.toNat + b)) :
    (archState image memBytes rs pc).mem.load32 pc.toNat = .ok raw := by
  have hin : ¬ pc.toNat + 4 > (archState image memBytes rs pc).mem.size := Nat.not_lt.mpr h.inside
  unfold Memory.load32 Memory.load
  rw [if_neg hin, h.original hu]
  apply congrArg Except.ok
  apply scalarOf_congr
  intro b hb
  have hnone : storesApplied image ([] ++ archStores rs) (pc.toNat + b) = _ := storesApplied_append_of_none (hu b hb)
  exact hnone

/-- A syscall that returns input says what it read. -/
theorem Retires.returnsInput {w : RegisterWrite} (h : Retires image memBytes frames rs r m')
    (hop : (decode r.instruction).op = .ECALL) (hw : r.registerWrite = some w) :
    syscallReturnsInput (archRegs rs 17) = true := by
  have hstep := h.step w.value fun _ w' hw' => congrArg RegisterWrite.value (Option.some.inj (hw.symm.trans hw'))
  rw [RefModel.execWord_ecall hop] at hstep
  unfold RefModel.stepEcall at hstep
  split at hstep
  · cases hstep
  · rename_i res _
    have hrec : (if syscallReturnsInput (archRegs rs 17) then some (RegisterWrite.mk 10 res.arg) else none) =
        r.registerWrite := congrArg CommitRecord.registerWrite (Prod.mk.inj (Except.ok.inj hstep)).2
    by_contra hno
    rw [← hrec, if_neg hno] at hw
    cases hw

/-- The reference model, checked against the records so far. -/
structure Lockstep (image : Nat → Byte) (memBytes : Nat) (frames : Bool) (rs : List CommitRecord) (d : DiffCheck) :
    Prop where
  checked : DiffCheck.onCommits frames { ref := RefModel.init image memBytes } rs = .ok d
  mem : d.ref.mem = (archState image memBytes rs 0).mem
  regs : d.ref.regs = archRegs rs
  next : d.ref.halted = false →
    d.ref = archState image memBytes rs d.ref.pc ∧ Follows 0 (commitLegs (fun _ => 0) rs) d.ref.pc

theorem Lockstep.start : Lockstep image memBytes frames [] { ref := RefModel.init image memBytes } :=
  ⟨rfl, rfl, rfl, fun _ => ⟨rfl, rfl⟩⟩

theorem Lockstep.runs (h : Lockstep image memBytes frames rs d) :
    (RefModel.init image memBytes).Runs frames rs d.ref := (onCommits_ok h.checked).1

/-- The word that the reference model comes to was not stored to. -/
theorem Lockstep.untouched (h : Lockstep image memBytes frames rs d)
    (hcode : KeepsCode frames (RefModel.init image memBytes)) (hrun : d.ref.halted = false) (hpc : d.ref.pc = pc)
    (hw : WordOk image memBytes (archStores rs) pc raw) : ∀ b < 4, Untouched (archStores rs) (pc.toNat + b) := by
  have hsize : d.ref.mem.size = memBytes := congrArg Memory.size h.mem
  subst hpc
  exact hcode rs d.ref h.runs hrun hw.aligned (hsize ▸ hw.inside)

/-- What the callback replays is what the record says was read. -/
theorem Lockstep.replayed (h : Lockstep image memBytes frames rs d)
    (hr : Retires image memBytes frames rs r m') (hop : (decode r.instruction).op = .ECALL) {w : RegisterWrite}
    (hw : r.registerWrite = some w) : d.replayed r = w.value := by
  have hin : syscallReturnsInput (d.ref.regs 17) = true := by
    rw [h.regs]
    exact hr.returnsInput hop hw
  unfold DiffCheck.replayed
  rw [if_pos ⟨decode_ecall hop, hin⟩, hw]

/-- The callback accepts a record of the reference model at the address that it has come to. -/
theorem Lockstep.step (h : Lockstep image memBytes frames rs d) (hrun : d.ref.halted = false)
    (hr : Retires image memBytes frames rs r m') (hpc : d.ref.pc = r.pc)
    (hw : WordOk image memBytes (archStores rs) r.pc r.instruction)
    (hu : ∀ b < 4, Untouched (archStores rs) (r.pc.toNat + b)) :
    Lockstep image memBytes frames (rs ++ [r])
      { ref := m', replayInput := d.replayed r, verified := d.verified + 1 } := by
  obtain ⟨href, hpath⟩ := h.next hrun
  have hstep : d.ref.step frames (d.replayed r) = .ok (m', r) := by
    have hexec := hr.step (d.replayed r) fun hop w hwrite => h.replayed hr hop hwrite
    rw [href, hpc, ← hexec]
    exact RefModel.step_eq_execWord hw.aligned (hw.load32 hu)
  have hone : d.onCommit frames r =
      .ok { ref := m', replayInput := d.replayed r, verified := d.verified + 1 } := by
    unfold DiffCheck.onCommit
    rw [if_neg (hrun ▸ Bool.false_ne_true), hstep]
    exact if_pos rfl
  refine ⟨?_, hr.mem, hr.regs, fun hrun' => ?_⟩
  · rw [onCommits_append [r] h.checked]
    unfold DiffCheck.onCommits
    rw [hone]
    rfl
  · have hnext := hr.next hrun'
    have hpc' : m'.pc = r.successor (archRegs rs) := congrArg RefModel.pc hnext
    refine ⟨by rw [hpc']; exact hnext, ?_⟩
    rw [commitLegs_append]
    rw [hpc] at hpath
    exact follows_concat.mpr ⟨hpath, hpc'.symm⟩

end Record

/-! ## Programs that can be run -/

section Evaluated

variable {frames : Bool} {m m' : RefModel}

instance (ws : List MemoryWrite) (a : Nat) : Decidable (Untouched ws a) :=
  inferInstanceAs (Decidable (∀ w ∈ ws, w.put a = none))

/-- Does the program come to its end within `n` steps, with no system call and with no fetch of a byte that
`ws` or its own stores touch? -/
def RefModel.keepsCode (frames : Bool) : Nat → RefModel → List MemoryWrite → Bool
  | 0, _, _ => false
  | n + 1, m, ws =>
      m.halted ||
        (decide (∀ b : Nat, b < 4 → Untouched ws (m.pc.toNat + b)) &&
          (m.mem.load32 m.pc.toNat).toOption.all (fun raw => (decode raw).op != .ECALL) &&
          match m.step frames 0 with
          | .error _ => true
          | .ok (m, rec) => RefModel.keepsCode frames n m (ws ++ rec.memoryWrite.toList))

/-- Only a system call reads input. -/
theorem RefModel.step_replay (h : (m.mem.load32 m.pc.toNat).toOption.all (fun raw => (decode raw).op != .ECALL) = true)
    (replay : Word) : m.step frames replay = m.step frames 0 := by
  unfold RefModel.step
  split
  · rfl
  · cases hraw : m.mem.load32 m.pc.toNat with
    | error e => rfl
    | ok raw =>
        rw [hraw] at h
        have hop : (decode raw).op ≠ .ECALL := bne_iff_ne.mp h
        dsimp only
        split
        · rename_i he
          exact absurd he hop
        all_goals rfl

theorem archStores_cons (r : CommitRecord) (rs : List CommitRecord) :
    archStores (r :: rs) = r.memoryWrite.toList ++ archStores rs := by
  cases h : r.memoryWrite <;> simp [archStores, h]

/-- What the evaluation has checked holds of every run. -/
theorem RefModel.keepsCode_records (n : Nat) : ∀ {m : RefModel} {ws : List MemoryWrite} {ins : List Word}
    {rs : List CommitRecord}, m.keepsCode frames n ws = true → m.records frames ins = .ok (some (m', rs)) →
    m'.halted = false → ∀ b < 4, Untouched (ws ++ archStores rs) (m'.pc.toNat + b) := by
  induction n with
  | zero => exact nofun
  | succ n ih =>
      intro m ws ins rs h hr hrun
      unfold RefModel.keepsCode at h
      cases ins with
      | nil =>
          cases hr
          rw [hrun, Bool.false_or, Bool.and_eq_true, Bool.and_eq_true] at h
          rw [show archStores [] = [] from rfl, List.append_nil]
          exact of_decide_eq_true h.1.1
      | cons input ins =>
          unfold RefModel.records at hr
          split at hr
          · cases hr
          · rename_i hm
            rw [Bool.eq_false_iff.mpr hm, Bool.false_or, Bool.and_eq_true, Bool.and_eq_true] at h
            obtain ⟨⟨-, hop⟩, hstep⟩ := h
            rw [RefModel.step_replay hop] at hr
            split at hr
            · cases hr
            · rename_i m₁ rec hone
              rw [hone] at hstep
              dsimp only at hstep
              split at hr
              · cases hr
              · cases hr
              · rename_i m₂ recs hrest
                cases hr
                rw [archStores_cons, ← List.append_assoc]
                exact ih hstep hrest hrun

/-- A program that was evaluated keeps its code. -/
theorem KeepsCode.eval (n : Nat) (h : m.keepsCode frames n [] = true) : KeepsCode frames m := by
  rintro rs m' ⟨ins, hr⟩ hrun - -
  exact RefModel.keepsCode_records n h hr hrun

/-- A sum, and the end. -/
def addingProgram : Nat → Word
  | 0 => 0x00500093#32 -- addi x1, x0, 5
  | 1 => 0x00708113#32 -- addi x2, x1, 7
  | 2 => 0x00100073#32 -- ebreak
  | _ => 0#32

/-- The program as bytes. -/
def addingImage : Nat → Byte := fun a => wordByte (addingProgram (a / 4)) (a % 4)

/-- It stores nothing before it ends. -/
theorem addingImage_keepsCode : KeepsCode false (RefModel.init addingImage flatConfig.memBytes) :=
  .eval 4 (by decide +kernel)

/-- A store over the first word, which has run by then, a load of it, and a branch over the word behind. -/
def patchingProgram : Nat → Word
  | 0 => 0x01300093#32 -- addi x1, x0, 19
  | 1 => 0x00102023#32 -- sw x1, 0(x0)
  | 2 => 0x00002103#32 -- lw x2, 0(x0)
  | 3 => 0x00011463#32 -- bne x2, x0, 8
  | 4 => 0x00100193#32 -- addi x3, x0, 1
  | 5 => 0x00100073#32 -- ebreak
  | _ => 0#32

/-- The program as bytes. -/
def patchingImage : Nat → Byte := fun a => wordByte (patchingProgram (a / 4)) (a % 4)

/-- The word at 0 is the only one stored to, and is not fetched again. -/
theorem patchingImage_keepsCode : KeepsCode false (RefModel.init patchingImage flatConfig.memBytes) :=
  .eval 6 (by decide +kernel)

end Evaluated

/-! ## All records -/

section Records

variable {image : Nat → Byte} {memBytes : Nat} {frames : Bool} {c : OoOCore (MemorySystem Nat)}

/-- The records of a state, if they follow one path of words that nothing was stored to. -/
theorem AllRetire.lockstep (hall : AllRetire image memBytes frames c)
    (hwords : ∀ rs r rest, c.commits = rs ++ r :: rest → WordOk image memBytes (archStores rs) r.pc r.instruction)
    {last : Word} (hpath : Follows 0 (commitLegs (fun _ => 0) c.commits) last)
    (hcode : KeepsCode frames (RefModel.init image memBytes)) (rs : List CommitRecord) :
    ∀ rest, c.commits = rs ++ rest → ∃ d, Lockstep image memBytes frames rs d ∧
      d.ref.halted = (!rs.isEmpty && rest.isEmpty && c.halted) ∧
      (d.ref.halted = true → d.ref.exitCode = c.exitCode) := by
  induction rs using List.reverseRecOn with
  | nil => exact fun rest _ => ⟨_, .start, rfl, nofun⟩
  | append_singleton rs r ih =>
      intro rest heq
      have hsplit : c.commits = rs ++ r :: rest := by
        rw [heq, List.append_assoc, List.singleton_append]
      obtain ⟨d, hd, hhalt, -⟩ := ih (r :: rest) hsplit
      obtain ⟨m', hr, hhalt', hcode'⟩ := hall rs r rest hsplit
      have hrun : d.ref.halted = false := by
        rw [hhalt, List.isEmpty_cons, Bool.and_false]
        rfl
      have hpc : d.ref.pc = r.pc := by
        rw [hsplit, commitLegs_append] at hpath
        exact (hd.next hrun).2.unique hpath.start
      have hword := hwords rs r rest hsplit
      refine ⟨_, hd.step hrun hr hpc hword ?_, ?_, hcode'⟩
      · exact hd.untouched hcode hrun hpc hword
      · rw [hhalt']
        cases rs <;> rfl

end Records

/-! ## Every run -/

section Runs

variable {cfg : SimConfig} {image : Nat → Byte} {frames quiet : Bool} {inputs : Nat → Word}
  {histLen : Nat → Nat} {c : OoOCore (MemorySystem Nat)} {ph : Phase} {d : DiffCheck}

/-- Only branches wait with a guess of their own, and words that were stored to. -/
theorem FrontOk.guided (h : FrontOk cfg image c) : ∀ f ∈ c.fetchQ.entries, f.Guided ∨ c.StoredTo f.pc := by
  intro f hf
  obtain ⟨hword, htaken⟩ := h.queued f hf
  by_cases hu : ∀ b < 4, Untouched (archStores c.commits) (f.pc.toNat + b)
  · left
    cases ht : f.predTaken with
    | false =>
        right
        unfold Fetched.next
        rw [ht, if_neg Bool.false_ne_true]
    | true =>
        left
        -- the branch that the BTB learned is the word that was fetched
        obtain ⟨r, hr, hpc, hbranch⟩ := htaken ht
        obtain ⟨rs, rest, hsplit⟩ := List.append_of_mem hr
        have hold : ∀ b < 4, Untouched (archStores rs) (r.pc.toNat + b) := fun b hb w hw =>
          (hpc ▸ hu) b hb w (hsplit ▸ archStores_mem_append hw)
        have hins := (h.retired rs r rest hsplit).original hold
        rw [hpc] at hins
        rw [hword.original hu, ← hins]
        exact hbranch
  · exact .inr hu

/-- Committed stores stay. -/
theorem Action.storedTo {c' : OoOCore (MemorySystem Nat)} (ha : Action c c') (hb : BackOk c) {pc : Word}
    (h : c.StoredTo pc) : c'.StoredTo pc := by
  obtain ⟨new, hnew⟩ := ha.archStores_append hb
  intro hu
  apply h
  intro b hlt w hw
  exact hu b hlt w (hnew ▸ List.mem_append_left _ hw)

/-- The records of a run so far, if it has kept to its path. -/
theorem PathGood.lockstep {stray : Word → Prop} (hp : PathGood cfg stray c) (hg : GoldenOk cfg image quiet c)
    (hf : FrontOk cfg image c) (hcode : KeepsCode quiet (RefModel.init image cfg.memBytes)) :
    ∃ d, Lockstep image cfg.memBytes quiet c.commits d ∧ d.ref.halted = c.halted ∧
      (d.ref.halted = true → d.ref.exitCode = c.exitCode) := by
  obtain ⟨last, hlegs, -⟩ := hp.path.path
  obtain ⟨d, hd, hhalt, hexit⟩ := hg.retires.lockstep hf.retired hlegs hcode c.commits [] (List.append_nil _).symm
  refine ⟨d, hd, ?_, hexit⟩
  rw [hhalt, List.isEmpty_nil, Bool.and_true]
  cases hh : c.halted with
  | false => exact Bool.and_false _
  | true =>
      rw [List.isEmpty_eq_false_iff.mpr (hg.halted hh)]
      rfl

/-- The head of the ROB is where the reference model goes on, which does not come to words that were
stored to. -/
theorem PathGood.head_untouched {stray : Word → Prop} (hp : PathGood cfg stray c) (hg : GoldenOk cfg image quiet c)
    (hf : FrontOk cfg image c) (hcode : KeepsCode quiet (RefModel.init image cfg.memBytes))
    (hne : c.rob.empty = false) (hh : c.halted = false) : ¬ c.StoredTo c.rob.head.pc := by
  obtain ⟨d, hd, hhalt, -⟩ := hp.lockstep hg hf hcode
  have hrun := hhalt.trans hh
  have hpc : d.ref.pc = c.rob.head.pc := (hd.next hrun).2.unique (hp.path.head hp.core.back.rob.wf hne)
  exact not_not_intro (hd.untouched hcode hrun hpc (hf.live _ (headIdx_mem hp.core.back hne)))

/-- A run that asks for fresh tags only keeps to its path, up to the first word in flight that was stored
to. -/
theorem GuardedActions.pathGood (hcfg : cfg.Accepted) (hfit : cfg.SizesFit) (hmem : cfg.memBytes < 2 ^ 32)
    (hlsq : cfg.lsqSize ≤ 2 ^ 32) (hline : cfg.flatMemory = false → cfg.l2.lineBytes ∣ cfg.memBytes)
    (hcode : KeepsCode quiet (RefModel.init image cfg.memBytes))
    (h : GuardedActions (TakesFresh MemorySystem.owed)
      (OoOCore.init cfg frames inputs histLen (MemorySystem.init cfg image)) c) :
    PathGood cfg c.StoredTo c ∧ GoldenOk cfg image quiet c ∧ FrontOk cfg image c := by
  have hk₀ := init_coreOk frames inputs histLen (MemorySystem.init (τ := Nat) cfg image) hcfg
  have hrest : ∀ {d}, GuardedActions (TakesFresh MemorySystem.owed)
      (OoOCore.init cfg frames inputs histLen (MemorySystem.init cfg image)) d →
      GoldenOk cfg image quiet d ∧ FrontOk cfg image d := fun hr =>
    ⟨hr.goldenOk hcfg hfit hmem hlsq hline,
      (Actions.frontOk hcfg hfit hmem (hcfg.blocks hfit hline) hr.actions).2⟩
  refine ⟨?_, hrest h⟩
  induction h with
  | refl => exact ⟨hk₀, init_valuesOk hcfg frames inputs histLen _, init_pathOk hcfg frames inputs histLen _⟩
  | @tail d d' hr hact ih =>
      obtain ⟨hg, hf⟩ := hrest hr
      have hguided : d.fetchQ.empty = false → d.fetchQ.head.Guided ∨ d.StoredTo d.fetchQ.head.pc := fun he =>
        hf.guided _ (by rw [Ring.entries_eq_cons hf.queue he]; exact List.mem_cons_self)
      have hgood := hact.1.pathGood hcfg ih (fun _ => hguided) fun hne hh => ih.head_untouched hg hf hcode hne hh
      exact ⟨hgood.core, hgood.values, hgood.path.mono fun _ => hact.1.storedTo ih.core.back⟩

/-- The callback accepts every record, the committed registers are those of the reference model, and
it has halted with the core or not at all. -/
theorem ReachWhen.agrees (hcfg : cfg.Accepted) (hfit : cfg.SizesFit) (hmem : cfg.memBytes < 2 ^ 32)
    (hlsq : cfg.lsqSize ≤ 2 ^ 32) (hline : cfg.flatMemory = false → cfg.l2.lineBytes ∣ cfg.memBytes)
    (hcode : KeepsCode quiet (RefModel.init image cfg.memBytes))
    (h : ReachWhen (DispatchesWhen TagsFresh)
      (OoOCore.init cfg frames inputs histLen (MemorySystem.init cfg image)) ph c) :
    ∃ d, Lockstep image cfg.memBytes quiet c.commits d ∧ (∀ i, c.prf.val (c.cmap i) = d.ref.regs i) ∧
      d.ref.halted = c.halted ∧ (d.ref.halted = true → d.ref.exitCode = c.exitCode) := by
  have hk₀ := init_coreOk frames inputs histLen (MemorySystem.init (τ := Nat) cfg image) hcfg
  obtain ⟨hp, hg, hf⟩ := (h.fresh hcfg hk₀).pathGood hcfg hfit hmem hlsq hline hcode
  obtain ⟨d, hd, hhalt, hexit⟩ := hp.lockstep hg hf hcode
  refine ⟨d, hd, fun i => ?_, hhalt, hexit⟩
  rw [hd.regs]
  exact hp.values.regs.committed_val i

/-- With nothing in flight the registers are the committed ones. -/
theorem Stopped.reg (h : Stopped c) (i : Reg) : c.reg i = c.prf.val (c.cmap i) := by
  have hent : c.rob.entries = [] := by
    rw [Ring.entries, h.rob]
    rfl
  have hmap : c.cmap = c.rmap := by
    rw [OoOCore.cmap, hent]
    rfl
  rw [hmap]
  rfl

/-- The core refines the reference model: the records of a run are those of the reference model,
which is left with the committed registers and memory, and has halted with the core and its exit
code. Once the store buffer is empty, memory reads of the core agree too. -/
theorem core_refines_reference (hcfg : cfg.Accepted) (hfit : cfg.SizesFit) (hmem : cfg.memBytes < 2 ^ 32)
    (hlsq : cfg.lsqSize ≤ 2 ^ 32) (hline : cfg.flatMemory = false → cfg.l2.lineBytes ∣ cfg.memBytes)
    (hcode : KeepsCode quiet (RefModel.init image cfg.memBytes))
    (h : ReachWhen (DispatchesWhen TagsFresh)
      (OoOCore.init cfg frames inputs histLen (MemorySystem.init cfg image)) ph c) :
    ∃ m, (RefModel.init image cfg.memBytes).Runs quiet c.commits m ∧
      (∀ i, c.prf.val (c.cmap i) = m.regs i) ∧ m.mem.bytes = committedMem image c ∧
      (c.sb.ring.n = 0 → ∀ a < cfg.memBytes, c.msys.peek8 a = .ok (m.mem.bytes a)) ∧
      m.halted = c.halted ∧ (c.halted = true → m.exitCode = c.exitCode) := by
  have hk₀ := init_coreOk frames inputs histLen (MemorySystem.init (τ := Nat) cfg image) hcfg
  obtain ⟨d, hd, hregs, hhalt, hexit⟩ := h.agrees hcfg hfit hmem hlsq hline hcode
  have hbytes : d.ref.mem.bytes = committedMem image c := congrArg Memory.bytes hd.mem
  refine ⟨d.ref, hd.runs, hregs, hbytes, fun hsb a ha => ?_, hhalt, fun hh => hexit (hhalt.trans hh)⟩
  obtain ⟨-, evs, ht⟩ := Actions.traced hcfg (hcfg.blocks hfit hline) (h.reach.actions hcfg hk₀)
  rw [hbytes]
  exact ht.peek8_eq hcfg hfit hmem hsb ha

/-- The sum on the flat machine, until it halts. -/
theorem core_refines_reference_adding : ∃ (c : OoOCore (MemorySystem Nat)) (m : RefModel),
    c.halted = true ∧ (RefModel.init addingImage flatConfig.memBytes).Runs false c.commits m ∧ m.regs 2 = 12 := by
  have hcfg : flatConfig.Accepted :=
    validateConfig_ok (show validateConfig flatConfig = .ok flatConfig by decide)
  have hfit : flatConfig.SizesFit := ⟨by decide, by decide, by decide⟩
  have hline : flatConfig.flatMemory = false → flatConfig.l2.lineBytes ∣ flatConfig.memBytes := by decide
  obtain ⟨c, hr, hp⟩ := Reach.eval (OoOCore.init flatConfig false (fun _ => 0) (fun _ => 0)
      (MemorySystem.init flatConfig addingImage)) 49 .committed
    (p := fun c => decide (c.halted = true ∧ c.prf.val (c.cmap 2) = 12 ∧ c.seqCtr + 1 < 2 ^ 16))
    (by decide +kernel)
  obtain ⟨hh, hval, hseq⟩ := of_decide_eq_true hp
  obtain ⟨m, hruns, hregs, -⟩ := core_refines_reference hcfg hfit (by decide) (by decide) hline
    addingImage_keepsCode (Reach.dispatchesFresh hcfg hfit (by decide) hline hr (.of_few hcfg (by omega)))
  exact ⟨c, m, hh, hruns, (hregs 2).symm.trans hval⟩

/-- The records of the core are the first records of the reference model, which replays the input that the
core obtained. When the core halts the reference model has halted with the same record and the same exit
code, and they agree in every register and in every byte of memory. -/
theorem commits_replay_reference (hcfg : cfg.Accepted) (hfit : cfg.SizesFit) (hmem : cfg.memBytes < 2 ^ 32)
    (hlsq : cfg.lsqSize ≤ 2 ^ 32) (hline : cfg.flatMemory = false → cfg.l2.lineBytes ∣ cfg.memBytes)
    (hcode : KeepsCode quiet (RefModel.init image cfg.memBytes))
    (h : Reach (OoOCore.init cfg frames inputs histLen (MemorySystem.init cfg image)) ph c)
    (hlast : SlotsLast (OoOCore.init cfg frames inputs histLen (MemorySystem.init cfg image)) (ph, c)) :
    ∃ d, DiffCheck.onCommits quiet { ref := RefModel.init image cfg.memBytes } c.commits = .ok d ∧
      (RefModel.init image cfg.memBytes).Runs quiet c.commits d.ref ∧
      (c.halted = true → d.ref.halted = true ∧ d.ref.exitCode = c.exitCode ∧ (∀ i, c.reg i = d.ref.regs i) ∧
        ∀ a < cfg.memBytes, c.msys.peek8 a = .ok (d.ref.mem.bytes a)) := by
  have hk₀ := init_coreOk frames inputs histLen (MemorySystem.init (τ := Nat) cfg image) hcfg
  obtain ⟨d, hd, hregs, hhalt, hexit⟩ :=
    (h.dispatchesFresh hcfg hfit hlsq hline hlast).agrees hcfg hfit hmem hlsq hline hcode
  refine ⟨d, hd.checked, hd.runs, fun hh => ?_⟩
  have hstop := (h.stopped hcfg).2 hh
  refine ⟨hhalt.trans hh, hexit (hhalt.trans hh), fun i => (hstop.reg i).trans (hregs i), fun a ha => ?_⟩
  obtain ⟨-, evs, ht⟩ := Actions.traced hcfg (hcfg.blocks hfit hline) (h.actions hcfg hk₀)
  rw [ht.peek8_eq hcfg hfit hmem hstop.sb ha, hd.mem]
  rfl

/-- The patching program on the flat machine, until it halts: the branch is taken, the load has the word
that was stored over the first instruction, and memory holds it. -/
theorem commits_replay_reference_patching : ∃ (c : OoOCore (MemorySystem Nat)) (d : DiffCheck),
    c.halted = true ∧ c.commits.map (·.pc) = [0, 4, 8, 12, 20] ∧
    DiffCheck.onCommits false { ref := RefModel.init patchingImage flatConfig.memBytes } c.commits = .ok d ∧
    d.ref.halted = true ∧ d.ref.exitCode = c.exitCode ∧ (∀ i, c.reg i = d.ref.regs i) ∧ c.reg 2 = 19 ∧
    ∀ a < flatConfig.memBytes, c.msys.peek8 a = .ok (d.ref.mem.bytes a) := by
  have hcfg : flatConfig.Accepted :=
    validateConfig_ok (show validateConfig flatConfig = .ok flatConfig by decide)
  have hfit : flatConfig.SizesFit := ⟨by decide, by decide, by decide⟩
  obtain ⟨c, hr, hp⟩ := Reach.eval (OoOCore.init flatConfig false (fun _ => 0) (fun _ => 0)
      (MemorySystem.init flatConfig patchingImage)) 81 .committed
    (p := fun c => decide (c.halted = true ∧ c.commits.map (·.pc) = [0, 4, 8, 12, 20] ∧ c.reg 2 = 19 ∧
      c.seqCtr < 2 ^ 16)) (by decide +kernel)
  obtain ⟨hh, hpcs, hreg, hseq⟩ := of_decide_eq_true hp
  obtain ⟨d, hd, -, hend⟩ := commits_replay_reference hcfg hfit (by decide) (by decide) (by decide)
    patchingImage_keepsCode hr (.of_few hcfg hseq)
  obtain ⟨hhalt, hexit, hregs, hmem⟩ := hend hh
  exact ⟨c, d, hh, hpcs, hd, hhalt, hexit, hregs, hreg, hmem⟩

end Runs

end RvO3
