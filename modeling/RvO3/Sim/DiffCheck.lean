import RvO3.Core.Alone
import RvO3.Core.RefModel
import RvO3.Lib.Sweep

/-!
# The differential check

What `main` of `sim/main.cpp` does with `-d`: the reference model runs one instruction each time the
core commits one, the two records are compared, and after the run so are the exit state, the
registers and the memory.

The loop over the memory counts in 32 bits, and its bound is `memBytes` narrowed to 32 bits. It
therefore reads every byte the guest can address only while `memBytes` itself fits.
-/

set_option autoImplicit false

namespace RvO3

/-! ## The callback -/

/-- Why the check ends the program, with what the message shows. -/
inductive DiffFailure where
  /-- A fatal error of the core or of the reference model. -/
  | fatal (e : Fatal)
  /-- "pipeline retired seq .. but the reference model had already halted" -/
  | alreadyHalted (pipe : CommitRecord)
  /-- "commit streams diverge" -/
  | streams (pipe refRec : CommitRecord)
  /-- "exit state diverges" -/
  | exitState (code : Nat) (halted : Bool) (exitCode : Nat)
  /-- "final .. diverges" -/
  | register (r : Reg) (pipe ref : Word)
  /-- "final mem[..] diverges" -/
  | memory (a : Word) (pipe ref : Byte)

/-- The reference model with the event that it replays, and the number of records compared. -/
structure DiffCheck where
  ref : RefModel
  replayInput : Word := 0xFFFFFFFF
  verified : Nat := 0

namespace DiffCheck

/-- What the reference model reads when the core commits `pipe`. -/
def replayed (d : DiffCheck) (pipe : CommitRecord) : Word :=
  if pipe.instruction = 0x73#32 ∧ syscallReturnsInput (d.ref.regs 17) then
    match pipe.registerWrite with
    | some w => w.value
    | none => d.replayInput
  else d.replayInput

/-- `core.onCommit`. -/
def onCommit (frames : Bool) (d : DiffCheck) (pipe : CommitRecord) : Except DiffFailure DiffCheck :=
  if d.ref.halted then .error (.alreadyHalted pipe)
  else
    match d.ref.step frames (d.replayed pipe) with
    | .error e => .error (.fatal e)
    | .ok (ref, refRec) =>
        if pipe = refRec then
          .ok { ref := ref, replayInput := d.replayed pipe, verified := d.verified + 1 }
        else .error (.streams pipe refRec)

/-- The callback for some records in a row. -/
def onCommits (frames : Bool) : DiffCheck → List CommitRecord → Except DiffFailure DiffCheck
  | d, [] => .ok d
  | d, pipe :: records =>
      match d.onCommit frames pipe with
      | .error e => .error e
      | .ok d => d.onCommits frames records

end DiffCheck

/-! ## The check -/

/-- What `core.run()` returns; the code of a blown cycle budget is 2. -/
def OoOCore.code (c : OoOCore (MemorySystem Nat)) : Nat := if c.halted then c.exitCode else 2

/-- `core.run()` with the callback, for a budget of cycles. The records of a cycle are handed over
when it is over, so a cycle that has both a fatal error and a divergence ends with the former. -/
def diffRun (frames : Bool) : Nat → OoOCore (MemorySystem Nat) → DiffCheck → Except DiffFailure (OoOCore (MemorySystem Nat) × DiffCheck)
  | 0, c, d => .ok (c, d)
  | n + 1, c, d =>
      if c.halted then .ok (c, d)
      else
        match c.stepCycle with
        | .error e => .error (.fatal e)
        | .ok c' =>
            match d.onCommits frames (c'.commits.drop c.commits.length) with
            | .error e => .error e
            | .ok d => diffRun frames n c' d

/-- The comparison of the registers, which stops at the first that differs. -/
def compareRegs (core ref : Reg → Word) : Except DiffFailure Unit :=
  match (List.finRange 32).find? fun r => core r ≠ ref r with
  | some r => .error (.register r (core r) (ref r))
  | none => .ok ()

/-- The body of the loop over the memory. -/
def compareByte (peek8 : Nat → Except Fatal Byte) (bytes : Nat → Byte) (a : Word) : Except DiffFailure Unit :=
  match peek8 a.toNat with
  | .error e => .error (.fatal e)
  | .ok b => if b ≠ bytes a.toNat then .error (.memory a b (bytes a.toNat)) else .ok ()

/-- What a run that is reported as matching ends with, and the addresses it compared. -/
structure DiffMatch where
  core : OoOCore (MemorySystem Nat)
  check : DiffCheck
  compared : List Word

/-- The differential check of an image: none when the cycle budget is blown, which is not
architectural, and otherwise "final state matches". -/
def diffCheck (cfg : SimConfig) (frames : Bool) (inputs : Nat → Word) (histLen : Nat → Nat) (image : Nat → Byte)
    (maxCycles : Nat) : Except DiffFailure (Option DiffMatch) :=
  let core := OoOCore.init cfg frames inputs histLen (MemorySystem.init cfg image)
  match diffRun frames maxCycles core { ref := RefModel.init image cfg.memBytes } with
  | .error e => .error e
  | .ok (c, d) =>
      if c.code = 2 then .ok none
      else if d.ref.halted = false ∨ d.ref.exitCode ≠ c.code then
        .error (.exitState c.code d.ref.halted d.ref.exitCode)
      else
        match compareRegs c.reg d.ref.regs with
        | .error e => .error e
        | .ok _ =>
            match sweep (compareByte c.msys.peek8 d.ref.mem.bytes) (BitVec.ofNat 32 cfg.memBytes) 0#32 with
            | .error e => .error e
            | .ok compared => .ok (some ⟨c, d, compared⟩)

/-! ## What a match should mean -/

/-- The records of the reference model over some replayed events, none once it has halted. -/
def RefModel.records (frames : Bool) : RefModel → List Word → Except Fatal (Option (RefModel × List CommitRecord))
  | m, [] => .ok (some (m, []))
  | m, input :: inputs =>
      if m.halted then .ok none
      else
        match m.step frames input with
        | .error e => .error e
        | .ok (m, rec) =>
            match m.records frames inputs with
            | .error e => .error e
            | .ok none => .ok none
            | .ok (some (m, recs)) => .ok (some (m, rec :: recs))

/-- Everything that the guest can observe was compared, and is the same: every byte it can
address, the registers, the exit state, and the record of every instruction that retired. -/
structure DiffMatch.Complete (cfg : SimConfig) (frames : Bool) (image : Nat → Byte) (r : DiffMatch) : Prop where
  memory : ∀ a < min cfg.memBytes (2 ^ 32), BitVec.ofNat 32 a ∈ r.compared ∧
    r.core.msys.peek8 a = .ok (r.check.ref.mem.bytes a)
  registers : ∀ i, r.core.reg i = r.check.ref.regs i
  exit : r.core.halted = true ∧ r.check.ref.halted = true ∧ r.core.exitCode = r.check.ref.exitCode
  commits : ∃ inputs, (RefModel.init image cfg.memBytes).records frames inputs =
    .ok (some (r.check.ref, r.core.commits))
  verified : r.check.verified = r.core.commits.length

/-! ## The records -/

section Records

variable {cfg : SimConfig} {frames : Bool} {d d' : DiffCheck} {pipe : CommitRecord} {records : List CommitRecord}
  {c c' : OoOCore (MemorySystem Nat)}

/-- A record that passes is the one that the reference model makes. -/
theorem onCommit_ok (h : d.onCommit frames pipe = .ok d') : d.ref.halted = false ∧
    d.ref.step frames (d.replayed pipe) = .ok (d'.ref, pipe) ∧ d'.verified = d.verified + 1 := by
  unfold DiffCheck.onCommit at h
  by_cases hh : d.ref.halted = true
  · rw [if_pos hh] at h
    cases h
  · rw [if_neg hh] at h
    split at h
    · cases h
    · rename_i ref refRec hstep
      split at h
      · rename_i heq
        cases h
        exact ⟨Bool.not_eq_true _ ▸ hh, by rw [hstep, heq], rfl⟩
      · cases h

/-- Records that pass are those that the reference model makes. -/
theorem onCommits_ok (h : d.onCommits frames records = .ok d') :
    (∃ inputs, d.ref.records frames inputs = .ok (some (d'.ref, records))) ∧
      d'.verified = d.verified + records.length := by
  induction records generalizing d with
  | nil =>
      cases h
      exact ⟨⟨[], rfl⟩, rfl⟩
  | cons pipe records ih =>
      unfold DiffCheck.onCommits at h
      split at h
      · cases h
      · rename_i d₁ hone
        obtain ⟨hh, hstep, hcount⟩ := onCommit_ok hone
        obtain ⟨⟨inputs, hrec⟩, hrest⟩ := ih h
        constructor
        · refine ⟨d.replayed pipe :: inputs, ?_⟩
          unfold RefModel.records
          rw [if_neg (Bool.eq_false_iff.mp hh), hstep]
          dsimp only
          rw [hrec]
        · rw [hrest, hcount, List.length_cons]
          omega

theorem onCommits_append (more : List CommitRecord) (h : d.onCommits frames records = .ok d') :
    d.onCommits frames (records ++ more) = d'.onCommits frames more := by
  induction records generalizing d with
  | nil =>
      cases h
      rfl
  | cons pipe records ih =>
      unfold DiffCheck.onCommits at h
      rw [List.cons_append]
      conv_lhs => unfold DiffCheck.onCommits
      split at h
      · cases h
      · exact ih h

/-- The commit stream only grows. -/
theorem Actions.commits_grow (hcfg : cfg.Accepted) (ha : Actions c c') (h : CoreOk cfg c) :
    CoreOk cfg c' ∧ c.commits <+: c'.commits := by
  have hstep : ∀ {d d' : OoOCore (MemorySystem Nat)}, Action d d' →
      CoreOk cfg d ∧ c.commits <+: d.commits → CoreOk cfg d' ∧ c.commits <+: d'.commits := by
    intro d d' ha hd
    refine ⟨ha.coreOk hcfg hd.1, hd.2.trans ?_⟩
    rcases ha.memSide hd.1.back with hs | ⟨-, -, -, hs, -⟩ | ⟨-, -, -, -, hs, -⟩ | ⟨-, -, -, hs, -⟩ |
      ⟨-, -, -, -, hs, -⟩ | ⟨-, -, -, hs, -⟩ | ⟨-, -, -, -, hs, -⟩ | ⟨-, -, -, hs, -⟩ | ⟨-, -, -, -, hs, -⟩ |
      ⟨-, -, hs, -⟩
    · exact ⟨[], by rw [hs.commits, List.append_nil]⟩
    · exact ⟨_, hs.symm⟩
    · exact ⟨_, hs.symm⟩
    all_goals exact ⟨[], by rw [hs, List.append_nil]⟩
  exact Actions.preserve hstep ha ⟨h, List.prefix_refl _⟩

theorem stepCycle_commits (hcfg : cfg.Accepted) (h : CoreOk cfg c) (hh : c.halted = false)
    (hs : c.stepCycle = .ok c') : CoreOk cfg c' ∧ c.commits <+: c'.commits := by
  have ha : Actions c c' := by
    rcases (Reach.stepCycle .reset hh hs : Reach c .boundary c' ∨ _) with hr | ⟨hr, -⟩
    · exact hr.actions hcfg h
    · exact hr.actions hcfg h
  exact Actions.commits_grow hcfg ha h

/-- A run that passes is a run of the core whose new records all pass. -/
theorem diffRun_ok (hcfg : cfg.Accepted) (n : Nat) (hk : CoreOk cfg c) (h : diffRun frames n c d = .ok (c', d')) :
    c.run n = .ok c' ∧ ∃ new, c'.commits = c.commits ++ new ∧ d.onCommits frames new = .ok d' := by
  induction n generalizing c d with
  | zero =>
      cases h
      exact ⟨rfl, [], (List.append_nil _).symm, rfl⟩
  | succ n ih =>
      unfold diffRun at h
      unfold OoOCore.run
      by_cases hh : c.halted = true
      · rw [if_pos hh] at h ⊢
        cases h
        exact ⟨rfl, [], (List.append_nil _).symm, rfl⟩
      · rw [if_neg hh] at h ⊢
        split at h
        · cases h
        · rename_i c₁ hs
          split at h
          · cases h
          · rename_i d₁ hd
            obtain ⟨hk₁, first, hfirst⟩ := stepCycle_commits hcfg hk (Bool.not_eq_true _ ▸ hh) hs
            rw [← hfirst, List.drop_left] at hd
            obtain ⟨hrun, new, hnew, hrest⟩ := ih hk₁ h
            rw [hs]
            refine ⟨hrun, first ++ new, ?_, ?_⟩
            · rw [hnew, ← hfirst, List.append_assoc]
            · rw [onCommits_append new hd, hrest]

end Records

/-! ## The final state -/

section Final

variable {cfg : SimConfig} {frames : Bool} {inputs : Nat → Word} {histLen : Nat → Nat} {image : Nat → Byte}
  {maxCycles : Nat} {r : DiffMatch}

theorem compareRegs_ok {core ref : Reg → Word} {u : Unit} (h : compareRegs core ref = .ok u) (i : Reg) :
    core i = ref i := by
  unfold compareRegs at h
  split at h
  · cases h
  · rename_i hnone
    have hi := List.find?_eq_none.mp hnone i (List.mem_finRange i)
    simpa using hi

theorem compareByte_ok {peek8 : Nat → Except Fatal Byte} {bytes : Nat → Byte} {a : Word} {u : Unit}
    (h : compareByte peek8 bytes a = .ok u) : peek8 a.toNat = .ok (bytes a.toNat) := by
  unfold compareByte at h
  split at h
  · cases h
  · rename_i b hb
    split at h
    · cases h
    · rename_i heq
      rw [hb, not_not.mp heq]

/-- What a report of a match says about the run, whatever the size of memory. -/
theorem diffCheck_ok (h : diffCheck cfg frames inputs histLen image maxCycles = .ok (some r)) :
    diffRun frames maxCycles (OoOCore.init cfg frames inputs histLen (MemorySystem.init cfg image))
        { ref := RefModel.init image cfg.memBytes } = .ok (r.core, r.check) ∧
      (r.core.halted = true ∧ r.check.ref.halted = true ∧ r.core.exitCode = r.check.ref.exitCode) ∧
      (∀ i, r.core.reg i = r.check.ref.regs i) ∧
      sweep (compareByte r.core.msys.peek8 r.check.ref.mem.bytes) (BitVec.ofNat 32 cfg.memBytes) 0#32 =
        .ok r.compared := by
  unfold diffCheck at h
  dsimp only at h
  split at h
  · cases h
  · rename_i c d hrun
    split at h
    · cases h
    · rename_i hcode
      split at h
      · cases h
      · rename_i hexit
        split at h
        · cases h
        · rename_i hregs
          split at h
          · cases h
          · rename_i compared hmem
            cases h
            -- a run that does not halt ends with code 2
            have hh : c.halted = true := by
              by_contra hn
              exact hcode (if_neg hn)
            have hc : c.code = c.exitCode := if_pos hh
            rw [hc] at hexit
            push Not at hexit
            refine ⟨hrun, ⟨hh, ?_, hexit.2.symm⟩, compareRegs_ok hregs, hmem⟩
            simpa using hexit.1

/-- The bytes compared are those below the narrowed size. -/
theorem mem_compared (h : diffCheck cfg frames inputs histLen image maxCycles = .ok (some r)) (a : Word) :
    a ∈ r.compared ↔ a.toNat < cfg.memBytes % 2 ^ 32 := by
  obtain ⟨-, -, -, hmem⟩ := diffCheck_ok h
  rw [mem_sweep hmem, BitVec.toNat_ofNat, BitVec.toNat_ofNat]
  constructor
  · intro ha
    exact ha.2
  · intro ha
    exact ⟨Nat.zero_le _, ha⟩

/-- A byte that the guest can address and that is never compared: with a memory of 4 GiB or more,
the first one past the narrowed size. -/
theorem not_compared (h : diffCheck cfg frames inputs histLen image maxCycles = .ok (some r))
    (hbig : 2 ^ 32 ≤ cfg.memBytes) : ∃ a < min cfg.memBytes (2 ^ 32), BitVec.ofNat 32 a ∉ r.compared := by
  have hlt : cfg.memBytes % 2 ^ 32 < 2 ^ 32 := Nat.mod_lt _ (Nat.two_pow_pos 32)
  refine ⟨cfg.memBytes % 2 ^ 32, by omega, ?_⟩
  rw [mem_compared h, BitVec.toNat_ofNat, Nat.mod_mod]
  exact Nat.lt_irrefl _

/-- **The differential check.** A run that is reported as matching has had everything compared
that the guest can observe if and only if the size of memory fits the 32-bit counter. -/
theorem diffCheck_complete (hcfg : cfg.Accepted) (h : diffCheck cfg frames inputs histLen image maxCycles = .ok (some r)) :
    (OoOCore.init cfg frames inputs histLen (MemorySystem.init cfg image)).run maxCycles = .ok r.core ∧
      (r.Complete cfg frames image ↔ cfg.memBytes < 2 ^ 32) := by
  obtain ⟨hdiff, hexit, hregs, hmem⟩ := diffCheck_ok h
  obtain ⟨hrun, new, hnew, hrecords⟩ := diffRun_ok hcfg maxCycles (init_coreOk _ _ _ _ hcfg) hdiff
  refine ⟨hrun, fun hc => ?_, fun hsmall => ?_⟩
  · by_contra hbig
    obtain ⟨a, ha, hno⟩ := not_compared h (Nat.le_of_not_lt hbig)
    exact hno (hc.memory a ha).1
  · obtain ⟨hrec, hcount⟩ := onCommits_ok hrecords
    have hall : r.core.commits = new := hnew
    constructor
    · intro a ha
      have hlt : a < cfg.memBytes := Nat.lt_of_lt_of_le ha (Nat.min_le_left _ _)
      have hnat : (BitVec.ofNat 32 a).toNat = a := by
        rw [BitVec.toNat_ofNat]
        exact Nat.mod_eq_of_lt (Nat.lt_trans hlt hsmall)
      have hin : BitVec.ofNat 32 a ∈ r.compared := by
        rw [mem_compared h, hnat, Nat.mod_eq_of_lt hsmall]
        exact hlt
      have hbyte := compareByte_ok (sweep_checked hmem hin)
      rw [hnat] at hbyte
      exact ⟨hin, hbyte⟩
    · exact hregs
    · exact hexit
    · rw [hall]
      exact hrec
    · rw [hall, hcount]
      exact Nat.zero_add _

end Final

/-! ## A memory of 4 GiB -/

/-- A flat memory whose size, narrowed to 32 bits, is zero. -/
def wideConfig : SimConfig := { flatConfig with memBytes := 2 ^ 32 }

theorem wideConfig_valid : validateConfig wideConfig = .ok wideConfig := by decide

/-- A program that stores a word and stops. -/
def storeProgram : Nat → Word
  | 0 => 0x00100093#32 -- addi x1, x0, 1
  | 1 => 0x10102023#32 -- sw x1, 256(x0)
  | 2 => 0x00100073#32 -- ebreak
  | _ => 0x00000013#32 -- nop

/-- The program as bytes. -/
def storeImage (a : Nat) : Byte := wordByte (storeProgram (a / 4)) (a % 4)

/-- Its run is reported as matching. -/
theorem wide_matches :
    ∃ r, diffCheck wideConfig false (fun _ => 0) (fun _ => 0) storeImage 40 = .ok (some r) := by
  have hrun : (match diffRun false 40 (OoOCore.init wideConfig false (fun _ => 0) (fun _ => 0)
        (MemorySystem.init wideConfig storeImage)) { ref := RefModel.init storeImage wideConfig.memBytes } with
      | .error _ => false
      | .ok (c, d) => decide (c.code = 0) && d.ref.halted && decide (d.ref.exitCode = 0) &&
          ((List.finRange 32).find? fun r => c.reg r ≠ d.ref.regs r).isNone) = true := by
    decide +kernel
  unfold diffCheck
  dsimp only
  split at hrun
  · cases hrun
  · rename_i c d _
    simp only [Bool.and_eq_true, decide_eq_true_eq, Option.isNone_iff_eq_none] at hrun
    obtain ⟨⟨⟨hcode, hhalt⟩, hexit⟩, hregs⟩ := hrun
    have hcompare : compareRegs c.reg d.ref.regs = .ok () := by
      unfold compareRegs
      rw [hregs]
    have hagree : ¬ (d.ref.halted = false ∨ d.ref.exitCode ≠ c.code) := by
      rw [hhalt, hexit, hcode]
      decide
    rw [if_neg (by rw [hcode]; decide), if_neg hagree, hcompare]
    dsimp only
    rw [sweep_stop (by decide)]
    exact ⟨_, rfl⟩

theorem diffCheck_complete_wide : ∃ r, diffCheck wideConfig false (fun _ => 0) (fun _ => 0) storeImage 40 = .ok (some r) ∧
    ¬ r.Complete wideConfig false storeImage := by
  obtain ⟨r, hr⟩ := wide_matches
  have hcfg : wideConfig.Accepted := validateConfig_ok wideConfig_valid
  refine ⟨r, hr, fun hc => ?_⟩
  exact absurd ((diffCheck_complete hcfg hr).2.mp hc) (by decide)

/-- The store at address 256 is not compared, nor is any other byte. -/
theorem diffCheck_unread : validateConfig wideConfig = .ok wideConfig ∧
    ∃ r, diffCheck wideConfig false (fun _ => 0) (fun _ => 0) storeImage 40 = .ok (some r) ∧
      256 < min wideConfig.memBytes (2 ^ 32) ∧ (∀ a, a ∉ r.compared) ∧ ¬ r.Complete wideConfig false storeImage := by
  obtain ⟨r, hr⟩ := wide_matches
  have hnone : ∀ a, a ∉ r.compared := by
    intro a
    rw [mem_compared hr]
    exact Nat.not_lt_zero _
  refine ⟨wideConfig_valid, r, hr, by decide, hnone, fun hc => ?_⟩
  exact hnone _ (hc.memory 256 (by decide)).1

end RvO3
