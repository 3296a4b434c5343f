import RvO3.Core.PredictorBounds

/-!
# The contents of the predictor's tables

Counters are moved one step at a time from several places, allocation overwrites entries, and the
BTB is filled and refreshed under the pc that indexes it. Whatever the order of predictions,
recoveries and training, every counter stays in its range, the register that picks the table to
allocate in never sticks at zero, and the BTB stays a partial map from pcs, each in its own set.

`predictor_in_bounds` puts this together with the checks of `Arrays`: in every run the contents
are in range and the next call answers.
-/

set_option autoImplicit false

namespace RvO3

namespace Predictor

/-! ## Ranges -/

/-- The counters of an entry are inside the ranges of their bit fields. -/
structure EntryOk (e : TageEntry) : Prop where
  u : e.u ≤ 3
  ctr : -4 ≤ e.ctr ∧ e.ctr ≤ 3

theorem entryOk_empty : EntryOk {} := ⟨by decide, by decide⟩

/-- The contents of the tables. The register has 16 bits: its feedback reaches no higher. -/
structure TablesOk (p : Predictor) : Prop where
  pht : ∀ i, p.pht i ≤ 3
  entries : ∀ t i, EntryOk (p.tables t i)
  useAltOnWeak : -8 ≤ p.useAltOnWeak ∧ p.useAltOnWeak ≤ 7
  lfsr : p.lfsr ≠ 0 ∧ p.lfsr.toNat < 2 ^ 16
  inSet : ∀ i, (p.btb i).valid = true →
    p.btbBase (p.btb i).pc ≤ i ∧ i < p.btbBase (p.btb i).pc + p.btbWays
  distinct : ∀ i j, (p.btb i).valid = true → (p.btb j).valid = true → (p.btb i).pc = (p.btb j).pc → i = j

/-- A saturating counter stays in its range. -/
theorem nudge_range {c lo hi : Int} (h : lo ≤ c ∧ c ≤ hi) (up : Bool) :
    lo ≤ nudge c up lo hi ∧ nudge c up lo hi ≤ hi := by
  unfold nudge
  split
  · split <;> omega
  · split <;> omega

theorem nudge2_le {c : Nat} (h : c ≤ 3) (up : Bool) : nudge2 c up ≤ 3 := by
  unfold nudge2
  split
  · split <;> omega
  · split <;> omega

/-- One step of the shift register. A bit that leaves it comes back in its upper half. -/
theorem lfsr_step {x : Word} (h : x ≠ 0 ∧ x.toNat < 2 ^ 16) :
    (x >>> 1) ^^^ ((-(x &&& 1#32)) &&& 0xb400#32) ≠ 0 ∧
      ((x >>> 1) ^^^ ((-(x &&& 1#32)) &&& 0xb400#32)).toNat < 2 ^ 16 := by
  obtain ⟨hne, hlt⟩ := h
  have hshift : (x >>> 1).toNat = x.toNat / 2 := by
    rw [BitVec.toNat_ushiftRight, Nat.shiftRight_eq_div_pow]
  have hpos : 0 < x.toNat := by
    have : x.toNat ≠ 0 := fun h0 => hne (BitVec.eq_of_toNat_eq h0)
    omega
  have hlow : (x &&& 1#32).toNat = x.toNat % 2 := by
    rw [BitVec.toNat_and]
    exact Nat.and_one_is_mod _
  rcases Nat.mod_two_eq_zero_or_one x.toNat with heven | hodd
  · -- nothing comes back: the shifted value is not zero
    have hbit : x &&& 1#32 = 0#32 := BitVec.eq_of_toNat_eq (hlow.trans heven)
    rw [hbit]
    have hfeed : (-(0#32) &&& 0xb400#32 : Word) = 0#32 := by decide
    rw [hfeed, BitVec.xor_zero]
    refine ⟨fun h0 => ?_, by omega⟩
    have : (x >>> 1).toNat = 0 := by rw [h0]; rfl
    omega
  · have hbit : x &&& 1#32 = 1#32 := BitVec.eq_of_toNat_eq (hlow.trans hodd)
    rw [hbit]
    have hfeed : (-(1#32) &&& 0xb400#32 : Word) = 0xb400#32 := by decide
    rw [hfeed]
    refine ⟨fun h0 => ?_, ?_⟩
    · -- only a register of 17 bits would shift to the feedback
      have heq : x >>> 1 = 0xb400#32 := BitVec.xor_eq_zero_iff.mp h0
      have : (x >>> 1).toNat = 0xb400 := by rw [heq]; rfl
      omega
    · rw [BitVec.toNat_xor]
      exact Nat.xor_lt_two_pow (by omega) (by decide)

namespace TablesOk

variable {p : Predictor}

/-- The tables are right at construction. -/
theorem init (cfg : SimConfig) (histLen : Nat → Nat) : TablesOk (init cfg histLen) where
  pht := fun _ => (by decide : 1 ≤ 3)
  entries := fun _ _ => entryOk_empty
  useAltOnWeak := (by decide : (-8 : Int) ≤ 0 ∧ (0 : Int) ≤ 7)
  lfsr := (by decide : 0xace1#32 ≠ 0 ∧ (0xace1#32).toNat < 2 ^ 16)
  inSet := fun i hv => by cases hv
  distinct := fun i j hv => by cases hv

/-! ### Training -/

theorem setPht (h : TablesOk p) (i : Nat) {c : Nat} (hc : c ≤ 3) :
    TablesOk { p with pht := Function.update p.pht i c } :=
  { h with
    pht := fun j => by
      show Function.update p.pht i c j ≤ 3
      rw [Function.update_apply]
      split
      · exact hc
      · exact h.pht j }

theorem setTage (h : TablesOk p) (t i : Nat) {e : TageEntry} (he : EntryOk e) : TablesOk (p.setTage t i e) :=
  { h with
    entries := fun s j => by
      show EntryOk (Function.update p.tables t (Function.update (p.tables t) i e) s j)
      rw [Function.update_apply]
      split
      · rw [Function.update_apply]
        split
        · exact he
        · exact h.entries t j
      · exact h.entries s j }

/-- Training the provider keeps every counter in range. -/
theorem tageTrain (h : TablesOk p) (l : Lookup) (pc : Word) (taken : Bool) : TablesOk (p.tageTrain l pc taken) := by
  have hbase := nudge2_le (h.pht ((pc >>> 2).toNat &&& (p.phtSize - 1))) taken
  unfold Predictor.tageTrain
  dsimp only
  cases l.provider with
  | none => exact h.setPht _ hbase
  | some t =>
      dsimp only
      obtain ⟨hu, hctr⟩ := h.entries t (l.idx t)
      have halt : TablesOk { p with
          useAltOnWeak := if l.weak && l.providerPred != l.altPred then
            nudge p.useAltOnWeak (l.altPred == taken) (-8) 7 else p.useAltOnWeak } :=
        { h with
          useAltOnWeak := by
            dsimp only
            split
            · exact nudge_range h.useAltOnWeak _
            · exact h.useAltOnWeak }
      have hset := halt.setTage t (l.idx t) (e := { p.tables t (l.idx t) with
        u := if l.providerPred != l.altPred then nudge2 (p.tables t (l.idx t)).u (l.providerPred == taken)
          else (p.tables t (l.idx t)).u
        ctr := nudge (p.tables t (l.idx t)).ctr taken (-4) 3 })
        ⟨by
          dsimp only
          split
          · exact nudge2_le hu _
          · exact hu, nudge_range hctr _⟩
      split
      · exact hset.setPht _ hbase
      · exact hset

/-- So does allocating an entry in a longer table. -/
theorem tageAllocate (h : TablesOk p) (l : Lookup) (taken : Bool) : TablesOk (p.tageAllocate l taken) := by
  have hlfsr : TablesOk { p with lfsr := (p.lfsr >>> 1) ^^^ ((-(p.lfsr &&& 1#32)) &&& 0xb400#32) } :=
    { h with lfsr := lfsr_step h.lfsr }
  -- taking one from the usefulness of each longer entry
  have hloop : ∀ (js : List Nat) (q : Predictor), TablesOk q → TablesOk (js.foldl (fun q j =>
      if (q.tables j (l.idx j)).u > 0 then
        q.setTage j (l.idx j) { q.tables j (l.idx j) with u := (q.tables j (l.idx j)).u - 1 }
      else q) q) := by
    intro js
    induction js with
    | nil => exact fun _ hq => hq
    | cons j js ih =>
        intro q hq
        apply ih _
        dsimp only
        obtain ⟨hu, hctr⟩ := hq.entries j (l.idx j)
        split
        · exact hq.setTage j (l.idx j) ⟨by dsimp only; omega, hctr⟩
        · exact hq
  unfold Predictor.tageAllocate
  dsimp only
  split
  · exact hloop _ _ hlfsr
  · exact hlfsr.setTage _ _ ⟨Nat.zero_le 3, by dsimp only; split <;> decide⟩

theorem tageAge (h : TablesOk p) : TablesOk p.tageAge := by
  unfold Predictor.tageAge
  dsimp only
  split
  · exact { h with
      entries := fun t i => by
        obtain ⟨hu, hctr⟩ := h.entries t i
        refine ⟨?_, hctr⟩
        show (p.tables t i).u >>> 1 ≤ 3
        rw [Nat.shiftRight_eq_div_pow]
        omega }
  · exact { h with }

/-- So does the whole update of the tagged tables. -/
theorem tageUpdate (h : TablesOk p) (pc : Word) (taken : Bool) (pos : Nat) : TablesOk (p.tageUpdate pc taken pos) := by
  have htrain := h.tageTrain (p.tageLookup pc pos) pc taken
  rw [Arrays.tageUpdate_eq_earns]
  split
  · exact (htrain.tageAllocate _ taken).tageAge
  · exact htrain.tageAge

/-- Training, the branch target buffer and the pattern table together keep the tables right. -/
theorem learned (h : TablesOk p) (pc : Word) (k : PredKind) (taken : Bool) (phtIdx : Nat) (before : Checkpoint) :
    TablesOk (Arrays.learned p pc k taken phtIdx before) := by
  unfold Arrays.learned
  split
  · split
    · exact h.tageUpdate pc taken before.hist
    · exact h.setPht phtIdx (nudge2_le (h.pht phtIdx) taken)
  · exact h

/-! ### The BTB -/

/-- Only the time of its last use changes in an entry that is found. -/
theorem touch (h : TablesOk p) (i : Nat) : TablesOk (p.btbTouch i) := by
  -- `valid` and `pc` are all that `inSet` and `distinct` speak of
  have hbtb : ∀ j, ((p.btbTouch i).btb j).valid = (p.btb j).valid ∧ ((p.btbTouch i).btb j).pc = (p.btb j).pc := by
    intro j
    show (Function.update p.btb i { p.btb i with lastUse := p.btbClock + 1 } j).valid = _ ∧
      (Function.update p.btb i { p.btb i with lastUse := p.btbClock + 1 } j).pc = _
    rw [Function.update_apply]
    split
    · next he => exact he ▸ ⟨rfl, rfl⟩
    · exact ⟨rfl, rfl⟩
  exact { h with
    inSet := fun j hv => by
      rw [(hbtb j).1] at hv
      rw [(hbtb j).2]
      exact h.inSet j hv
    distinct := fun j k hj hk he => by
      rw [(hbtb j).1] at hj
      rw [(hbtb k).1] at hk
      rw [(hbtb j).2, (hbtb k).2] at he
      exact h.distinct j k hj hk he }

/-- A way of its set may be filled with `pc`, if no other way holds `pc`. -/
theorem fill (h : TablesOk p) {pc : Word} {i : Nat} (hin : p.btbBase pc ≤ i ∧ i < p.btbBase pc + p.btbWays)
    (hfree : ∀ j, (p.btb j).valid = true → (p.btb j).pc = pc → j = i) {e : BtbEntry} (he : e.pc = pc) (clock : Nat) :
    TablesOk { p with btbClock := clock, btb := Function.update p.btb i e } := by
  have hother : ∀ j, j ≠ i → Function.update p.btb i e j = p.btb j := fun j hj => Function.update_of_ne hj _ _
  exact { h with
    inSet := fun j hv => by
      dsimp only at hv ⊢
      by_cases hj : j = i
      · rw [hj, Function.update_self, he]
        exact hin
      · rw [hother j hj] at hv ⊢
        exact h.inSet j hv
    distinct := fun j k hj hk hpc => by
      dsimp only at hj hk hpc
      -- the new entry against an old one: the old one would hold `pc` already
      by_cases hji : j = i
      · by_cases hki : k = i
        · rw [hji, hki]
        · rw [hji, Function.update_self, hother k hki, he] at hpc
          rw [hother k hki] at hk
          rw [hji, hfree k hk hpc.symm]
      · rw [hother j hji] at hj hpc
        by_cases hki : k = i
        · rw [hki, Function.update_self, he] at hpc
          rw [hki, hfree j hj hpc]
        · rw [hother k hki] at hk hpc
          exact h.distinct j k hj hk hpc }

theorem mem_ways_iff {pc : Word} {i : Nat} : i ∈ (List.range p.btbWays).map (p.btbBase pc + ·) ↔
    p.btbBase pc ≤ i ∧ i < p.btbBase pc + p.btbWays := by
  rw [List.mem_map]
  constructor
  · rintro ⟨w, hw, rfl⟩
    have := List.mem_range.mp hw
    omega
  · rintro ⟨h1, h2⟩
    exact ⟨i - p.btbBase pc, List.mem_range.mpr (by omega), by omega⟩

/-- A taken transfer refreshes the way that holds its pc, or fills one when none does. -/
theorem btbUpdate (h : TablesOk p) (hways : 0 < p.btbWays) (pc target : Word) (k : PredKind) :
    TablesOk (p.btbUpdate pc target k) := by
  unfold Predictor.btbUpdate
  cases hl : p.btbLookup pc with
  | none =>
      refine h.fill (mem_ways_iff.mp (Arrays.btbVictim_mem p hways pc)) (fun j hv hpc => ?_) rfl _
      -- a way that held the pc would have been found
      have hin := h.inSet j hv
      rw [hpc] at hin
      have hmiss := List.find?_eq_none.mp hl j (mem_ways_iff.mpr hin)
      rw [hv, hpc] at hmiss
      simp at hmiss
  | some i =>
      have hhit := List.find?_some hl
      rw [Bool.and_eq_true, beq_iff_eq] at hhit
      have hin := mem_ways_iff.mp (List.mem_of_find?_eq_some hl)
      have htouch := h.touch i
      refine htouch.fill hin (fun j hv hpc => ?_) rfl _
      -- found, so touched: the entry still holds `pc`, and no other one does
      have hi : ((p.btbTouch i).btb i).valid = true ∧ ((p.btbTouch i).btb i).pc = pc := by
        show (Function.update p.btb i { p.btb i with lastUse := p.btbClock + 1 } i).valid = true ∧
          (Function.update p.btb i { p.btb i with lastUse := p.btbClock + 1 } i).pc = pc
        rw [Function.update_self]
        exact hhit
      exact htouch.distinct j i hv hi.1 (hpc.trans hi.2.symm)

/-! ### Prediction and recovery -/

theorem pushHistory (h : TablesOk p) (taken : Bool) : TablesOk (p.pushHistory taken) := by
  unfold Predictor.pushHistory
  dsimp only
  split
  · exact { h with }
  · exact { h with }

/-- Predicting keeps the tables right: of them it touches the recency of the target buffer alone. -/
theorem predict (h : TablesOk p) (pc : Word) : TablesOk (p.predict pc).1 := by
  unfold Predictor.predict
  split
  · exact h
  · next i _ =>
      have htouch := h.touch i
      dsimp only
      split
      · exact htouch.pushHistory _
      · exact { htouch with }
      · split
        · exact { htouch with }
        · exact htouch
      · exact htouch

theorem restore (h : TablesOk p) (cp : Checkpoint) : TablesOk (p.restore cp) := by
  unfold Predictor.restore
  dsimp only
  split
  · split
    · exact { h with }
    · exact { h with }
  · split
    · exact { h with }
    · exact { h with }

theorem replay (h : TablesOk p) (pc : Word) (ins : Instr) (taken : Bool) : TablesOk (p.replay pc ins taken) := by
  unfold Predictor.replay
  split
  · exact h.pushHistory taken
  · split
    · exact { h with }
    · exact h
  · split
    · exact { h with }
    · exact h
  · exact h

end TablesOk

/-! ## Runs -/

/-- The calls that the core makes. -/
inductive Call where
  | predict (pc : Word)
  | restore (cp : Checkpoint)
  | replay (pc : Word) (ins : Instr) (taken : Bool)
  | update (pc : Word) (ins : Instr) (taken : Bool) (target : Word) (phtIdx : Nat) (before : Checkpoint)

/-- A call on the arrays, with the predictions it returns. -/
def exec (z : ArraySizes) (p : Predictor) : Call → Option (Predictor × List Pred)
  | .predict pc => (Arrays.predict z p pc).map fun r => (r.1, [r.2])
  | .restore cp => (Arrays.restore z p cp).map (·, [])
  | .replay pc ins taken => (Arrays.replay z p pc ins taken).map (·, [])
  | .update pc ins taken target phtIdx before =>
      (Arrays.update z p pc ins taken target phtIdx before).map (·, [])

/-- Counters and checkpoints come from predictions returned before; what is replayed need not. -/
def Known (qs : List Pred) : Call → Prop
  | .predict _ | .replay _ _ _ => True
  | .restore cp => ∃ q ∈ qs, q.before = cp
  | .update _ _ _ _ phtIdx before => (∃ q ∈ qs, q.phtIdx = phtIdx) ∧ ∃ q ∈ qs, q.before = before

/-- A predictor and the predictions it has returned, newest first. -/
inductive Calls (cfg : SimConfig) (histLen : Nat → Nat) : Predictor → List Pred → Prop
  | construct {p : Predictor} : construct cfg histLen = some p → Calls cfg histLen p []
  | call {p p' : Predictor} {qs out : List Pred} {c : Call} : Calls cfg histLen p qs → Known qs c →
      exec (arraySizes cfg) p c = some (p', out) → Calls cfg histLen p' (out ++ qs)

/-- What every call keeps. -/
structure PredictorOk (z : ArraySizes) (p : Predictor) : Prop where
  fits : Fits z p
  bits : ∀ i, p.histBits i ≤ 1
  tables : TablesOk p

section Steps

variable {z : ArraySizes} {p : Predictor}

theorem bits_pushHistory (h : ∀ i, p.histBits i ≤ 1) (taken : Bool) : ∀ i, (p.pushHistory taken).histBits i ≤ 1 := by
  unfold pushHistory
  dsimp only
  split
  · exact h
  · intro i
    dsimp only
    rw [Function.update_apply]
    split
    · split <;> decide
    · exact h i

theorem pushHistory_shape (p : Predictor) (taken : Bool) : (p.pushHistory taken).shape = p.shape := by
  unfold pushHistory
  dsimp only
  split <;> rfl

/-- The parameters and the history bits of a predictor with the same history. -/
theorem keeps_of_history {p' : Predictor} (hfit : Fits z p) (hbits : ∀ i, p.histBits i ≤ 1)
    (hs : p'.history = p.history) : Fits z p' ∧ ∀ i, p'.histBits i ≤ 1 := by
  have hsame : p'.histBits = p.histBits := congrArg History.histBits hs
  refine ⟨hfit.congr (congrArg History.shape hs), fun i => ?_⟩
  rw [hsame]
  exact hbits i

theorem keeps_of_push {p' q : Predictor} (hfit : Fits z p) (hbits : ∀ i, p.histBits i ≤ 1)
    (hs : q.history = p.history) {taken : Bool} (hp : p' = q.pushHistory taken) :
    Fits z p' ∧ ∀ i, p'.histBits i ≤ 1 := by
  obtain ⟨h1, h2⟩ := keeps_of_history hfit hbits hs
  rw [hp]
  exact ⟨h1.congr (pushHistory_shape q taken), bits_pushHistory h2 taken⟩

/-- Predicting keeps the whole invariant, history and return stack included. -/
theorem PredictorOk.predict (h : PredictorOk z p) (pc : Word) : PredictorOk z (p.predict pc).1 := by
  have hkeep : Fits z (p.predict pc).1 ∧ ∀ i, (p.predict pc).1.histBits i ≤ 1 := by
    rcases predict_history p pc with hs | ⟨q, taken, hs, hp⟩
    · exact keeps_of_history h.fits h.bits hs
    · exact keeps_of_push h.fits h.bits hs hp
  exact ⟨hkeep.1, hkeep.2, h.tables.predict pc⟩

/-- Restoring a checkpoint keeps the whole invariant. -/
theorem PredictorOk.restore (h : PredictorOk z p) (cp : Checkpoint) : PredictorOk z (p.restore cp) := by
  have hshape : (p.restore cp).shape = p.shape ∧ (p.restore cp).histBits = p.histBits := by
    unfold Predictor.restore
    dsimp only
    split
    · split <;> exact ⟨rfl, rfl⟩
    · split <;> exact ⟨rfl, rfl⟩
  exact ⟨h.fits.congr hshape.1, fun i => hshape.2.symm ▸ h.bits i, h.tables.restore cp⟩

/-- Replaying the branch that was mispredicted keeps the whole invariant. -/
theorem PredictorOk.replay (h : PredictorOk z p) (pc : Word) (ins : Instr) (taken : Bool) :
    PredictorOk z (p.replay pc ins taken) := by
  have hkeep : Fits z (p.replay pc ins taken) ∧ ∀ i, (p.replay pc ins taken).histBits i ≤ 1 := by
    have hs := replay_history p pc ins taken
    by_cases hk : kindOf ins = .COND
    · rw [if_pos hk] at hs
      exact keeps_of_push h.fits h.bits rfl hs
    · rw [if_neg hk] at hs
      exact keeps_of_history h.fits h.bits hs
  exact ⟨hkeep.1, hkeep.2, h.tables.replay pc ins taken⟩

/-- Training at commit keeps the whole invariant. -/
theorem PredictorOk.update (h : PredictorOk z p) (pc : Word) (ins : Instr) (taken : Bool) (target : Word)
    (phtIdx : Nat) (before : Checkpoint) : PredictorOk z (p.update pc ins taken target phtIdx before) := by
  obtain ⟨hfit, hbits⟩ := keeps_of_history h.fits h.bits (update_history p pc ins taken target phtIdx before)
  refine ⟨hfit, hbits, ?_⟩
  have hlearned := h.tables.learned pc (kindOf ins) taken phtIdx before
  have hways : 0 < (Arrays.learned p pc (kindOf ins) taken phtIdx before).btbWays :=
    (h.fits.congr (Arrays.learned_shape p pc (kindOf ins) taken phtIdx before)).ways_pos
  rw [Arrays.update_eq_learned]
  split
  · exact hlearned.btbUpdate hways pc target _
  · exact hlearned

theorem predict_phtIdx (p : Predictor) (pc : Word) : (p.predict pc).2.phtIdx = p.phtIndex pc := by
  unfold Predictor.predict
  split
  · rfl
  · dsimp only
    split
    · rfl
    · rfl
    · split <;> rfl
    · rfl

/-- One call: it answers, and its answer is as good as the state it found. -/
theorem PredictorOk.exec (h : PredictorOk z p) {qs : List Pred} (hq : ∀ q ∈ qs, q.phtIdx < z.pht) {c : Call}
    (hc : Known qs c) :
    ∃ p' out, exec z p c = some (p', out) ∧ PredictorOk z p' ∧ ∀ q ∈ out ++ qs, q.phtIdx < z.pht := by
  cases c with
  | predict pc =>
      refine ⟨_, _, congrArg (Option.map _) (Arrays.predict_eq h.fits h.bits pc), h.predict pc, ?_⟩
      intro q hmem
      rcases List.mem_cons.mp hmem with rfl | hmem
      · rw [predict_phtIdx]
        exact h.fits.phtIndex_lt pc
      · exact hq q hmem
  | restore cp => exact ⟨_, _, congrArg (Option.map _) (Arrays.restore_eq h.fits cp), h.restore cp, hq⟩
  | replay pc ins taken =>
      exact ⟨_, _, congrArg (Option.map _) (Arrays.replay_eq h.fits h.bits pc ins taken), h.replay pc ins taken, hq⟩
  | update pc ins taken target phtIdx before =>
      obtain ⟨⟨q, hmem, rfl⟩, -⟩ := hc
      exact ⟨_, _, congrArg (Option.map _) (Arrays.update_eq h.fits pc ins taken target (hq q hmem) before),
        h.update pc ins taken target _ before, hq⟩

end Steps

section Run

variable {c₀ cfg : SimConfig} {histLen : Nat → Nat} {p : Predictor} {qs : List Pred}

/-- After every sequence of calls the predictor is right, and every index it hands out fits its
array. By induction on the calls. -/
theorem Calls.ok (hcfg : validateConfig c₀ = .ok cfg) (hbound : cfg.tageTables ≠ 0 → ringBound cfg ≤ 2 ^ 31)
    (h : Calls cfg histLen p qs) :
    PredictorOk (arraySizes cfg) p ∧ ∀ q ∈ qs, q.phtIdx < (arraySizes cfg).pht := by
  induction h with
  | construct hp =>
      rw [construct_eq hcfg hbound] at hp
      cases hp
      exact ⟨⟨fits_init hcfg hbound histLen, fun _ => Nat.zero_le 1, TablesOk.init cfg histLen⟩,
        fun q hq => nomatch hq⟩
  | call _ hknown hexec ih =>
      obtain ⟨p', out, h1, h2, h3⟩ := ih.1.exec ih.2 hknown
      rw [h1] at hexec
      cases hexec
      exact ⟨h2, h3⟩

/-- **The predictor's tables.** With an accepted configuration, whose TAGE ring is not larger than
`2 ^ 31`, the constructor answers, and after any sequence of calls at counters and checkpoints
that predictions returned, the contents of the tables are in range and every further call answers:
no index leaves its array and no shift reaches the operand's width. -/
theorem predictor_in_bounds (hcfg : validateConfig c₀ = .ok cfg)
    (hbound : cfg.tageTables ≠ 0 → ringBound cfg ≤ 2 ^ 31) (histLen : Nat → Nat) :
    (∃ p, construct cfg histLen = some p ∧ Calls cfg histLen p []) ∧
      ∀ p qs, Calls cfg histLen p qs →
        TablesOk p ∧ ∀ c, Known qs c →
          ∃ p' out, exec (arraySizes cfg) p c = some (p', out) ∧ Calls cfg histLen p' (out ++ qs) := by
  have hnew := construct_eq hcfg hbound histLen
  refine ⟨⟨_, hnew, .construct hnew⟩, ?_⟩
  intro p qs h
  obtain ⟨hok, hq⟩ := h.ok hcfg hbound
  refine ⟨hok.tables, fun c hc => ?_⟩
  obtain ⟨p', out, h1, -, -⟩ := hok.exec hq hc
  exact ⟨p', out, h1, h.call hc h1⟩

/-- Four TAGE tables: a prediction, and the training of the branch it was for. -/
theorem predictor_in_bounds_trained : ∃ p q, Calls tageConfig (fun _ => 4) p [q] ∧ TablesOk p := by
  obtain ⟨⟨p, -, h0⟩, hrun⟩ := predictor_in_bounds (show validateConfig tageConfig = .ok tageConfig by decide)
    (fun _ => by decide) (fun _ => 4)
  obtain ⟨p₁, out, h1, h2⟩ := (hrun p [] h0).2 (.predict 0x1000) trivial
  obtain ⟨q, rfl⟩ : ∃ q, out = [q] := by
    obtain ⟨r, -, hr⟩ := Option.map_eq_some_iff.mp h1
    exact ⟨r.2, (congrArg Prod.snd hr).symm⟩
  obtain ⟨p₂, out', h3, h4⟩ := (hrun p₁ [q] h2).2 (.update 0x1000 { op := .BEQ, rd := 0, rs1 := 1, rs2 := 2, imm := 8, raw := 0 }
    true 0x1008 q.phtIdx q.before) ⟨⟨q, List.mem_singleton_self q, rfl⟩, ⟨q, List.mem_singleton_self q, rfl⟩⟩
  obtain rfl : out' = [] := by
    obtain ⟨r, -, hr⟩ := Option.map_eq_some_iff.mp h3
    exact (congrArg Prod.snd hr).symm
  exact ⟨p₂, q, h4, (hrun p₂ [q] h4).1⟩

end Run

end Predictor

end RvO3
