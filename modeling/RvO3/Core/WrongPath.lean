import RvO3.Core.FoldedHistory

/-!
# Wrong-path predictions leave no trace on the next one

Until the next training, predictions and rewinds move the history and the return-address stack and
stamp BTB entries. A restore puts back what a prediction reads of them: the position or the GHR,
and the depth and top entry of the stack. The folds at the position are still those of the
checkpoint, because the pushes since have not gone round the ring. What is below the top of the
stack may have been overwritten, but the next prediction does not read it.
-/

set_option autoImplicit false

namespace RvO3

namespace Predictor

/-! ## What only training changes -/

/-- A BTB entry without its stamp. -/
def unstamped (b : BtbEntry) : BtbEntry := { b with lastUse := 0 }

/-- The parameters, the counters and the tags; of the BTB all but the stamps. -/
structure Trained where
  shape : Shape
  pht : Nat → Nat
  btb : Nat → BtbEntry
  tables : Nat → Nat → TageEntry
  useAltOnWeak : Int

/-- What training has made of the predictor, the stamps of the BTB left out. Predictions do not
change it. -/
def trained (p : Predictor) : Trained where
  shape := p.shape
  pht := p.pht
  btb := fun i => unstamped (p.btb i)
  tables := p.tables
  useAltOnWeak := p.useAltOnWeak

section Trained

variable {p q : Predictor}

theorem btbTouch_trained (p : Predictor) (i : Nat) : (p.btbTouch i).trained = p.trained := by
  have hbtb : (fun j => unstamped ((p.btbTouch i).btb j)) = fun j => unstamped (p.btb j) := by
    funext j
    show unstamped (Function.update p.btb i { p.btb i with lastUse := p.btbClock + 1 } j) = _
    rcases Decidable.eq_or_ne j i with rfl | hne
    · rw [Function.update_self]
      rfl
    · rw [Function.update_of_ne hne]
  unfold trained
  rw [hbtb]
  rfl

theorem pushHistory_trained (p : Predictor) (taken : Bool) : (p.pushHistory taken).trained = p.trained := by
  unfold pushHistory
  dsimp only
  split
  · rfl
  · rfl

theorem predict_trained (p : Predictor) (pc : Word) : (p.predict pc).1.trained = p.trained := by
  unfold predict
  split
  · rfl
  · next i _ =>
      have htouch := btbTouch_trained p i
      dsimp only
      split
      · exact (pushHistory_trained _ _).trans htouch
      · exact htouch
      · split
        · exact htouch
        · exact htouch
      · exact htouch

theorem restore_trained (p : Predictor) (cp : Checkpoint) : (p.restore cp).trained = p.trained := by
  unfold restore
  dsimp only
  split
  · split
    · rfl
    · rfl
  · split
    · rfl
    · rfl

theorem replay_trained (p : Predictor) (pc : Word) (ins : Instr) (taken : Bool) :
    (p.replay pc ins taken).trained = p.trained := by
  unfold replay
  split
  · exact pushHistory_trained p taken
  · split
    · rfl
    · rfl
  · split
    · rfl
    · rfl
  · rfl

/-- The fields of a BTB entry that a lookup reads. -/
theorem trained_btb (h : q.trained = p.trained) (i : Nat) : (q.btb i).valid = (p.btb i).valid ∧
    (q.btb i).kind = (p.btb i).kind ∧ (q.btb i).pc = (p.btb i).pc ∧ (q.btb i).target = (p.btb i).target := by
  have hentry : unstamped (q.btb i) = unstamped (p.btb i) := congrFun (congrArg Trained.btb h) i
  have hfields := hentry
  rw [unstamped, unstamped, BtbEntry.mk.injEq] at hfields
  exact ⟨hfields.1, hfields.2.1, hfields.2.2.1, hfields.2.2.2.1⟩

theorem btbLookup_congr (h : q.trained = p.trained) (pc : Word) : q.btbLookup pc = p.btbLookup pc := by
  have hways : q.btbWays = p.btbWays := congrArg (·.shape.btbWays) h
  have hsets : q.btbSets = p.btbSets := congrArg (·.shape.btbSets) h
  have hmatch : (fun i => (q.btb i).valid && (q.btb i).pc == pc) =
      fun i => (p.btb i).valid && (p.btb i).pc == pc := by
    funext i
    obtain ⟨hv, -, hpc, -⟩ := trained_btb h i
    rw [hv, hpc]
  unfold btbLookup btbBase
  rw [hways, hsets, hmatch]

end Trained

/-! ## What a prediction reads -/

section Reads

variable {p q : Predictor}

/-- The direction that the counters of the tables that hit give, longest history first. -/
def choose (base : Bool) (useAltOnWeak : Int) : List Int → Bool
  | [] => base
  | c :: cs =>
      let altPred := match cs with
        | c' :: _ => decide (c' ≥ 0)
        | [] => base
      let weak := decide (c = 0) || decide (c = -1)
      if weak && decide (useAltOnWeak ≥ 0) then altPred else decide (c ≥ 0)

/-- The counters of the tables that hit. -/
def hitCounters (p : Predictor) (l : Lookup) : List Int :=
  ((List.range p.nTables).reverse.filter fun i => (p.tables i (l.idx i)).tag == l.tag i).map
    fun i => (p.tables i (l.idx i)).ctr

theorem tageLookup_pred (p : Predictor) (pc : Word) (pos : Nat) : (p.tageLookup pc pos).pred =
    choose (decide (p.pht ((pc >>> 2).toNat &&& (p.phtSize - 1)) ≥ 2)) p.useAltOnWeak
      (p.hitCounters (p.tageLookup pc pos)) := by
  have hidx := funext (tageLookup_idx p pc pos)
  have htag := funext (tageLookup_tag p pc pos)
  unfold hitCounters
  rw [hidx, htag]
  unfold tageLookup
  dsimp only
  generalize (List.range p.nTables).reverse.filter _ = hits
  cases hits with
  | nil => rfl
  | cons i rest =>
      cases rest with
      | nil => rfl
      | cons j rest => rfl

/-- The direction at a position depends on the trained state and on the folds stored there. -/
theorem tageLookup_pred_congr {pos pos₀ : Nat} (h : q.trained = p.trained)
    (hx : ∀ x < 3 * p.nTables, q.folded (q.foldsAt pos + x) = p.folded (p.foldsAt pos₀ + x)) (pc : Word) :
    (q.tageLookup pc pos).pred = (p.tageLookup pc pos₀).pred := by
  have hn : q.nTables = p.nTables := congrArg (·.shape.nTables) h
  have htables : q.tables = p.tables := congrArg Trained.tables h
  have hpht : q.pht = p.pht := congrArg Trained.pht h
  have hsize : q.phtSize = p.phtSize := congrArg (·.shape.phtSize) h
  have halt : q.useAltOnWeak = p.useAltOnWeak := congrArg Trained.useAltOnWeak h
  have hlookup : ∀ i < p.nTables, (q.tageLookup pc pos).idx i = (p.tageLookup pc pos₀).idx i ∧
      (q.tageLookup pc pos).tag i = (p.tageLookup pc pos₀).tag i := by
    intro i hi
    refine tageLookup_congr (congrArg (·.shape.tableBits) h) (congrArg (·.shape.tagBits) h) (fun x hx3 => ?_) pc
    rw [Nat.add_assoc, Nat.add_assoc]
    exact hx (3 * i + x) (by omega)
  have hcounters : q.hitCounters (q.tageLookup pc pos) = p.hitCounters (p.tageLookup pc pos₀) := by
    unfold hitCounters
    rw [hn, htables]
    have hmem : ∀ i ∈ (List.range p.nTables).reverse, i < p.nTables := by
      intro i hi
      rwa [List.mem_reverse, List.mem_range] at hi
    rw [List.filter_congr (fun i hi => by rw [(hlookup i (hmem i hi)).1, (hlookup i (hmem i hi)).2])]
    refine List.map_congr_left (fun i hi => ?_)
    rw [(hlookup i (hmem i (List.mem_of_mem_filter hi))).1]
  rw [tageLookup_pred, tageLookup_pred, hcounters, hpht, hsize, halt]

/-- The parts of the speculative state that the next prediction reads. -/
structure SameReads (p q : Predictor) : Prop where
  trained : q.trained = p.trained
  ghr : p.nTables = 0 → q.ghr = p.ghr
  folds : p.nTables ≠ 0 → ∀ x < 3 * p.nTables,
    q.folded (q.foldsAt q.histPos + x) = p.folded (p.foldsAt p.histPos + x)
  rasN : q.rasN = p.rasN
  rasTop : p.rasN ≠ 0 → q.ras ((p.rasN - 1) % p.rasSize) = p.ras ((p.rasN - 1) % p.rasSize)

/-- What fetch takes from a prediction: the direction, the target and the index for training. -/
def answer (r : Pred) : Bool × Word × Nat := (r.taken, r.target, r.phtIdx)

theorem phtIndex_congr (h : SameReads p q) (pc : Word) : q.phtIndex pc = p.phtIndex pc := by
  have hn : q.nTables = p.nTables := congrArg (·.shape.nTables) h.trained
  have hsize : q.phtSize = p.phtSize := congrArg (·.shape.phtSize) h.trained
  unfold phtIndex
  rw [hn, hsize]
  rcases Decidable.eq_or_ne p.nTables 0 with h0 | h0
  · rw [if_neg (not_not_intro h0), if_neg (not_not_intro h0), h.ghr h0]
  · rw [if_pos h0, if_pos h0]

theorem predict_congr (h : SameReads p q) (pc : Word) :
    answer (q.predict pc).2 = answer (p.predict pc).2 := by
  have hn : q.nTables = p.nTables := congrArg (·.shape.nTables) h.trained
  have hpht : q.pht = p.pht := congrArg Trained.pht h.trained
  have hsize : q.rasSize = p.rasSize := congrArg (·.shape.rasSize) h.trained
  have hidx := phtIndex_congr h pc
  unfold predict
  rw [btbLookup_congr h.trained pc]
  cases p.btbLookup pc with
  | none => exact Prod.ext rfl (Prod.ext rfl hidx)
  | some i =>
      obtain ⟨-, hkind, -, htarget⟩ := trained_btb h.trained i
      dsimp only
      rw [hkind, htarget]
      cases (p.btb i).kind with
      | COND =>
          refine Prod.ext ?_ (Prod.ext rfl hidx)
          show (if q.nTables ≠ 0 then ((q.btbTouch i).tageLookup pc q.histPos).pred
              else decide (q.pht (q.phtIndex pc) ≥ 2)) =
            if p.nTables ≠ 0 then ((p.btbTouch i).tageLookup pc p.histPos).pred
              else decide (p.pht (p.phtIndex pc) ≥ 2)
          rw [hn, hpht, hidx]
          split
          · next h0 =>
              have htouch : (q.btbTouch i).trained = (p.btbTouch i).trained := by
                rw [btbTouch_trained, btbTouch_trained, h.trained]
              exact tageLookup_pred_congr htouch (h.folds h0) pc
          · rfl
      | CALL => exact Prod.ext rfl (Prod.ext rfl hidx)
      | UNCOND => exact Prod.ext rfl (Prod.ext rfl hidx)
      | RET =>
          show answer (if q.rasN > 0 then _ else _ : Predictor × Pred).2 =
            answer (if p.rasN > 0 then _ else _ : Predictor × Pred).2
          rw [h.rasN]
          split
          · next hpos =>
              refine Prod.ext rfl (Prod.ext ?_ hidx)
              show q.ras ((q.rasN - 1) % q.rasSize) = p.ras ((p.rasN - 1) % p.rasSize)
              rw [h.rasN, hsize]
              exact h.rasTop (Nat.pos_iff_ne_zero.mp hpos)
          · exact Prod.ext rfl (Prod.ext rfl hidx)

end Reads

/-! ## The wrong path -/

/-- The history bits that a prediction pushes: one where the BTB has a branch. -/
def predictPushes (p : Predictor) (pc : Word) : Nat :=
  match p.btbLookup pc with
  | none => 0
  | some i => if (p.btb i).kind = .COND then 1 else 0

/-- The calls after the state `p₀`: predictions anywhere, rewinds to checkpoints taken since, and
replays; with the checkpoints taken and the number of history bits pushed. Nothing is trained. -/
inductive WrongPath (p₀ : Predictor) : Predictor → List Checkpoint → Nat → Prop
  | start : WrongPath p₀ p₀ [p₀.checkpoint] 0
  | predict {q : Predictor} {cps : List Checkpoint} {n : Nat} (pc : Word) : WrongPath p₀ q cps n →
      WrongPath p₀ (q.predict pc).1 ((q.predict pc).2.before :: cps) (n + q.predictPushes pc)
  | restore {q : Predictor} {cps : List Checkpoint} {n : Nat} (cp : Checkpoint) : WrongPath p₀ q cps n →
      cp ∈ cps → WrongPath p₀ (q.restore cp) cps n
  | replay {q : Predictor} {cps : List Checkpoint} {n : Nat} (pc : Word) (ins : Instr) (taken : Bool) :
      WrongPath p₀ q cps n →
      WrongPath p₀ (q.replay pc ins taken) cps (n + if kindOf ins = .COND then 1 else 0)

/-- A ring of `2 ^ k` slots with room for `N` pushes past any position. -/
structure RingRoom (p : Predictor) (k N : Nat) : Prop where
  le : k ≤ 32
  mask : p.ringMask = 2 ^ k - 1
  room : N < 2 ^ k

/-- What the wrong path keeps: the position, and every position it can be rewound to, is at most
the pushes so far past that of `p₀`; the folds there are untouched. -/
structure PathOk (p₀ : Predictor) (k : Nat) (q : Predictor) (cps : List Checkpoint) (n : Nat) : Prop where
  trained : q.trained = p₀.trained
  pos : ∃ i ≤ n, q.histPos % 2 ^ k = (p₀.histPos + i) % 2 ^ k
  cps : ∀ cp ∈ cps, ∃ i ≤ n, cp.hist % 2 ^ k = (p₀.histPos + i) % 2 ^ k
  folds : ∀ x < 3 * p₀.nTables, q.folded (p₀.foldsAt p₀.histPos + x) = p₀.folded (p₀.foldsAt p₀.histPos + x)

section Path

variable {p₀ q : Predictor} {cps : List Checkpoint} {k n N : Nat}

theorem PathOk.mono (hok : PathOk p₀ k q cps n) {m : Nat} (hm : n ≤ m) : PathOk p₀ k q cps m where
  trained := hok.trained
  pos := by
    obtain ⟨i, hi, hpos⟩ := hok.pos
    exact ⟨i, Nat.le_trans hi hm, hpos⟩
  cps := fun cp hcp => by
    obtain ⟨i, hi, hpos⟩ := hok.cps cp hcp
    exact ⟨i, Nat.le_trans hi hm, hpos⟩
  folds := hok.folds

/-- A call that leaves the history alone. -/
theorem PathOk.quiet (hok : PathOk p₀ k q cps n) {q' : Predictor} (ht : q'.trained = p₀.trained)
    (hh : q'.history = q.history) : PathOk p₀ k q' cps n where
  trained := ht
  pos := by
    have hpos : q'.histPos = q.histPos := congrArg History.histPos hh
    rw [hpos]
    exact hok.pos
  cps := hok.cps
  folds := fun x hx => (congrFun (congrArg History.folded hh) _).trans (hok.folds x hx)

theorem foldsAt_eq_mod {p : Predictor} (hmask : p.ringMask = 2 ^ k - 1) (pos : Nat) :
    p.foldsAt pos = pos % 2 ^ k * p.nTables * 3 := by
  rw [foldsAt, hmask, Nat.and_two_pow_sub_one_eq_mod]

/-- A push writes the folds of a position past that of `p₀`, by less than the ring. -/
theorem PathOk.push (hr : RingRoom p₀ k N) (ht : p₀.nTables ≠ 0) (hok : PathOk p₀ k q cps n) (hn : n < N)
    (taken : Bool) : PathOk p₀ k (q.pushHistory taken) cps (n + 1) := by
  have hnt : q.nTables = p₀.nTables := congrArg (·.shape.nTables) hok.trained
  have hmask : q.ringMask = 2 ^ k - 1 := (congrArg (·.shape.ringMask) hok.trained).trans hr.mask
  have hroom := hr.room
  obtain ⟨i, hi, hpos⟩ := hok.pos
  have hnext : (q.histPos + 1) % 2 ^ 32 % 2 ^ k = (p₀.histPos + (i + 1)) % 2 ^ k := by
    rw [Nat.mod_mod_of_dvd _ (Nat.pow_dvd_pow 2 hr.le), Nat.add_mod, hpos, ← Nat.add_mod, Nat.add_assoc]
  have hpush : (q.pushHistory taken).histPos = (q.histPos + 1) % 2 ^ 32 ∧ ∃ bit histBits,
      (q.pushHistory taken).folded = q.pushFolds bit histBits ((q.histPos + 1) % 2 ^ 32) := by
    unfold pushHistory
    rw [if_neg (by rw [hnt]; exact ht)]
    exact ⟨rfl, _, _, rfl⟩
  obtain ⟨hpos', bit, histBits, hfolded⟩ := hpush
  refine ⟨(pushHistory_trained q taken).trans hok.trained, ?_, (hok.mono (Nat.le_succ n)).cps, ?_⟩
  · rw [hpos']
    exact ⟨i + 1, Nat.succ_le_succ hi, hnext⟩
  · intro x hx
    have hold := foldsAt_eq_mod hmask q.histPos
    have hnow := foldsAt_eq_mod hmask ((q.histPos + 1) % 2 ^ 32)
    have hbase := foldsAt_eq_mod hr.mask p₀.histPos
    rw [hpos, hnt] at hold
    rw [hnext, hnt] at hnow
    -- three slots: the one kept, the one read and the one written
    have hfar := blocks_apart (n := p₀.nTables)
      (mod_ne_of_lt (r := 2 ^ k) (p := p₀.histPos) (Nat.succ_pos i) (by omega)).symm
    have hstep := mod_ne_of_lt (r := 2 ^ k) (p := p₀.histPos + i) Nat.one_pos (by omega)
    rw [Nat.add_assoc] at hstep
    have hnear := blocks_apart (n := p₀.nTables) hstep.symm
    rw [← hbase, ← hnow] at hfar
    rw [← hold, ← hnow] at hnear
    have hspec := pushFolds_spec (p := q) bit histBits ((q.histPos + 1) % 2 ^ 32) (by rw [hnt]; exact hnear)
    rw [hfolded, hspec.1 _ (by rw [hnt]; omega)]
    exact hok.folds x hx

theorem checkpoint_hist (ht : q.nTables ≠ 0) : q.checkpoint.hist = q.histPos := by
  unfold checkpoint
  rw [if_pos ht]

theorem predict_before (p : Predictor) (pc : Word) : (p.predict pc).2.before = p.checkpoint := by
  unfold predict
  split
  · rfl
  · dsimp only
    split
    · rfl
    · rfl
    · split
      · rfl
      · rfl
    · rfl

/-- The pushes of a prediction are counted. -/
theorem predict_pushes (p : Predictor) (pc : Word) :
    ((p.predict pc).1.history = p.history ∧ p.predictPushes pc = 0) ∨
    ∃ p' taken, p'.history = p.history ∧ p'.trained = p.trained ∧
      (p.predict pc).1 = pushHistory p' taken ∧ p.predictPushes pc = 1 := by
  unfold predict predictPushes
  cases p.btbLookup pc with
  | none => exact .inl ⟨rfl, rfl⟩
  | some i =>
      dsimp only
      cases (p.btb i).kind with
      | COND => exact .inr ⟨p.btbTouch i, _, rfl, btbTouch_trained p i, rfl, rfl⟩
      | CALL => exact .inl ⟨rfl, rfl⟩
      | UNCOND => exact .inl ⟨rfl, rfl⟩
      | RET =>
          dsimp only
          split
          · exact .inl ⟨rfl, rfl⟩
          · exact .inl ⟨rfl, rfl⟩

theorem WrongPath.trained (h : WrongPath p₀ q cps n) : q.trained = p₀.trained := by
  induction h with
  | start => rfl
  | predict pc _ ih => exact (predict_trained _ pc).trans ih
  | restore cp _ _ ih => exact (restore_trained _ cp).trans ih
  | replay pc ins taken _ ih => exact (replay_trained _ pc ins taken).trans ih

/-- With TAGE on, the wrong path stays in the ring. -/
theorem WrongPath.ok (hr : RingRoom p₀ k N) (ht : p₀.nTables ≠ 0) (h : WrongPath p₀ q cps n) (hn : n ≤ N) :
    PathOk p₀ k q cps n := by
  induction h with
  | start =>
      refine ⟨rfl, ⟨0, Nat.le_refl _, rfl⟩, fun cp hcp => ?_, fun x _ => rfl⟩
      rw [List.mem_singleton.mp hcp, checkpoint_hist ht]
      exact ⟨0, Nat.le_refl _, rfl⟩
  | @predict q cps n pc hpath ih =>
      have hok := ih (Nat.le_trans (Nat.le_add_right _ _) hn)
      have hnt : q.nTables = p₀.nTables := congrArg (·.shape.nTables) hok.trained
      -- the checkpoint taken is at the position before the push
      have hcps : ∀ cp ∈ (q.predict pc).2.before :: cps,
          ∃ i ≤ n + q.predictPushes pc, cp.hist % 2 ^ k = (p₀.histPos + i) % 2 ^ k := by
        intro cp hcp
        rcases List.mem_cons.mp hcp with rfl | hmem
        · rw [predict_before, checkpoint_hist (by rw [hnt]; exact ht)]
          exact (hok.mono (Nat.le_add_right _ _)).pos
        · exact (hok.mono (Nat.le_add_right _ _)).cps cp hmem
      rcases predict_pushes q pc with ⟨hquiet, -⟩ | ⟨q', taken, hh, hq', heq, hone⟩
      · have hnew := hok.quiet ((predict_trained q pc).trans hok.trained) hquiet
        exact { hnew.mono (Nat.le_add_right _ _) with cps := hcps }
      · have hq : PathOk p₀ k q' cps n := hok.quiet (hq'.trans hok.trained) hh
        have hnew := hq.push hr ht (by omega) taken
        rw [← heq, ← hone] at hnew
        exact { hnew with cps := hcps }
  | @restore q cps n cp hpath hmem ih =>
      have hok := ih hn
      have hnt : q.nTables = p₀.nTables := congrArg (·.shape.nTables) hok.trained
      have hh := restore_history (p := q) (by rw [hnt]; exact ht) cp
      have hpos : (q.restore cp).histPos = cp.hist := congrArg History.histPos hh
      refine ⟨(restore_trained q cp).trans hok.trained, ?_, hok.cps, fun x hx => ?_⟩
      · rw [hpos]
        exact hok.cps cp hmem
      · exact (congrFun (congrArg History.folded hh) _).trans (hok.folds x hx)
  | @replay q cps n pc ins taken hpath ih =>
      have hok := ih (Nat.le_trans (Nat.le_add_right _ _) hn)
      have htrained := (replay_trained q pc ins taken).trans hok.trained
      have hhist := replay_history q pc ins taken
      by_cases hcond : kindOf ins = .COND
      · rw [if_pos hcond] at hn hhist ⊢
        rw [hhist]
        exact hok.push hr ht hn taken
      · rw [if_neg hcond] at hn hhist ⊢
        exact hok.quiet htrained hhist

/-! ## The rewind -/

theorem restore_ras (hrep : q.rasRepair = true) (cp : Checkpoint) : (q.restore cp).rasN = cp.rasN ∧
    (q.restore cp).ras =
      if cp.rasN ≠ 0 then Function.update q.ras ((cp.rasN - 1) % q.rasSize) cp.rasTop else q.ras := by
  unfold restore
  by_cases ht : q.nTables ≠ 0
  · rw [if_pos ht]
    dsimp only
    rw [if_pos hrep]
    exact ⟨rfl, rfl⟩
  · rw [if_neg ht]
    dsimp only
    rw [if_pos hrep]
    exact ⟨rfl, rfl⟩

theorem restore_ghr (ht : q.nTables = 0) (cp : Checkpoint) : (q.restore cp).ghr = cp.hist := by
  unfold restore
  rw [if_neg (not_not_intro ht)]
  dsimp only
  split
  · rfl
  · rfl

/-- Rewound to the checkpoint of `p₀`, a predictor reads what `p₀` reads. -/
theorem restore_sameReads (hrepair : p₀.rasRepair = true) (htrained : q.trained = p₀.trained)
    (hfolds : p₀.nTables ≠ 0 → ∀ x < 3 * p₀.nTables,
      q.folded (p₀.foldsAt p₀.histPos + x) = p₀.folded (p₀.foldsAt p₀.histPos + x)) :
    SameReads p₀ (q.restore p₀.checkpoint) := by
  have hnt : q.nTables = p₀.nTables := congrArg (·.shape.nTables) htrained
  have hrep : q.rasRepair = true := (congrArg (·.shape.rasRepair) htrained).trans hrepair
  have hsize : q.rasSize = p₀.rasSize := congrArg (·.shape.rasSize) htrained
  have hmask : q.ringMask = p₀.ringMask := congrArg (·.shape.ringMask) htrained
  obtain ⟨hrasN, hras⟩ := restore_ras hrep p₀.checkpoint
  refine ⟨(restore_trained q _).trans htrained, fun h0 => ?_, fun h0 x hx => ?_, hrasN, fun h0 => ?_⟩
  · rw [restore_ghr (hnt.trans h0)]
    exact if_neg (not_not_intro h0)
  · have hh := restore_history (p := q) (by rw [hnt]; exact h0) p₀.checkpoint
    have hpos : (q.restore p₀.checkpoint).histPos = p₀.histPos :=
      (congrArg History.histPos hh).trans (checkpoint_hist h0)
    have hat : (q.restore p₀.checkpoint).foldsAt p₀.histPos = p₀.foldsAt p₀.histPos := by
      have hm : (q.restore p₀.checkpoint).ringMask = q.ringMask := congrArg (·.shape.ringMask) hh
      have hn : (q.restore p₀.checkpoint).nTables = q.nTables := congrArg (·.shape.nTables) hh
      rw [foldsAt, foldsAt, hm, hn, hmask, hnt]
    rw [hpos, hat]
    exact (congrFun (congrArg History.folded hh) _).trans (hfolds h0 x hx)
  · -- the top entry is written back; what is below it need not be the same
    have hn : p₀.checkpoint.rasN ≠ 0 := h0
    rw [hras, if_pos hn, hsize]
    exact (Function.update_self _ _ _).trans (if_pos h0)

/-! ## The parameters of a configuration -/

/-- The parameters are those that the constructor sets for `cfg`. -/
def OfConfig (cfg : SimConfig) (histLen : Nat → Nat) (p : Predictor) : Prop :=
  p.shape = (init cfg histLen).shape

section Parameters

variable {p : Predictor} {cfg : SimConfig} {histLen : Nat → Nat}

theorem ofConfig_init : OfConfig cfg histLen (init cfg histLen) := rfl

theorem OfConfig.update (h : OfConfig cfg histLen p) (pc : Word) (ins : Instr) (taken : Bool)
    (target : Word) (phtIdx : Nat) (before : Checkpoint) :
    OfConfig cfg histLen (p.update pc ins taken target phtIdx before) :=
  (congrArg History.shape (update_history p pc ins taken target phtIdx before)).trans h

end Parameters

/-- Wrong-path predictions, rewound, leave no trace on the next prediction: what follows a flush is
predicted as if the wrong path had not been fetched. The path may be as long as the instructions in
flight, and its replays and flushes are rewound with it. -/
theorem no_trace_on_prediction {cfg : SimConfig} (hrepair : cfg.rasRepair = true) (hbound : cfg.tageTables ≠ 0 → ringBound cfg ≤ 2 ^ 31)
    {histLen : Nat → Nat} (hof : OfConfig cfg histLen p₀) (hpath : WrongPath p₀ q cps n)
    (hn : n ≤ inFlight cfg) (pc : Word) :
    answer ((q.restore p₀.checkpoint).predict pc).2 = answer (p₀.predict pc).2 := by
  have hnt : p₀.nTables = cfg.tageTables := congrArg Shape.nTables hof
  have hrep : p₀.rasRepair = true := (congrArg Shape.rasRepair hof).trans hrepair
  refine predict_congr (restore_sameReads hrep hpath.trained fun ht => ?_) pc
  have ht' : cfg.tageTables ≠ 0 := hnt ▸ ht
  obtain ⟨m, hm, -, -, hfits, hmask⟩ := exists_ring ht' (hbound ht')
  have hN : inFlight cfg = cfg.robSize + cfg.fetchQSize := rfl
  unfold ringBound at hfits
  have hroom : RingRoom p₀ (6 + m) (inFlight cfg) :=
    ⟨by omega, (congrArg Shape.ringMask hof).trans (hmask histLen), by omega⟩
  exact (hpath.ok hroom ht hn).folds

/-- TAGE with a repaired stack, and a BTB that knows one branch. -/
def repairConfig : SimConfig := { tageConfig with rasRepair := true }

/-- A predictor with one branch in its BTB. -/
def oneBranch : Predictor :=
  (init repairConfig fun _ => 4).update 0x100 { op := .BEQ } true 0x200 0 {}

/-- A prediction of that branch and a replayed call, both rewound. -/
theorem no_trace_on_prediction_branch :
    answer ((((oneBranch.predict 0x100).1.replay 0x200 { op := .JAL, rd := 1 } true).restore
      oneBranch.checkpoint).predict 0x100).2 = answer (oneBranch.predict 0x100).2 :=
  no_trace_on_prediction (by decide) (fun _ => by decide) (ofConfig_init.update _ _ _ _ _ _)
    (WrongPath.replay 0x200 { op := .JAL, rd := 1 } true (WrongPath.predict 0x100 WrongPath.start))
    (by decide +kernel) 0x100

end Path

end Predictor

end RvO3
