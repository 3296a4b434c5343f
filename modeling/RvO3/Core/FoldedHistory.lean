import RvO3.Core.HistoryRing
import RvO3.Sim.Validate
import RvO3.Lib.FoldedHistory
import Mathlib.Tactic.Ring

/-!
# TAGE's folded histories are exact

Every ring position keeps the folds of the history as it was there. A push computes the new
folds from those of the position before, with the bit that leaves read from the ring; a restore
goes back to a position and its folds. While no in-flight instruction is more pushes behind than
the ROB and the fetch queue hold, no slot that is still needed has been used again, and the folds
of every in-flight position are those of the current path, computed from scratch.
-/

set_option autoImplicit false

namespace RvO3

namespace Predictor

/-! ## Slots by age -/

/-- The ring slot of the bit `j` pushes before position `pos`. -/
def slotBack (k pos j : Nat) : Nat := (pos + (2 ^ 32 - j)) % 2 ^ k

section Slots

variable {k pos j d : Nat}

theorem slotBack_zero (hk : k ≤ 32) : slotBack k pos 0 = pos % 2 ^ k := by
  rw [slotBack, Nat.sub_zero, Nat.add_mod, Nat.mod_eq_zero_of_dvd (Nat.pow_dvd_pow 2 hk), Nat.add_zero,
    Nat.mod_mod]

theorem slotBack_succ (hj : j < 2 ^ 32) : slotBack k (pos + 1) (j + 1) = slotBack k pos j := by
  unfold slotBack
  congr 1
  omega

/-- Going back from an older position is going back further. -/
theorem slotBack_sub (hd : d ≤ pos) (hj : d + j ≤ 2 ^ 32) :
    slotBack k (pos - d) j = slotBack k pos (d + j) := by
  unfold slotBack
  congr 1
  omega

/-- A position less than a whole ring back is not the present one. -/
theorem slotBack_ne (hk : k ≤ 32) (hj : 0 < j) (hlt : j < 2 ^ k) :
    slotBack k pos j ≠ pos % 2 ^ k := by
  have hle : 2 ^ k ≤ 2 ^ 32 := Nat.pow_le_pow_right (by decide) hk
  have hne := mod_ne_of_lt (r := 2 ^ k) (p := pos + (2 ^ 32 - j)) hj hlt
  have hback : pos + (2 ^ 32 - j) + j = pos + 2 ^ 32 := by omega
  rw [hback] at hne
  have hwrap : (pos + 2 ^ 32) % 2 ^ k = pos % 2 ^ k := by
    rw [Nat.add_mod, Nat.mod_eq_zero_of_dvd (Nat.pow_dvd_pow 2 hk), Nat.add_zero, Nat.mod_mod]
  rw [hwrap] at hne
  exact hne.symm

/-- The slot of the bit that leaves, as the source computes it. -/
theorem outSlot_eq (hk : k ≤ 32) (hj : j ≤ 2 ^ 32) :
    (pos % 2 ^ 32 + 2 ^ 32 - j) % 2 ^ 32 &&& (2 ^ k - 1) = slotBack k pos j := by
  rw [slot_eq_mod hk, Nat.add_sub_assoc hj, slotBack, Nat.add_mod, Nat.mod_mod_of_dvd _ (Nat.pow_dvd_pow 2 hk),
    ← Nat.add_mod]

end Slots

/-! ## What a push does to the stored folds -/

variable {p : Predictor} {k : Nat}

theorem foldsAt_eq (hmask : p.ringMask = 2 ^ k - 1) (hk : k ≤ 32) (pos : Nat) :
    p.foldsAt (pos % 2 ^ 32) = pos % 2 ^ k * p.nTables * 3 := by
  rw [foldsAt, hmask, slot_eq_mod hk]

/-- The folds of two slots do not overlap. -/
theorem blocks_apart {s s' n : Nat} (h : s ≠ s') : s * n * 3 + 3 * n ≤ s' * n * 3 ∨
    s' * n * 3 + 3 * n ≤ s * n * 3 := by
  have hstep : ∀ {a b : Nat}, a < b → a * n * 3 + 3 * n ≤ b * n * 3 := by
    intro a b hab
    calc a * n * 3 + 3 * n = (a + 1) * n * 3 := by ring
      _ ≤ b * n * 3 := Nat.mul_le_mul_right _ (Nat.mul_le_mul_right _ hab)
  rcases Nat.lt_or_gt_of_ne h with hlt | hlt
  · exact .inl (hstep hlt)
  · exact .inr (hstep hlt)

/-- The bit that leaves the history of table `i`. -/
def outBit (p : Predictor) (histBits : Nat → Nat) (pos i : Nat) : Nat :=
  histBits ((pos + 2 ^ 32 - p.histLen i) % 2 ^ 32 &&& p.ringMask)

/-- The three folds of table `i` in the block at `base` after one bit more. -/
structure Pushed (p : Predictor) (bit out i : Nat) (folded folded' : Nat → Nat) (old now : Nat) :
    Prop where
  table : folded' (now + 3 * i) = fold (folded (old + 3 * i)) bit out (p.histLen i) p.tableBits
  tag : folded' (now + 3 * i + 1) = fold (folded (old + 3 * i + 1)) bit out (p.histLen i) p.tagBits
  tag' : folded' (now + 3 * i + 2) =
    fold (folded (old + 3 * i + 2)) bit out (p.histLen i) (p.tagBits - 1)

/-- The body of the push's loop, for table `i`. -/
def foldTable (p : Predictor) (bit : Nat) (histBits : Nat → Nat) (pos old now : Nat)
    (folded : Nat → Nat) (i : Nat) : Nat → Nat :=
  let folded := Function.update folded (now + 3 * i)
    (fold (folded (old + 3 * i)) bit (p.outBit histBits pos i) (p.histLen i) p.tableBits)
  let folded := Function.update folded (now + 3 * i + 1)
    (fold (folded (old + 3 * i + 1)) bit (p.outBit histBits pos i) (p.histLen i) p.tagBits)
  Function.update folded (now + 3 * i + 2)
    (fold (folded (old + 3 * i + 2)) bit (p.outBit histBits pos i) (p.histLen i) (p.tagBits - 1))

theorem pushFolds_eq (bit : Nat) (histBits : Nat → Nat) (pos : Nat) :
    p.pushFolds bit histBits pos = (List.range p.nTables).foldl
      (p.foldTable bit histBits pos (p.foldsAt p.histPos) (p.foldsAt pos)) p.folded := rfl

section Table

variable {bit : Nat} {histBits : Nat → Nat} {pos old now : Nat} {folded : Nat → Nat} {i : Nat}

/-- The folds of one table are all that its update writes. -/
theorem foldTable_frame {x : Nat} (hx : x < now + 3 * i ∨ now + 3 * i + 3 ≤ x) :
    p.foldTable bit histBits pos old now folded i x = folded x := by
  unfold foldTable
  rw [Function.update_of_ne (by omega), Function.update_of_ne (by omega),
    Function.update_of_ne (by omega)]

/-- The folds of a table after a push, when the old and the new row lie apart. -/
theorem foldTable_pushed (folded : Nat → Nat) (hapart : old + 3 * i + 3 ≤ now ∨ now + 3 * i + 3 ≤ old) :
    Pushed p bit (p.outBit histBits pos i) i folded
      (p.foldTable bit histBits pos old now folded i) old now := by
  unfold foldTable
  constructor
  · rw [Function.update_of_ne (by omega), Function.update_of_ne (by omega), Function.update_self]
  · rw [Function.update_of_ne (by omega), Function.update_self, Function.update_of_ne (by omega)]
  · rw [Function.update_self, Function.update_of_ne (by omega), Function.update_of_ne (by omega)]

/-- The loop over the first `n` tables. -/
theorem foldTables_spec (n : Nat) (hapart : old + 3 * n ≤ now ∨ now + 3 * n ≤ old) :
    (∀ x, (x < now ∨ now + 3 * n ≤ x) →
      (List.range n).foldl (p.foldTable bit histBits pos old now) folded x = folded x) ∧
    ∀ i < n, Pushed p bit (p.outBit histBits pos i) i folded
      ((List.range n).foldl (p.foldTable bit histBits pos old now) folded) old now := by
  induction n with
  | zero => exact ⟨fun x _ => rfl, fun i hi => absurd hi (Nat.not_lt_zero i)⟩
  | succ n ih =>
      obtain ⟨hframe, htables⟩ := ih (by omega)
      rw [List.range_succ, List.foldl_append]
      refine ⟨fun x hx => ?_, fun i hi => ?_⟩
      · exact (foldTable_frame (by omega)).trans (hframe x (by omega))
      · rcases Nat.lt_succ_iff_lt_or_eq.mp hi with hlt | rfl
        · have h := htables i hlt
          exact ⟨(foldTable_frame (by omega)).trans h.table, (foldTable_frame (by omega)).trans h.tag,
            (foldTable_frame (by omega)).trans h.tag'⟩
        · -- the block read was not written by the tables before
          have hi : old + 3 * i + 3 ≤ now ∨ now + 3 * i + 3 ≤ old := by omega
          have h : Pushed p bit (p.outBit histBits pos i) i _ _ old now :=
            foldTable_pushed ((List.range i).foldl (p.foldTable bit histBits pos old now) folded) hi
          refine ⟨h.table.trans ?_, h.tag.trans ?_, h.tag'.trans ?_⟩ <;> rw [hframe _ (by omega)]

end Table

/-- A push fills the block of its position from the block before it, and touches no other. -/
theorem pushFolds_spec (bit : Nat) (histBits : Nat → Nat) (pos : Nat)
    (hapart : p.foldsAt p.histPos + 3 * p.nTables ≤ p.foldsAt pos ∨
      p.foldsAt pos + 3 * p.nTables ≤ p.foldsAt p.histPos) :
    (∀ x, (x < p.foldsAt pos ∨ p.foldsAt pos + 3 * p.nTables ≤ x) →
      p.pushFolds bit histBits pos x = p.folded x) ∧
    ∀ i < p.nTables, Pushed p bit (p.outBit histBits pos i) i p.folded
      (p.pushFolds bit histBits pos) (p.foldsAt p.histPos) (p.foldsAt pos) := by
  rw [pushFolds_eq]
  exact foldTables_spec p.nTables hapart

/-! ## Runs of pushes and restores -/

/-- The pushes that can be between an in-flight instruction and the newest position. -/
def inFlight (cfg : SimConfig) : Nat := cfg.robSize + cfg.fetchQSize

/-- The parameters that the constructor sets. -/
structure Shape where
  rasRepair : Bool
  phtSize : Nat
  ghrMask : Nat
  btbWays : Nat
  btbSets : Nat
  rasSize : Nat
  nTables : Nat
  tableBits : Nat
  tagBits : Nat
  histLen : Nat → Nat
  ringMask : Nat

/-- The part that the constructor sets and nothing changes. -/
def shape (p : Predictor) : Shape where
  rasRepair := p.rasRepair
  phtSize := p.phtSize
  ghrMask := p.ghrMask
  btbWays := p.btbWays
  btbSets := p.btbSets
  rasSize := p.rasSize
  nTables := p.nTables
  tableBits := p.tableBits
  tagBits := p.tagBits
  histLen := p.histLen
  ringMask := p.ringMask

/-- The history and the parameters it is kept with. -/
structure History where
  shape : Shape
  histPos : Nat
  histBits : Nat → Nat
  folded : Nat → Nat

/-- The history ring with its folds. Only a push and a rewind change it. -/
def history (p : Predictor) : History where
  shape := p.shape
  histPos := p.histPos
  histBits := p.histBits
  folded := p.folded

/-- A predictor after pushes and restores, with the outcomes on the current path, newest first,
and the position of the oldest checkpoint in flight. Lookups and training may come between. -/
inductive HistRun (cfg : SimConfig) (histLen : Nat → Nat) : Predictor → List Bool → Nat → Prop
  | init : HistRun cfg histLen (init cfg histLen) [] 0
  | push {p : Predictor} {h : List Bool} {o : Nat} (taken : Bool) :
      HistRun cfg histLen p h o → h.length < o + inFlight cfg →
      HistRun cfg histLen (p.pushHistory taken) (taken :: h) o
  | restore {p : Predictor} {h : List Bool} {o : Nat} (cp : Checkpoint) (d : Nat) :
      HistRun cfg histLen p h o → o + d ≤ h.length → cp.hist = (h.length - d) % 2 ^ 32 →
      HistRun cfg histLen (p.restore cp) (h.drop d) o
  | retire {p : Predictor} {h : List Bool} {o : Nat} (o' : Nat) :
      HistRun cfg histLen p h o → o ≤ o' → o' ≤ h.length → HistRun cfg histLen p h o'
  | other {p p' : Predictor} {h : List Bool} {o : Nat} :
      HistRun cfg histLen p h o → p'.history = p.history → HistRun cfg histLen p' h o

/-- The three folds of table `i` stored at `pos` are those of `h`, computed from scratch. -/
structure FoldsExact (cfg : SimConfig) (histLen : Nat → Nat) (p : Predictor) (pos : Nat)
    (h : List Bool) (i : Nat) : Prop where
  table : p.folded (p.foldsAt pos + 3 * i) = foldFresh h cfg.tageTableBits (histLen i)
  tag : p.folded (p.foldsAt pos + 3 * i + 1) = foldFresh h cfg.tageTagBits (histLen i)
  tag' : p.folded (p.foldsAt pos + 3 * i + 2) = foldFresh h (cfg.tageTagBits - 1) (histLen i)

/-- What every run keeps. A slot is good until a position a whole ring later can be in flight. -/
structure HistOk (cfg : SimConfig) (histLen : Nat → Nat) (k : Nat) (p : Predictor) (h : List Bool)
    (o : Nat) : Prop where
  nTables : p.nTables = cfg.tageTables
  tableBits : p.tableBits = cfg.tageTableBits
  tagBits : p.tagBits = cfg.tageTagBits
  lens : p.histLen = histLen
  mask : p.ringMask = 2 ^ k - 1
  pos : p.histPos = h.length % 2 ^ 32
  oldest : o ≤ h.length
  newest : h.length ≤ o + inFlight cfg
  bits : ∀ j, j + (o + inFlight cfg) < h.length + 2 ^ k →
    p.histBits (slotBack k h.length j) = histBit h j
  folds : ∀ d, o + d ≤ h.length → ∀ i < cfg.tageTables,
    FoldsExact cfg histLen p ((h.length - d) % 2 ^ 32) (h.drop d) i

section Run

variable {cfg : SimConfig} {histLen : Nat → Nat} {h : List Bool} {o : Nat}

/-- The ring holds the longest history and everything in flight. -/
structure RingHolds (cfg : SimConfig) (histLen : Nat → Nat) (k : Nat) : Prop where
  ring : k ≤ 31
  bits : 3 ≤ cfg.tageTableBits ∧ cfg.tageTableBits ≤ 16 ∧ 3 ≤ cfg.tageTagBits ∧ cfg.tageTagBits ≤ 16
  tables : cfg.tageTables ≠ 0
  mask : ∀ histLen, (init cfg histLen).ringMask = 2 ^ k - 1
  lens : ∀ i < cfg.tageTables, 1 ≤ histLen i ∧ histLen i + inFlight cfg < 2 ^ k

/-- One fold shifts the newest bit in and the oldest out, modulo the width. -/
theorem fold_eq_wrapTop {comp inBit out n width : Nat} (hw : width ≤ 16) :
    fold comp inBit out n width = wrapTop width ((comp <<< 1) ^^^ inBit ^^^ (out <<< (n % width))) := by
  have hle : 2 ^ width ≤ 2 ^ 16 := Nat.pow_le_pow_right (by decide) hw
  exact Nat.mod_eq_of_lt (Nat.lt_of_lt_of_le (wrapTop_lt _) hle)

/-- One push brings the fold of a history to that of the longer one. -/
theorem fold_push {b : Bool} {n width : Nat} (hn : 1 ≤ n) (hw : 1 ≤ width) (hle : width ≤ 16) :
    fold (foldFresh h width n) b.toNat (histBit h (n - 1)) n width = foldFresh (b :: h) width n := by
  obtain ⟨m, rfl⟩ : ∃ m, n = m + 1 := ⟨n - 1, by omega⟩
  rw [fold_eq_wrapTop hle, Nat.add_sub_cancel, foldFresh_push h b hw m]

theorem HistOk.init (hr : RingHolds cfg histLen k) : HistOk cfg histLen k (init cfg histLen) [] 0 where
  nTables := rfl
  tableBits := rfl
  tagBits := rfl
  lens := rfl
  mask := hr.mask histLen
  pos := rfl
  oldest := Nat.le_refl _
  newest := Nat.zero_le _
  bits := fun _ _ => rfl
  folds := fun d _ i _ => by
    rw [List.drop_nil]
    exact ⟨(foldFresh_nil _ _).symm, (foldFresh_nil _ _).symm, (foldFresh_nil _ _).symm⟩

/-- Outcomes that retire make room in the ring; nothing else changes. -/
theorem HistOk.retire (hok : HistOk cfg histLen k p h o) {o' : Nat} (ho : o ≤ o') (hle : o' ≤ h.length) :
    HistOk cfg histLen k p h o' :=
  { hok with
    oldest := hle
    newest := Nat.le_trans hok.newest (Nat.add_le_add_right ho _)
    bits := fun j hj => hok.bits j (by omega)
    folds := fun d hd => hok.folds d (by omega) }

theorem FoldsExact.congr {p' : Predictor} {pos i : Nat} (hf : FoldsExact cfg histLen p pos h i)
    (ht : p'.nTables = p.nTables) (hm : p'.ringMask = p.ringMask) (hs : p'.folded = p.folded) :
    FoldsExact cfg histLen p' pos h i := by
  have hat : p'.foldsAt pos = p.foldsAt pos := by rw [foldsAt, foldsAt, hm, ht]
  exact ⟨by rw [hat, hs]; exact hf.table, by rw [hat, hs]; exact hf.tag, by rw [hat, hs]; exact hf.tag'⟩

theorem HistOk.other (hok : HistOk cfg histLen k p h o) {p' : Predictor} (hs : p'.history = p.history) :
    HistOk cfg histLen k p' h o where
  nTables := (congrArg (·.shape.nTables) hs).trans hok.nTables
  tableBits := (congrArg (·.shape.tableBits) hs).trans hok.tableBits
  tagBits := (congrArg (·.shape.tagBits) hs).trans hok.tagBits
  lens := (congrArg (·.shape.histLen) hs).trans hok.lens
  mask := (congrArg (·.shape.ringMask) hs).trans hok.mask
  pos := (congrArg History.histPos hs).trans hok.pos
  oldest := hok.oldest
  newest := hok.newest
  bits := fun j hj => (congrFun (congrArg History.histBits hs) _).trans (hok.bits j hj)
  folds := fun d hd i hi => (hok.folds d hd i hi).congr (congrArg (·.shape.nTables) hs)
    (congrArg (·.shape.ringMask) hs) (congrArg History.folded hs)

/-- A restore rewinds the position; bits and folds stay. -/
theorem restore_history (ht : p.nTables ≠ 0) (cp : Checkpoint) :
    (p.restore cp).history = { p.history with histPos := cp.hist } := by
  unfold restore
  rw [if_pos ht]
  dsimp only
  split
  · rfl
  · rfl

/-- A checkpoint taken `d` outcomes ago, none of them retired since, brings the history back to what
it was, folds included. -/
theorem HistOk.restore (hr : RingHolds cfg histLen k) (hok : HistOk cfg histLen k p h o)
    {cp : Checkpoint} {d : Nat} (hd : o + d ≤ h.length) (hcp : cp.hist = (h.length - d) % 2 ^ 32) :
    HistOk cfg histLen k (p.restore cp) (h.drop d) o := by
  have hlen : (h.drop d).length = h.length - d := List.length_drop
  have hpow : 2 ^ k ≤ 2 ^ 32 := Nat.pow_le_pow_right (by decide) (Nat.le_trans hr.ring (by decide))
  have hnew := hok.newest
  have hback : (p.restore cp).history = ({ p with histPos := cp.hist } : Predictor).history :=
    restore_history (by rw [hok.nTables]; exact hr.tables) cp
  refine HistOk.other ?_ hback
  refine { hok with pos := ?_, oldest := by omega, newest := by omega, bits := ?_, folds := ?_ }
  · rw [hlen]
    exact hcp
  · intro j hj
    rw [hlen] at hj ⊢
    rw [slotBack_sub (by omega) (by omega), histBit_drop]
    exact hok.bits (d + j) (by omega)
  · intro e he i hi
    rw [hlen] at he ⊢
    rw [List.drop_drop, Nat.sub_sub]
    exact (hok.folds (d + e) (by omega) i hi).congr rfl rfl rfl

/-- A push writes the slot after the newest one, and the folds of the new position. -/
theorem HistOk.pushHistory_eq (hr : RingHolds cfg histLen k) (hok : HistOk cfg histLen k p h o) (b : Bool) :
    p.pushHistory b = { p with
      histPos := (h.length + 1) % 2 ^ 32
      histBits := Function.update p.histBits ((h.length + 1) % 2 ^ k) b.toNat
      folded := p.pushFolds b.toNat (Function.update p.histBits ((h.length + 1) % 2 ^ k) b.toNat)
        ((h.length + 1) % 2 ^ 32) } := by
  have hk : k ≤ 32 := Nat.le_trans hr.ring (by decide)
  have hbit : (if b then 1 else 0) = b.toNat := by cases b <;> rfl
  have ht : p.nTables ≠ 0 := by rw [hok.nTables]; exact hr.tables
  have hpos : (p.histPos + 1) % 2 ^ 32 = (h.length + 1) % 2 ^ 32 := by rw [hok.pos, Nat.mod_add_mod]
  unfold pushHistory
  rw [if_neg ht]
  dsimp only
  rw [hpos, hbit, hok.mask, slot_eq_mod hk]

/-- The ring then has the bits of the longer history. -/
theorem HistOk.bits_push (hr : RingHolds cfg histLen k) (hok : HistOk cfg histLen k p h o)
    (hroom : h.length < o + inFlight cfg) (b : Bool) {j : Nat}
    (hj : j + (o + inFlight cfg) < (b :: h).length + 2 ^ k) :
    Function.update p.histBits ((h.length + 1) % 2 ^ k) b.toNat (slotBack k (h.length + 1) j) =
      histBit (b :: h) j := by
  have hk : k ≤ 32 := Nat.le_trans hr.ring (by decide)
  have hpow : 2 ^ k ≤ 2 ^ 32 := Nat.pow_le_pow_right (by decide) hk
  rw [List.length_cons] at hj
  cases j with
  | zero => rw [slotBack_zero hk, Function.update_self, histBit_cons_zero]
  | succ j =>
      rw [Function.update_of_ne (slotBack_ne hk (Nat.succ_pos j) (by omega)),
        slotBack_succ (by omega), histBit_cons_succ]
      exact hok.bits j (by omega)

/-- Pushing an outcome keeps the folds exact, as long as the history in flight fits the ring. -/
theorem HistOk.push (hr : RingHolds cfg histLen k) (hok : HistOk cfg histLen k p h o)
    (hroom : h.length < o + inFlight cfg) (b : Bool) :
    HistOk cfg histLen k (p.pushHistory b) (b :: h) o := by
  have hk : k ≤ 32 := Nat.le_trans hr.ring (by decide)
  have hpow : 2 ^ k ≤ 2 ^ 32 := Nat.pow_le_pow_right (by decide) hk
  obtain ⟨hlen, hlong⟩ := hr.lens 0 (Nat.pos_of_ne_zero hr.tables)
  have hnow : p.foldsAt ((h.length + 1) % 2 ^ 32) = (h.length + 1) % 2 ^ k * p.nTables * 3 :=
    foldsAt_eq hok.mask hk _
  have hnewBits := fun j hj => hok.bits_push hr hroom b (j := j) hj
  rw [hok.pushHistory_eq hr b]
  generalize Function.update p.histBits ((h.length + 1) % 2 ^ k) b.toNat = histBits at hnewBits ⊢
  -- the block read and the block written
  have hat : p.foldsAt p.histPos = h.length % 2 ^ k * p.nTables * 3 := by
    rw [hok.pos]
    exact foldsAt_eq hok.mask hk _
  have hne : h.length % 2 ^ k ≠ (h.length + 1) % 2 ^ k :=
    (mod_ne_of_lt Nat.one_pos (by omega)).symm
  obtain ⟨hframe, htables⟩ := pushFolds_spec (p := p) b.toNat histBits ((h.length + 1) % 2 ^ 32)
    (by rw [hat, hnow]; exact blocks_apart hne)
  refine { hok with
    pos := rfl
    oldest := Nat.le_succ_of_le hok.oldest
    newest := hroom
    bits := hnewBits
    folds := fun d hd i hi => ?_ }
  cases d with
  | zero =>
      -- the folds at the new position, each from the one before it
      have hi' : i < p.nTables := by rw [hok.nTables]; exact hi
      have hold := hok.folds 0 hok.oldest i hi
      rw [Nat.sub_zero, List.drop_zero, ← hok.pos] at hold
      obtain ⟨hl, hmax⟩ := hr.lens i hi
      have hout : p.outBit histBits ((h.length + 1) % 2 ^ 32) i = histBit h (histLen i - 1) := by
        rw [outBit, hok.lens, hok.mask, outSlot_eq hk (by omega), hnewBits _ (by
          have := hok.oldest
          rw [List.length_cons]
          omega)]
        obtain ⟨m, hm⟩ : ∃ m, histLen i = m + 1 := ⟨histLen i - 1, by omega⟩
        rw [hm, histBit_cons_succ, Nat.add_sub_cancel]
      have hnew := htables i hi'
      rw [hout] at hnew
      obtain ⟨hb1, hb2, hb3, hb4⟩ := hr.bits
      refine ⟨hnew.table.trans ?_, hnew.tag.trans ?_, hnew.tag'.trans ?_⟩
      · rw [hold.table, hok.lens, hok.tableBits]
        exact fold_push hl (by omega) hb2
      · rw [hold.tag, hok.lens, hok.tagBits]
        exact fold_push hl (by omega) hb4
      · rw [hold.tag', hok.lens, hok.tagBits]
        exact fold_push hl (by omega) (by omega)
  | succ d =>
      rw [List.length_cons] at hd ⊢
      have hsub : h.length + 1 - (d + 1) = h.length - d := by omega
      have hle : d ≤ h.length := by omega
      have hold := hok.folds d (by omega) i hi
      rw [hsub, List.drop_succ_cons]
      -- an older block is not the one written
      have hother : (h.length - d) % 2 ^ k ≠ (h.length + 1) % 2 ^ k := by
        have hgap : h.length + 1 = h.length - d + (d + 1) := by omega
        rw [hgap]
        exact (mod_ne_of_lt (Nat.succ_pos d) (by omega)).symm
      have hblock : p.foldsAt ((h.length - d) % 2 ^ 32) = (h.length - d) % 2 ^ k * p.nTables * 3 :=
        foldsAt_eq hok.mask hk _
      have hapart := blocks_apart (n := p.nTables) hother
      rw [← hblock, ← hnow] at hapart
      have hi' : i < p.nTables := by rw [hok.nTables]; exact hi
      have hkeep : ∀ x < 3, p.pushFolds b.toNat histBits ((h.length + 1) % 2 ^ 32)
          (p.foldsAt ((h.length - d) % 2 ^ 32) + 3 * i + x) =
            p.folded (p.foldsAt ((h.length - d) % 2 ^ 32) + 3 * i + x) := by
        intro x hx
        exact hframe _ (by omega)
      exact ⟨(hkeep 0 (by decide)).trans hold.table, (hkeep 1 (by decide)).trans hold.tag,
        (hkeep 2 (by decide)).trans hold.tag'⟩

/-- Over every run of pushes, restores and retirements the folds are those of the history. By
induction on the run. -/
theorem HistRun.ok (hr : RingHolds cfg histLen k) (hrun : HistRun cfg histLen p h o) :
    HistOk cfg histLen k p h o := by
  induction hrun with
  | init => exact HistOk.init hr
  | push taken _ hroom ih => exact ih.push hr hroom taken
  | restore cp d _ hd hcp ih => exact ih.restore hr hd hcp
  | retire o' _ ho hle ih => exact ih.retire ho hle
  | other _ hs ih => exact ih.other hs

/-- The lengths fit in a ring whose size the constructor's loop found. -/
theorem exists_ringHolds {c₀ : SimConfig} (hcfg : validateConfig c₀ = .ok cfg) (ht : cfg.tageTables ≠ 0)
    (hbound : ringBound cfg ≤ 2 ^ 31)
    (hlen : ∀ i < cfg.tageTables, 1 ≤ histLen i ∧ histLen i ≤ cfg.tageMaxHist) :
    ∃ k, RingHolds cfg histLen k := by
  have hrange := tageInRange hcfg ht
  obtain ⟨hb1, hb2⟩ := hrange.tableBits
  obtain ⟨hb3, hb4⟩ := hrange.tagBits
  obtain ⟨n, hn, -, -, hfits, hmask⟩ := exists_ring ht hbound
  unfold ringBound at hfits
  refine ⟨6 + n, by omega, by omega, ht, hmask, fun i hi => ?_⟩
  obtain ⟨h1, h2⟩ := hlen i hi
  have hN : inFlight cfg = cfg.robSize + cfg.fetchQSize := rfl
  exact ⟨h1, by omega⟩

theorem tageLookup_idx (p : Predictor) (pc : Word) (pos i : Nat) : (p.tageLookup pc pos).idx i =
    ((pc >>> 2).toNat ^^^ ((pc >>> 2).toNat >>> (p.tableBits - i % p.tableBits)) ^^^
      p.folded (p.foldsAt pos + 3 * i)) &&& ((1 <<< p.tableBits) - 1) := by
  unfold tageLookup
  dsimp only
  split
  · rfl
  · rfl

theorem tageLookup_tag (p : Predictor) (pc : Word) (pos i : Nat) : (p.tageLookup pc pos).tag i =
    ((pc >>> 2).toNat ^^^ p.folded (p.foldsAt pos + 3 * i + 1) ^^^
      (p.folded (p.foldsAt pos + 3 * i + 2) <<< 1)) &&& ((1 <<< p.tagBits) - 1) := by
  unfold tageLookup
  dsimp only
  split
  · rfl
  · rfl

/-- A lookup reads the history through the folds of its position alone. -/
theorem tageLookup_congr {p₀ : Predictor} {pos pos₀ i : Nat} (hb : p.tableBits = p₀.tableBits)
    (hg : p.tagBits = p₀.tagBits) (hx : ∀ x < 3, p.folded (p.foldsAt pos + 3 * i + x) =
      p₀.folded (p₀.foldsAt pos₀ + 3 * i + x)) (pc : Word) :
    (p.tageLookup pc pos).idx i = (p₀.tageLookup pc pos₀).idx i ∧
      (p.tageLookup pc pos).tag i = (p₀.tageLookup pc pos₀).tag i := by
  have h0 : p.folded (p.foldsAt pos + 3 * i) = p₀.folded (p₀.foldsAt pos₀ + 3 * i) := hx 0 (by decide)
  constructor
  · rw [tageLookup_idx, tageLookup_idx, hb, h0]
  · rw [tageLookup_tag, tageLookup_tag, hg, hx 1 (by decide), hx 2 (by decide)]

/-- Every position from the oldest checkpoint in flight to the newest holds the folds of the current
path up to it, and a lookup at commit finds the indices and tags of the prediction. The folds are
updated bit by bit and never recomputed; this compares them with the history itself. -/
theorem folded_history_exact {c₀ : SimConfig} (hcfg : validateConfig c₀ = .ok cfg)
    (ht : cfg.tageTables ≠ 0) (hbound : ringBound cfg ≤ 2 ^ 31)
    (hlen : ∀ i < cfg.tageTables, 1 ≤ histLen i ∧ histLen i ≤ cfg.tageMaxHist)
    {p : Predictor} {h : List Bool} {o : Nat} (hrun : HistRun cfg histLen p h o) :
    p.histPos = h.length % 2 ^ 32 ∧
    (∀ d, o + d ≤ h.length → ∀ i < cfg.tageTables,
      FoldsExact cfg histLen p ((h.length - d) % 2 ^ 32) (h.drop d) i) ∧
    (∀ (p₀ : Predictor) (h₀ : List Bool) (o₀ : Nat), HistRun cfg histLen p₀ h₀ o₀ → h₀ <:+ h →
      o ≤ h₀.length → ∀ pc, ∀ i < cfg.tageTables,
        (p.tageLookup pc p₀.checkpoint.hist).idx i = (p₀.tageLookup pc p₀.histPos).idx i ∧
        (p.tageLookup pc p₀.checkpoint.hist).tag i = (p₀.tageLookup pc p₀.histPos).tag i) := by
  obtain ⟨k, hr⟩ := exists_ringHolds hcfg ht hbound hlen
  have hok := hrun.ok hr
  refine ⟨hok.pos, hok.folds, fun p₀ h₀ o₀ hrun₀ hsuf ho pc i hi => ?_⟩
  have hok₀ := hrun₀.ok hr
  have hcp : p₀.checkpoint.hist = p₀.histPos := by
    show (if p₀.nTables ≠ 0 then p₀.histPos else p₀.ghr) = p₀.histPos
    rw [if_pos (by rw [hok₀.nTables]; exact ht)]
  obtain ⟨newer, rfl⟩ := hsuf
  -- both sides hold the folds of the path up to the prediction
  have hnew := hok.folds newer.length (by rw [List.length_append]; omega) i hi
  have hold := hok₀.folds 0 hok₀.oldest i hi
  rw [List.length_append, Nat.add_sub_cancel_left, List.drop_left, ← hok₀.pos] at hnew
  rw [Nat.sub_zero, List.drop_zero, ← hok₀.pos] at hold
  rw [hcp]
  refine tageLookup_congr (hok.tableBits.trans hok₀.tableBits.symm) (hok.tagBits.trans hok₀.tagBits.symm)
    (fun x hx => ?_) pc
  match x, hx with
  | 0, _ => exact hnew.table.trans hold.table.symm
  | 1, _ => exact hnew.tag.trans hold.tag.symm
  | 2, _ => exact hnew.tag'.trans hold.tag'.symm

end Run

/-- The default machine with four TAGE tables. -/
def tageConfig : SimConfig := { defaultConfig with tageTables := 4 }

/-- Two branches, the second of them flushed. -/
theorem folded_history_exact_rewound : FoldsExact tageConfig (fun _ => 4)
    ((((init tageConfig fun _ => 4).pushHistory true).pushHistory false).restore { hist := 1 }) 1 [true] 3 :=
  (folded_history_exact (show validateConfig tageConfig = .ok tageConfig by decide) (by decide) (by decide)
    (fun _ _ => ⟨by decide, by decide⟩)
    (HistRun.restore { hist := 1 } 1 (HistRun.push false (HistRun.push true HistRun.init (by decide))
      (by decide)) (by decide) rfl)).2.1 0 (by decide) 3 (by decide)

/-! ## The other calls -/

section Calls

/-- A prediction pushes the direction it predicts for a branch, and no other bit. -/
theorem predict_history (p : Predictor) (pc : Word) : (p.predict pc).1.history = p.history ∨
    ∃ q taken, q.history = p.history ∧ (p.predict pc).1 = pushHistory q taken := by
  unfold predict
  split
  · exact .inl rfl
  · next i _ =>
      dsimp only
      split
      · exact .inr ⟨p.btbTouch i, _, rfl, rfl⟩
      · exact .inl rfl
      · split
        · exact .inl rfl
        · exact .inl rfl
      · exact .inl rfl

/-- A replay pushes the real direction of a branch, and no other bit. -/
theorem replay_history (p : Predictor) (pc : Word) (ins : Instr) (taken : Bool) :
    if kindOf ins = .COND then p.replay pc ins taken = p.pushHistory taken
    else (p.replay pc ins taken).history = p.history := by
  unfold replay
  cases kindOf ins with
  | COND => rfl
  | UNCOND => rfl
  | CALL =>
      rw [if_neg (by decide)]
      dsimp only
      split
      · rfl
      · rfl
  | RET =>
      rw [if_neg (by decide)]
      dsimp only
      split
      · rfl
      · rfl

/-- What predictions move and a flush rewinds. -/
structure Speculative where
  history : History
  ghr : Nat
  rasN : Nat
  ras : Nat → Word

/-- All that a prediction changes and a flush has to rewind. -/
def speculative (p : Predictor) : Speculative where
  history := p.history
  ghr := p.ghr
  rasN := p.rasN
  ras := p.ras

theorem tageTrain_speculative (l : Lookup) (pc : Word) (taken : Bool) :
    (p.tageTrain l pc taken).speculative = p.speculative := by
  unfold tageTrain
  dsimp only
  split
  · rfl
  · split
    · rfl
    · rfl

theorem tageAllocate_speculative (l : Lookup) (taken : Bool) :
    (p.tageAllocate l taken).speculative = p.speculative := by
  -- ageing the longer tables, one at a time
  have hloop : ∀ (js : List Nat) (q : Predictor), (js.foldl (fun q j =>
      if (q.tables j (l.idx j)).u > 0 then
        q.setTage j (l.idx j) { q.tables j (l.idx j) with u := (q.tables j (l.idx j)).u - 1 }
      else q) q).speculative = q.speculative := by
    intro js
    induction js with
    | nil => exact fun _ => rfl
    | cons j js ih =>
        intro q
        apply (ih _).trans
        dsimp only
        split
        · rfl
        · rfl
  unfold tageAllocate
  dsimp only
  split
  · exact hloop _ _
  · rfl

theorem tageUpdate_speculative (pc : Word) (taken : Bool) (pos : Nat) :
    (p.tageUpdate pc taken pos).speculative = p.speculative := by
  have hage : ∀ q : Predictor, q.tageAge.speculative = q.speculative := by
    intro q
    unfold tageAge
    dsimp only
    split
    · rfl
    · rfl
  have hmiss : ∀ (q : Predictor) (l : Lookup) (b : Bool),
      (if b then q.tageAllocate l taken else q).speculative = q.speculative := by
    intro q l b
    split
    · exact tageAllocate_speculative l taken
    · rfl
  unfold tageUpdate
  dsimp only
  rw [hage, hmiss]
  exact tageTrain_speculative _ pc taken

/-- Training leaves the speculative state as it is. -/
theorem update_speculative (p : Predictor) (pc : Word) (ins : Instr) (taken : Bool) (target : Word)
    (phtIdx : Nat) (before : Checkpoint) :
    (p.update pc ins taken target phtIdx before).speculative = p.speculative := by
  have hbtb : ∀ (q : Predictor) (k : PredKind), (q.btbUpdate pc target k).speculative = q.speculative := by
    intro q k
    unfold btbUpdate
    dsimp only
    split
    · rfl
    · rfl
  have htrain : (if kindOf ins = .COND then
      if p.nTables ≠ 0 then p.tageUpdate pc taken before.hist
      else { p with pht := Function.update p.pht phtIdx (nudge2 (p.pht phtIdx) taken) }
    else p).speculative = p.speculative := by
    split
    · split
      · exact tageUpdate_speculative pc taken before.hist
      · rfl
    · rfl
  unfold update
  dsimp only
  split
  · exact (hbtb _ _).trans htrain
  · exact htrain

theorem update_history (p : Predictor) (pc : Word) (ins : Instr) (taken : Bool) (target : Word)
    (phtIdx : Nat) (before : Checkpoint) :
    (p.update pc ins taken target phtIdx before).history = p.history :=
  congrArg Speculative.history (update_speculative p pc ins taken target phtIdx before)

end Calls

end Predictor

end RvO3
