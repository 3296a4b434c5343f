import RvO3.Core.PredictorArrays

/-!
# The predictor's accesses are in bounds

On a predictor whose parameters are the constructor's (`Fits`) each function of `Arrays` answers
what the model answers. Indices that come from the pc, from the history or from an old checkpoint
are masked or reduced by the code itself, so nothing depends on what the tables hold. The one
index that is carried, that of the counter a prediction has consulted, was reduced when it was
computed.
-/

set_option autoImplicit false

namespace RvO3

namespace Predictor

open Bounded

/-! ## Parameters that fit the arrays -/

/-- TAGE's parameters against its arrays. -/
structure TageFits (z : ArraySizes) (p : Predictor) : Prop where
  tableBits : 4 ≤ p.tableBits ∧ p.tableBits ≤ 16
  tagBits : 4 ≤ p.tagBits ∧ p.tagBits ≤ 16
  entries : z.entries = 2 ^ p.tableBits
  ring : p.ringMask < z.histBits
  folded : z.folded = z.histBits * p.nTables * 3

/-- The parameters of a predictor against the sizes of its arrays. -/
structure Fits (z : ArraySizes) (p : Predictor) : Prop where
  pht : p.phtSize = z.pht
  pht_pos : 0 < z.pht
  btb : p.btbSets * p.btbWays = z.btb
  sets_pos : 0 < p.btbSets
  ways_pos : 0 < p.btbWays
  ras : p.rasSize = z.ras
  ras_pos : 0 < z.ras
  tables : p.nTables = z.tables
  tage : p.nTables ≠ 0 → TageFits z p

namespace Fits

variable {z : ArraySizes} {p p' : Predictor}

/-- Only the parameters matter. -/
theorem congr (h : Fits z p) (hs : p'.shape = p.shape) : Fits z p' := by
  have hpht : p'.phtSize = p.phtSize := congrArg Shape.phtSize hs
  have hsets : p'.btbSets = p.btbSets := congrArg Shape.btbSets hs
  have hways : p'.btbWays = p.btbWays := congrArg Shape.btbWays hs
  have hras : p'.rasSize = p.rasSize := congrArg Shape.rasSize hs
  have htables : p'.nTables = p.nTables := congrArg Shape.nTables hs
  have htable : p'.tableBits = p.tableBits := congrArg Shape.tableBits hs
  have htag : p'.tagBits = p.tagBits := congrArg Shape.tagBits hs
  have hmask : p'.ringMask = p.ringMask := congrArg Shape.ringMask hs
  -- every field is about the shape alone
  refine ⟨hpht ▸ h.pht, h.pht_pos, by rw [hsets, hways]; exact h.btb, hsets ▸ h.sets_pos, hways ▸ h.ways_pos,
    hras ▸ h.ras, h.ras_pos, htables ▸ h.tables, fun ht => ?_⟩
  rw [htables] at ht
  have htage := h.tage ht
  exact ⟨htable ▸ htage.tableBits, htag ▸ htage.tagBits, htable ▸ htage.entries, hmask ▸ htage.ring,
    htables ▸ htage.folded⟩

/-- A masked index lies in the pattern table, whose size is a power of two. -/
theorem phtSlot_lt (h : Fits z p) (x : Nat) : x &&& (p.phtSize - 1) < z.pht := by
  have hpos := h.pht_pos
  have hle : x &&& (p.phtSize - 1) ≤ p.phtSize - 1 := Nat.and_le_right
  rw [h.pht] at hle ⊢
  omega

theorem phtIndex_lt (h : Fits z p) (pc : Word) : p.phtIndex pc < z.pht := h.phtSlot_lt _

/-- Every way of the set of `pc` is inside the BTB. -/
theorem way_lt (h : Fits z p) (pc : Word) {w : Nat} (hw : w < p.btbWays) : p.btbBase pc + w < z.btb := by
  have hset : (pc >>> 2).toNat % p.btbSets < p.btbSets := Nat.mod_lt _ h.sets_pos
  unfold btbBase
  rw [← h.btb]
  calc (pc >>> 2).toNat % p.btbSets * p.btbWays + w
      < ((pc >>> 2).toNat % p.btbSets + 1) * p.btbWays := by rw [Nat.succ_mul]; omega
    _ ≤ p.btbSets * p.btbWays := Nat.mul_le_mul_right _ hset

/-- Every way of a set lies in the target buffer. -/
theorem mem_ways_lt (h : Fits z p) (pc : Word) {i : Nat} (hi : i ∈ (List.range p.btbWays).map (p.btbBase pc + ·)) :
    i < z.btb := by
  obtain ⟨w, hw, rfl⟩ := List.mem_map.mp hi
  exact h.way_lt pc (List.mem_range.mp hw)

theorem rasSlot_lt (h : Fits z p) (n : Nat) : n % p.rasSize < z.ras := by
  rw [h.ras]
  exact Nat.mod_lt _ h.ras_pos

theorem rasSize_ne (h : Fits z p) : p.rasSize ≠ 0 := by
  have := h.ras_pos
  rw [h.ras]
  omega

end Fits

namespace TageFits

variable {z : ArraySizes} {p : Predictor}

theorem histSlot_lt (h : TageFits z p) (pos : Nat) : pos &&& p.ringMask < z.histBits :=
  Nat.lt_of_le_of_lt Nat.and_le_right h.ring

/-- The three folds of every table at every position are inside the array. -/
theorem folds_lt (h : TageFits z p) (pos : Nat) {i x : Nat} (hi : i < p.nTables) (hx : x < 3) :
    p.foldsAt pos + 3 * i + x < z.folded := by
  have hpos := h.histSlot_lt pos
  unfold foldsAt
  rw [h.folded]
  calc (pos &&& p.ringMask) * p.nTables * 3 + 3 * i + x
      < ((pos &&& p.ringMask) * p.nTables + p.nTables) * 3 := by omega
    _ = ((pos &&& p.ringMask) + 1) * p.nTables * 3 := by rw [Nat.succ_mul (pos &&& p.ringMask)]
    _ ≤ z.histBits * p.nTables * 3 := Nat.mul_le_mul_right _ (Nat.mul_le_mul_right _ hpos)

end TageFits

/-- What the constructor allocates fits the parameters it sets. -/
theorem fits_init {c₀ cfg : SimConfig} (hcfg : validateConfig c₀ = .ok cfg)
    (hbound : cfg.tageTables ≠ 0 → ringBound cfg ≤ 2 ^ 31) (histLen : Nat → Nat) :
    Fits (arraySizes cfg) (init cfg histLen) := by
  have ha := validateConfig_ok hcfg
  have hmul : cfg.btbEntries / cfg.btbWays * cfg.btbWays = cfg.btbEntries :=
    Nat.div_mul_cancel (Nat.dvd_of_mod_eq_zero ha.btbWays_dvd)
  refine ⟨rfl, ?_, hmul, ?_, ha.btbWays_pos, rfl, ha.ras_pos, rfl, fun ht => ?_⟩
  · show 0 < 1 <<< cfg.phtBits
    rw [Nat.shiftLeft_eq, Nat.one_mul]
    exact Nat.two_pow_pos _
  · exact Nat.div_pos (Nat.le_of_dvd ha.btb_pos (Nat.dvd_of_mod_eq_zero ha.btbWays_dvd)) ha.btbWays_pos
  · have ht : cfg.tageTables ≠ 0 := ht
    have htage := tageInRange hcfg ht
    -- the loop that doubles the ring has ended, and at a power of two
    obtain ⟨n, hn, hstop, hpow, -, hmask⟩ := exists_ring ht (hbound ht)
    have hring : (arraySizes cfg).histBits = 2 ^ (6 + n) := by
      show (if cfg.tageTables = 0 then 0 else ringSize (ringBound cfg % 2 ^ 32) 32 64) = _
      rw [if_neg ht, ringSize_of_stopsAt hstop (by omega), hpow]
    have hpos := Nat.two_pow_pos (6 + n)
    refine ⟨htage.tableBits, htage.tagBits, ?_, ?_, ?_⟩
    · show 1 <<< cfg.tageTableBits = _
      rw [Nat.shiftLeft_eq, Nat.one_mul]
      rfl
    · rw [hring, hmask]
      omega
    · rfl

/-! ## The checks pass -/

namespace Arrays

variable {z : ArraySizes} {p : Predictor}

/-- The answer of `btbFind` in terms of the model. -/
def found (p : Predictor) (pc : Word) : Predictor × Option Nat :=
  match p.btbLookup pc with
  | none => (p, none)
  | some i => (p.btbTouch i, some i)

theorem btbLookup_lt (h : Fits z p) {pc : Word} {i : Nat} (hi : p.btbLookup pc = some i) : i < z.btb :=
  h.mem_ways_lt pc (List.mem_of_find?_eq_some hi)

theorem btbFind_eq (h : Fits z p) (pc : Word) : btbFind z p pc = some (found p pc) := by
  -- a way that is looked at lies in the set of `pc`
  have hloop : ((List.range p.btbWays).map (p.btbBase pc + ·)).findM? (fun i => do
      let e ← get z.btb p.btb i
      return e.valid && e.pc == pc) = some (p.btbLookup pc) := by
    refine findM?_eq fun i hi => ?_
    rw [get_bind (h.mem_ways_lt pc hi)]
    rfl
  -- the code takes the address of the set's first way before it loops
  have hbase : p.btbBase pc < z.btb := h.way_lt pc h.ways_pos
  unfold btbFind
  rw [mod_bind (Nat.ne_of_gt h.sets_pos)]
  unfold btbBase at hloop hbase
  dsimp only
  rw [get_bind hbase, hloop, some_bind, found]
  cases hl : p.btbLookup pc with
  | none => rfl
  | some i =>
      have hi := btbLookup_lt h hl
      dsimp only
      rw [get_bind hi, set_bind hi]
      rfl

/-- `fold` shifts by less than its width, which is at most 16. -/
theorem fold_eq {comp inBit outBit len width : Nat} (hw : 1 ≤ width ∧ width ≤ 16) (hout : outBit ≤ 1) :
    fold comp inBit outBit len width = some (Predictor.fold comp inBit outBit len width) := by
  have hm : len % width < width := Nat.mod_lt _ hw.1
  unfold fold
  dsimp only
  rw [mod_bind (by omega), shl_bind (by omega) hout, shr_bind (by omega), shl_bind (by omega) (Nat.le_refl 1)]
  rfl

theorem foldEntry_eq {bit out len width old now : Nat} {folded : Nat → Nat} (hw : 1 ≤ width ∧ width ≤ 16)
    (hout : out ≤ 1) (hold : old < z.folded) (hnow : now < z.folded) :
    foldEntry z bit out len width old now folded =
      some (Function.update folded now (Predictor.fold (folded old) bit out len width)) := by
  unfold foldEntry
  rw [get_bind hold, fold_eq hw hout, some_bind, set_eq _ _ hnow]

theorem foldTable_eq (h : Fits z p) {histBits : Nat → Nat} (hbits : ∀ i, histBits i ≤ 1) {bit pos pos' i : Nat}
    {folded : Nat → Nat} (hi : i < p.nTables) :
    foldTable z p bit histBits pos (p.foldsAt pos') (p.foldsAt pos) folded i =
      some (p.foldTable bit histBits pos (p.foldsAt pos') (p.foldsAt pos) folded i) := by
  have htage := h.tage (by omega)
  obtain ⟨hb1, hb2⟩ := htage.tableBits
  obtain ⟨hg1, hg2⟩ := htage.tagBits
  have h0 : ∀ pos, p.foldsAt pos + 3 * i < z.folded := fun pos => htage.folds_lt pos (x := 0) hi (by decide)
  have h1 := fun pos => htage.folds_lt pos (x := 1) hi (by decide)
  have h2 := fun pos => htage.folds_lt pos (x := 2) hi (by decide)
  -- the three folds: the index, the tag, and the tag less one bit
  unfold foldTable
  rw [get_bind (by rw [← h.tables]; exact hi), get_bind (htage.histSlot_lt _),
    foldEntry_eq ⟨by omega, hb2⟩ (hbits _) (h0 _) (h0 _), some_bind,
    foldEntry_eq ⟨by omega, hg2⟩ (hbits _) (h1 _) (h1 _), some_bind,
    foldEntry_eq ⟨by omega, by omega⟩ (hbits _) (h2 _) (h2 _)]
  rfl

theorem foldTables_eq (h : Fits z p) {histBits : Nat → Nat} (hbits : ∀ i, histBits i ≤ 1) {bit pos : Nat} :
    (List.range p.nTables).foldlM (foldTable z p bit histBits pos (p.foldsAt p.histPos) (p.foldsAt pos)) p.folded =
      some (p.pushFolds bit histBits pos) := by
  rw [pushFolds_eq]
  refine foldlM_eq (I := fun _ => True) (fun i hi folded _ => ⟨?_, trivial⟩) trivial
  exact foldTable_eq h hbits (List.mem_range.mp hi)

/-- Pushing an outcome stays inside the history and the folds, and computes what the model does. -/
theorem pushHistory_eq (h : Fits z p) (hbits : ∀ i, p.histBits i ≤ 1) (taken : Bool) :
    pushHistory z p taken = some (p.pushHistory taken) := by
  unfold pushHistory Predictor.pushHistory
  dsimp only
  by_cases ht : p.nTables = 0
  · rw [if_pos ht, if_pos ht]
    rfl
  · have htage := h.tage ht
    have hfold : ∀ pos, p.foldsAt pos < z.folded :=
      fun pos => htage.folds_lt pos (x := 0) (Nat.pos_of_ne_zero ht) (by decide)
    rw [if_neg ht, if_neg ht, get_bind (hfold _), set_bind (htage.histSlot_lt _), get_bind (hfold _)]
    -- the folds read the history after the new bit has been stored
    have hnew : ∀ i, Function.update p.histBits ((p.histPos + 1) % 2 ^ 32 &&& p.ringMask)
        (if taken then 1 else 0) i ≤ 1 := by
      intro i
      rw [Function.update_apply]
      split
      · split <;> decide
      · exact hbits i
    rw [foldTables_eq h hnew]
    rfl

/-! ### Tables -/

theorem entry_eq (h : Fits z p) {t i : Nat} (ht : t < p.nTables) (hi : i < z.entries) :
    entry z p t i = some (p.tables t i) := by
  have ht : t < z.tables := h.tables ▸ ht
  unfold entry
  rw [get_bind ht, get_eq _ hi]

theorem setEntry_eq (h : Fits z p) {t i : Nat} (ht : t < p.nTables) (hi : i < z.entries) (e : TageEntry) :
    setEntry z p t i e = some (p.setTage t i e) := by
  have ht : t < z.tables := h.tables ▸ ht
  unfold setEntry
  rw [get_bind ht, set_bind hi, set_bind ht]
  rfl

theorem slot_eq (h : Fits z p) (pc : Word) (pos : Nat) {i : Nat} (hi : i < p.nTables) :
    slot z p pc pos i = some ((p.tageLookup pc pos).idx i, (p.tageLookup pc pos).tag i) := by
  have htage := h.tage (by omega)
  obtain ⟨hb1, hb2⟩ := htage.tableBits
  obtain ⟨hg1, hg2⟩ := htage.tagBits
  have hm : i % p.tableBits < p.tableBits := Nat.mod_lt _ (by omega)
  have h0 : p.foldsAt pos + 3 * i < z.folded := htage.folds_lt pos (x := 0) hi (by decide)
  have h1 := htage.folds_lt pos (x := 1) hi (by decide)
  have h2 := htage.folds_lt pos (x := 2) hi (by decide)
  -- the one shift that depends on the table is by `tableBits - i % tableBits`, at least 1
  unfold slot
  dsimp only
  rw [shl_bind (by omega) (Nat.le_refl 1), shl_bind (by omega) (Nat.le_refl 1), mod_bind (by omega),
    shr_bind (by omega), get_bind h0, get_bind h1, get_bind h2, tageLookup_idx, tageLookup_tag]
  rfl

/-- Indices are masked to the tables' size. -/
theorem idx_lt (h : TageFits z p) (pc : Word) (pos i : Nat) : (p.tageLookup pc pos).idx i < z.entries := by
  have hpos := Nat.two_pow_pos p.tableBits
  have hle : (p.tageLookup pc pos).idx i ≤ 1 <<< p.tableBits - 1 := by
    rw [tageLookup_idx]
    exact Nat.and_le_right
  rw [Nat.shiftLeft_eq, Nat.one_mul] at hle
  rw [h.entries]
  omega

/-- Two lookups that agree, up to what `idx` and `tag` say beyond the last table. -/
structure Same (n : Nat) (l l' : Lookup) : Prop where
  provider : l.provider = l'.provider
  alt : l.alt = l'.alt
  providerPred : l.providerPred = l'.providerPred
  altPred : l.altPred = l'.altPred
  pred : l.pred = l'.pred
  weak : l.weak = l'.weak
  idx : ∀ i < n, l.idx i = l'.idx i
  tag : ∀ i < n, l.tag i = l'.tag i

section Search

variable {idx tag : Nat → Nat} {pc : Word}

/-- The tables that hit, longest history first. -/
def hits (p : Predictor) (idx tag : Nat → Nat) : List Nat :=
  (List.range p.nTables).reverse.filter fun i => (p.tables i (idx i)).tag == tag i

/-- The prediction of a table number, or of the base table. -/
def predOf (p : Predictor) (idx : Nat → Nat) (base : Bool) : Option Nat → Bool
  | some i => decide ((p.tables i (idx i)).ctr ≥ 0)
  | none => base

/-- The model's lookup, once `idx` and `tag` are filled. -/
def searched (p : Predictor) (pc : Word) (idx tag : Nat → Nat) : Lookup :=
  let base := decide (p.pht ((pc >>> 2).toNat &&& (p.phtSize - 1)) ≥ 2)
  let alt := (hits p idx tag)[1]?
  let altPred := predOf p idx base alt
  match (hits p idx tag)[0]? with
  | none =>
      { provider := none, alt := alt, providerPred := base, altPred := altPred, pred := base
        weak := false, idx := idx, tag := tag }
  | some i =>
      let c := (p.tables i (idx i)).ctr
      let providerPred := decide (c ≥ 0)
      let weak := decide (c = 0) || decide (c = -1)
      { provider := some i, alt := alt, providerPred := providerPred, altPred := altPred
        pred := if weak && decide (p.useAltOnWeak ≥ 0) then altPred else providerPred
        weak := weak, idx := idx, tag := tag }

theorem tageLookup_eq_searched (p : Predictor) (pc : Word) (pos : Nat) : p.tageLookup pc pos =
    searched p pc (p.tageLookup pc pos).idx (p.tageLookup pc pos).tag := by
  have hidx : (p.tageLookup pc pos).idx = fun i =>
      ((pc >>> 2).toNat ^^^ ((pc >>> 2).toNat >>> (p.tableBits - i % p.tableBits)) ^^^
        p.folded (p.foldsAt pos + 3 * i)) &&& ((1 <<< p.tableBits) - 1) :=
    funext fun i => tageLookup_idx p pc pos i
  have htag : (p.tageLookup pc pos).tag = fun i => ((pc >>> 2).toNat ^^^ p.folded (p.foldsAt pos + 3 * i + 1) ^^^
      (p.folded (p.foldsAt pos + 3 * i + 2) <<< 1)) &&& ((1 <<< p.tagBits) - 1) :=
    funext fun i => tageLookup_tag p pc pos i
  rw [hidx, htag]
  rfl

theorem hits_lt {k i : Nat} (hi : (hits p idx tag)[k]? = some i) : i < p.nTables := by
  have hmem := List.mem_of_mem_filter (List.mem_of_getElem? hi)
  exact List.mem_range.mp (List.mem_reverse.mp hmem)

theorem tablePred_eq (h : Fits z p) (hidx : ∀ i < p.nTables, idx i < z.entries) (base : Bool) {t : Option Nat}
    (ht : ∀ i, t = some i → i < p.nTables) : tablePred z p idx base t = some (predOf p idx base t) := by
  cases t with
  | none => rfl
  | some i =>
      have hi := ht i rfl
      rw [tablePred, entry_eq h hi (hidx i hi)]
      rfl

/-- The search over the tagged tables stays inside them. -/
theorem search_eq (h : Fits z p) (hidx : ∀ i < p.nTables, idx i < z.entries) :
    search z p pc idx tag = some (searched p pc idx tag) := by
  -- the tables that hit are found in one scan, which keeps the first two
  have hscan : firstTwo (fun i => do
      let e ← entry z p i (idx i)
      return e.tag == tag i) (List.range p.nTables).reverse =
        some ((hits p idx tag)[0]?, (hits p idx tag)[1]?) := by
    apply firstTwo_eq
    intro i hi
    have hi := List.mem_range.mp (List.mem_reverse.mp hi)
    rw [entry_eq h hi (hidx i hi)]
    rfl
  unfold search
  rw [hscan, some_bind]
  dsimp only
  rw [get_bind (h.phtSlot_lt _), tablePred_eq h hidx _ fun i hi => hits_lt hi, some_bind]
  unfold searched
  -- only a provider is read again
  cases hp : (hits p idx tag)[0]? with
  | none => rfl
  | some i =>
      have hi := hits_lt hp
      dsimp only
      rw [entry_eq h hi (hidx i hi), some_bind]
      rfl

/-- What `idx` and `tag` hold beyond the last table does not matter. -/
theorem searched_same {idx' tag' : Nat → Nat} (hidx : ∀ i < p.nTables, idx i = idx' i)
    (htag : ∀ i < p.nTables, tag i = tag' i) :
    Same p.nTables (searched p pc idx tag) (searched p pc idx' tag') := by
  have hhits : hits p idx tag = hits p idx' tag' := by
    apply List.filter_congr
    intro i hi
    have hi := List.mem_range.mp (List.mem_reverse.mp hi)
    rw [hidx i hi, htag i hi]
  have hpred : ∀ base, predOf p idx base (hits p idx' tag')[1]? = predOf p idx' base (hits p idx' tag')[1]? := by
    intro base
    cases ha : (hits p idx' tag')[1]? with
    | none => rfl
    | some i => rw [predOf, predOf, hidx i (hits_lt ha)]
  unfold searched
  dsimp only
  rw [hhits, hpred]
  -- both lookups have the same provider, a table below `nTables`
  cases hp : (hits p idx' tag')[0]? with
  | none => exact ⟨rfl, rfl, rfl, rfl, rfl, rfl, hidx, htag⟩
  | some i =>
      dsimp only
      rw [hidx i (hits_lt hp)]
      exact ⟨rfl, rfl, rfl, rfl, rfl, rfl, hidx, htag⟩

theorem searched_provider_lt {t : Nat} (ht : (searched p pc idx tag).provider = some t) : t < p.nTables := by
  have hprov : (searched p pc idx tag).provider = (hits p idx tag)[0]? := by
    unfold searched
    dsimp only
    cases (hits p idx tag)[0]? with
    | none => rfl
    | some i => rfl
  exact hits_lt (hprov ▸ ht)

end Search

/-- A lookup stays inside the tables, and agrees with the model's on every table there is. -/
theorem tageLookup_eq (h : Fits z p) (ht : p.nTables ≠ 0) (pc : Word) (pos : Nat) :
    ∃ l, tageLookup z p pc pos = some l ∧ Same p.nTables l (p.tageLookup pc pos) := by
  have htage := h.tage ht
  have hfold : p.foldsAt pos < z.folded := htage.folds_lt pos (x := 0) (Nat.pos_of_ne_zero ht) (by decide)
  have hslots : (List.range p.nTables).mapM (slot z p pc pos) =
      some ((List.range p.nTables).map fun i => ((p.tageLookup pc pos).idx i, (p.tageLookup pc pos).tag i)) :=
    mapM_eq fun i hi => slot_eq h pc pos (List.mem_range.mp hi)
  -- what has been filled is read back below `nTables`
  have hget : ∀ i < p.nTables, ((List.range p.nTables).map fun i =>
      ((p.tageLookup pc pos).idx i, (p.tageLookup pc pos).tag i)).getD i (0, 0) =
        ((p.tageLookup pc pos).idx i, (p.tageLookup pc pos).tag i) := by
    intro i hi
    rw [List.getD_eq_getElem?_getD, List.getElem?_map, List.getElem?_range hi]
    rfl
  unfold tageLookup
  rw [get_bind hfold, hslots, some_bind, search_eq h]
  · refine ⟨_, rfl, ?_⟩
    have hsame : Same p.nTables (searched p pc _ _)
        (searched p pc (p.tageLookup pc pos).idx (p.tageLookup pc pos).tag) :=
      searched_same (fun i hi => congrArg Prod.fst (hget i hi)) (fun i hi => congrArg Prod.snd (hget i hi))
    rw [← tageLookup_eq_searched] at hsame
    exact hsame
  · intro i hi
    rw [hget i hi]
    exact idx_lt htage pc pos i

/-! ### Prediction and recovery -/

/-- A push on the return stack wraps inside it. -/
theorem rasPush_eq (h : Fits z p) (addr : Word) : rasPush z p addr = some (p.rasPush addr) := by
  unfold rasPush
  rw [mod_bind h.rasSize_ne, set_bind (h.rasSlot_lt _)]
  rfl

theorem checkpoint_eq (h : Fits z p) : checkpoint z p = some p.checkpoint := by
  have htop : rasTop z p = some p.checkpoint.rasTop := by
    unfold rasTop Predictor.checkpoint
    dsimp only
    by_cases hn : p.rasN ≠ 0
    · rw [if_pos hn, if_pos hn, mod_bind h.rasSize_ne, get_eq _ (h.rasSlot_lt _)]
    · rw [if_neg hn, if_neg hn]
  unfold checkpoint
  rw [htop, some_bind]
  rfl

theorem direction_eq (h : Fits z p) (pc : Word) {i : Nat} (hi : i < z.pht) :
    direction z p pc i = some (if p.nTables ≠ 0 then (p.tageLookup pc p.histPos).pred
      else decide (p.pht i ≥ 2)) := by
  unfold direction
  by_cases ht : p.nTables ≠ 0
  · obtain ⟨l, h1, h2⟩ := tageLookup_eq h ht pc p.histPos
    rw [if_pos ht, if_pos ht, h1, some_bind, h2.pred]
    rfl
  · rw [if_neg ht, if_neg ht, get_bind hi]
    rfl

/-- A prediction accesses no array out of bounds, and computes what the model does. -/
theorem predict_eq (h : Fits z p) (hbits : ∀ i, p.histBits i ≤ 1) (pc : Word) :
    predict z p pc = some (p.predict pc) := by
  unfold predict Predictor.predict
  rw [checkpoint_eq h, some_bind, btbFind_eq h, some_bind, found]
  cases hl : p.btbLookup pc with
  | none => rfl
  | some i =>
      have hi := btbLookup_lt h hl
      have htouch : Fits z (p.btbTouch i) := h.congr rfl
      dsimp only
      rw [get_bind hi]
      -- `btbFind` has touched the entry, which changes neither kind nor target
      have hkind : ((p.btbTouch i).btb i).kind = (p.btb i).kind := by
        show (Function.update p.btb i { p.btb i with lastUse := p.btbClock + 1 } i).kind = _
        rw [Function.update_self]
      have htarget : ((p.btbTouch i).btb i).target = (p.btb i).target := by
        show (Function.update p.btb i { p.btb i with lastUse := p.btbClock + 1 } i).target = _
        rw [Function.update_self]
      rw [hkind, htarget]
      cases (p.btb i).kind with
      | COND =>
          dsimp only
          rw [direction_eq htouch pc (h.phtIndex_lt pc), some_bind, pushHistory_eq htouch hbits, some_bind]
          rfl
      | UNCOND => rfl
      | CALL =>
          dsimp only
          rw [rasPush_eq htouch, some_bind]
          rfl
      | RET =>
          dsimp only
          -- an empty return stack is not read
          by_cases hn : (p.btbTouch i).rasN > 0
          · rw [if_pos hn, if_pos hn, mod_bind htouch.rasSize_ne, get_bind (htouch.rasSlot_lt _)]
            rfl
          · rw [if_neg hn, if_neg hn]
            rfl

/-- So does restoring a checkpoint, whatever it holds. -/
theorem restore_eq (h : Fits z p) (cp : Checkpoint) : restore z p cp = some (p.restore cp) := by
  unfold restore Predictor.restore
  have hback : Fits z (if p.nTables ≠ 0 then { p with histPos := cp.hist } else { p with ghr := cp.hist }) :=
    h.congr (by split <;> rfl)
  dsimp only
  -- the history goes back first; what it is does not matter to the stack
  generalize (if p.nTables ≠ 0 then { p with histPos := cp.hist } else { p with ghr := cp.hist } : Predictor) = q
    at hback ⊢
  by_cases hr : q.rasRepair = true
  · rw [if_pos hr, if_pos hr]
    by_cases hn : cp.rasN ≠ 0
    · rw [if_pos hn, if_pos hn, mod_bind hback.rasSize_ne, set_bind (hback.rasSlot_lt _)]
      rfl
    · rw [if_neg hn, if_neg hn]
  · rw [if_neg hr, if_neg hr]

/-- So does replaying a mispredicted instruction. -/
theorem replay_eq (h : Fits z p) (hbits : ∀ i, p.histBits i ≤ 1) (pc : Word) (ins : Instr) (taken : Bool) :
    replay z p pc ins taken = some (p.replay pc ins taken) := by
  unfold replay Predictor.replay
  cases kindOf ins with
  | COND => exact pushHistory_eq h hbits taken
  | UNCOND => rfl
  | CALL =>
      dsimp only
      by_cases hr : p.rasRepair = true
      · rw [if_pos hr, if_pos hr]
        exact rasPush_eq h _
      · rw [if_neg hr, if_neg hr]
  | RET =>
      dsimp only
      by_cases hr : p.rasRepair = true ∧ p.rasN > 0
      · rw [if_pos hr, if_pos hr]
      · rw [if_neg hr, if_neg hr]

/-! ### Training -/

/-- A lookup whose tables and indices are inside the arrays. -/
structure Inside (z : ArraySizes) (n : Nat) (l : Lookup) : Prop where
  provider : ∀ t, l.provider = some t → t < n
  idx : ∀ i < n, l.idx i < z.entries

theorem tageLookup_inside (h : Fits z p) (ht : p.nTables ≠ 0) (pc : Word) (pos : Nat) :
    Inside z p.nTables (p.tageLookup pc pos) where
  provider := by
    intro t hprov
    rw [tageLookup_eq_searched] at hprov
    exact searched_provider_lt hprov
  idx := fun i _ => idx_lt (h.tage ht) pc pos i

section Train

variable {l l' : Lookup} {taken : Bool}

theorem tageTrain_eq (h : Fits z p) (hs : Same p.nTables l l') (hl : Inside z p.nTables l') (pc : Word) :
    tageTrain z p l pc taken = some (p.tageTrain l' pc taken) := by
  unfold tageTrain Predictor.tageTrain
  dsimp only
  rw [get_bind (h.phtSlot_lt _), hs.provider]
  cases hprov : l'.provider with
  | none =>
      dsimp only
      rw [set_bind (h.phtSlot_lt _)]
      rfl
  | some t =>
      have ht := hl.provider t hprov
      have hfit : ∀ c : Int, Fits z { p with useAltOnWeak := c } := fun c => h.congr rfl
      -- the entry is written after `useAltOnWeak` may have moved
      have hset : ∀ (c : Int) (e : TageEntry), setEntry z { p with useAltOnWeak := c } t (l'.idx t) e =
          some (({ p with useAltOnWeak := c } : Predictor).setTage t (l'.idx t) e) :=
        fun c e => setEntry_eq (hfit c) ht (hl.idx t ht) e
      dsimp only
      rw [hs.idx t ht, hs.providerPred, hs.altPred, hs.weak, hs.alt, entry_eq h ht (hl.idx t ht), some_bind, hset,
        some_bind]
      -- the base counter is trained too when it was the alternative of a weak entry
      by_cases hbase : l'.alt = none ∧ l'.weak = true
      · rw [if_pos hbase, if_pos hbase]
        exact (set_bind (h.phtSlot_lt _) _)
      · rw [if_neg hbase, if_neg hbase]
        rfl

/-- Ageing the longer tables, one at a time. -/
theorem ageLonger_eq (h : Fits z p) (hs : ∀ i < p.nTables, l.idx i = l'.idx i) (hl : ∀ i < p.nTables, l'.idx i < z.entries)
    {js : List Nat} (hjs : ∀ j ∈ js, j < p.nTables) :
    js.foldlM (fun p j => do
      let e ← entry z p j (l.idx j)
      if e.u > 0 then setEntry z p j (l.idx j) { e with u := e.u - 1 } else return p) p =
    some (js.foldl (fun p j =>
      let e := p.tables j (l'.idx j)
      if e.u > 0 then p.setTage j (l'.idx j) { e with u := e.u - 1 } else p) p) := by
  -- the invariant of the loop is the shape: entries are all that changes
  refine foldlM_eq (I := fun q => q.shape = p.shape) (fun j hj q hq => ?_) rfl
  have hfit : Fits z q := h.congr hq
  have hn : q.nTables = p.nTables := congrArg Shape.nTables hq
  have hlt : j < q.nTables := hn ▸ hjs j hj
  have hidx := hl j (hjs j hj)
  dsimp only
  rw [hs j (hjs j hj), entry_eq hfit hlt hidx, some_bind]
  by_cases hu : (q.tables j (l'.idx j)).u > 0
  · rw [if_pos hu, if_pos hu]
    exact ⟨setEntry_eq hfit hlt hidx _, hq⟩
  · rw [if_neg hu, if_neg hu]
    exact ⟨rfl, hq⟩

/-- The model's allocation among the tables from `start` on. -/
def allocated (p : Predictor) (l : Lookup) (taken : Bool) (start : Nat) : Predictor :=
  let p := { p with lfsr := (p.lfsr >>> 1) ^^^ ((-(p.lfsr &&& 1#32)) &&& 0xb400#32) }
  let longer := (List.range (p.nTables - start)).map (start + ·)
  let free := longer.filter fun j => (p.tables j (l.idx j)).u == 0
  match free[0]? with
  | none => longer.foldl (fun p j =>
      let e := p.tables j (l.idx j)
      if e.u > 0 then p.setTage j (l.idx j) { e with u := e.u - 1 } else p) p
  | some first =>
      let j := match free[1]? with
        | some second => if p.lfsr &&& 3#32 = 0#32 then second else first
        | none => first
      p.setTage j (l.idx j) { tag := l.tag j % 2 ^ 16, ctr := if taken then 0 else -1, u := 0 }

theorem tageAllocate_eq_allocated (p : Predictor) (l : Lookup) (taken : Bool) :
    p.tageAllocate l taken = allocated p l taken (firstLonger l) := rfl

theorem tageAllocate_eq (h : Fits z p) (hs : Same p.nTables l l') (hl : Inside z p.nTables l') :
    tageAllocate z p l taken = some (p.tageAllocate l' taken) := by
  have hstart : firstLonger l = firstLonger l' := by rw [firstLonger, hs.provider, firstLonger]
  rw [tageAllocate_eq_allocated]
  unfold tageAllocate allocated
  rw [hstart]
  generalize firstLonger l' = start
  dsimp only
  generalize (p.lfsr >>> 1) ^^^ ((-(p.lfsr &&& 1#32)) &&& 0xb400#32) = lfsr
  have hfit : Fits z { p with lfsr := lfsr } := h.congr rfl
  -- tables with a longer history than the provider, up to the last
  have hlonger : ∀ j ∈ (List.range (p.nTables - start)).map (start + ·), j < p.nTables := by
    intro j hj
    obtain ⟨k, hk, rfl⟩ := List.mem_map.mp hj
    have := List.mem_range.mp hk
    omega
  generalize (List.range (p.nTables - start)).map (start + ·) = longer at hlonger ⊢
  -- the scan keeps two free tables, and the register chooses between them
  have hscan : firstTwo (fun j => do
      let e ← entry z { p with lfsr := lfsr } j (l.idx j)
      return e.u == 0) longer =
        some ((longer.filter fun j => (p.tables j (l'.idx j)).u == 0)[0]?,
          (longer.filter fun j => (p.tables j (l'.idx j)).u == 0)[1]?) := by
    apply firstTwo_eq
    intro j hj
    have hj := hlonger j hj
    rw [hs.idx j hj, entry_eq hfit hj (hl.idx j hj)]
    rfl
  have hfree : ∀ k j, (longer.filter fun j => (p.tables j (l'.idx j)).u == 0)[k]? = some j → j < p.nTables :=
    fun k j hj => hlonger j (List.mem_of_mem_filter (List.mem_of_getElem? hj))
  rw [hscan, some_bind]
  dsimp only
  generalize (longer.filter fun j => (p.tables j (l'.idx j)).u == 0) = free at hfree ⊢
  cases h0 : free[0]? with
  | none =>
      dsimp only
      -- no table is free: all of them age instead
      exact ageLonger_eq hfit hs.idx hl.idx hlonger
  | some first =>
      have hfirst := hfree 0 first h0
      dsimp only
      cases h1 : free[1]? with
      | none =>
          dsimp only
          rw [hs.idx first hfirst, hs.tag first hfirst]
          exact setEntry_eq hfit hfirst (hl.idx first hfirst) _
      | some second =>
          have hsecond := hfree 1 second h1
          dsimp only
          split
          · rw [hs.idx second hsecond, hs.tag second hsecond]
            exact setEntry_eq hfit hsecond (hl.idx second hsecond) _
          · rw [hs.idx first hfirst, hs.tag first hfirst]
            exact setEntry_eq hfit hfirst (hl.idx first hfirst) _

theorem tageUpdate_eq_earns (p : Predictor) (pc : Word) (taken : Bool) (pos : Nat) :
    p.tageUpdate pc taken pos =
      (if earns (p.tageTrain (p.tageLookup pc pos) pc taken) (p.tageLookup pc pos) taken then
        (p.tageTrain (p.tageLookup pc pos) pc taken).tageAllocate (p.tageLookup pc pos) taken
      else p.tageTrain (p.tageLookup pc pos) pc taken).tageAge := rfl

/-- So does the update of the tagged tables, allocation and aging included. -/
theorem tageUpdate_eq (h : Fits z p) (ht : p.nTables ≠ 0) (pc : Word) (pos : Nat) :
    tageUpdate z p pc taken pos = some (p.tageUpdate pc taken pos) := by
  obtain ⟨l, h1, hs⟩ := tageLookup_eq h ht pc pos
  have hl := tageLookup_inside h ht pc pos
  have hshape : (p.tageTrain (p.tageLookup pc pos) pc taken).shape = p.shape :=
    congrArg (·.history.shape) (tageTrain_speculative (p.tageLookup pc pos) pc taken)
  have hfit : Fits z (p.tageTrain (p.tageLookup pc pos) pc taken) := h.congr hshape
  have hn : (p.tageTrain (p.tageLookup pc pos) pc taken).nTables = p.nTables := congrArg Shape.nTables hshape
  rw [tageUpdate_eq_earns]
  unfold tageUpdate tageMiss
  rw [h1, some_bind, tageTrain_eq h hs hl, some_bind]
  generalize p.tageTrain (p.tageLookup pc pos) pc taken = q at hfit hn ⊢
  -- the two lookups agree on all that decides whether to allocate
  have hearns : earns q l taken = earns q (p.tageLookup pc pos) taken := by
    rw [earns, earns, hs.pred, hs.provider]
  rw [hearns]
  by_cases hmiss : earns q (p.tageLookup pc pos) taken = true
  · rw [if_pos hmiss, if_pos hmiss, tageAllocate_eq hfit (by rw [hn]; exact hs) (by rw [hn]; exact hl), some_bind]
    rfl
  · rw [if_neg hmiss, if_neg hmiss]
    rfl

end Train

/-! ### The BTB -/

/-- The loop over the ways ends with the first free way, or the least recently used. -/
theorem victimLoop_eq {ways : List Nat} {b : Nat} (hways : ∀ i ∈ ways, i < z.btb) (hb : b < z.btb) :
    victimLoop z p ways b = some (match ways.find? fun i => !(p.btb i).valid with
      | some i => i
      | none => ways.foldl (fun b i => if (p.btb i).lastUse < (p.btb b).lastUse then i else b) b) := by
  induction ways generalizing b with
  | nil => rfl
  | cons i ways ih =>
      have hi := hways i List.mem_cons_self
      have hrest := fun j hj => hways j (List.mem_cons_of_mem _ hj)
      -- the loop stops at the first free way; until then `b` is the oldest seen
      rw [victimLoop, get_bind hi, List.find?_cons]
      by_cases hv : (!(p.btb i).valid) = true
      · rw [if_pos hv, hv]
        rfl
      · rw [if_neg hv, get_bind hb, ih hrest (by split <;> assumption), Bool.eq_false_iff.mpr hv]
        rfl

theorem btbWay_eq (h : Fits z p) (pc : Word) (t : Option Nat) :
    btbWay z p pc t = some (match t with
      | some i => i
      | none => p.btbVictim pc) := by
  cases t with
  | some i => rfl
  | none =>
      have hbase : p.btbBase pc < z.btb := h.way_lt pc h.ways_pos
      have hloop := victimLoop_eq (p := p) (fun i hi => h.mem_ways_lt pc hi) hbase
      unfold btbWay
      rw [mod_bind (Nat.ne_of_gt h.sets_pos)]
      unfold btbBase at hloop hbase
      dsimp only
      rw [get_bind hbase, hloop]
      rfl

/-- A victim is a way of the set of `pc`. -/
theorem btbVictim_mem (p : Predictor) (hways : 0 < p.btbWays) (pc : Word) :
    p.btbVictim pc ∈ (List.range p.btbWays).map (p.btbBase pc + ·) := by
  have hbase : p.btbBase pc ∈ (List.range p.btbWays).map (p.btbBase pc + ·) :=
    List.mem_map.mpr ⟨0, List.mem_range.mpr hways, rfl⟩
  unfold btbVictim
  dsimp only
  generalize (List.range p.btbWays).map (p.btbBase pc + ·) = ways at hbase ⊢
  split
  · next i hi => exact List.mem_of_find?_eq_some hi
  · -- the loop's candidate is the base or a way seen
    have hloop : ∀ (l : List Nat) (b : Nat), b ∈ ways → (∀ i ∈ l, i ∈ ways) →
        l.foldl (fun b i => if (p.btb i).lastUse < (p.btb b).lastUse then i else b) b ∈ ways := by
      intro l
      induction l with
      | nil => exact fun b hb _ => hb
      | cons i l ih =>
          intro b hb hl
          refine ih _ ?_ fun j hj => hl j (List.mem_cons_of_mem _ hj)
          dsimp only
          split
          · exact hl i List.mem_cons_self
          · exact hb
    exact hloop ways _ hbase fun i hi => hi

/-- So does an update of the target buffer: the victim is one of the ways. -/
theorem btbUpdate_eq (h : Fits z p) (pc target : Word) (k : PredKind) :
    btbUpdate z p pc target k = some (p.btbUpdate pc target k) := by
  unfold btbUpdate Predictor.btbUpdate
  rw [btbFind_eq h, some_bind, found]
  cases hl : p.btbLookup pc with
  | none =>
      have hi := h.mem_ways_lt pc (btbVictim_mem p h.ways_pos pc)
      dsimp only
      rw [btbWay_eq h, some_bind]
      dsimp only
      rw [set_bind hi]
      rfl
  | some i =>
      have hi := btbLookup_lt h hl
      have htouch : Fits z (p.btbTouch i) := h.congr rfl
      dsimp only
      rw [btbWay_eq htouch, some_bind]
      dsimp only
      rw [set_bind hi]
      rfl

/-- What the model's direction predictor learns. -/
def learned (p : Predictor) (pc : Word) (k : PredKind) (taken : Bool) (phtIdx : Nat) (before : Checkpoint) :
    Predictor :=
  if k = .COND then
    if p.nTables ≠ 0 then p.tageUpdate pc taken before.hist
    else { p with pht := Function.update p.pht phtIdx (nudge2 (p.pht phtIdx) taken) }
  else p

theorem update_eq_learned (p : Predictor) (pc : Word) (ins : Instr) (taken : Bool) (target : Word) (phtIdx : Nat)
    (before : Checkpoint) : p.update pc ins taken target phtIdx before =
      if taken then (learned p pc (kindOf ins) taken phtIdx before).btbUpdate pc target (kindOf ins)
      else learned p pc (kindOf ins) taken phtIdx before := rfl

theorem learned_shape (p : Predictor) (pc : Word) (k : PredKind) (taken : Bool) (phtIdx : Nat) (before : Checkpoint) :
    (learned p pc k taken phtIdx before).shape = p.shape := by
  unfold learned
  split
  · split
    · exact congrArg (·.history.shape) (tageUpdate_speculative pc taken before.hist)
    · rfl
  · rfl

theorem train_eq (h : Fits z p) (pc : Word) (k : PredKind) (taken : Bool) {phtIdx : Nat} (hidx : phtIdx < z.pht)
    (before : Checkpoint) :
    train z p pc k taken phtIdx before = some (learned p pc k taken phtIdx before) := by
  unfold train learned
  by_cases hk : k = .COND
  · rw [if_pos hk, if_pos hk]
    by_cases ht : p.nTables ≠ 0
    · rw [if_pos ht, if_pos ht, tageUpdate_eq h ht]
    · rw [if_neg ht, if_neg ht, get_bind hidx, set_bind hidx]
      rfl
  · rw [if_neg hk, if_neg hk]

/-- So does training, with the index the prediction handed out. -/
theorem update_eq (h : Fits z p) (pc : Word) (ins : Instr) (taken : Bool) (target : Word) {phtIdx : Nat}
    (hidx : phtIdx < z.pht) (before : Checkpoint) :
    update z p pc ins taken target phtIdx before = some (p.update pc ins taken target phtIdx before) := by
  have hfit := h.congr (learned_shape p pc (kindOf ins) taken phtIdx before)
  rw [update_eq_learned]
  unfold update
  rw [train_eq h pc _ taken hidx, some_bind]
  by_cases ht : taken = true
  · rw [if_pos ht, if_pos ht]
    exact btbUpdate_eq hfit pc target _
  · rw [if_neg ht, if_neg ht]
    rfl

end Arrays

/-- The constructor's shifts are below 32, and its loop reaches the bound. -/
theorem construct_eq {c₀ cfg : SimConfig} (hcfg : validateConfig c₀ = .ok cfg)
    (hbound : cfg.tageTables ≠ 0 → ringBound cfg ≤ 2 ^ 31) (histLen : Nat → Nat) :
    construct cfg histLen = some (init cfg histLen) := by
  have hbits := predictorInRange hcfg
  have hways := (validateConfig_ok hcfg).btbWays_pos
  have h1 : shl 1 cfg.phtBits = some (1 <<< cfg.phtBits) := shl_eq (by have := hbits.1.2; omega) (Nat.le_refl 1)
  have h2 : shl 1 cfg.ghrBits = some (1 <<< cfg.ghrBits) := shl_eq (by have := hbits.2; omega) (Nat.le_refl 1)
  unfold construct
  rw [h1, some_bind, h2, some_bind, div_eq _ (by omega : cfg.btbWays ≠ 0), some_bind]
  by_cases ht : cfg.tageTables = 0
  · rw [if_pos ht]
    rfl
  · have htage := (tageInRange hcfg ht).tableBits
    obtain ⟨n, hn, hstop, -⟩ := exists_ring ht (hbound ht)
    have hend : ringBound cfg % 2 ^ 32 ≤ ringSize (ringBound cfg % 2 ^ 32) 32 64 := by
      rw [ringSize_of_stopsAt hstop (by omega)]
      exact hstop.2
    rw [if_neg ht, shl_bind (by omega) (Nat.le_refl 1)]
    dsimp only
    rw [if_pos hend]
    rfl

end Predictor

end RvO3
