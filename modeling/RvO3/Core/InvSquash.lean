import RvO3.Core.InvLsq
import RvO3.Lib.UndoLog

/-!
# Recovery

What `recover(seq)` does to each structure (`RecoverSpec`), and that the back-end
invariant survives it: every structure is cut at the same sequence number.
-/

set_option autoImplicit false

namespace RvO3

open OoOCore

/-! ## Undoing renames -/

/-- The rename an entry made, if it has a destination. -/
def RobEntry.write (e : RobEntry) : Option (Write Reg Nat) :=
  if e.pdst ≠ kNoReg then some ⟨e.ins.rd, e.prevPhys, e.pdst⟩ else none

/-- The renames of a list of entries. -/
def renames (es : List RobEntry) : List (Write Reg Nat) := es.filterMap RobEntry.write

/-- The map with the renames of a suffix of the ROB undone, the youngest first. -/
def undo (es : List RobEntry) (m : Reg → Nat) : Reg → Nat := undoAll (renames es) m

/-- The registers a squash returns, in the order it pushes them. -/
def returned (es : List RobEntry) : List Nat := ((renames es).map Write.new).reverse

theorem renames_append (es fs : List RobEntry) : renames (es ++ fs) = renames es ++ renames fs :=
  List.filterMap_append

/-- Undoing two stretches of entries undoes the younger first. -/
theorem undo_append (es fs : List RobEntry) (m : Reg → Nat) :
    undo (es ++ fs) m = undo es (undo fs m) := by
  rw [undo, renames_append, undoAll_append]
  rfl

theorem renames_singleton (e : RobEntry) : renames [e] = e.write.toList := by
  unfold renames
  cases h : e.write <;> simp [h]

/-! ## The two walks -/

section Walks

variable {M : Type}

/-- What a walk from the tail leaves of a ring. -/
structure Cut {α : Type} (f : Nat → Nat) (seq : Nat) (r r' : Ring α) : Prop where
  e : r'.e = r.e
  capacity : r'.capacity = r.capacity
  headIdx : r'.headIdx = r.headIdx
  wf : r'.Wf
  slots : r'.slots = r.slots.filter fun i => decide (f i ≤ seq)

/-- A ring whose youngest entry is old enough is its own cut. -/
theorem Cut.refl_of_last {α : Type} {f : Nat → Nat} {seq : Nat} {r : Ring α} (h : r.Wf)
    (hs : (r.slots.map f).Pairwise (· < ·)) (hlast : r.n = 0 ∨ f r.tailIdx ≤ seq) :
    Cut f seq r r := by
  refine ⟨rfl, rfl, rfl, h, ?_⟩
  by_cases hn : r.n = 0
  · have : r.slots = [] := by rw [← List.length_eq_zero_iff, Ring.length_slots, hn]
    rw [this]
    rfl
  · have hl := hlast.resolve_left hn
    have hap := Ring.slots_eq_append hn
    rw [hap] at hs ⊢
    exact (filter_le_of_last hs hl).symm

/-- Cutting a ring whose youngest entry is too young begins by taking that entry off. -/
theorem Cut.of_popTail {α : Type} {f : Nat → Nat} {seq : Nat} {r r' : Ring α} (hn : r.n ≠ 0)
    (hlast : seq < f r.tailIdx) (h : Cut f seq r.popTail r') : Cut f seq r r' := by
  refine ⟨h.e, h.capacity, h.headIdx, h.wf, ?_⟩
  rw [h.slots, Ring.slots_eq_append hn, filter_le_append_of_lt hlast]

theorem sorted_popTail {α : Type} {f : Nat → Nat} {r : Ring α} (hn : r.n ≠ 0)
    (hs : (r.slots.map f).Pairwise (· < ·)) : (r.popTail.slots.map f).Pairwise (· < ·) := by
  rw [Ring.slots_eq_append hn] at hs
  exact sorted_of_append hs

theorem mem_of_mem_popTail {α : Type} {r : Ring α} {i : Nat} (h : i ∈ r.popTail.slots) :
    i ∈ r.slots := by
  rw [Ring.slots_popTail] at h
  exact List.mem_of_mem_dropLast h

theorem tailIdx_mem {α : Type} {r : Ring α} (hn : r.n ≠ 0) : r.tailIdx ∈ r.slots := by
  rw [Ring.slots_eq_append hn]
  simp

/-- The squash of the LSQ takes off exactly the entries younger than `seq`, and takes their bits out
of every work set. By induction on a bound for the entries that are left. -/
theorem squashLsq_spec (seq : Nat) (n : Nat) : ∀ q : LSQ, q.Wf → q.ring.n ≤ n →
    (∀ j ∈ q.ring.slots, (q.at' j).isStore = true → (q.at' j).issued = false) →
    (q.ring.slots.map fun j => (q.at' j).seq).Pairwise (· < ·) →
    (squashLsq seq n q).Wf ∧ (squashLsq seq n q).genCtr = q.genCtr ∧
      Cut (fun j => (q.at' j).seq) seq q.ring (squashLsq seq n q).ring := by
  induction n with
  | zero =>
      intro q h hn hst hs
      exact ⟨h, rfl, Cut.refl_of_last h.ring hs (Or.inl (by omega))⟩
  | succ n ih =>
      intro q h hn hst hs
      unfold squashLsq
      split
      · rename_i hc
        have hmem := tailIdx_mem hc.1
        have hp := h.popTail hc.1 (hst _ hmem)
        obtain ⟨h1, h2, h3⟩ := ih q.popTail hp
          (by have := hc.1; show q.ring.n - 1 ≤ n; omega)
          (fun j hj => hst j (mem_of_mem_popTail hj)) (sorted_popTail hc.1 hs)
        exact ⟨h1, h2, Cut.of_popTail hc.1 hc.2 h3⟩
      · rename_i hc
        refine ⟨h, rfl, Cut.refl_of_last h.ring hs ?_⟩
        by_cases hz : q.ring.n = 0
        · exact Or.inl hz
        · right
          have : ¬ q.ring.tail.seq > seq := fun hgt => hc ⟨hz, hgt⟩
          exact Nat.le_of_not_lt this

/-- What the ROB walk does. -/
structure SquashRobSpec (seq : Nat) (c c' : OoOCore M) : Prop where
  rob : Cut (robSeq c.rob) seq c.rob c'.rob
  rmap : c'.rmap =
    undo ((c.rob.slots.filter fun i => decide (seq < robSeq c.rob i)).map c.rob.e) c.rmap
  freeList : c'.freeList =
    (returned ((c.rob.slots.filter fun i => decide (seq < robSeq c.rob i)).map c.rob.e)).foldl
      Ring.push c.freeList
  frame : c' = { c with rob := c'.rob, rmap := c'.rmap, freeList := c'.freeList }

theorem returned_concat (es : List RobEntry) (e : RobEntry) :
    returned (es ++ [e]) =
      (if e.pdst ≠ kNoReg then [e.pdst] else []) ++ returned es := by
  unfold returned
  rw [renames_append, renames_singleton, RobEntry.write]
  by_cases hp : e.pdst ≠ kNoReg
  · simp [hp]
  · simp [hp]

theorem filter_lt_append {f : Nat → Nat} {l : List Nat} {x seq : Nat} (hx : seq < f x) :
    (l ++ [x]).filter (fun i => decide (seq < f i)) =
      (l.filter fun i => decide (seq < f i)) ++ [x] := by
  rw [List.filter_append]
  simp [hx]

/-- The state after one round of the walk. -/
def squashOne (c : OoOCore M) : OoOCore M :=
  { c with
    rob := c.rob.popTail
    rmap := undo [c.rob.tail] c.rmap
    freeList := if c.rob.tail.pdst ≠ kNoReg then c.freeList.push c.rob.tail.pdst
      else c.freeList }

theorem squashRob_succ {seq n : Nat} {c : OoOCore M} (hc : c.rob.n ≠ 0 ∧ c.rob.tail.seq > seq) :
    squashRob seq (n + 1) c = squashRob seq n (squashOne c) := by
  rw [squashRob, if_pos hc]
  dsimp only
  unfold squashOne undo
  rw [renames_singleton, RobEntry.write]
  by_cases hp : c.rob.tail.pdst ≠ kNoReg
  · rw [if_pos hp, if_pos hp, if_pos hp]
    rfl
  · rw [if_neg hp, if_neg hp, if_neg hp]
    rfl

/-- One round of the walk. -/
theorem SquashRobSpec.step {seq : Nat} {c c' : OoOCore M} (hn : c.rob.n ≠ 0)
    (hlast : seq < robSeq c.rob c.rob.tailIdx)
    (h : SquashRobSpec seq (squashOne c) c') : SquashRobSpec seq c c' := by
  have hslots := Ring.slots_eq_append hn
  have hfil : (c.rob.slots.filter fun i => decide (seq < robSeq c.rob i)).map c.rob.e =
      (c.rob.popTail.slots.filter fun i => decide (seq < robSeq c.rob i)).map c.rob.e ++
        [c.rob.tail] := by
    conv_lhs => rw [hslots]
    rw [filter_lt_append (f := robSeq c.rob) hlast, List.map_append]
    rfl
  refine ⟨Cut.of_popTail hn hlast h.rob, ?_, ?_, h.frame⟩
  · rw [hfil, undo_append]
    exact h.rmap
  · rw [hfil, returned_concat, List.foldl_append]
    apply h.freeList.trans
    congr 1
    show (if c.rob.tail.pdst ≠ kNoReg then c.freeList.push c.rob.tail.pdst
      else c.freeList) = _
    split <;> rfl

/-- The squash of the ROB takes off exactly the entries younger than `seq`, youngest first; each
gives its mapping and its register back. By induction on a bound for the entries that are left. -/
theorem squashRob_spec (seq n : Nat) : ∀ c : OoOCore M, c.rob.Wf → c.rob.n ≤ n →
    (c.rob.slots.map (robSeq c.rob)).Pairwise (· < ·) →
    SquashRobSpec seq c (squashRob seq n c) := by
  -- where the loop stops the youngest entry is old enough, so all are
  have hstop : ∀ c : OoOCore M, c.rob.Wf → (c.rob.slots.map (robSeq c.rob)).Pairwise (· < ·) →
      (c.rob.n = 0 ∨ robSeq c.rob c.rob.tailIdx ≤ seq) → SquashRobSpec seq c c := by
    intro c h hs hlast
    have hcut := Cut.refl_of_last h hs hlast
    have hnil : (c.rob.slots.filter fun i => decide (seq < robSeq c.rob i)) = [] := by
      rw [List.filter_eq_nil_iff]
      intro i hi
      rw [hcut.slots] at hi
      have := (List.mem_filter.mp hi).2
      simpa using this
    refine ⟨hcut, ?_, ?_, rfl⟩
    · rw [hnil]
      rfl
    · rw [hnil]
      rfl
  -- on the fuel, which is at least the number of entries
  induction n with
  | zero =>
      intro c h hn hs
      exact hstop c h hs (Or.inl (by omega))
  | succ n ih =>
      intro c h hn hs
      by_cases hc : c.rob.n ≠ 0 ∧ c.rob.tail.seq > seq
      · rw [squashRob_succ hc]
        refine SquashRobSpec.step hc.1 hc.2 (ih _ h.popTail ?_ (sorted_popTail hc.1 hs))
        have := hc.1
        show c.rob.n - 1 ≤ n
        omega
      · rw [squashRob, if_neg hc]
        apply hstop c h hs
        by_cases hz : c.rob.n = 0
        · exact Or.inl hz
        · right
          have : ¬ c.rob.tail.seq > seq := fun hgt => hc ⟨hz, hgt⟩
          exact Nat.le_of_not_lt this

end Walks

/-! ## What recovery does -/

section Recover

variable {M : Type} {c c' : OoOCore M} {seq : Nat}

/-- The entries of the ROB younger than `seq`. -/
def squashed (c : OoOCore M) (seq : Nat) : List RobEntry :=
  (c.rob.slots.filter fun i => decide (seq < robSeq c.rob i)).map c.rob.e

/-- What `recover` leaves of the back end: every structure is what it was, cut at `seq`. The ROB,
the LSQ and the queue keep the slots of what stays. -/
structure RecoverSpec (c : OoOCore M) (seq : Nat) (c' : OoOCore M) : Prop where
  rob : Cut (robSeq c.rob) seq c.rob c'.rob
  lsqWf : c'.lsq.Wf
  lsqGen : c'.lsq.genCtr = c.lsq.genCtr
  lsq : Cut (fun j => (c.lsq.at' j).seq) seq c.lsq.ring c'.lsq.ring
  iqWf : c'.iq.Wf
  iqRobSize : c'.iq.robSize = c.iq.robSize
  iq : ∀ s, IssueQueue.Flushed seq c.iq c'.iq s
  units : c'.units = c.units.map fun u => u.flushYounger seq
  agus : c'.agus = c.agus.map fun u => u.flushYounger seq
  loadOuts : c'.loadOuts = c.loadOuts.map (FuOp.killYounger seq)
  wbReady : c'.wbReady = c.wbReady.filter fun s => (c'.outAt s).valid
  rmap : c'.rmap = undo (squashed c seq) c.rmap
  freeList : c'.freeList = (returned (squashed c seq)).foldl Ring.push c.freeList
  fetchQ : c'.fetchQ = c.fetchQ.clear
  fStale : c'.fStale = (c.fOutstanding || c.fStale)
  log : c'.log = c.log ++ [.recover seq]
  frame : c' = { c with
    rob := c'.rob, lsq := c'.lsq, iq := c'.iq, units := c'.units, agus := c'.agus
    loadOuts := c'.loadOuts, wbReady := c'.wbReady, rmap := c'.rmap, freeList := c'.freeList
    fetchQ := c'.fetchQ, fStale := c'.fStale, log := c'.log }

/-- The LSQ is in program order too. -/
theorem LsqOk.sorted {r : Ring RobEntry} {q : LSQ} {seqCtr : Nat} (h : LsqOk r q)
    (hr : RobOk r seqCtr) : (q.ring.slots.map fun j => (q.at' j).seq).Pairwise (· < ·) := by
  have heq : (q.ring.slots.map fun j => (q.at' j).seq) =
      (q.ring.slots.map (lsqRob q)).map (robSeq r) := by
    rw [List.map_map]
    apply List.map_congr_left
    intro j hj
    exact h.seq_eq hj
  rw [heq, h.slots]
  exact hr.sorted.sublist (List.filter_sublist.map _)

/-- What a squash does to every table: the ROB and the LSQ are cut at `seq`, the issue queue, the
units and the load outputs keep what is not younger, and the rename map and the free list are wound
back. -/
theorem recover_spec (h : BackOk c) (seq : Nat) : RecoverSpec c seq (c.recover seq) := by
  obtain ⟨q1, q2, q3⟩ := squashLsq_spec seq c.lsq.ring.n c.lsq h.lsq.wf (Nat.le_refl _)
    (fun j hj hst => ((h.lsq.flags j hj).store hst).1) (h.lsq.sorted h.rob)
  have hwalk := squashRob_spec seq c.rob.n (c.flushBackEnd seq) h.rob.wf (Nat.le_refl _)
    h.rob.sorted
  unfold OoOCore.recover
  dsimp only
  generalize squashRob seq c.rob.n (c.flushBackEnd seq) = c₁ at hwalk
  have hf := hwalk.frame
  exact {
    rob := hwalk.rob
    lsqWf := by rw [hf]; exact q1
    lsqGen := by rw [hf]; exact q2
    lsq := by rw [hf]; exact q3
    iqWf := by rw [hf]; exact h.iq.wf.flushYounger seq
    iqRobSize := by rw [hf]; exact IssueQueue.flushYounger_robSize c.iq seq
    iq := by rw [hf]; exact IssueQueue.flushYounger_spec h.iq.wf seq
    units := by rw [hf]; rfl
    agus := by rw [hf]; rfl
    loadOuts := by rw [hf]; rfl
    wbReady := by rw [hf]; rfl
    rmap := hwalk.rmap
    freeList := hwalk.freeList
    fetchQ := by rw [hf]; rfl
    fStale := by rw [hf]; rfl
    log := by rw [hf]; rfl
    frame := by rw [hf]; rfl }

/-! ## The invariant survives -/

/-- The entries of a cut are the live entries that are not younger than `seq`. -/
theorem Cut.mem {α : Type} {f : Nat → Nat} {r r' : Ring α} (h : Cut f seq r r') {i : Nat} :
    i ∈ r'.slots ↔ i ∈ r.slots ∧ f i ≤ seq := by
  rw [h.slots, List.mem_filter, decide_eq_true_iff]

theorem Cut.robSeq_eq {f : Nat → Nat} {r r' : Ring RobEntry} (h : Cut f seq r r') :
    robSeq r' = robSeq r := by
  funext i
  rw [robSeq, h.e, robSeq]

theorem Cut.lsqAt {f : Nat → Nat} {q q' : LSQ} (h : Cut f seq q.ring q'.ring) : q'.at' = q.at' := by
  funext j
  rw [LSQ.at', h.e, LSQ.at']

/-- The ROB's invariant survives a cut. -/
theorem RobOk.cut {r r' : Ring RobEntry} {seqCtr : Nat} (h : RobOk r seqCtr)
    (hc : Cut (robSeq r) seq r r') : RobOk r' seqCtr := by
  refine ⟨hc.wf, ?_, ?_, ?_, ?_⟩
  · rw [hc.robSeq_eq, hc.slots]
    exact h.sorted.sublist (List.filter_sublist.map _)
  · intro i hi
    rw [hc.robSeq_eq]
    exact h.seq_lt i (hc.mem.mp hi).1
  · intro i hi
    rw [hc.e]
    exact h.consistent i (hc.mem.mp hi).1
  · intro i hi hsys
    rw [hc.e] at hsys
    obtain ⟨h1, h2⟩ := hc.mem.mp hi
    rw [hc.slots, h.alone i h1 hsys]
    simp [h2]

/-- An operation that is not younger than the cut still names its entry. -/
theorem OpNames.cut {r r' : Ring RobEntry} {op : FuOp} (h : OpNames r op)
    (hc : Cut (robSeq r) seq r r') (hs : op.seq ≤ seq) : OpNames r' op := by
  refine ⟨hc.mem.mpr ⟨h.live, ?_⟩, ?_, ?_⟩
  · rw [h.seq]
    exact hs
  · rw [hc.robSeq_eq]
    exact h.seq
  · rw [hc.e]
    exact h.pdst

/-- The ROB and the LSQ cut at the same number stay in step. -/
theorem LsqOk.cut {r r' : Ring RobEntry} {q q' : LSQ} (h : LsqOk r q) (hwf : q'.Wf)
    (hr : Cut (robSeq r) seq r r') (hq : Cut (fun j => (q.at' j).seq) seq q.ring q'.ring) :
    LsqOk r' q' := by
  have hrob : lsqRob q' = lsqRob q := by
    funext j
    rw [lsqRob, hq.lsqAt, lsqRob]
  refine ⟨hwf, ?_, ?_, ?_⟩
  · rw [hrob, hq.slots, hr.slots, hr.e, List.filter_filter]
    have hswap : (r.slots.filter fun i => (r.e i).isMem && decide (robSeq r i ≤ seq)) =
        (r.slots.filter fun i => (r.e i).isMem).filter fun i => decide (robSeq r i ≤ seq) := by
      rw [List.filter_filter]
      apply List.filter_congr
      intro i _
      exact Bool.and_comm _ _
    rw [hswap, ← h.slots, List.filter_map]
    congr 1
    apply List.filter_congr
    intro j hj
    simp only [Function.comp]
    rw [h.seq_eq hj]
  · intro j hj
    rw [hrob, hq.lsqAt, hr.e]
    exact h.agrees j (hq.mem.mp hj).1
  · intro j hj
    rw [hq.lsqAt]
    exact h.flags j (hq.mem.mp hj).1

/-- A named LSQ entry survives with its ROB entry. -/
theorem LsqNames.cut {r : Ring RobEntry} {q q' : LSQ} {i j : Nat} (h : LsqNames q i j)
    (hl : LsqOk r q) (hq : Cut (fun j => (q.at' j).seq) seq q.ring q'.ring)
    (hs : robSeq r i ≤ seq) : LsqNames q' i j := by
  refine ⟨hq.mem.mpr ⟨h.live, ?_⟩, ?_, ?_⟩
  · rw [hl.seq_eq h.live, h.robIdx]
    exact hs
  · rw [lsqRob, hq.lsqAt]
    exact h.robIdx
  · rw [hq.lsqAt]
    exact h.unresolved

/-- An operation that survives is not younger than `seq`, and is unchanged. -/
theorem killYounger_valid {op : FuOp} (h : (op.killYounger seq).valid = true) :
    op.killYounger seq = op ∧ op.valid = true ∧ op.seq ≤ seq := by
  unfold FuOp.killYounger at h ⊢
  split at h
  · cases h
  · rename_i hc
    rw [if_neg hc]
    exact ⟨rfl, h, Nat.le_of_not_lt fun hlt => hc ⟨h, hlt⟩⟩

theorem opSeqs_filter (ops : List FuOp) :
    opSeqs (ops.filter fun op => decide (op.seq ≤ seq)) = (opSeqs ops).filter (· ≤ seq) := by
  unfold opSeqs
  rw [Multiset.filter_coe, List.filter_map]
  rfl

/-- The units keep exactly the numbers up to `seq`. -/
theorem unitsHeld_flush (us : List FuUnit) :
    unitsHeld (us.map fun u => u.flushYounger seq) = (unitsHeld us).filter (· ≤ seq) := by
  unfold unitsHeld
  rw [bag_map, bag_filter]
  apply bag_congr
  intro u _
  rw [FuUnit.ops_flushYounger, opSeqs_filter]

/-- The load outputs keep exactly the numbers up to `seq`. -/
theorem outsHeld_kill (outs : List FuOp) :
    outsHeld (outs.map (FuOp.killYounger seq)) = (outsHeld outs).filter (· ≤ seq) := by
  unfold outsHeld
  rw [bag_map, bag_filter]
  apply bag_congr
  intro op _
  unfold FuOp.killYounger
  by_cases hv : op.valid = true
  · by_cases hs : op.seq > seq
    · rw [if_pos ⟨hv, hs⟩, hv, single_true, Multiset.filter_singleton, if_neg (by omega)]
      rfl
    · rw [if_neg (by omega), hv, single_true, Multiset.filter_singleton, if_pos (by omega)]
  · have hvf : op.valid = false := by simpa using hv
    rw [if_neg (by simp [hvf]), hvf]
    rfl

/-- The units' invariant survives a cut of the ROB with the flush that goes with it. -/
theorem UnitsOk.cut {r r' : Ring RobEntry} {us : List FuUnit} (h : UnitsOk r us)
    (hc : Cut (robSeq r) seq r r') : UnitsOk r' (us.map fun u => u.flushYounger seq) := by
  refine ⟨?_, ?_⟩
  · intro v hv
    obtain ⟨u, hu, rfl⟩ := List.mem_map.mp hv
    exact (h.wf u hu).flushYounger seq
  · intro v hv op hop
    obtain ⟨u, hu, rfl⟩ := List.mem_map.mp hv
    rw [FuUnit.ops_flushYounger, List.mem_filter, decide_eq_true_iff] at hop
    obtain ⟨h1, h2⟩ := h.names u hu op hop.1
    exact ⟨h1.cut hc hop.2, by rw [hc.e]; exact h2⟩

/-- `wbReady` without the outputs that were emptied is what is ready of the units and the load
outputs. -/
theorem ReadyOk.cut {us : List FuUnit} {outs : List FuOp} {ready ready' : List OutSlot}
    (h : ReadyOk us outs ready)
    (hready : ready' = ready.filter fun s => (c'.outAt s).valid)
    (hus : c'.units = us.map fun u => u.flushYounger seq)
    (houts : c'.loadOuts = outs.map (FuOp.killYounger seq)) :
    ReadyOk c'.units c'.loadOuts ready' := by
  -- a result that is left in an output was there before
  have hunit : ∀ i : Nat, (c'.units[i]?.getD default).out.valid = true →
      (us[i]?.getD default).out.valid = true := by
    intro i hv
    rw [hus, List.getElem?_map] at hv
    cases hu : us[i]? with
    | none =>
        rw [hu] at hv
        cases hv
    | some u =>
        rw [hu] at hv
        exact (killYounger_valid hv).2.1
  have hload : ∀ j : Nat, (c'.loadOuts[j]?.getD {}).valid = true → (outs[j]?.getD {}).valid = true := by
    intro j hv
    rw [houts, List.getElem?_map] at hv
    cases hu : outs[j]? with
    | none =>
        rw [hu] at hv
        cases hv
    | some u =>
        rw [hu] at hv
        exact (killYounger_valid hv).2.1
  refine ⟨?_, ?_, ?_⟩
  · rw [hready]
    exact h.nodup.filter _
  · intro i
    rw [hready, List.mem_filter, h.mem_unit]
    exact ⟨fun hh => hh.2, fun hh => ⟨hunit i hh, hh⟩⟩
  · intro j
    rw [hready, List.mem_filter, h.mem_load]
    exact ⟨fun hh => hh.2, fun hh => ⟨hload j hh, hh⟩⟩

/-- The issue queue keeps exactly the numbers up to `seq`. -/
theorem iqHeld_cut {iq iq' : IssueQueue} (hsize : iq'.robSize = iq.robSize)
    (h : ∀ s, IssueQueue.Flushed seq iq iq' s) : iqHeld iq' = (iqHeld iq).filter (· ≤ seq) := by
  unfold iqHeld
  rw [hsize]
  exact tally_restrict (· ≤ seq) (fun s _ => (h s).occupied)
    (fun s _ ho => by rw [(h s).entry ho])

/-- The back end's invariant survives every step that cuts all tables at one number. -/
theorem BackOk.cut (h : BackOk c) (hs : RecoverSpec c seq c') : BackOk c' := by
  have hctr : c'.seqCtr = c.seqCtr := (congrArg OoOCore.seqCtr hs.frame :)
  have hrob := h.rob.cut hs.rob
  have hlsq := h.lsq.cut hs.lsqWf hs.rob hs.lsq
  refine ⟨?_, hlsq, ?_, ?_, ?_, ?_, ?_, ?_⟩
  · rw [hctr]
    exact hrob
  · -- a waiter that stays is old enough, and so is what it names
    refine ⟨hs.iqWf, ?_, ?_⟩
    · rw [hs.iqRobSize, hs.rob.capacity]
      exact h.iq.robSize
    · intro s ho
      have hf := hs.iq s
      have ho' := ho
      rw [hf.occupied, Bool.and_eq_true, decide_eq_true_iff] at ho
      have hn := h.iq.names s ho.1
      have hle : robSeq c.rob s ≤ seq := by
        rw [← hn.seq]
        exact ho.2
      rw [hf.entry ho']
      refine ⟨hs.rob.mem.mpr ⟨hn.live, hle⟩, hn.robIdx, ?_, ?_, ?_, ?_⟩
      · rw [hs.rob.robSeq_eq]
        exact hn.seq
      · rw [hs.rob.e]
        exact hn.unit
      · rw [hs.rob.e]
        exact hn.notSystem
      · rw [hs.rob.e]
        exact fun hm => (hn.lsq hm).cut h.lsq hs.lsq hle
  · rw [hs.units]
    exact h.units.cut hs.rob
  · rw [hs.agus]
    refine ⟨?_, ?_⟩
    · intro v hv
      obtain ⟨u, hu, rfl⟩ := List.mem_map.mp hv
      exact (h.agus.wf u hu).flushYounger seq
    · intro v hv op hop
      obtain ⟨u, hu, rfl⟩ := List.mem_map.mp hv
      -- what is left in a unit is what was there and is old enough
      rw [FuUnit.ops_flushYounger, List.mem_filter, decide_eq_true_iff] at hop
      obtain ⟨h1, h2⟩ := h.agus.names u hu op hop.1
      refine ⟨h1.cut hs.rob hop.2, h2.cut h.lsq hs.lsq ?_⟩
      rw [h1.seq]
      exact hop.2
  · rw [hs.loadOuts]
    intro op' hop hv
    obtain ⟨op, hmem, rfl⟩ := List.mem_map.mp hop
    obtain ⟨heq, hval, hle⟩ := killYounger_valid hv
    rw [heq]
    have hn := h.loads op hmem hval
    obtain ⟨j, hj, hri, hrest⟩ := hn.lsq
    refine ⟨hn.names.cut hs.rob hle, by rw [hs.rob.e]; exact hn.load, j, ?_, ?_, ?_⟩
    · refine hs.lsq.mem.mpr ⟨hj, ?_⟩
      rw [h.lsq.seq_eq hj, hri, hn.names.seq]
      exact hle
    · rw [lsqRob, hs.lsq.lsqAt]
      exact hri
    · rw [hs.lsq.lsqAt]
      exact hrest
  · exact h.ready.cut hs.wbReady hs.units hs.loadOuts
  · -- both sides lose the same numbers
    have hheld := h.held
    unfold Held heldBy at hheld ⊢
    have hl : lsqHeld c'.lsq = (lsqHeld c.lsq).filter (· ≤ seq) := by
      unfold lsqHeld
      rw [hs.lsq.lsqAt, hs.lsq.slots, tally_filter]
    have hu : unfinished c'.rob = (unfinished c.rob).filter (· ≤ seq) := by
      unfold unfinished
      rw [hs.rob.robSeq_eq, hs.rob.e, hs.rob.slots, tally_filter]
    rw [iqHeld_cut hs.iqRobSize hs.iq, hs.units, hs.agus, hs.loadOuts, unitsHeld_flush,
      unitsHeld_flush, outsHeld_kill, hl, hu, ← hheld]
    simp only [Multiset.filter_add]

/-- A squash keeps the back end's invariant. -/
theorem BackOk.recover (h : BackOk c) (seq : Nat) : BackOk (c.recover seq) :=
  h.cut (recover_spec h seq)

end Recover

end RvO3
