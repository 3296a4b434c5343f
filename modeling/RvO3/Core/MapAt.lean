import RvO3.Core.Reset

/-!
# The rename map of an instruction

`mapAt c n` undoes the renames of the live instructions numbered `n` and up: the map in
which instruction `n` was dispatched, or would be. Commit, dispatch and recovery leave it
alone for the numbers still in flight, so it names the source registers of an instruction
for as long as it lives.
-/

set_option autoImplicit false

namespace RvO3

open OoOCore

/-- The live entries numbered `n` and up. -/
def youngFrom (r : Ring RobEntry) (n : Nat) : List RobEntry :=
  (r.slots.filter fun i => decide (n ≤ robSeq r i)).map r.e

/-- The live entries older than `n`. -/
def olderThan (r : Ring RobEntry) (n : Nat) : List RobEntry :=
  (r.slots.filter fun i => decide (robSeq r i < n)).map r.e

/-- The rename map in which instruction `n` is dispatched. -/
def OoOCore.mapAt {M : Type} (c : OoOCore M) (n : Nat) : Reg → Nat := undo (youngFrom c.rob n) c.rmap

/-- The map of the committed instructions. -/
def OoOCore.cmap {M : Type} (c : OoOCore M) : Reg → Nat := undo c.rob.entries c.rmap

/-! ## Splitting the ROB at a number -/

section Split

variable {r r' : Ring RobEntry} {seqCtr n : Nat}

theorem entries_split (h : RobOk r seqCtr) (n : Nat) :
    r.entries = olderThan r n ++ youngFrom r n := by
  have hs : (r.slots.map fun i => robSeq r i + 1).Pairwise (· < ·) := by
    have := h.sorted
    rw [List.pairwise_map] at this ⊢
    exact this.imp fun hlt => Nat.succ_lt_succ hlt
  have hsplit := sorted_eq_filter_append (f := fun i => robSeq r i + 1) n hs
  rw [olderThan, youngFrom, ← List.map_append, Ring.entries]
  congr 1
  apply hsplit.trans
  congr 1
  exact List.filter_congr fun i _ => by rw [decide_eq_decide]; exact Nat.lt_succ_iff

theorem mem_olderThan {e : RobEntry} :
    e ∈ olderThan r n ↔ ∃ i ∈ r.slots, robSeq r i < n ∧ r.e i = e := by
  simp [olderThan, and_assoc]

theorem renames_same (hs : SameStatic r r') (p : Nat → Bool) :
    renames ((r'.slots.filter p).map r'.e) = renames ((r.slots.filter p).map r.e) := by
  unfold renames
  rw [hs.slots, List.filterMap_map, List.filterMap_map]
  exact List.filterMap_congr fun i _ => RobEntry.write_of_static (hs.static i)

theorem renames_young (hs : SameStatic r r') (n : Nat) :
    renames (youngFrom r' n) = renames (youngFrom r n) := by
  unfold youngFrom
  rw [hs.seq]
  exact renames_same hs _

/-- Everything is older than the next number. -/
theorem youngFrom_seqCtr (h : RobOk r seqCtr) : youngFrom r seqCtr = [] := by
  rw [youngFrom, List.filter_eq_nil_iff.mpr, List.map_nil]
  intro i hi
  have := h.seq_lt i hi
  simp only [decide_eq_true_eq]
  omega

theorem youngFrom_cut {seq : Nat} (h : (r.slots.map (robSeq r)).Pairwise (· < ·)) (hc : Cut (robSeq r) seq r r')
    (hn : n ≤ seq + 1) :
    youngFrom r n = youngFrom r' n ++ youngFrom r (seq + 1) := by
  unfold youngFrom
  rw [hc.robSeq_eq, hc.e, ← List.map_append]
  congr 1
  have hs : ((r.slots.filter fun i => decide (n ≤ robSeq r i)).map (robSeq r)).Pairwise (· < ·) :=
    h.sublist (List.filter_sublist.map _)
  apply (sorted_eq_filter_append seq hs).trans
  rw [hc.slots, List.filter_filter, List.filter_filter, List.filter_filter]
  congr 1
  · exact List.filter_congr fun i _ => Bool.and_comm _ _
  · apply List.filter_congr
    intro i _
    rw [← Bool.decide_and, decide_eq_decide]
    omega

end Split

/-! ## The map is stable -/

section Stable

variable {M : Type} {c c' : OoOCore M} {n : Nat}

theorem cmap_eq (c : OoOCore M) : c.cmap = c.mapAt 0 := by
  have hall : youngFrom c.rob 0 = c.rob.entries := by
    rw [youngFrom, List.filter_eq_self.mpr fun i _ => decide_eq_true (Nat.zero_le _)]
    rfl
  rw [OoOCore.cmap, OoOCore.mapAt, hall]

theorem mapAt_seqCtr (h : RobOk c.rob c.seqCtr) : c.mapAt c.seqCtr = c.rmap := by
  rw [OoOCore.mapAt, youngFrom_seqCtr h]
  rfl

theorem mapAt_quiet (hq : Quiet c c') (n : Nat) : c'.mapAt n = c.mapAt n := by
  rw [OoOCore.mapAt, OoOCore.mapAt, undo, undo, renames_young hq.rob, hq.rmap]

theorem cmap_quiet (hq : Quiet c c') : c'.cmap = c.cmap := by
  rw [OoOCore.cmap, OoOCore.cmap, undo, undo, hq.rob.renames, hq.rmap]

theorem mapAt_cut {seq : Nat} (h : BackOk c) (hs : RecoverSpec c seq c') (hn : n ≤ seq + 1) :
    c'.mapAt n = c.mapAt n := by
  rw [OoOCore.mapAt, OoOCore.mapAt, youngFrom_cut h.rob.sorted hs.rob hn, undo_append, hs.rmap]
  rfl

theorem cmap_cut {seq : Nat} (h : BackOk c) (hs : RecoverSpec c seq c') : c'.cmap = c.cmap := by
  rw [cmap_eq, cmap_eq, mapAt_cut h hs (Nat.zero_le _)]

/-- The map after recovery is the one the first squashed instruction was dispatched in. -/
theorem rmap_cut {seq : Nat} (hs : RecoverSpec c seq c') : c'.rmap = c.mapAt (seq + 1) := hs.rmap

theorem mapAt_popHead (h : BackOk c) (hne : c.rob.empty = false) (hrob : c'.rob = c.rob.popHead)
    (hm : c'.rmap = c.rmap) (hn : c.rob.head.seq < n) : c'.mapAt n = c.mapAt n := by
  obtain ⟨rest, hr⟩ := Ring.slots_eq_cons h.rob.wf hne
  have hp : c.rob.popHead.slots = rest := by
    rw [Ring.slots_popHead h.rob.wf, hr]
    rfl
  have hhead : ¬ n ≤ robSeq c.rob c.rob.headIdx := Nat.not_le_of_lt hn
  rw [OoOCore.mapAt, OoOCore.mapAt, hrob, hm, youngFrom, youngFrom, hp, hr,
    List.filter_cons_of_neg (by simpa using hhead)]
  rfl

theorem mapAt_push {e : RobEntry} (h : c.rob.Wf) (hf : c.rob.full = false)
    (hrob : c'.rob = pushRob c.rob e) (he : e.seq = c.seqCtr)
    (hm : undo [e] c'.rmap = c.rmap) (hn : n ≤ c.seqCtr) : c'.mapAt n = c.mapAt n := by
  have hp := pushed h hf e
  have hnew : n ≤ robSeq (pushRob c.rob e) c.rob.allocIdx := by
    rw [robSeq, hp.new, he]
    exact hn
  have hy : youngFrom (pushRob c.rob e) n = youngFrom c.rob n ++ [e] := by
    rw [youngFrom, youngFrom, hp.slots, List.filter_append, List.map_append,
      List.filter_cons_of_pos (by simpa using hnew), List.filter_nil, List.map_singleton, hp.new]
    congr 1
    have hfil : (c.rob.slots.filter fun i => decide (n ≤ robSeq (pushRob c.rob e) i)) =
        c.rob.slots.filter fun i => decide (n ≤ robSeq c.rob i) :=
      List.filter_congr fun i hi => by rw [hp.seq_old hi]
    rw [hfil]
    exact List.map_congr_left fun i hi => hp.old i (List.mem_filter.mp hi).1
  rw [OoOCore.mapAt, hrob, hy, undo_append, hm]
  rfl

end Stable

/-! ## What it holds -/

section Holds

variable {M : Type} {c : OoOCore M}

/-- The older renames lead from the committed map to the map of `n`. -/
theorem RenameOk.logged_mapAt (h : RenameOk c) (hb : BackOk c) (n : Nat) :
    Logged c.cmap (renames (olderThan c.rob n)) (c.mapAt n) := by
  have hl := h.maps.logged
  rw [OoOCore.writes, entries_split hb.rob n, renames_append] at hl
  have hu := hl.undoAll
  rw [← renames_append, ← entries_split hb.rob n] at hu
  exact hu

/-- A source register is a committed one or the destination of an older instruction. -/
theorem RenameOk.mapAt_cases (h : RenameOk c) (hb : BackOk c) (n : Nat) (r : Reg) :
    c.mapAt n r = c.cmap r ∨ ∃ i ∈ c.rob.slots, robSeq c.rob i < n ∧
      (c.rob.e i).pdst ≠ kNoReg ∧ c.mapAt n r = (c.rob.e i).pdst := by
  rw [(h.logged_mapAt hb n).apply_eq r]
  cases hf : List.find? (fun w => decide (w.key = r)) (renames (olderThan c.rob n)).reverse with
  | none => exact Or.inl rfl
  | some w =>
      right
      have hw := List.mem_reverse.mp (List.mem_of_find?_eq_some hf)
      obtain ⟨e, he, hew⟩ := List.mem_filterMap.mp hw
      obtain ⟨i, hi, hlt, rfl⟩ := mem_olderThan.mp he
      unfold RobEntry.write at hew
      split at hew
      · rename_i hne
        cases hew
        exact ⟨i, hi, hlt, hne, rfl⟩
      · cases hew

theorem write_mem (c : OoOCore M) {i : Nat} (hi : i ∈ c.rob.slots)
    (hne : (c.rob.e i).pdst ≠ kNoReg) :
    ⟨(c.rob.e i).ins.rd, (c.rob.e i).prevPhys, (c.rob.e i).pdst⟩ ∈ c.writes := by
  refine List.mem_filterMap.mpr ⟨c.rob.e i, Ring.mem_entries.mpr ⟨i, hi, rfl⟩, ?_⟩
  exact if_pos hne

/-- Two live destinations are different registers. -/
theorem RenameOk.pdst_inj (h : RenameOk c) {i j : Nat} (hi : i ∈ c.rob.slots)
    (hj : j ∈ c.rob.slots) (hne : (c.rob.e i).pdst ≠ kNoReg)
    (he : (c.rob.e i).pdst = (c.rob.e j).pdst) : i = j := by
  have hnd := h.maps.written_nodup
  rw [OoOCore.writes, renames, Ring.entries, List.filterMap_map, List.map_filterMap] at hnd
  by_contra hij
  have hpd : ∀ k, (c.rob.e k).pdst ≠ kNoReg →
      ((RobEntry.write ∘ c.rob.e) k).map Write.new = some (c.rob.e k).pdst := by
    intro k hk
    simp only [Function.comp, RobEntry.write, if_pos hk, Option.map_some]
  obtain ⟨l1, l2, hl⟩ := List.append_of_mem hi
  rw [hl, List.filterMap_append, List.filterMap_cons, hpd i hne] at hnd
  have hj' : j ∈ l1 ∨ j ∈ l2 := by
    rw [hl] at hj
    rcases List.mem_append.mp hj with h1 | h1
    · exact Or.inl h1
    · exact Or.inr (List.mem_of_ne_of_mem (Ne.symm hij) h1)
  have hjv := hpd j (he ▸ hne)
  obtain ⟨-, hnd2, hdis⟩ := List.nodup_append.mp hnd
  rcases hj' with h1 | h1
  · exact hdis _ (List.mem_filterMap.mpr ⟨j, h1, hjv⟩) _ List.mem_cons_self he.symm
  · exact (List.nodup_cons.mp hnd2).1 (List.mem_filterMap.mpr ⟨j, h1, by rw [hjv, he]⟩)

/-- A live destination is not a committed register. -/
theorem RenameOk.pdst_ne_cmap (h : RenameOk c) {i : Nat} (hi : i ∈ c.rob.slots)
    (hne : (c.rob.e i).pdst ≠ kNoReg) (r : Reg) : (c.rob.e i).pdst ≠ c.cmap r :=
  h.maps.written_ne_base (write_mem c hi hne) r

/-- The committed map keeps registers apart. -/
theorem RenameOk.cmap_inj (h : RenameOk c) {i j : Reg} (he : c.cmap i = c.cmap j) : i = j := by
  have hnd := (Multiset.nodup_add.mp (Multiset.nodup_add.mp h.maps.nodup').1).1
  exact eq_of_heldValues_nodup hnd he

/-- A free register is nobody's source. -/
theorem RenameOk.free_ne_mapAt (h : RenameOk c) (hb : BackOk c) {p : Nat}
    (hp : p ∈ c.freeList.entries) (n : Nat) (r : Reg) : p ≠ c.mapAt n r := by
  obtain ⟨-, -, h1, h2⟩ := h.maps.free_notMem hp
  rintro rfl
  rcases h.mapAt_cases hb n r with hc | ⟨i, hi, -, hne, hc⟩
  · exact h1 (mem_heldValues.mpr ⟨r, hc.symm⟩)
  · rw [hc] at h2
    exact h2 (Multiset.mem_coe.mpr (List.mem_map_of_mem (write_mem c hi hne)))

theorem RenameOk.free_ne_pdst (h : RenameOk c) {p : Nat} (hp : p ∈ c.freeList.entries) {i : Nat}
    (hi : i ∈ c.rob.slots) (hne : (c.rob.e i).pdst ≠ kNoReg) : p ≠ (c.rob.e i).pdst := by
  rintro rfl
  exact (h.maps.free_notMem hp).2.2.2
    (Multiset.mem_coe.mpr (List.mem_map_of_mem (write_mem c hi hne)))

end Holds

end RvO3
