import RvO3.Core.DataPort
import RvO3.Core.Sight

/-!
# What a load saw stays right

`LoadRight`: a load that is done completed with what it sees, and so does one whose data is
on its way. The loads apart that will not commit, since they fault or an older store does.
Every step keeps it (`AnsweredStep.loadRight`): a store that is dispatched is younger, one whose
address resolves squashes the younger loads it overlaps or finds that none has read, and
the store that commits is the oldest of all.

The order in which the answers of the data port come back is left open, so each slot is followed with the
answer to the load that was last sent from it (`AnsweredStep`). That an answer reaches no other load is
asked of each step.
-/

set_option autoImplicit false

namespace RvO3

open OoOCore

/-! ## Recoveries and drains -/

section Queue

variable {q q' : LSQ} {j : Nat}

/-- Taking entries off the tail writes none. -/
theorem LsqSteps.popTail_at (hs : LsqSteps (fun op => op = .popTail) q q') : q'.at' = q.at' := by
  induction hs with
  | refl => rfl
  | tail _ hs ih =>
      obtain ⟨op, rfl, -, rfl⟩ := hs
      exact ih

/-- The head is the oldest entry. -/
theorem LSQ.Ordered.head_first (h : q.Ordered) (he : q.ring.empty = false) :
    q.ring.headIdx ∈ q.ring.slots ∧
      ∀ j ∈ q.ring.slots, j ≠ q.ring.headIdx → (q.at' q.ring.headIdx).seq < (q.at' j).seq := by
  obtain ⟨rest, hr⟩ := Ring.slots_eq_cons h.wf.ring he
  have hsort := h.sorted
  rw [hr] at hsort ⊢
  refine ⟨List.mem_cons_self, fun j hj hne => ?_⟩
  rcases List.mem_cons.mp hj with rfl | hj
  · exact absurd rfl hne
  · exact List.rel_of_pairwise_cons hsort (List.mem_map_of_mem hj)

theorem LSQ.Ordered.mem_popHead (h : q.Ordered) (he : q.ring.empty = false) :
    j ∈ q.popHead.ring.slots ↔ j ∈ q.ring.slots ∧ j ≠ q.ring.headIdx := by
  obtain ⟨rest, hr⟩ := Ring.slots_eq_cons h.wf.ring he
  have hnd := Ring.slots_nodup h.wf.ring
  have hslots : q.popHead.ring.slots = rest := by
    rw [LSQ.popHead_ring, Ring.slots_popHead h.wf.ring, hr]
    rfl
  rw [hr] at hnd ⊢
  rw [hslots]
  constructor
  · intro hj
    refine ⟨List.mem_cons_of_mem _ hj, ?_⟩
    rintro rfl
    exact (List.nodup_cons.mp hnd).1 hj
  · rintro ⟨hj, hne⟩
    exact (List.mem_cons.mp hj).resolve_left hne

end Queue

section Actions

variable {M : Type} {cfg : SimConfig} {image : Nat → Byte} {c c' : OoOCore M} {l : Nat}

/-- The committed stores applied to the image. -/
def committedMem (image : Nat → Byte) (c : OoOCore M) : Nat → Byte := storesApplied image (archStores c.commits)

variable [MemPorts Nat M]

/-- The stores committed so far grow by the commit of a memory operation only. -/
theorem Action.archStores_or (ha : Action c c') (hb : BackOk c) :
    CommitsMem c c' ∨ archStores c'.commits = archStores c.commits := by
  rcases ha.commits_or hb with ⟨hne, hd, b, hc⟩ | hsame
  · rcases commitOne_cases hc with ⟨rfl, -⟩ | ⟨rec, hs, -⟩ | ⟨hs, -⟩
    · exact .inr rfl
    · have hw := hs.memoryWrite
      obtain ⟨ret, prf, pos, hal, ex, rfl, -⟩ := hs.frame
      right
      dsimp only
      rw [archStores, List.filterMap_append, List.filterMap_cons_none hw]
      exact List.append_nil _
    · by_cases hm : c.rob.head.isMem = true
      · exact .inl ⟨hne, hd, hm, hs⟩
      · right
        have hw : c.opRecord.memoryWrite = none := if_neg fun h => hm h.1
        rw [(congrArg OoOCore.commits hs.frame :), archStores, List.filterMap_append,
          List.filterMap_cons_none hw]
        exact List.append_nil _
  · exact .inr (by rw [hsame])

/-- A load with an access has an address. -/
theorem LsqEntry.Local.addrValid_of_accessed {le : LsqEntry} (h : le.Local) (ha : le.isAccessed = true) :
    le.addrValid = true := by
  simp only [LsqEntry.isAccessed, Bool.and_eq_true, Bool.or_eq_true] at ha
  rcases ha.2 with hi | hd
  · exact h.load_issued hi
  · exact h.load_done hd

/-! ### A store's address resolves -/

/-- A store whose address has just resolved touches no byte of a younger load that has read and
stays. -/
theorem Drains.not_read (hc : AccessesOk cfg cfg.memBytes c) (hmem : cfg.memBytes < 2 ^ 32)
    (hw : cfg.memOrder ≠ .Speculative → WallHolds c.faults c.lsq) {i j : Nat} (hd : Drains c c' i j)
    (hl : l ∈ c.lsq.ring.slots) (hl' : l ∈ c'.lsq.ring.slots) (hj' : j ∈ c'.lsq.ring.slots)
    (hacc : (c'.lsq.at' l).isAccessed = true) (ht : c'.Untainted l)
    (hk : (c'.lsq.at' j).isKnownStore = true) (hlt : (c'.lsq.at' j).seq < (c'.lsq.at' l).seq) :
    ¬ (c'.lsq.at' j).Meets (c'.lsq.at' l) := by
  intro hmeet
  have hb := hc.core.back
  have hbd := hb.fillOne hd.ready
  have hod : (c.fillOne i).lsq.Ordered :=
    LsqSteps.preserve (I := LSQ.Ordered) (fun _ ha hq => hq.run ha)
      (fillOne_once hb hd.ready).to_reflTransGen hc.lsq
  have hkd := hc.addrs.fillOne hb hc.size hd.ready
  have hsteps := aguDrainOne_steps hb hd.ready
  have hrob := aguDrainOne_rob_e hb hd.ready
  have hact : Action c c' := by rw [hd.drained]; exact .drain hd.ready
  -- a recovery writes no entry
  have hat : c'.lsq.at' = (c.fillOne i).lsq.at' := by
    rw [hd.drained]
    exact hsteps.popTail_at
  have hlive : ∀ {k : Nat}, k ∈ c'.lsq.ring.slots → k ∈ (c.fillOne i).lsq.ring.slots := by
    intro k hk
    rw [hd.drained] at hk
    exact (hsteps.popTail_after hod hk).1
  have hfault : ∀ k, (c'.rob.e k).fault = ((c.fillOne i).rob.e k).fault := by
    intro k
    rw [hd.drained, hrob]
  have htl := ht.load
  have htj := ht.stores j hj' hk hlt
  rw [hfault] at htl htj
  rw [hat] at hacc hk hlt hmeet htl htj
  have hst : ((c.fillOne i).lsq.at' j).isStore = true := by
    rw [LsqEntry.isKnownStore, Bool.and_eq_true] at hk
    exact hk.1
  have hload : ((c.fillOne i).lsq.at' l).isStore = false := by
    simp only [LsqEntry.isAccessed, Bool.and_eq_true] at hacc
    simpa using hacc.1
  have hcl : (c.fillOne i).Clean l :=
    ⟨hlive hl', (hod.flags l (hlive hl')).addrValid_of_accessed hacc, htl⟩
  have hcj : (c.fillOne i).Clean j := by
    rw [LsqEntry.isKnownStore, Bool.and_eq_true] at hk
    exact ⟨hlive hj', hk.2, htj⟩
  by_cases hmode : cfg.memOrder = .Speculative
  · -- the scan finds the load, or an older one, and squashes it
    obtain ⟨v, hv, hle⟩ := (scanExact hod hkd hmem hcj).found l hcl hacc hlt hmeet
    have hcond : ((c.fillOne i).lsq.at' j).isStore ∧ (c.fillOne i).cfg.memOrder = .Speculative ∧
        ((c.fillOne i).rob.e (c.agus[i]?.getD default).out.robIdx).fault = 0 := by
      refine ⟨hst, ?_, ?_⟩
      · rw [show (c.fillOne i).cfg = cfg from hc.core.config]
        exact hmode
      · have hname : ((c.fillOne i).lsq.at' j).robIdx = (c.agus[i]?.getD default).out.robIdx := by
          have hfill := fillOne_at c i j
          rw [if_pos hd.names] at hfill
          rw [hfill, hd.names]
          exact (hb.delivered hd.ready).lsq.robIdx
        rw [← hname]
        exact htj
    have heq : c' = (c.fillOne i).violationScan ((c.fillOne i).lsq.at' j) := by
      rw [hd.drained]
      unfold OoOCore.aguDrainOne
      dsimp only
      rw [hd.names] at hcond ⊢
      exact if_pos hcond
    rw [heq, violationScan_eq hv] at hl'
    have hb' : BackOk ((c.fillOne i).replayCall v) := { hbd with }
    have hcut := (recover_spec hb' (((c.fillOne i).lsq.at' v).seq - 1)).lsq.mem.mp hl'
    have hvic := ((scanExact hod hkd hmem hcj).victim v hv).2.2.1
    have hout : ((c.fillOne i).lsq.at' l).seq ≤ ((c.fillOne i).lsq.at' v).seq - 1 := hcut.2
    omega
  · -- the store was a wall, so the load has read nothing
    have hne : l ≠ (c.agus[i]?.getD default).out.lsqIdx := by
      intro he
      rw [he, ← hd.names, hst] at hload
      cases hload
    have hfl := fillOne_at c i l
    rw [if_neg hne] at hfl
    have hfj := fillOne_at c i j
    rw [if_pos hd.names] at hfj
    rw [hfl] at hacc hload hlt
    rw [hfj] at hst hlt
    have hdel := (hb.delivered hd.ready).lsq
    have hunk : (c.lsq.at' j).isUnknownStore = true := by
      have hunres := hdel.unresolved
      rw [← hd.names] at hunres
      rw [LsqEntry.isUnknownStore, hunres]
      show ((c.lsq.at' j).isStore && !false) = true
      rw [show (c.lsq.at' j).isStore = true from hst]
      rfl
    have hjl : j ∈ c.lsq.ring.slots := by
      rw [hd.names]
      exact hdel.live
    obtain ⟨hni, hnd⟩ := hw hmode j hjl l hl hunk hload hlt
    simp only [LsqEntry.isAccessed, Bool.and_eq_true, Bool.or_eq_true] at hacc
    rcases hacc.2 with hi | hdn
    · rw [hni] at hi
      cases hi
    · refine hnd hdn ?_
      have hv := (hc.lsq.flags l hl).load_done hdn
      have hsame := hact.fault_eq hb hl hv
      rw [hfault] at hsame
      rw [hfl] at htl
      exact hsame.symm.trans htl

/-! ### The oldest store is committed -/

omit [MemPorts Nat M] in
theorem CommitsMem.lsq_eq (h : CommitsMem c c') : c'.lsq = c.lsq.popHead := by
  rw [(congrArg OoOCore.lsq h.commits.frame :)]
  exact if_pos h.isMem

omit [MemPorts Nat M] in
theorem CommitsMem.lsq_notEmpty (h : CommitsMem c c') (hb : BackOk c) : c.lsq.ring.empty = false := by
  obtain ⟨hhead, -⟩ := hb.lsqHead h.notEmpty h.isMem
  rw [← Bool.not_eq_true, Ring.empty_iff]
  intro hnil
  rw [hnil] at hhead
  cases hhead

/-- The head wrote what it knew, and only then. -/
structure Writes (mem mem' : Nat → Byte) (p : Nat → Option (Option Byte)) : Prop where
  known : ∀ x, p x ≠ some none
  wrote : ∀ x u, p x = some (some u) → mem' x = u
  kept : ∀ x, p x = none → mem' x = mem x

/-- Committing a memory access writes to the committed memory exactly what its entry puts. -/
theorem CommitsMem.writes (h : CommitsMem c c') (hc : AccessesOk cfg cfg.memBytes c) :
    Writes (committedMem image c) (committedMem image c') (c.lsq.at' c.lsq.ring.headIdx).put := by
  have hb := hc.core.back
  obtain ⟨hlive, hrob⟩ := hb.lsqHead h.notEmpty h.isMem
  have hcommits : c'.commits = c.commits ++ [c.opRecord] := (congrArg OoOCore.commits h.commits.frame :)
  by_cases hst : c.lsq.ring.head.isStore = true
  · obtain ⟨hsc, hdata⟩ := h.commits.store_scalar hb hc.addrs h.notEmpty h.done h.isMem hst
    have hdone : (c.rob.e (lsqRob c.lsq c.lsq.ring.headIdx)).done = true := by
      rw [hrob]
      exact h.done
    obtain ⟨hv, -⟩ := (hb.lsq.agrees _ hlive).store_done hst hdone
    have hk : (c.lsq.at' c.lsq.ring.headIdx).isKnownStore = true := by
      rw [LsqEntry.isKnownStore, hv, Bool.and_true]
      exact hst
    have hrec : c.opRecord.memoryWrite =
        some (MemoryWrite.mk' c.lsq.ring.head.addr c.lsq.ring.head.data c.lsq.ring.head.size) :=
      if_pos ⟨h.isMem, hst⟩
    have hmem' : committedMem image c' = storesApplied image (archStores c.commits ++
        [MemoryWrite.mk' c.lsq.ring.head.addr c.lsq.ring.head.data c.lsq.ring.head.size]) := by
      rw [committedMem, hcommits, archStores, List.filterMap_append, List.filterMap_cons_some hrec]
      rfl
    have hbyte : ∀ b, b < (c.lsq.at' c.lsq.ring.headIdx).size →
        (c.lsq.at' c.lsq.ring.headIdx).put ((c.lsq.at' c.lsq.ring.headIdx).addr.toNat + b) =
          some (some (wordByte (c.lsq.at' c.lsq.ring.headIdx).data b)) := fun b hbs =>
      LsqEntry.put_eq hk hdata hbs
    -- a byte of the store is one at an offset below its size
    have hoff : ∀ x, (c.lsq.at' c.lsq.ring.headIdx).put x ≠ none →
        ∃ b < (c.lsq.at' c.lsq.ring.headIdx).size, x = (c.lsq.at' c.lsq.ring.headIdx).addr.toNat + b := by
      intro x hx
      obtain ⟨-, h1, h2⟩ := LsqEntry.put_ne_none.mp hx
      exact ⟨x - (c.lsq.at' c.lsq.ring.headIdx).addr.toNat, by omega, by omega⟩
    refine ⟨fun x hx => ?_, fun x u hx => ?_, fun x hx => ?_⟩
    · obtain ⟨b, hbs, rfl⟩ := hoff x (by rw [hx]; exact Option.some_ne_none _)
      rw [hbyte b hbs] at hx
      cases hx
    · obtain ⟨b, hbs, rfl⟩ := hoff x (by rw [hx]; exact Option.some_ne_none _)
      rw [hbyte b hbs] at hx
      cases hx
      rw [hmem']
      exact storesApplied_last (put_mk' _ _ hsc.size hbs) fun _ hq => absurd hq List.not_mem_nil
    · rw [hmem', committedMem]
      apply storesApplied_append_of_none
      intro w hw
      rw [List.mem_singleton.mp hw, MemoryWrite.put_eq_none]
      intro hin
      exact absurd hx (LsqEntry.put_ne_none.mpr ⟨hk, hin⟩)
  · -- a load writes nothing
    have hnone : ∀ x, (c.lsq.at' c.lsq.ring.headIdx).put x = none := by
      intro x
      apply if_neg
      rintro ⟨hk, -⟩
      rw [LsqEntry.isKnownStore, Bool.and_eq_true] at hk
      exact hst hk.1
    have hrec : c.opRecord.memoryWrite = none := if_neg fun h' => hst h'.2
    have hmem' : committedMem image c' = committedMem image c := by
      rw [committedMem, hcommits, archStores, List.filterMap_append, List.filterMap_cons_none hrec]
      exact congrArg (storesApplied image) (List.append_nil _)
    refine ⟨fun x hx => ?_, fun x u hx => ?_, fun x _ => by rw [hmem']⟩
    · rw [hnone] at hx
      cases hx
    · rw [hnone] at hx
      cases hx

/-! ### Every action -/

/-- What a load with an access sees is still what it sees. -/
theorem Action.sees (ha : Action c c') (hc : AccessesOk cfg cfg.memBytes c) (hmem : cfg.memBytes < 2 ^ 32)
    (hw : cfg.memOrder ≠ .Speculative → WallHolds c.faults c.lsq) (hl : l ∈ c.lsq.ring.slots)
    (hl' : l ∈ c'.lsq.ring.slots) (hv : (c.lsq.at' l).addrValid = true)
    (hacc : (c'.lsq.at' l).isAccessed = true) (ht : c'.Untainted l) {v : Word}
    (h : Sees (committedMem image c) c.lsq l v) : Sees (committedMem image c') c'.lsq l v := by
  have hb := hc.core.back
  obtain ⟨f, rfl, hf⟩ := h.exists_bytes
  have hg : (c.lsq.at' l).Grows (c'.lsq.at' l) := by
    rcases ha.lsqAfter hb hc.lsq hl' with ⟨-, hg⟩ | hnew
    · exact hg
    · exact absurd hl hnew.free
  obtain ⟨-, haddr, hsize⟩ := hg.resolved hv
  refine ⟨f, by rw [hsize], fun b hbs => ?_⟩
  rw [hsize] at hbs
  rw [haddr, hg.seq]
  have hread := hf b hbs
  by_cases hcm : CommitsMem c c'
  · -- the oldest entry reaches the memory
    have he := hcm.lsq_notEmpty hb
    have hlsq := hcm.lsq_eq
    have hstay : ∀ j, j ∈ c'.lsq.ring.slots ↔ j ∈ c.lsq.ring.slots ∧ j ≠ c.lsq.ring.headIdx := by
      intro j
      rw [hlsq]
      exact hc.lsq.mem_popHead he
    have hat : c'.lsq.at' = c.lsq.at' := by
      rw [hlsq]
      rfl
    obtain ⟨hhead, hfirst⟩ := hc.lsq.head_first he
    have hwr : Writes (committedMem image c) (committedMem image c') _ := hcm.writes hc
    refine hread.retire (o := c.lsq.ring.headIdx) hhead (hfirst l hl ((hstay l).mp hl').2) hfirst hstay
      (fun j _ _ => ?_) (hwr.known _) (hwr.wrote _) (hwr.kept _)
    show (c'.lsq.at' j).seq = (c.lsq.at' j).seq ∧ (c'.lsq.at' j).put _ = (c.lsq.at' j).put _
    rw [hat]
    exact ⟨rfl, rfl⟩
  · -- no entry leaves at the head, and what comes in is younger
    have hsame := (ha.archStores_or hb).resolve_left hcm
    refine hread.keep (fun i u hi hlt hp => ?_) (fun j hj => ?_) ?_
    · have hi' := (ha.lsqOlder hb hc.lsq hi hl' hlt).resolve_right fun h => hcm h.1
      rcases ha.lsqAfter hb hc.lsq hi' with ⟨-, hgi⟩ | hnew
      · exact ⟨hi', hgi.seq, hgi.put_known hp⟩
      · exact absurd hi hnew.free
    · have hput : (c'.lsq.at' j).put ((c.lsq.at' l).addr.toNat + b) ≠ none := hj.touches
      have hlt : (c'.lsq.at' j).seq < (c.lsq.at' l).seq := hj.older
      have hj' : j ∈ c'.lsq.ring.slots := hj.live
      have hbs' : b < (c'.lsq.at' l).size := by rw [hsize]; exact hbs
      obtain ⟨hk, hmeet⟩ := LsqEntry.meets_of_put hbs' (by rw [haddr]; exact hput)
      rcases ha.lsqAfter hb hc.lsq hj' with ⟨hold, hgj⟩ | hnew
      · have hknown : (c'.lsq.at' j).addrValid = true := by
          rw [LsqEntry.isKnownStore, Bool.and_eq_true] at hk
          exact hk.2
        rcases (ha.resolves hb hc.lsq hj' hknown).2 with hvj | ⟨i, hd⟩
        · refine ⟨⟨hold, ?_, hgj.put_back hvj hput⟩, hgj.seq⟩
          rw [hgj.seq] at hlt
          exact hlt
        · exact absurd hmeet (hd.not_read hc hmem hw hl hl' hj' hacc ht hk (by rw [hg.seq]; exact hlt))
      · exact absurd hlt (Nat.lt_asymm (hnew.youngest l hl))
    · exact congrFun (congrArg (storesApplied image) hsame) _

/-! ## Reading -/

/-- What a step reads for the load at slot `l`. -/
inductive ReadStep (c c' : OoOCore M) (l : Nat) : Prop
  | same : (c'.lsq.at' l).done = (c.lsq.at' l).done → (c'.lsq.at' l).issued = (c.lsq.at' l).issued →
      (c'.lsq.at' l).value = (c.lsq.at' l).value → ReadStep c c' l
  | reply {r : MemResponse Nat} : MemPorts.dResponse c.msys = some r → NamesLoad r l (c.lsq.at' l).gen →
      (c.lsq.at' l).isPending = true → (c'.lsq.at' l).done = true →
      (c'.lsq.at' l).value = extendLoad (c.lsq.at' l).op r.rdata → ReadStep c c' l
  | zero : (c.lsq.at' l).addrValid = true → (c.rob.e (c.lsq.at' l).robIdx).fault ≠ 0 →
      (c'.lsq.at' l).done = true → ReadStep c c' l
  | forward {data : Word} : c.MayGo l → c.verdict l = .forward data → (c'.lsq.at' l).done = true →
      (c'.lsq.at' l).value = extendLoad (c.lsq.at' l).op data → ReadStep c c' l
  | send : SendsLoad c c' l → (c'.lsq.at' l).done = false → ReadStep c c' l

theorem LsqOp.rewrite_read {op : LsqOp} (h : op.isRead = false) (j : Nat) (le : LsqEntry) :
    (op.rewrite j le).done = le.done ∧ (op.rewrite j le).issued = le.issued ∧
      (op.rewrite j le).value = le.value := by
  cases op with
  | issueLoad slot => cases h
  | completeLoad slot v => cases h
  | dispatch e robIdx ps2 prf => exact ⟨rfl, rfl, rfl⟩
  | popHead => exact ⟨rfl, rfl, rfl⟩
  | popTail => exact ⟨rfl, rfl, rfl⟩
  | resolve slot addr size =>
      simp only [LsqOp.rewrite]
      split <;> exact ⟨rfl, rfl, rfl⟩
  | capture slot v =>
      simp only [LsqOp.rewrite]
      split <;> exact ⟨rfl, rfl, rfl⟩
  | reportLoad slot =>
      simp only [LsqOp.rewrite]
      split <;> exact ⟨rfl, rfl, rfl⟩

theorem LsqEntry.isCandidate_iff {le : LsqEntry} : le.isCandidate = true ↔
    le.isStore = false ∧ le.addrValid = true ∧ le.issued = false ∧ le.done = false := by
  simp [LsqEntry.isCandidate, and_assoc]

theorem LsqEntry.isPending_iff {le : LsqEntry} : le.isPending = true ↔
    le.isStore = false ∧ le.issued = true ∧ le.done = false := by
  simp [LsqEntry.isPending, and_assoc]

/-- One operation on the load at slot `l`. -/
theorem PlainOp.readStep {op : LsqOp} (h : PlainOp c c' op) (hwf : c.lsq.Wf)
    (hat : c'.lsq.at' l = op.rewrite l (c.lsq.at' l)) : ReadStep c c' l := by
  have hother : ∀ {slot : Nat} {le : LsqEntry}, l ≠ slot →
      c'.lsq.at' l = (if l = slot then le else c.lsq.at' l) → ReadStep c c' l := by
    intro slot le hne heq
    rw [if_neg hne] at heq
    exact .same (by rw [heq]) (by rw [heq]) (by rw [heq])
  cases h.reads with
  | @reply r slot hr hn hp =>
      by_cases he : l = slot
      · subst he
        simp only [LsqOp.rewrite, if_true] at hat
        exact .reply hr hn hp (by rw [hat]) (by rw [hat])
      · exact hother he hat
  | @zero slot hc hf =>
      by_cases he : l = slot
      · subst he
        simp only [LsqOp.rewrite, if_true] at hat
        exact .zero (LsqEntry.isCandidate_iff.mp (hwf.candidate hc).2).2.1 hf (by rw [hat])
      · exact hother he hat
  | @forward slot data hg hv =>
      by_cases he : l = slot
      · subst he
        simp only [LsqOp.rewrite, if_true] at hat
        exact .forward hg hv (by rw [hat]) (by rw [hat])
      · exact hother he hat
  | @send slot hs =>
      by_cases he : l = slot
      · subst he
        simp only [LsqOp.rewrite, if_true] at hat
        have hd := (LsqEntry.isCandidate_iff.mp (hwf.candidate hs.mayGo.candidate).2).2.2.2
        exact .send hs (by rw [hat]; exact hd)
      · exact hother he hat
  | other hno =>
      obtain ⟨h1, h2, h3⟩ := op.rewrite_read hno l (c.lsq.at' l)
      exact .same (by rw [hat, h1]) (by rw [hat, h2]) (by rw [hat, h3])

/-- What an action does to the reading of a live load: nothing, a reply, a zero for a fault, a
forwarded value, or a send. -/
theorem Action.readStep (ha : Action c c') (hb : BackOk c) (hl : l ∈ c.lsq.ring.slots)
    (hl' : l ∈ c'.lsq.ring.slots) : ReadStep c c' l := by
  have hsame : c'.lsq.at' = c.lsq.at' → ReadStep c c' l := by
    intro h
    exact .same (by rw [h]) (by rw [h]) (by rw [h])
  cases ha.lsqMoves hb with
  | commit hc =>
      apply hsame
      rw [hc.lsq_eq]
      rfl
  | squash hs => exact hsame hs.popTail_at
  | @drain i hi heq =>
      have hat : c'.lsq.at' = (c.fillOne i).lsq.at' := by
        rw [heq]
        exact (aguDrainOne_steps hb hi).popTail_at
      have hfill := fillOne_at c i l
      rw [← hat] at hfill
      split at hfill
      · exact .same (by rw [hfill]) (by rw [hfill]) (by rw [hfill])
      · exact .same (by rw [hfill]) (by rw [hfill]) (by rw [hfill])
  | once hs =>
      have hwf := hb.lsq.wf
      rcases Relation.reflGen_iff _ _ _ |>.mp hs with heq | ⟨op, hop, hal, heq⟩
      · apply hsame
        rw [heq]
      · have hsl := op.slotAfter hwf hal (heq ▸ hl')
        rw [← heq] at hsl
        generalize hle : c'.lsq.at' l = le at hsl
        cases hsl with
        | old _ => exact hop.readStep hwf hle
        | new hno => exact absurd hl hno

/-! ## Loads are right -/

theorem Action.untainted (ha : Action c c') (hc : AccessesOk cfg cfg.memBytes c) (hl : l ∈ c.lsq.ring.slots)
    (hl' : l ∈ c'.lsq.ring.slots) (hv : (c.lsq.at' l).addrValid = true) (ht : c'.Untainted l) :
    c.Untainted l := by
  have hb := hc.core.back
  have hgrows : ∀ {j : Nat}, j ∈ c.lsq.ring.slots → j ∈ c'.lsq.ring.slots →
      (c.lsq.at' j).Grows (c'.lsq.at' j) := by
    intro j hj hj'
    rcases ha.lsqAfter hb hc.lsq hj' with ⟨-, hg⟩ | hnew
    · exact hg
    · exact absurd hj hnew.free
  have hg := hgrows hl hl'
  refine ⟨?_, fun s hs hk hlt => ?_⟩
  · have hf := ht.load
    rw [hg.robIdx, ha.fault_eq hb hl hv] at hf
    exact hf
  · rcases ha.lsqOlder hb hc.lsq hs hl' hlt with hs' | ⟨hcm, rfl⟩
    · have hgs := hgrows hs hs'
      rw [LsqEntry.isKnownStore, Bool.and_eq_true] at hk
      have hk' : (c'.lsq.at' s).isKnownStore = true := by
        rw [LsqEntry.isKnownStore, hgs.isStore, hk.1, (hgs.resolved hk.2).1]
        rfl
      have hf := ht.stores s hs' hk' (by rw [hgs.seq, hg.seq]; exact hlt)
      rw [hgs.robIdx, ha.fault_eq hb hs hk.2] at hf
      exact hf
    · -- what commits does not fault
      obtain ⟨-, hrob⟩ := hb.lsqHead hcm.notEmpty hcm.isMem
      have hf := commitFault_none hcm.commits.noFault
      change (c.rob.e (lsqRob c.lsq c.lsq.ring.headIdx)).fault = 0
      rw [hrob]
      exact hf

/-! ## Answers that reach their loads -/

/-- The response `r` reaches the load at slot `j`. -/
structure Reaches (c c' : OoOCore M) (r : MemResponse Nat) (j : Nat) : Prop where
  live : j ∈ c.lsq.ring.slots
  response : MemPorts.dResponse c.msys = some r
  names : NamesLoad r j (c.lsq.at' j).gen
  pending : (c.lsq.at' j).isPending = true
  completes : (c'.lsq.at' j).done = true

/-- A step of a run that keeps, beside the core, the answer that the port makes to the load last sent from each
slot. A response reaches no other load than the one it answers. -/
structure AnsweredStep (p : PortInOrder cfg M) (x y : OoOCore M × (Nat → Option (MemResponse Nat))) : Prop where
  action : Action x.1 y.1
  sends : ∀ j, SendsLoad x.1 y.1 j → y.2 j = some (p.answerTo x.1 j)
  keeps : ∀ j, ¬ SendsLoad x.1 y.1 j → y.2 j = x.2 j
  reaches : ∀ r j, Reaches x.1 y.1 r j → x.2 j = some r

/-- A load that is done has the value that it sees, and a load that waits for the data port will get it from its
answer. -/
structure LoadRight (image : Nat → Byte) (c : OoOCore M) (answer : Option (MemResponse Nat)) (l : Nat) : Prop where
  done : (c.lsq.at' l).done = true → ∃ v, Sees (committedMem image c) c.lsq l v ∧
    (c.lsq.at' l).value = extendLoad (c.lsq.at' l).op v
  waits : (c.lsq.at' l).isPending = true → ∃ r, answer = some r ∧ Sees (committedMem image c) c.lsq l r.rdata

/-- Every load that is not tainted by a fault has read what it should, as far as it has read. -/
def LoadsRight (image : Nat → Byte) (c : OoOCore M) (answers : Nat → Option (MemResponse Nat)) : Prop :=
  ∀ l ∈ c.lsq.ring.slots, (c.lsq.at' l).isStore = false → c.Untainted l → LoadRight image c (answers l) l

/-- What the core keeps for its loads. -/
structure SightOk (p : PortInOrder cfg M) (image : Nat → Byte)
    (x : OoOCore M × (Nat → Option (MemResponse Nat))) : Prop where
  access : AccessesOk cfg cfg.memBytes x.1
  wall : cfg.memOrder ≠ .Speculative → WallHolds x.1.faults x.1.lsq
  port : PortOk p image x.1
  loads : LoadsRight image x.1 x.2

omit [MemPorts Nat M] in
/-- The operation of a load in the LSQ is a load. -/
theorem BackOk.lsq_isLoad (hb : BackOk c) (hl : l ∈ c.lsq.ring.slots) (hst : (c.lsq.at' l).isStore = false) :
    isLoad (c.lsq.at' l).op = true := by
  obtain ⟨hlive, hmem⟩ := hb.lsq.rob_mem hl
  have hm := hb.lsq.agrees l hl
  rw [(hb.rob.consistent _ hlive).isMem, OoOCore.isMemOp, ← hm.op, Bool.or_eq_true] at hmem
  rw [hm.isStore, ← hm.op] at hst
  rw [hst] at hmem
  exact hmem.resolve_right Bool.false_ne_true

section Reads

variable {p : PortInOrder cfg M} {x y : OoOCore M × (Nat → Option (MemResponse Nat))}

/-- What the search allows a load to take, from a store or from the data port, is what it sees. -/
theorem SightOk.search (hmem : cfg.memBytes < 2 ^ 32) (h : SightOk p image x) (hl : l ∈ x.1.lsq.ring.slots)
    (hv : (x.1.lsq.at' l).addrValid = true) (ht : x.1.Untainted l) : SearchExact x.1 l :=
  searchExact h.access.lsq h.access.addrs h.access.stores hmem ⟨hl, hv, ht.load⟩

/-- The value a load forwards is that of the newest older store of each of its bytes, or of the
committed memory where there is none. -/
theorem SightOk.forward_sees (hmem : cfg.memBytes < 2 ^ 32) (h : SightOk p image x)
    (hl : l ∈ x.1.lsq.ring.slots) (hv : (x.1.lsq.at' l).addrValid = true) (ht : x.1.Untainted l) {data : Word}
    (hd : x.1.verdict l = .forward data) :
    Sees (committedMem image x.1) x.1.lsq l (scalarOf (x.1.lsq.at' l).size (wordByte data)) := by
  obtain ⟨ws, ⟨gone, hcom, -⟩, -⟩ := h.port.newest
  have hx := h.search hmem hl hv ht
  rw [committedMem, hcom]
  exact hx.forward_sees h.access.lsq hl ht h.access.stores hd

/-- So is the answer the port makes to a load that no older store touches. -/
theorem SightOk.answer_sees (hmem : cfg.memBytes < 2 ^ 32) (h : SightOk p image x)
    (hl : l ∈ x.1.lsq.ring.slots) (hv : (x.1.lsq.at' l).addrValid = true) (ht : x.1.Untainted l)
    (hclear : x.1.verdict l = .clear) : Sees (committedMem image x.1) x.1.lsq l (p.answerTo x.1 l).rdata := by
  obtain ⟨ws, ⟨gone, hcom, rfl⟩, hnew⟩ := h.port.newest
  have hx := h.search hmem hl hv ht
  have hsize : (x.1.lsq.at' l).size ≤ 4 := (h.access.lsq.sizes l hl hv).2
  have hdata : (p.answerTo x.1 l).rdata =
      scalarOf (x.1.lsq.at' l).size fun b => p.newest x.1.msys ((x.1.lsq.at' l).addr.toNat + b) := by
    unfold PortInOrder.answerTo MemRequest.answer
    rw [if_neg (show ¬((x.1.lsq.at' l).request _).isWrite = true from Bool.false_ne_true),
      if_neg (show ¬((x.1.lsq.at' l).request _).size > 4 from Nat.not_lt.mpr hsize)]
    rfl
  refine ⟨_, hdata, fun b hb => ?_⟩
  obtain ⟨hlsq, hsb⟩ := hx.clear h.access.lsq hl ht hclear hb
  -- no store of the buffer touches the byte, so it does not matter which of them were sent
  have hbyte : p.newest x.1.msys ((x.1.lsq.at' l).addr.toNat + b) =
      committedMem image x.1 ((x.1.lsq.at' l).addr.toNat + b) := by
    rw [hnew, committedMem, hcom,
      storesApplied_append_of_none fun w hw => hsb w (List.mem_of_mem_take hw),
      storesApplied_append_of_none hsb]
  rw [hbyte]
  exact .memory hlsq

/-- A load that has an access after the step had an address before. -/
theorem ReadStep.addrValid (h : ReadStep c c' l) (hwf : c.lsq.Wf) (hf : (c.lsq.at' l).Local)
    (hacc : (c'.lsq.at' l).done = true ∨ (c'.lsq.at' l).issued = true) : (c.lsq.at' l).addrValid = true := by
  have hcand : c.MayGo l → (c.lsq.at' l).addrValid = true := fun hg =>
    (LsqEntry.isCandidate_iff.mp (hwf.candidate hg.candidate).2).2.1
  cases h with
  | same hd hi _ =>
      rw [hd, hi] at hacc
      exact hacc.elim hf.load_done hf.load_issued
  | reply _ _ hp _ _ => exact hf.load_issued (LsqEntry.isPending_iff.mp hp).2.1
  | zero hv _ _ => exact hv
  | forward hg _ _ _ => exact hcand hg
  | send hs _ => exact hcand hs.mayGo

/-- A load that is sent was waiting for nothing. -/
theorem SendsLoad.notPending {slot : Nat} (h : SendsLoad c c' slot) (hwf : c.lsq.Wf) :
    ¬ (c.lsq.at' slot).isPending = true := by
  intro hp
  have hno := (LsqEntry.isCandidate_iff.mp (hwf.candidate h.mayGo.candidate).2).2.2.1
  rw [(LsqEntry.isPending_iff.mp hp).2.1] at hno
  cases hno

/-- A step keeps right what a live load has read, or will read from its answer. By what the step reads for it:
nothing, an answer, a forwarded value, or the port, which makes its answer now. -/
theorem AnsweredStep.loadRight (hmem : cfg.memBytes < 2 ^ 32) (ha : AnsweredStep p x y) (h : SightOk p image x)
    (hl : l ∈ x.1.lsq.ring.slots) (hl' : l ∈ y.1.lsq.ring.slots) (hst : (x.1.lsq.at' l).isStore = false)
    (hg : (x.1.lsq.at' l).Grows (y.1.lsq.at' l)) (ht' : y.1.Untainted l) : LoadRight image y.1 (y.2 l) l := by
  have hb := h.access.core.back
  have hwf := h.access.lsq.wf
  have hstep := ha.action.readStep hb hl hl'
  have hst' : (y.1.lsq.at' l).isStore = false := hg.isStore.trans hst
  by_cases hacc : (y.1.lsq.at' l).done = true ∨ (y.1.lsq.at' l).issued = true
  · have hv := hstep.addrValid hwf (h.access.lsq.flags l hl) hacc
    have ht := ha.action.untainted h.access hl hl' hv ht'
    have hright := h.loads l hl hst ht
    have hacc' : (y.1.lsq.at' l).isAccessed = true := by
      rw [LsqEntry.isAccessed, hst', Bool.not_false, Bool.true_and, Bool.or_eq_true]
      exact hacc.symm
    have hkeep : ∀ {v : Word}, Sees (committedMem image x.1) x.1.lsq l v →
        Sees (committedMem image y.1) y.1.lsq l v :=
      fun hsees => ha.action.sees h.access hmem h.wall hl hl' hv hacc' ht' hsees
    -- a load that has completed waits for nothing
    have hover : (y.1.lsq.at' l).done = true → ¬ (y.1.lsq.at' l).isPending = true := by
      intro hd hp
      rw [(LsqEntry.isPending_iff.mp hp).2.2] at hd
      cases hd
    cases hstep with
    | same hd hi hval =>
        refine ⟨fun hdone => ?_, fun hp => ?_⟩
        · rw [hd] at hdone
          obtain ⟨v, hsees, hvalue⟩ := hright.done hdone
          exact ⟨v, hkeep hsees, by rw [hval, hvalue, hg.op]⟩
        · have hp₀ : (x.1.lsq.at' l).isPending = true := by
            rw [LsqEntry.isPending_iff] at hp ⊢
            exact ⟨hst, hi ▸ hp.2.1, hd ▸ hp.2.2⟩
          obtain ⟨r, hr, hsees⟩ := hright.waits hp₀
          exact ⟨r, (ha.keeps l fun hs => hs.notPending hwf hp₀).trans hr, hkeep hsees⟩
    | @reply r hr hn hp hdone hvalue =>
        obtain ⟨r', hr', hsees⟩ := hright.waits hp
        have heq := ha.reaches r l ⟨hl, hr, hn, hp, hdone⟩
        obtain rfl : r' = r := Option.some.inj (hr'.symm.trans heq)
        exact ⟨fun _ => ⟨r'.rdata, hkeep hsees, by rw [hvalue, hg.op]⟩, fun hp' => absurd hp' (hover hdone)⟩
    | zero _ hf _ => exact absurd ht.load hf
    | @forward data hgo hd hdone hvalue =>
        have hsees := h.forward_sees hmem hl hv ht hd
        have hsize : (x.1.lsq.at' l).size = accessSize (x.1.lsq.at' l).op := (h.access.addrs l hl hv).size
        refine ⟨fun _ => ⟨_, hkeep hsees, ?_⟩, fun hp' => absurd hp' (hover hdone)⟩
        rw [hvalue, hg.op, hsize]
        exact extendLoad_scalarOf (hb.lsq_isLoad hl hst) data
    | send hsend hd =>
        refine ⟨fun hdone => ?_, fun _ => ?_⟩
        · rw [hd] at hdone
          cases hdone
        · exact ⟨_, ha.sends l hsend, hkeep (h.answer_sees hmem hl hv ht hsend.clear)⟩
  · rw [not_or, Bool.not_eq_true, Bool.not_eq_true] at hacc
    refine ⟨fun hd => ?_, fun hp => ?_⟩
    · rw [hacc.1] at hd
      cases hd
    · rw [LsqEntry.isPending_iff, hacc.2] at hp
      cases hp.2.1

/-- Every step keeps each live load's value that of the newest older stores. -/
theorem AnsweredStep.loadsRight (hmem : cfg.memBytes < 2 ^ 32) (ha : AnsweredStep p x y) (h : SightOk p image x) :
    LoadsRight image y.1 y.2 := by
  intro l hl' hst' ht'
  rcases ha.action.lsqAfter h.access.core.back h.access.lsq hl' with ⟨hl, hg⟩ | hnew
  · exact ha.loadRight hmem h hl hl' (hg.isStore.symm.trans hst') hg ht'
  · -- a load that was just taken has read nothing
    refine ⟨fun hd => ?_, fun hp => ?_⟩
    · rw [hnew.notDone] at hd
      cases hd
    · rw [LsqEntry.isPending_iff, hnew.unsent] at hp
      cases hp.2.1

/-- What one step keeps. -/
theorem AnsweredStep.sightOk (hcfg : cfg.Accepted) (hmem : cfg.memBytes < 2 ^ 32) (ha : AnsweredStep p x y)
    (h : SightOk p image x) : SightOk p image y := by
  refine ⟨ha.action.accessesOk hcfg p.keepsSize h.access, fun hmode => ?_,
    (ha.action.portStep hcfg h.access h.port).1, ha.loadsRight hmem h⟩
  apply ha.action.wallHolds h.access.core.back h.access.lsq ?_ (h.wall hmode)
  rw [h.access.core.config]
  exact hmode

end Reads

end Actions

end RvO3
