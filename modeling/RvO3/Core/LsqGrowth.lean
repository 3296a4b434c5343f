import RvO3.Core.Accesses

/-!
# What an LSQ entry keeps

While it stays, an entry only gains: an address, data, a place at the memory port, a value,
each for good (`LsqEntry.Grows`). A slot that is live after an action was live before it and
has grown, or was taken for a new instruction (`Action.lsqAfter`). Entries leave at the
tail, youngest first, and at the head with their commit, so an entry that is older than one
that stays is still there or has just been committed (`Action.lsqOlder`).
-/

set_option autoImplicit false

namespace RvO3

open OoOCore

/-! ## One entry -/

/-- What an entry keeps as long as it stays. -/
structure LsqEntry.Grows (le le' : LsqEntry) : Prop where
  seq : le'.seq = le.seq
  robIdx : le'.robIdx = le.robIdx
  op : le'.op = le.op
  isStore : le'.isStore = le.isStore
  gen : le'.gen = le.gen
  resolved : le.addrValid = true →
    le'.addrValid = true ∧ le'.addr = le.addr ∧ le'.size = le.size
  captured : le.dataReady = true → le'.dataReady = true ∧ le'.data = le.data
  sent : le.issued = true → le'.issued = true
  completed : le.done = true → le'.done = true ∧ le'.value = le.value

theorem LsqEntry.Grows.refl (le : LsqEntry) : le.Grows le :=
  ⟨rfl, rfl, rfl, rfl, rfl, fun h => ⟨h, rfl, rfl⟩, fun h => ⟨h, rfl⟩, id, fun h => ⟨h, rfl⟩⟩

theorem LsqEntry.Grows.trans {a b c : LsqEntry} (h : a.Grows b) (h' : b.Grows c) : a.Grows c := by
  refine ⟨h'.seq.trans h.seq, h'.robIdx.trans h.robIdx, h'.op.trans h.op, h'.isStore.trans h.isStore,
    h'.gen.trans h.gen, fun hv => ?_, fun hd => ?_, fun hi => h'.sent (h.sent hi), fun hd => ?_⟩
  · obtain ⟨h1, h2, h3⟩ := h.resolved hv
    obtain ⟨h4, h5, h6⟩ := h'.resolved h1
    exact ⟨h4, h5.trans h2, h6.trans h3⟩
  · obtain ⟨h1, h2⟩ := h.captured hd
    obtain ⟨h3, h4⟩ := h'.captured h1
    exact ⟨h3, h4.trans h2⟩
  · obtain ⟨h1, h2⟩ := h.completed hd
    obtain ⟨h3, h4⟩ := h'.completed h1
    exact ⟨h3, h4.trans h2⟩

/-- A slot that was taken for a new instruction. -/
structure LSQ.Takes (q q' : LSQ) (j : Nat) : Prop where
  free : j ∉ q.ring.slots
  unresolved : (q'.at' j).addrValid = false
  unsent : (q'.at' j).issued = false
  notDone : (q'.at' j).done = false
  gen : (q'.at' j).gen = (q.genCtr j + 1) % 2 ^ 16
  youngest : ∀ i ∈ q.ring.slots, (q.at' i).seq < (q'.at' j).seq

/-- Where a live entry comes from. -/
inductive LsqAfter (q q' : LSQ) (j : Nat) : Prop
  | old : j ∈ q.ring.slots → (q.at' j).Grows (q'.at' j) → LsqAfter q q' j
  | new : q.Takes q' j → LsqAfter q q' j

section Operations

variable {q q' : LSQ} {op : LsqOp} {j : Nat}

/-- An operation that is allowed takes nothing from an entry. -/
theorem LsqOp.rewrite_grows (ha : op.Allowed q) (j : Nat) :
    (q.at' j).Grows (op.rewrite j (q.at' j)) := by
  cases op with
  | dispatch e robIdx ps2 prf => exact .refl _
  | popHead => exact .refl _
  | popTail => exact .refl _
  | resolve slot addr size =>
      simp only [LsqOp.rewrite]
      split
      · rename_i hj
        have hv := ha.2.1
        rw [← hj] at hv
        refine ⟨rfl, rfl, rfl, rfl, rfl, fun h => ?_, fun h => ⟨h, rfl⟩, id, fun h => ⟨h, rfl⟩⟩
        rw [hv] at h
        cases h
      · exact .refl _
  | capture slot v =>
      simp only [LsqOp.rewrite]
      split
      · rename_i hj
        have hw := ha.2
        rw [← hj, LsqEntry.isWaiting, Bool.and_eq_true, Bool.not_eq_true'] at hw
        refine ⟨rfl, rfl, rfl, rfl, rfl, fun h => ⟨h, rfl, rfl⟩, fun h => ?_, id, fun h => ⟨h, rfl⟩⟩
        rw [hw.2] at h
        cases h
      · exact .refl _
  | issueLoad slot =>
      simp only [LsqOp.rewrite]
      split
      · exact ⟨rfl, rfl, rfl, rfl, rfl, fun h => ⟨h, rfl, rfl⟩, fun h => ⟨h, rfl⟩, fun _ => rfl,
          fun h => ⟨h, rfl⟩⟩
      · exact .refl _
  | completeLoad slot v =>
      simp only [LsqOp.rewrite]
      split
      · rename_i hj
        -- a load that completes was not done
        have hd : (q.at' j).done = false := by
          rw [hj]
          rcases ha.2 with h | h
          · simp only [LsqEntry.isCandidate, Bool.and_eq_true, Bool.not_eq_true'] at h
            exact h.2
          · simp only [LsqEntry.isPending, Bool.and_eq_true, Bool.not_eq_true'] at h
            exact h.2
        refine ⟨rfl, rfl, rfl, rfl, rfl, fun h => ⟨h, rfl, rfl⟩, fun h => ⟨h, rfl⟩, id, fun h => ?_⟩
        rw [hd] at h
        cases h
      · exact .refl _
  | reportLoad slot =>
      simp only [LsqOp.rewrite]
      split
      · exact ⟨rfl, rfl, rfl, rfl, rfl, fun h => ⟨h, rfl, rfl⟩, fun h => ⟨h, rfl⟩, id, fun h => ⟨h, rfl⟩⟩
      · exact .refl _

theorem dispatchedEntry_unresolved (q : LSQ) (e : RobEntry) (robIdx ps2 : Nat) (prf : PhysRegFile) :
    (dispatchedEntry q e robIdx ps2 prf).addrValid = false ∧
      (dispatchedEntry q e robIdx ps2 prf).issued = false ∧
      (dispatchedEntry q e robIdx ps2 prf).done = false ∧
      (dispatchedEntry q e robIdx ps2 prf).seq = e.seq ∧
      (dispatchedEntry q e robIdx ps2 prf).gen = (q.genCtr q.ring.allocIdx + 1) % 2 ^ 16 :=
  ⟨rfl, rfl, rfl, rfl, rfl⟩

theorem LsqOp.after (hq : q.Wf) (ha : op.Allowed q) (hj : j ∈ (op.run q).ring.slots) :
    LsqAfter q (op.run q) j := by
  have hs := op.slotAfter hq ha hj
  generalize hle : (op.run q).at' j = le at hs
  cases hs with
  | old hmem =>
      refine .old hmem ?_
      rw [hle]
      exact LsqOp.rewrite_grows ha j
  | @new e robIdx ps2 prf hno =>
      obtain ⟨h1, h2, h3, h4, h5⟩ := dispatchedEntry_unresolved q e robIdx ps2 prf
      have hp := pushedLsq hq ha.1 e robIdx ps2 prf
      have hslot : j = q.ring.allocIdx := by
        rcases List.mem_append.mp (hp.slots ▸ hj) with hold | hnew
        · exact absurd hold hno
        · exact List.mem_singleton.mp hnew
      rw [← hslot] at h5
      rw [← hle] at h1 h2 h3 h4 h5
      refine .new ⟨hno, h1, h2, h3, h5, fun i hi => ?_⟩
      rw [h4]
      exact ha.2 i hi

/-- What is live after a recovery was live before it. -/
theorem LsqSteps.popTail_after (hq : q.Ordered) (hs : LsqSteps (fun op => op = .popTail) q q')
    (hj : j ∈ q'.ring.slots) : j ∈ q.ring.slots ∧ (q.at' j).Grows (q'.at' j) := by
  have hboth : q'.Ordered ∧ ∀ i ∈ q'.ring.slots, i ∈ q.ring.slots ∧ (q.at' i).Grows (q'.at' i) := by
    refine hs.preserve (I := fun p => p.Ordered ∧
      ∀ i ∈ p.ring.slots, i ∈ q.ring.slots ∧ (q.at' i).Grows (p.at' i)) ?_ ⟨hq, fun i hi => ⟨hi, .refl _⟩⟩
    rintro p _ rfl ha ⟨hp, hall⟩
    refine ⟨hp.run ha, fun i hi => ?_⟩
    rcases LsqOp.after hp.wf ha hi with ⟨hold, hg⟩ | hnew
    · obtain ⟨h1, h2⟩ := hall i hold
      exact ⟨h1, h2.trans hg⟩
    · have hmem : i ∈ p.ring.popTail.slots := hi
      rw [Ring.slots_popTail] at hmem
      exact absurd (List.mem_of_mem_dropLast hmem) hnew.free
  exact hboth.2 j hj

/-- Everything that is younger than the youngest entry that stays, and nothing else, leaves at
the tail. -/
theorem LsqOp.older_stays (hq : q.Ordered) (ha : op.Allowed q) (hop : op ≠ .popHead) {i l : Nat}
    (hi : i ∈ q.ring.slots) (hl' : l ∈ (op.run q).ring.slots)
    (hlt : (q.at' i).seq < (q.at' l).seq) : i ∈ (op.run q).ring.slots := by
  have hset : ∀ slot le, (op.run q).ring = q.ring.set slot le → i ∈ (op.run q).ring.slots := by
    intro slot le hr
    rw [hr, Ring.slots_set]
    exact hi
  cases op with
  | popHead => exact absurd rfl hop
  | dispatch e robIdx ps2 prf =>
      rw [show ((LsqOp.dispatch e robIdx ps2 prf).run q).ring.slots = q.ring.slots ++ [q.ring.allocIdx]
        from (pushedLsq hq.wf ha.1 e robIdx ps2 prf).slots]
      exact List.mem_append_left _ hi
  | resolve slot addr size =>
      refine hset slot { q.at' slot with addr := addr, size := size, addrValid := true } ?_
      unfold LsqOp.run LSQ.resolveAddress
      dsimp only
      split <;> simp [LSQ.setEntry, LSQ.at']
  | capture slot v => exact hset _ _ rfl
  | issueLoad slot => exact hset _ _ rfl
  | completeLoad slot v => exact hset _ _ rfl
  | reportLoad slot => exact hset _ _ rfl
  | popTail =>
      have hslots : (LsqOp.popTail.run q).ring.slots = q.ring.slots.dropLast :=
        show q.ring.popTail.slots = _ from Ring.slots_popTail _
      have hsplit := List.dropLast_append_getLast (List.ne_nil_of_mem hi)
      rw [hslots] at hl' ⊢
      have hsort := hq.sorted
      rw [← hsplit, List.map_append, List.pairwise_append] at hsort
      rw [← hsplit] at hi
      rcases List.mem_append.mp hi with hi | hi
      · exact hi
      · -- the youngest entry is not older than one that stays
        have hyoung := hsort.2.2 _ (List.mem_map_of_mem hl') _ (List.mem_map_of_mem hi)
        exact absurd hlt (Nat.lt_asymm hyoung)

theorem LsqSteps.older_stays {J : LsqOp → Prop} (hJ : ∀ op, J op → op = .popTail) (hq : q.Ordered)
    (hs : LsqSteps J q q') {i l : Nat} (hi : i ∈ q.ring.slots) (hl : l ∈ q'.ring.slots)
    (hlt : (q.at' i).seq < (q.at' l).seq) : i ∈ q'.ring.slots := by
  suffices hall : q'.Ordered ∧ (l ∈ q'.ring.slots → i ∈ q'.ring.slots) ∧ q'.ring.e = q.ring.e from
    hall.2.1 hl
  clear hl
  induction hs with
  | refl => exact ⟨hq, fun _ => hi, rfl⟩
  | @tail p p' hsteps hs ih =>
      obtain ⟨op, hop, ha, rfl⟩ := hs
      obtain ⟨hp, hmem, he⟩ := ih
      obtain rfl := hJ op hop
      refine ⟨hp.run ha, fun hl' => ?_, he⟩
      have hslots : (LsqOp.popTail.run p).ring.slots = p.ring.slots.dropLast :=
        show p.ring.popTail.slots = _ from Ring.slots_popTail _
      have hl : l ∈ p.ring.slots := by
        rw [hslots] at hl'
        exact List.mem_of_mem_dropLast hl'
      have hat : p.at' = q.at' := by
        unfold LSQ.at'
        rw [he]
      refine LsqOp.older_stays hp ha nofun (hmem hl) hl' ?_
      rw [hat]
      exact hlt

end Operations

/-! ## Every action -/

section Actions

variable {M : Type} [MemPorts Nat M] {c c' : OoOCore M}

/-- A live slot was live before, and its entry has grown, or it was just taken. -/
theorem Action.lsqAfter (ha : Action c c') (hb : BackOk c) (ho : c.lsq.Ordered) {j : Nat}
    (hj : j ∈ c'.lsq.ring.slots) : LsqAfter c.lsq c'.lsq j := by
  have hchange := ha.lsqChange hb
  generalize c'.lsq = q' at hchange hj ⊢
  cases hchange with
  | once hs =>
      cases hs with
      | refl => exact .old hj (.refl _)
      | single hs =>
          obtain ⟨op, -, hal, rfl⟩ := hs
          exact LsqOp.after ho.wf hal hj
  | squash hs =>
      obtain ⟨h1, h2⟩ := hs.popTail_after ho hj
      exact .old h1 h2
  | @drain q₁ hs hs' =>
      have ho₁ : q₁.Ordered :=
        LsqSteps.preserve (I := LSQ.Ordered) (fun _ ha hq => hq.run ha) hs.to_reflTransGen ho
      obtain ⟨h1, h2⟩ := hs'.popTail_after ho₁ hj
      cases hs with
      | refl => exact .old h1 h2
      | single hs =>
          obtain ⟨op, hres, hal, rfl⟩ := hs
          obtain ⟨i, -, rfl⟩ := hres
          rcases LsqOp.after ho.wf hal h1 with ⟨hold, hg⟩ | hnew
          · exact .old hold (hg.trans h2)
          · -- resolving an address takes no slot
            refine absurd ?_ hnew.free
            have hring : ∀ slot addr size, ((LsqOp.resolve slot addr size).run c.lsq).ring.slots =
                c.lsq.ring.slots := by
              intro slot addr size
              unfold LsqOp.run LSQ.resolveAddress
              dsimp only
              split <;> simp [LSQ.setEntry]
            rw [hring] at h1
            exact h1

/-- The head is committed, and its entry leaves the LSQ. -/
structure CommitsMem (c c' : OoOCore M) : Prop where
  notEmpty : c.rob.empty = false
  done : c.rob.head.done = true
  isMem : c.rob.head.isMem = true
  commits : OpCommit c c'

/-- The response carries the data of the load at `slot` whose generation is `gen`. -/
structure NamesLoad (r : MemResponse Nat) (slot gen : Nat) : Prop where
  isLoad : ¬ isStoreTag r.tag
  slot : r.tag >>> 16 % 2 ^ 32 = slot
  gen : r.tag % 2 ^ 16 = gen

/-- Does an operation read for a load? -/
def LsqOp.isRead : LsqOp → Bool
  | .issueLoad _ => true
  | .completeLoad _ _ => true
  | _ => false

/-- What an operation reads for a load, if anything. -/
inductive ReadsFor (c c' : OoOCore M) : LsqOp → Prop
  | reply {r : MemResponse Nat} {slot : Nat} : MemPorts.dResponse c.msys = some r →
      NamesLoad r slot (c.lsq.at' slot).gen → (c.lsq.at' slot).isPending = true →
      ReadsFor c c' (.completeLoad slot (extendLoad (c.lsq.at' slot).op r.rdata))
  | zero {slot : Nat} : c.lsq.candidates slot = true → (c.rob.e (c.lsq.at' slot).robIdx).fault ≠ 0 →
      ReadsFor c c' (.completeLoad slot 0)
  | forward {slot : Nat} {data : Word} : c.MayGo slot → c.verdict slot = .forward data →
      ReadsFor c c' (.completeLoad slot (extendLoad (c.lsq.at' slot).op data))
  | send {slot : Nat} : SendsLoad c c' slot → ReadsFor c c' (.issueLoad slot)
  | other {op : LsqOp} : op.isRead = false → ReadsFor c c' op

/-- One operation that takes nothing from the head and resolves no address. -/
structure PlainOp (c c' : OoOCore M) (op : LsqOp) : Prop where
  notPopHead : op ≠ .popHead
  notResolve : op.isResolve = false
  reads : ReadsFor c c' op

/-- How an action moves the LSQ: the head leaves with its commit, an address-generation result
drains, entries leave at the tail, or one operation is made that is none of these. -/
inductive LsqMoves (c c' : OoOCore M) : Prop
  | commit : CommitsMem c c' → LsqMoves c c'
  | once : LsqOnce (PlainOp c c') c.lsq c'.lsq → LsqMoves c c'
  | squash : LsqSteps (fun op => op = .popTail) c.lsq c'.lsq → LsqMoves c c'
  | drain {i : Nat} : c.readyAgu = some i → c' = c.aguDrainOne i → LsqMoves c c'

/-- A response is dropped, or completes the load it names. -/
theorem dataResponse_once (hwf : c.lsq.Wf) {r : MemResponse Nat} (hr : MemPorts.dResponse c.msys = some r) :
    LsqOnce (PlainOp c c') c.lsq (({ c with msys := MemPorts.dPop c.msys } : OoOCore M).dataResponse r).lsq := by
  unfold OoOCore.dataResponse
  split
  · exact .refl
  · rename_i hload
    unfold OoOCore.loadReply
    dsimp only
    split
    · rename_i hc
      obtain ⟨hlive, hst, hi, hd, hgen⟩ := hc
      have hp : (c.lsq.at' (r.tag >>> 16 % 2 ^ 32)).isPending = true := by
        rw [LsqEntry.isPending, hst, hi, hd]
        rfl
      exact .one (.completeLoad _ _) ⟨LsqOp.noConfusion, rfl, .reply hr ⟨hload, rfl, hgen.symm⟩ hp⟩
        ⟨(Ring.live_iff hwf.ring).mp hlive, Or.inr hp⟩
    · exact .refl

theorem Action.lsqMoves (ha : Action c c') (hb : BackOk c) : LsqMoves c c' := by
  have hsame : c'.lsq = c.lsq → LsqMoves c c' := by
    intro h
    exact .squash (by rw [h])
  have hwf := hb.lsq.wf
  cases ha with
  | commit hne hd _ hc =>
      rcases commitOne_cases hc with ⟨rfl, -⟩ | ⟨rec, hs, -⟩ | ⟨hs, -⟩
      · exact hsame rfl
      · obtain ⟨ret, prf, pos, hal, ex, rfl, -⟩ := hs.frame
        exact hsame rfl
      · by_cases hm : c.rob.head.isMem = true
        · exact .commit ⟨hne, hd, hm, hs⟩
        · apply hsame
          rw [(congrArg OoOCore.lsq hs.frame :)]
          exact if_neg hm
  | writeback hne => exact .squash (writebackOne_steps hb hne)
  | drain hi => exact .drain hi rfl
  | response hr => exact .once (dataResponse_once hwf hr)
  | capture hj =>
      refine .once ((captureStore_once c hj).mono ?_)
      rintro _ ⟨rfl, -⟩
      exact ⟨nofun, rfl, .other rfl⟩
  | surface hj _ =>
      refine .once ((surfaceLoad_once c hj _).mono ?_)
      rintro _ rfl
      exact ⟨nofun, rfl, .other rfl⟩
  | zero hc hf =>
      obtain ⟨hj, hcand⟩ := hwf.candidate hc
      exact .once (.one (.completeLoad _ _) ⟨nofun, rfl, .zero hc hf⟩ ⟨hj, Or.inl hcand⟩)
  | forward hg hv =>
      obtain ⟨hj, hcand⟩ := hwf.candidate hg.candidate
      exact .once (.one (.completeLoad _ _) ⟨nofun, rfl, .forward hg hv⟩ ⟨hj, Or.inl hcand⟩)
  | @sendLoad _ slot hg hv hacc hs =>
      have hsend : SendsLoad c c' slot := ⟨hg, hv, hacc, hs⟩
      have hlsq : c'.lsq = (LsqOp.issueLoad slot).run c.lsq := by
        obtain ⟨m, rfl⟩ := sendLoad_frame hs
        rfl
      refine .once ?_
      rw [hlsq]
      exact .one (.issueLoad slot) ⟨nofun, rfl, .send hsend⟩ (hwf.candidate hg.candidate)
  | sendStore _ _ hs =>
      obtain ⟨m, sb, ctr, rfl⟩ := sendStore_frame hs
      exact hsame rfl
  | @issue slot u _ _ _ => cases u <;> exact .squash .refl
  | dispatch hno =>
      refine .once ((dispatchOne_once hb _).mono ?_)
      rintro _ ⟨e, robIdx, ps2, prf, rfl⟩
      exact ⟨nofun, rfl, .other rfl⟩
  | @consume r _ _ =>
      obtain ⟨m, out, stale, pred, q, pc, heq⟩ := consume_frame c r
      rw [heq]
      exact .squash .refl
  | redirect =>
      unfold OoOCore.applyRedirect
      split <;> exact .squash .refl
  | popAck _ _ => exact .squash .refl
  | request _ _ _ _ _ _ _ => exact .squash .refl
  | tickUnits => exact .squash .refl
  | tickMem _ => exact .squash .refl

/-- An entry older than one that stays is still there, or it was the head and is committed. -/
theorem Action.lsqOlder (ha : Action c c') (hb : BackOk c) (ho : c.lsq.Ordered) {i l : Nat}
    (hi : i ∈ c.lsq.ring.slots) (hl' : l ∈ c'.lsq.ring.slots)
    (hlt : (c.lsq.at' i).seq < (c.lsq.at' l).seq) :
    i ∈ c'.lsq.ring.slots ∨ (CommitsMem c c' ∧ i = c.lsq.ring.headIdx) := by
  cases ha.lsqMoves hb with
  | commit hc =>
      have hlsq : c'.lsq = c.lsq.popHead := by
        rw [(congrArg OoOCore.lsq hc.commits.frame :)]
        exact if_pos hc.isMem
      obtain ⟨hhead, -⟩ := hb.lsqHead hc.notEmpty hc.isMem
      have hempty : c.lsq.ring.empty = false := by
        cases he : c.lsq.ring.empty with
        | false => rfl
        | true =>
            rw [(Ring.empty_iff c.lsq.ring).mp he] at hhead
            cases hhead
      obtain ⟨rest, hr⟩ := Ring.slots_eq_cons ho.wf.ring hempty
      have hslots : c'.lsq.ring.slots = rest := by
        rw [hlsq]
        show c.lsq.ring.popHead.slots = rest
        rw [Ring.slots_popHead ho.wf.ring, hr]
        rfl
      rw [hr] at hi
      rcases List.mem_cons.mp hi with rfl | hi
      · exact .inr ⟨hc, rfl⟩
      · exact .inl (hslots ▸ hi)
  | once hs =>
      generalize c'.lsq = q' at hs hl' ⊢
      cases hs with
      | refl => exact .inl hi
      | single hs =>
          obtain ⟨op, hop, hal, rfl⟩ := hs
          exact .inl (LsqOp.older_stays ho hal hop.notPopHead hi hl' hlt)
  | squash hs => exact .inl (LsqSteps.older_stays (fun _ h => h) ho hs hi hl' hlt)
  | @drain k hk heq =>
      subst heq
      have ho₁ : (c.fillOne k).lsq.Ordered :=
        LsqSteps.preserve (I := LSQ.Ordered) (fun _ ha hq => hq.run ha)
          (fillOne_once hb hk).to_reflTransGen ho
      have hslots : (c.fillOne k).lsq.ring.slots = c.lsq.ring.slots := by
        show (fillAddress c.lsq (c.agus[k]?.getD default).out).ring.slots = _
        rw [fillAddress_ring, Ring.slots_set]
      have hseq : ∀ j, ((c.fillOne k).lsq.at' j).seq = (c.lsq.at' j).seq := by
        intro j
        rw [fillOne_at]
        split <;> rfl
      refine .inl (LsqSteps.older_stays (fun _ h => h) ho₁ (aguDrainOne_steps hb hk) (hslots ▸ hi) hl' ?_)
      rw [hseq, hseq]
      exact hlt

/-- The result that drains is the address of the entry it names. -/
structure Drains (c c' : OoOCore M) (i j : Nat) : Prop where
  ready : c.readyAgu = some i
  drained : c' = c.aguDrainOne i
  names : j = (c.agus[i]?.getD default).out.lsqIdx
  addr : (c'.lsq.at' j).addr = (c.agus[i]?.getD default).out.value

/-- A known address was known before, or has just been computed. -/
theorem Action.resolves (ha : Action c c') (hb : BackOk c) (ho : c.lsq.Ordered) {j : Nat}
    (hj : j ∈ c'.lsq.ring.slots) (hv : (c'.lsq.at' j).addrValid = true) :
    j ∈ c.lsq.ring.slots ∧ ((c.lsq.at' j).addrValid = true ∨ ∃ i, Drains c c' i j) := by
  have hold : j ∈ c.lsq.ring.slots := by
    rcases ha.lsqAfter hb ho hj with ⟨hold, -⟩ | hnew
    · exact hold
    · rw [hnew.unresolved] at hv
      cases hv
  refine ⟨hold, ?_⟩
  have hsame : ∀ {q' : LSQ}, LsqSteps (fun op => op.isResolve = false) c.lsq q' →
      j ∈ q'.ring.slots → (q'.at' j).addrValid = true → (c.lsq.at' j).addrValid = true := by
    intro q' hs hj hv
    have hacc := (LsqSteps.access (fun _ h => h) ho hs hj hv).2
    have hvalid := congrArg LsqEntry.addrValid hacc
    exact hvalid.symm.trans hv
  cases ha.lsqMoves hb with
  | commit hc =>
      have hlsq : c'.lsq = c.lsq.popHead := by
        rw [(congrArg OoOCore.lsq hc.commits.frame :)]
        exact if_pos hc.isMem
      left
      rw [hlsq] at hv
      exact hv
  | once hs =>
      exact .inl (hsame (LsqSteps.mono (fun _ h => h.notResolve) hs.to_reflTransGen) hj hv)
  | squash hs =>
      refine .inl (hsame (hs.mono ?_) hj hv)
      rintro _ rfl
      rfl
  | @drain k hk heq =>
      have ho₁ : (c.fillOne k).lsq.Ordered :=
        LsqSteps.preserve (I := LSQ.Ordered) (fun _ ha hq => hq.run ha)
          (fillOne_once hb hk).to_reflTransGen ho
      rw [heq] at hj hv
      obtain ⟨-, hg⟩ := (aguDrainOne_steps hb hk).popTail_after ho₁ hj
      have hacc := (LsqSteps.access (by rintro _ rfl; rfl) ho₁ (aguDrainOne_steps hb hk) hj hv).2
      have hvalid : ((c.fillOne k).lsq.at' j).addrValid = true :=
        (congrArg LsqEntry.addrValid hacc :).symm.trans hv
      have hat := fillOne_at c k j
      by_cases hjs : j = (c.agus[k]?.getD default).out.lsqIdx
      · rw [if_pos hjs] at hat
        refine .inr ⟨k, hk, heq, hjs, ?_⟩
        rw [heq, (hg.resolved hvalid).2.1, hat]
      · rw [if_neg hjs] at hat
        rw [hat] at hvalid
        exact .inl hvalid

end Actions

end RvO3
