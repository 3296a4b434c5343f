import RvO3.Core.PortTrace
import RvO3.Lib.Paths

/-!
# The path of a run

Fetch guesses a path, dispatch follows it, and a wrong guess is undone by a recovery. The
committed instructions, the ROB, the fetch queue and the address that fetch goes on from are
one path (`PathOk`), in which a resolved branch is followed by its outcome. Every step keeps
it but one: an instruction that is not a branch is dispatched without the guess that fetch
made for it, and when that guess was another address nothing undoes it. The addresses where
this may happen are a parameter, the stray ones: the path goes as far as the first of them, and
a recovery of an older instruction mends it. A stray instruction must not commit.
-/

set_option autoImplicit false

namespace RvO3

open OoOCore

/-! ## Legs -/

/-- Where fetch went on after a word. -/
def Fetched.next (f : Fetched) : Word := if f.predTaken then f.predTarget else f.pc + 4

/-- The address that follows an entry: for a branch the guess, and its outcome once resolved. -/
def RobEntry.next (e : RobEntry) : Word :=
  if e.isBranch then
    if e.done then e.actualTarget
    else if e.predictedTaken then e.predictedTarget else e.pc + 4
  else e.pc + 4

/-- The architectural successor of an instruction, over the registers before it. -/
def CommitRecord.successor (regs : Reg → Word) (r : CommitRecord) : Word :=
  let I := decode r.instruction
  let a := if usesRs1 I.op then regs I.rs1 else 0
  let b := if usesRs2 I.op then regs I.rs2 else 0
  let x := execute I r.pc a b
  if x.redirect then x.target else r.pc + 4

/-- The step that fetch took from a word. -/
def Fetched.leg (f : Fetched) : Word × Word := (f.pc, f.next)

/-- The step from an instruction in flight, as it is known so far: by its prediction, and by its
outcome once it has resolved. -/
def RobEntry.leg (e : RobEntry) : Word × Word := (e.pc, e.next)

/-- The legs of a commit stream that starts with these registers. -/
def commitLegs : (Reg → Word) → List CommitRecord → List (Word × Word)
  | _, [] => []
  | regs, r :: rs => (r.pc, r.successor regs) :: commitLegs (r.applyRegs regs) rs

/-- The address that fetch goes on from. -/
def OoOCore.front {M : Type} (c : OoOCore M) : Word := if c.pendRedirect then c.pendTarget else c.pc

theorem commitLegs_append (regs : Reg → Word) (rs rs' : List CommitRecord) :
    commitLegs regs (rs ++ rs') =
      commitLegs regs rs ++ commitLegs (rs.foldl CommitRecord.applyRegs regs) rs' := by
  induction rs generalizing regs with
  | nil => rfl
  | cons r rs ih =>
      rw [List.cons_append, commitLegs, commitLegs, ih]
      rfl

/-- The records lead to where the legs go on from. Behind a leg from a stray address these may be
anything. -/
def Leads (stray : Word → Prop) (rs : List CommitRecord) (legs : List (Word × Word)) (last : Word) : Prop :=
  ∃ mid, Follows 0 (commitLegs (fun _ => 0) rs) mid ∧ FollowsUntil stray mid legs last

section Leads

variable {stray stray' : Word → Prop} {rs : List CommitRecord} {legs legs' : List (Word × Word)} {last p q : Word}

theorem Leads.mono (hs : ∀ pc, stray pc → stray' pc) (h : Leads stray rs legs last) : Leads stray' rs legs last := by
  obtain ⟨mid, hrs, hlegs⟩ := h
  exact ⟨mid, hrs, hlegs.mono hs⟩

/-- The last address may be left for another. -/
theorem Leads.concat (h : Leads stray rs legs p) (q : Word) : Leads stray rs (legs ++ [(p, q)]) q := by
  obtain ⟨mid, hrs, hlegs⟩ := h
  exact ⟨mid, hrs, hlegs.concat q⟩

/-- What lies behind a leg may be dropped. -/
theorem Leads.start (h : Leads stray rs (legs ++ (p, q) :: legs') last) : Leads stray rs legs p := by
  obtain ⟨mid, hrs, hlegs⟩ := h
  exact ⟨mid, hrs, hlegs.start⟩

/-- A leg from a stray address may be turned. -/
theorem Leads.turn (hs : stray p) (h : Leads stray rs (legs ++ (p, q) :: legs') last) (r : Word) :
    Leads stray rs (legs ++ (p, r) :: legs') last := by
  obtain ⟨mid, hrs, hlegs⟩ := h
  exact ⟨mid, hrs, hlegs.turn hs r⟩

end Leads

/-! ## The invariant -/

section Path

variable {M : Type} {cfg : SimConfig} {stray : Word → Prop} {c c₁ c' : OoOCore M}

/-- The outstanding block holds the word that fetch goes on from, and the queue has room for it. -/
structure Fetching (c : OoOCore M) : Prop where
  steady : c.pendRedirect = false
  start : c.fBlock + BitVec.ofNat 32 ((c.fFetchPc - c.fBlock).toNat / 4 * 4) = c.pc
  inBlock : (c.fFetchPc - c.fBlock).toNat / 4 ≤ c.cfg.fetchBlockBytes / 4
  room : c.fetchQ.n + c.cfg.fetchBlockBytes / 4 ≤ c.fetchQ.capacity

/-- The records, the ROB and the fetch queue lie on one path, each the successor of the one before,
which ends where fetch goes on. Only the part that has committed is known to be the architectural
one, and what is behind a stray address is on no path at all. -/
structure PathOk (stray : Word → Prop) (c : OoOCore M) : Prop where
  queue : c.fetchQ.Wf
  capacity : c.fetchQ.capacity = c.cfg.fetchQSize
  decoded : ∀ i ∈ c.rob.slots, decode (c.rob.e i).ins.raw = (c.rob.e i).ins
  path : Leads stray c.commits (c.rob.entries.map RobEntry.leg ++ c.fetchQ.entries.map Fetched.leg) c.front
  fetching : c.fOutstanding = true → c.fStale = false → Fetching c

/-- With more stray addresses less is known of the path. -/
theorem PathOk.mono {stray' : Word → Prop} (hs : ∀ pc, stray pc → stray' pc) (h : PathOk stray c) : PathOk stray' c :=
  ⟨h.queue, h.capacity, h.decoded, h.path.mono hs, h.fetching⟩

/-- The path comes to the head of the ROB. -/
theorem PathOk.head (h : PathOk stray c) (hwf : c.rob.Wf) (hne : c.rob.empty = false) :
    Follows 0 (commitLegs (fun _ => 0) c.commits) c.rob.head.pc := by
  obtain ⟨mid, hrs, hlegs⟩ := h.path
  rw [Ring.entries_eq_cons hwf hne, List.map_cons, List.cons_append] at hlegs
  obtain ⟨rfl, -⟩ := hlegs
  exact hrs

/-- With nothing in flight the path comes to where fetch goes on. -/
theorem PathOk.drained (h : PathOk stray c) (hrob : c.rob.entries = []) (hq : c.fetchQ.entries = []) :
    Follows 0 (commitLegs (fun _ => 0) c.commits) c.front := by
  obtain ⟨mid, hrs, hlegs⟩ := h.path
  rw [hrob, hq] at hlegs
  obtain rfl : mid = c.front := hlegs
  exact hrs

/-- The commit stream and the state of fetch are left alone. -/
structure SameFront (c c' : OoOCore M) : Prop where
  cfg : c'.cfg = c.cfg
  commits : c'.commits = c.commits
  fetchQ : c'.fetchQ = c.fetchQ
  pc : c'.pc = c.pc
  outstanding : c'.fOutstanding = c.fOutstanding
  stale : c'.fStale = c.fStale
  block : c'.fBlock = c.fBlock
  fetchPc : c'.fFetchPc = c.fFetchPc
  redirect : c'.pendRedirect = c.pendRedirect
  target : c'.pendTarget = c.pendTarget

theorem SameFront.refl (c : OoOCore M) : SameFront c c := ⟨rfl, rfl, rfl, rfl, rfl, rfl, rfl, rfl, rfl, rfl⟩

theorem SameFront.trans {c'' : OoOCore M} (h : SameFront c c') (h' : SameFront c' c'') : SameFront c c'' :=
  ⟨h'.cfg.trans h.cfg, h'.commits.trans h.commits, h'.fetchQ.trans h.fetchQ, h'.pc.trans h.pc,
    h'.outstanding.trans h.outstanding, h'.stale.trans h.stale, h'.block.trans h.block,
    h'.fetchPc.trans h.fetchPc, h'.redirect.trans h.redirect, h'.target.trans h.target⟩

theorem SameFront.front (h : SameFront c c') : c'.front = c.front := by
  unfold OoOCore.front
  rw [h.redirect, h.target, h.pc]

/-- What fetch knows of the block on its way survives a step that leaves the front end alone. -/
theorem Fetching.same (h : Fetching c) (hs : SameFront c c') : Fetching c' := by
  refine ⟨?_, ?_, ?_, ?_⟩
  · rw [hs.redirect]
    exact h.steady
  · rw [hs.block, hs.fetchPc, hs.pc]
    exact h.start
  · rw [hs.block, hs.fetchPc, hs.cfg]
    exact h.inBlock
  · rw [hs.fetchQ, hs.cfg]
    exact h.room

/-- A step that changes entries, but not where they lead. -/
theorem PathOk.same (h : PathOk stray c) (hs : SameFront c c') (hr : SameStatic c.rob c'.rob)
    (hn : ∀ i ∈ c.rob.slots, (c'.rob.e i).next = (c.rob.e i).next) : PathOk stray c' := by
  have hlegs : c'.rob.entries.map RobEntry.leg = c.rob.entries.map RobEntry.leg := by
    rw [Ring.entries, Ring.entries, List.map_map, List.map_map, hr.slots]
    apply List.map_congr_left
    intro i hi
    have hpc : (c'.rob.e i).pc = (c.rob.e i).pc := (congrArg RobEntry.pc (hr.static i) :)
    show ((c'.rob.e i).pc, (c'.rob.e i).next) = ((c.rob.e i).pc, (c.rob.e i).next)
    rw [hpc, hn i hi]
  refine ⟨?_, ?_, ?_, ?_, ?_⟩
  · rw [hs.fetchQ]
    exact h.queue
  · rw [hs.fetchQ, hs.cfg]
    exact h.capacity
  · intro i hi
    rw [hr.slots] at hi
    rw [hr.ins]
    exact h.decoded i hi
  · rw [hs.commits, hs.fetchQ, hlegs, hs.front]
    exact h.path
  · intro ho hst
    rw [hs.outstanding] at ho
    rw [hs.stale] at hst
    exact (h.fetching ho hst).same hs

/-- A step that leaves the ROB alone as well. -/
theorem PathOk.frame (h : PathOk stray c) (hs : SameFront c c') (hr : c'.rob = c.rob) : PathOk stray c' :=
  h.same hs (by rw [hr]; exact SameStatic.refl _) fun i _ => by rw [hr]

/-! ## Recovery -/

/-- What a sorted list keeps within the number of one of its elements, and below it. -/
theorem filter_le_sorted {f : Nat → Nat} {pre post : List Nat} {x : Nat}
    (h : ((pre ++ x :: post).map f).Pairwise (· < ·)) :
    (pre ++ x :: post).filter (fun i => decide (f i ≤ f x)) = pre ++ [x] ∧
      ∀ s, f x = s + 1 → (pre ++ x :: post).filter (fun i => decide (f i ≤ s)) = pre := by
  rw [List.map_append, List.map_cons, List.pairwise_append, List.pairwise_cons] at h
  have hpre : ∀ i ∈ pre, f i < f x := fun i hi =>
    h.2.2 (f i) (List.mem_map_of_mem hi) (f x) List.mem_cons_self
  have hpost : ∀ s, s ≤ f x → post.filter (fun i => decide (f i ≤ s)) = [] := by
    intro s hs
    rw [List.filter_eq_nil_iff]
    intro i hi
    have hlt := h.2.1.1 (f i) (List.mem_map_of_mem hi)
    simp only [decide_eq_true_eq, Nat.not_le]
    omega
  have hkeep : ∀ s, f x ≤ s + 1 → pre.filter (fun i => decide (f i ≤ s)) = pre := by
    intro s hs
    rw [List.filter_eq_self]
    intro i hi
    have hlt := hpre i hi
    exact decide_eq_true (by omega)
  refine ⟨?_, fun s hs => ?_⟩
  · rw [List.filter_append, hkeep _ (Nat.le_succ _),
      List.filter_cons_of_pos (by exact decide_eq_true (Nat.le_refl _)), hpost _ (Nat.le_refl _)]
  · rw [List.filter_append, hkeep _ (by omega),
      List.filter_cons_of_neg (by simp only [decide_eq_true_eq]; omega), hpost _ (by omega),
      List.append_nil]

/-- A recovery turns the path behind the entries that stay to its target. -/
theorem PathOk.recover (h : PathOk stray c) (hf : SameFront c c₁) (hr : SameStatic c.rob c₁.rob) (hb : BackOk c₁)
    {seq : Nat} {target : Word} (hpath : Leads stray c.commits
      ((c.rob.slots.filter fun i => decide (robSeq c.rob i ≤ seq)).map fun i => (c₁.rob.e i).leg) target) :
    PathOk stray { c₁.recover seq with pendRedirect := true, pendTarget := target } := by
  have hs := recover_spec hb seq
  have hcom : (c₁.recover seq).commits = c₁.commits := (congrArg OoOCore.commits hs.frame :)
  have hcfg : (c₁.recover seq).cfg = c₁.cfg := (congrArg OoOCore.cfg hs.frame :)
  have hout : (c₁.recover seq).fOutstanding = c₁.fOutstanding := (congrArg OoOCore.fOutstanding hs.frame :)
  refine ⟨?_, ?_, ?_, ?_, ?_⟩
  · show (c₁.recover seq).fetchQ.Wf
    rw [hs.fetchQ, hf.fetchQ]
    exact h.queue.clear
  · show (c₁.recover seq).fetchQ.capacity = (c₁.recover seq).cfg.fetchQSize
    rw [hs.fetchQ, hcfg, hf.fetchQ, hf.cfg]
    exact h.capacity
  · intro i hi
    show decode ((c₁.recover seq).rob.e i).ins.raw = ((c₁.recover seq).rob.e i).ins
    have hlive := (hs.rob.mem.mp hi).1
    rw [hr.slots] at hlive
    rw [hs.rob.e, hr.ins]
    exact h.decoded i hlive
  · show Leads stray (c₁.recover seq).commits ((c₁.recover seq).rob.entries.map RobEntry.leg ++
      (c₁.recover seq).fetchQ.entries.map Fetched.leg) target
    have hent : (c₁.recover seq).rob.entries.map RobEntry.leg =
        (c.rob.slots.filter fun i => decide (robSeq c.rob i ≤ seq)).map fun i => (c₁.rob.e i).leg := by
      rw [Ring.entries, hs.rob.slots, hs.rob.e, List.map_map, hr.slots, hr.seq]
      rfl
    rw [hcom, hf.commits, hent, hs.fetchQ, Ring.entries, Ring.slots_clear, List.map_nil, List.map_nil,
      List.append_nil]
    exact hpath
  · intro ho hst
    change (c₁.recover seq).fOutstanding = true at ho
    change (c₁.recover seq).fStale = false at hst
    rw [hs.fStale, ← hout, ho] at hst
    cases hst

/-- The path up to a live entry. -/
theorem PathOk.before (h : PathOk stray c) {pre post : List Nat} {i : Nat} (hs : c.rob.slots = pre ++ i :: post) :
    Leads stray c.commits (pre.map fun j => (c.rob.e j).leg) (c.rob.e i).pc := by
  have hp := h.path
  rw [Ring.entries, List.map_map, hs, List.map_append, List.map_cons, List.append_assoc, List.cons_append] at hp
  exact hp.start

/-- A branch that was guessed wrong is followed by its outcome. -/
theorem PathOk.mispredict (h : PathOk stray c) (hb : BackOk c) (hb₁ : BackOk c₁) (hs : SameFront c c₁) {i : Nat}
    {e : RobEntry} (hi : i ∈ c.rob.slots) (hr : c₁.rob = c.rob.set i e)
    (he : e.static = (c.rob.e i).static) (hbr : e.isBranch = true) (hd : e.done = true) :
    PathOk stray { c₁.recover (robSeq c.rob i) with pendRedirect := true, pendTarget := e.actualTarget } := by
  obtain ⟨pre, post, hsplit⟩ := List.append_of_mem hi
  have hsame : SameStatic c.rob c₁.rob := by
    rw [hr]
    exact SameStatic.set he
  have hnd := Ring.slots_nodup hb.rob.wf
  rw [hsplit] at hnd
  have hpre : ∀ j ∈ pre, (c₁.rob.e j).leg = (c.rob.e j).leg := by
    intro j hj
    have hne : j ≠ i := fun heq => (List.nodup_append.mp hnd).2.2 j hj i List.mem_cons_self heq
    rw [hr, Ring.set_e, Function.update_of_ne hne]
  have hself : (c₁.rob.e i).leg = ((c.rob.e i).pc, e.actualTarget) := by
    have hpc : e.pc = (c.rob.e i).pc := (congrArg RobEntry.pc he :)
    have hnext : e.next = e.actualTarget := by rw [RobEntry.next, if_pos hbr, if_pos hd]
    rw [hr, Ring.set_e, Function.update_self, RobEntry.leg, hpc, hnext]
  have hsort := hb.rob.sorted
  rw [hsplit] at hsort
  apply h.recover hs hsame hb₁
  rw [hsplit, (filter_le_sorted hsort).1, List.map_append, List.map_singleton, hself, List.map_congr_left hpre]
  exact (h.before hsplit).concat _

/-- A replayed load is fetched again. -/
theorem PathOk.replay (h : PathOk stray c) (hb : BackOk c) {slot : Nat} (hj : slot ∈ c.lsq.ring.slots) {seq : Nat}
    (hseq : (c.lsq.at' slot).seq = seq + 1) :
    PathOk stray { (c.replayCall slot).recover seq with
      pendRedirect := true, pendTarget := (c.lsq.at' slot).pc } := by
  have hlive := (hb.lsq.rob_mem hj).1
  have hmatch := hb.lsq.agrees slot hj
  obtain ⟨pre, post, hsplit⟩ := List.append_of_mem hlive
  have hsort := hb.rob.sorted
  rw [hsplit] at hsort
  have hb₁ : BackOk (c.replayCall slot) := { hb with }
  have hf : SameFront c (c.replayCall slot) := ⟨rfl, rfl, rfl, rfl, rfl, rfl, rfl, rfl, rfl, rfl⟩
  have hr : SameStatic c.rob (c.replayCall slot).rob := SameStatic.refl _
  apply h.recover hf hr hb₁
  rw [hsplit, (filter_le_sorted hsort).2 seq (hmatch.seq.symm.trans hseq), hmatch.pc]
  exact h.before hsplit

/-! ## Writeback and address generation -/

theorem complete_front (c : OoOCore M) (i : Nat) (op : FuOp) : SameFront c (c.complete i op) :=
  ⟨rfl, rfl, rfl, rfl, rfl, rfl, rfl, rfl, rfl, rfl⟩

theorem dropOut_front (c : OoOCore M) (slot : OutSlot) : SameFront c (c.dropOut slot) := by
  cases slot <;> exact ⟨rfl, rfl, rfl, rfl, rfl, rfl, rfl, rfl, rfl, rfl⟩

theorem mispredictCall_front (c : OoOCore M) (slot : OutSlot) (e : RobEntry) :
    SameFront c (c.mispredictCall slot e) :=
  have h : SameFront c { c with
      pred := if c.cfg.usePredictor then (c.pred.restore e.predBefore).replay e.pc e.ins e.actualTaken
        else c.pred } := ⟨rfl, rfl, rfl, rfl, rfl, rfl, rfl, rfl, rfl, rfl⟩
  h.trans (dropOut_front _ slot)

theorem dropOut_rob (c : OoOCore M) (slot : OutSlot) : (c.dropOut slot).rob = c.rob := by
  cases slot <;> rfl

/-- A resolved branch that was guessed right leads where it led. -/
theorem next_resolve {e : RobEntry} {op : FuOp} (hd : e.done = false)
    (h : (resolve e op).isBranch = false ∨ (resolve e op).mispredicted = false) :
    (resolve e op).next = e.next := by
  have hbr : (resolve e op).isBranch = e.isBranch := rfl
  unfold RobEntry.next
  rw [hbr]
  split
  · rename_i hb
    rw [hbr, hb] at h
    have hok := h.resolve_left nofun
    rw [if_pos (resolve_done e op), if_neg (by rw [hd]; exact Bool.false_ne_true)]
    simp only [RobEntry.mispredicted, resolve, hb, if_true, Bool.or_eq_false_iff, bne_eq_false_iff_eq,
      Bool.and_eq_false_imp] at hok
    obtain ⟨htaken, htarget⟩ := hok
    show (if e.isBranch then (if op.redirect then op.target else e.pc + 4) else e.actualTarget) = _
    rw [if_pos hb, ← htaken]
    cases hop : op.redirect with
    | true =>
        rw [hop, if_pos rfl] at htarget
        rw [if_pos rfl, if_pos rfl]
        exact htarget rfl
    | false => rfl
  · rfl

/-- One write back keeps the path: a correct guess is confirmed, and a wrong one is squashed from
the next instruction on and redirected to the actual target. -/
theorem PathOk.writebackOne (h : PathOk stray c) (hb : BackOk c) (hne : c.wbReady ≠ []) :
    PathOk stray c.writebackOne.1 := by
  obtain ⟨slot, hs, hcase⟩ := writebackOne_cases hne
  have hres := hb.waiting (List.mem_of_getElem? hs)
  obtain ⟨heq, hright⟩ | ⟨heq, hbr, -⟩ := hcase
  · rw [heq]
    refine h.same ((complete_front c _ _).trans (dropOut_front _ slot))
      ((quiet_complete c c.oldestReady (c.outAt slot)).trans (quiet_dropOut _ slot)).rob fun i _ => ?_
    have hrob : ((c.complete c.oldestReady (c.outAt slot)).dropOut slot).rob =
        c.rob.set (c.outAt slot).robIdx (resolve (c.rob.e (c.outAt slot).robIdx) (c.outAt slot)) :=
      dropOut_rob _ slot
    rw [hrob, Ring.set_e, Function.update_apply]
    split
    · rename_i hi
      rw [hi]
      exact next_resolve hres.notDone hright
    · rfl
  · rw [heq, mispredict_eq]
    have hb' := (hb.finishResult hs).mispredictCall
      (resolve (c.rob.e (c.outAt slot).robIdx) (c.outAt slot))
    have hfront := (complete_front c c.oldestReady (c.outAt slot)).trans
      (mispredictCall_front _ slot (resolve (c.rob.e (c.outAt slot).robIdx) (c.outAt slot)))
    have hrob : ((c.complete c.oldestReady (c.outAt slot)).mispredictCall slot
        (resolve (c.rob.e (c.outAt slot).robIdx) (c.outAt slot))).rob =
        c.rob.set (c.outAt slot).robIdx (resolve (c.rob.e (c.outAt slot).robIdx) (c.outAt slot)) :=
      dropOut_rob _ slot
    have hok := h.mispredict hb hb' hfront hres.names.live hrob (resolve_static _ _) hbr
      (resolve_done _ _)
    rw [hres.names.seq] at hok
    exact hok

theorem RobEntry.next_of_mem {e e' : RobEntry} (hc : e.Consistent) (hm : e.isMem = true)
    (hs : e'.static = e.static) : e'.next = e.next := by
  have hbr : e.isBranch = false := by
    rw [isMem_eq_kind hc, decide_eq_true_iff] at hm
    rw [hc.isBranch, hm]
    rfl
  have hbr' : e'.isBranch = e.isBranch := (congrArg RobEntry.isBranch hs :)
  have hpc : e'.pc = e.pc := (congrArg RobEntry.pc hs :)
  unfold RobEntry.next
  rw [hbr', hbr, hpc]
  rfl

/-- A replay squashes the victim and redirects to its pc, so the path goes on where it was cut. -/
theorem PathOk.violationScan (h : PathOk stray c) (hb : BackOk c) (store : LsqEntry) :
    PathOk stray (c.violationScan store) := by
  cases hv : c.violationVictim store with
  | none =>
      rw [violationScan_none hv]
      exact h
  | some slot =>
      rw [violationScan_eq hv]
      have hhit := List.find?_some hv
      have hmem := List.mem_of_find?_eq_some hv
      rw [LSQ.visitAccessedLoads, hb.lsq.wf.accessedLoads, LSQ.visit_liveSet hb.lsq.wf.ring] at hmem
      simp only [Bool.and_eq_true, decide_eq_true_eq] at hhit
      exact h.replay hb (List.mem_filter.mp hmem).1 (by omega)

section Memory

variable [MemPorts Nat M]

theorem PathOk.aguDrainOne (h : PathOk stray c) (hb : BackOk c) {k : Nat} (hk : c.readyAgu = some k) :
    PathOk stray (c.aguDrainOne k) := by
  have hd := hb.delivered hk
  have hfill : PathOk stray (c.fillOne k) := by
    refine h.same ?_ (quiet_fillOne c k).rob fun i hi => ?_
    · rw [fillOne_eq]
      exact ⟨rfl, rfl, rfl, rfl, rfl, rfl, rfl, rfl, rfl, rfl⟩
    · have hst := (quiet_fillOne c k).rob.static i
      by_cases hik : i = (c.agus[k]?.getD default).out.robIdx
      · have hmem := (hb.lsq.rob_mem hd.lsq.live).2
        rw [hd.lsq.robIdx, ← hik] at hmem
        exact RobEntry.next_of_mem (hb.rob.consistent i hi) hmem hst
      · rw [fillOne_eq]
        show ((c.rob.set _ _).e i).next = _
        rw [Ring.set_e, Function.update_of_ne hik]
  unfold OoOCore.aguDrainOne
  dsimp only
  split
  · exact hfill.violationScan (hb.fillOne hk) _
  · exact hfill

omit [MemPorts Nat M] in
theorem PathOk.captureStore (h : PathOk stray c) (hb : BackOk c) {slot : Nat} (hj : slot ∈ c.lsq.ring.slots) :
    PathOk stray (c.captureStore slot) := by
  refine h.same ?_ (quiet_captureStore c slot).rob fun i hi => ?_
  · unfold OoOCore.captureStore
    dsimp only
    split
    · split <;> exact ⟨rfl, rfl, rfl, rfl, rfl, rfl, rfl, rfl, rfl, rfl⟩
    · exact .refl c
  · by_cases hi' : i = (c.lsq.at' slot).robIdx
    · have hmem := (hb.lsq.rob_mem hj).2
      change (c.rob.e (c.lsq.at' slot).robIdx).isMem = true at hmem
      rw [← hi'] at hmem
      exact RobEntry.next_of_mem (hb.rob.consistent i hi) hmem ((quiet_captureStore c slot).rob.static i)
    · unfold OoOCore.captureStore
      dsimp only
      split
      · split
        · show ((c.rob.set _ _).e i).next = _
          rw [Ring.set_e, Function.update_of_ne hi']
        · rfl
      · rfl

end Memory

/-! ## Dispatch -/

/-- Fetch guessed no other successor than the next address, unless the word is a branch. -/
def Fetched.Guided (f : Fetched) : Prop := fuKindOf (decode f.raw).op = .BRANCH ∨ f.next = f.pc + 4

instance (f : Fetched) : Decidable f.Guided := inferInstanceAs (Decidable (_ ∨ _))

theorem Pushed.entries {r : Ring RobEntry} {e : RobEntry} (h : Pushed r e) :
    (pushRob r e).entries = r.entries ++ [e] := by
  rw [Ring.entries, h.slots, List.map_append, List.map_singleton, h.new, Ring.entries,
    List.map_congr_left h.old]

/-- The head of the fetch queue becomes the youngest entry. It may lead elsewhere if it is stray. -/
theorem PathOk.dispatched (h : PathOk stray c) {e : RobEntry} (hne : c.fetchQ.empty = false) (hp : Pushed c.rob e)
    (hf : SameFront { c with fetchQ := c.fetchQ.popHead } c') (hr : c'.rob = pushRob c.rob e)
    (hd : decode e.ins.raw = e.ins) (hpc : e.pc = c.fetchQ.head.pc)
    (hnext : e.next = c.fetchQ.head.next ∨ stray c.fetchQ.head.pc) : PathOk stray c' := by
  have hq := Ring.entries_eq_cons h.queue hne
  refine ⟨?_, ?_, ?_, ?_, ?_⟩
  · rw [hf.fetchQ]
    exact h.queue.popHead
  · rw [hf.fetchQ, hf.cfg]
    exact h.capacity
  · intro i hi
    rw [hr] at hi ⊢
    rcases List.mem_append.mp (hp.slots ▸ hi) with hold | hnew
    · rw [hp.old i hold]
      exact h.decoded i hold
    · rw [List.mem_singleton.mp hnew, hp.new]
      exact hd
  · have hpath := h.path
    rw [hq, List.map_cons] at hpath
    have hleads : Leads stray c.commits (c.rob.entries.map RobEntry.leg ++
        e.leg :: c.fetchQ.popHead.entries.map Fetched.leg) c.front := by
      unfold RobEntry.leg
      rw [hpc]
      rcases hnext with heq | hs
      · rw [heq]
        exact hpath
      · exact hpath.turn hs e.next
    rw [hf.commits, hf.fetchQ, hf.front, hr, hp.entries, List.map_append, List.map_singleton, List.append_assoc]
    exact hleads
  · intro ho hst
    rw [hf.outstanding] at ho
    rw [hf.stale] at hst
    have hfet := h.fetching ho hst
    have hroom := hfet.room
    have hpop : Fetching { c with fetchQ := c.fetchQ.popHead } :=
      ⟨hfet.steady, hfet.start, hfet.inBlock, Nat.le_trans (Nat.add_le_add_right (Nat.sub_le _ _) _) hroom⟩
    exact hpop.same hf

theorem PathOk.dispatchSystem (h : PathOk stray c) (hb : BackOk c) {first : Bool} (hr : SystemRoom c first)
    (hg : c.fetchQ.head.Guided ∨ stray c.fetchQ.head.pc) :
    PathOk stray (c.dispatchSystem c.fetchQ.head (decode c.fetchQ.head.raw)) := by
  rw [dispatchSystem_eq]
  refine h.dispatched hr.fetched (pushed hb.rob.wf hr.rob (systemEntry c c.fetchQ.head))
    ⟨rfl, rfl, rfl, rfl, rfl, rfl, rfl, rfl, rfl, rfl⟩ rfl ?_ rfl (hg.imp_left fun hguided => ?_)
  · show decode (decode c.fetchQ.head.raw).raw = decode c.fetchQ.head.raw
    rw [decode_raw]
  · have hnext := hguided.resolve_left (by rw [hr.kind]; exact nofun)
    exact hnext.symm

/-- Dispatching the head of a fetch queue that follows the ROB moves the seam between the two by one
instruction. -/
theorem PathOk.dispatchOp (h : PathOk stray c) (hb : BackOk c) (hr : OpRoom c)
    (hg : c.fetchQ.head.Guided ∨ stray c.fetchQ.head.pc) :
    PathOk stray (c.dispatchOp c.fetchQ.head (decode c.fetchQ.head.raw)) := by
  rw [dispatchOp_eq]
  refine h.dispatched hr.fetched (pushed hb.rob.wf hr.rob (opEntry c c.fetchQ.head))
    ⟨rfl, rfl, rfl, rfl, rfl, rfl, rfl, rfl, rfl, rfl⟩ rfl ?_ rfl (hg.imp_left fun hguided => ?_)
  · show decode (decode c.fetchQ.head.raw).raw = decode c.fetchQ.head.raw
    rw [decode_raw]
  · by_cases hk : fuKindOf (decode c.fetchQ.head.raw).op = .BRANCH
    · simp [RobEntry.next, opEntry, robEntry, Fetched.next, hk]
    · rw [hguided.resolve_left hk]
      simp [RobEntry.next, opEntry, robEntry, hk]

/-- A dispatch keeps the path when what it takes is guided or stands at a stray address. -/
theorem PathOk.dispatchOne (h : PathOk stray c) (hb : BackOk c) (first : Bool)
    (hg : c.fetchQ.empty = false → c.fetchQ.head.Guided ∨ stray c.fetchQ.head.pc) :
    PathOk stray (c.dispatchOne first).1 := by
  rcases dispatchOne_cases c first with heq | ⟨hr, heq⟩ | ⟨hr, heq⟩
  · rw [heq]
    exact h
  · rw [heq]
    exact h.dispatchSystem hb hr (hg hr.fetched)
  · rw [heq]
    exact h.dispatchOp hb hr (hg hr.fetched)

/-! ## Fetch -/

/-- Enqueueing the words of a block extends a path that leads to the first of them. -/
theorem leads_fetchLoop (line : Line) {rs : List CommitRecord} {legs : List (Word × Word)} {words : Nat} (n : Nat) :
    ∀ (idx : Nat) {c : OoOCore M}, c.fetchQ.Wf → c.fetchQ.n + n ≤ c.fetchQ.capacity →
    words = idx + n → c.cfg.fetchBlockBytes = words * 4 →
    Leads stray rs (legs ++ c.fetchQ.entries.map Fetched.leg) (c.fBlock + BitVec.ofNat 32 (idx * 4)) →
    (fetchLoop line n idx c).fetchQ.Wf ∧ (fetchLoop line n idx c).fetchQ.capacity = c.fetchQ.capacity ∧
      Leads stray rs (legs ++ (fetchLoop line n idx c).fetchQ.entries.map Fetched.leg)
        (fetchLoop line n idx c).pc := by
  induction n with
  | zero =>
      intro idx c hq _ hw hb h
      refine ⟨hq, rfl, ?_⟩
      show Leads stray rs (legs ++ c.fetchQ.entries.map Fetched.leg) (c.fBlock + BitVec.ofNat 32 c.cfg.fetchBlockBytes)
      rw [hb, hw]
      exact h
  | succ n ih =>
      intro idx c hq hroom hw hb h
      have hfull : c.fetchQ.full = false := by
        simp only [Ring.full, beq_eq_false_iff_ne]
        omega
      have hq' := hq.push hfull (c.fetchWord line idx)
      have hent : (c.fetchOne line idx).fetchQ.entries = c.fetchQ.entries ++ [c.fetchWord line idx] :=
        Ring.entries_push hq hfull _
      have hleg : Leads stray rs (legs ++ (c.fetchOne line idx).fetchQ.entries.map Fetched.leg)
          (c.fetchWord line idx).next := by
        rw [hent, List.map_append, ← List.append_assoc]
        exact h.concat _
      unfold fetchLoop
      dsimp only
      split
      · rename_i ht
        refine ⟨hq', rfl, ?_⟩
        rw [Fetched.next, if_pos ht] at hleg
        exact hleg
      · rename_i ht
        have hn : (c.fetchOne line idx).fetchQ.n + n ≤ (c.fetchOne line idx).fetchQ.capacity := by
          show c.fetchQ.n + 1 + n ≤ c.fetchQ.capacity
          omega
        rw [Fetched.next, if_neg ht] at hleg
        apply ih (idx + 1) hq' hn (by omega) hb
        have hstep : (c.fetchWord line idx).pc + 4 = c.fBlock + BitVec.ofNat 32 ((idx + 1) * 4) := by
          show c.fBlock + BitVec.ofNat 32 (idx * 4) + 4 = _
          rw [Nat.succ_mul, BitVec.ofNat_add, BitVec.add_assoc]
          rfl
        rw [hstep] at hleg
        exact hleg

/-- A block that comes back adds its words one after the other, up to the first taken guess. -/
theorem PathOk.processFetch (h : PathOk stray c) (hcfg : c.cfg.Accepted) (hf : Fetching c) (r : MemResponse Nat) :
    PathOk stray ({ c with fOutstanding := false }.processFetch r) := by
  have hdvd : c.cfg.fetchBlockBytes = c.cfg.fetchBlockBytes / 4 * 4 :=
    (Nat.div_mul_cancel (Nat.dvd_trans (by decide) hcfg.fetch_dvd)).symm
  have hin := hf.inBlock
  have hpath := h.path
  rw [OoOCore.front, if_neg (by rw [hf.steady]; exact Bool.false_ne_true), ← hf.start] at hpath
  obtain ⟨h1, h2, h3⟩ := leads_fetchLoop r.rline
    (c.cfg.fetchBlockBytes / 4 - (c.fFetchPc - c.fBlock).toNat / 4) ((c.fFetchPc - c.fBlock).toNat / 4)
    (c := { c with fOutstanding := false }) h.queue (Nat.le_trans (Nat.add_le_add_left (Nat.sub_le _ _) _) hf.room)
    (Nat.add_sub_cancel' hin).symm hdvd hpath
  unfold OoOCore.processFetch
  dsimp only
  obtain ⟨pred, q, pc, heq⟩ := quiet_fetchLoop r.rline
    (c.cfg.fetchBlockBytes / 4 - (c.fFetchPc - c.fBlock).toNat / 4) ((c.fFetchPc - c.fBlock).toNat / 4)
    { c with fOutstanding := false }
  rw [heq] at h1 h2 h3 ⊢
  refine ⟨h1, h2.trans h.capacity, h.decoded, ?_, nofun⟩
  show Leads stray _ _ (if c.pendRedirect then c.pendTarget else pc)
  rw [if_neg (by rw [hf.steady]; exact Bool.false_ne_true)]
  exact h3

section Ports

variable [MemPorts Nat M]

/-- Consuming the block that came back keeps the path. -/
theorem PathOk.consume (h : PathOk stray c) (hcfg : c.cfg.Accepted) (ho : c.fOutstanding = true)
    (r : MemResponse Nat) : PathOk stray (c.consume r) := by
  have hdrop : PathOk stray { c with fOutstanding := false, fStale := false } :=
    ⟨h.queue, h.capacity, h.decoded, h.path, nofun⟩
  unfold OoOCore.consume
  dsimp only
  by_cases hst : c.fStale = true
  · rw [if_pos hst]
    exact hdrop.frame ⟨rfl, rfl, rfl, rfl, rfl, rfl, rfl, rfl, rfl, rfl⟩ rfl
  · rw [if_neg hst]
    have hp := h.processFetch hcfg (h.fetching ho (by simpa using hst)) r
    exact hp.frame ⟨rfl, rfl, rfl, rfl, rfl, rfl, rfl, rfl, rfl, rfl⟩ rfl

omit [MemPorts Nat M] in
/-- A request for the block at the fetch pc keeps the path; what comes back will be appended there.
-/
theorem PathOk.request (h : PathOk stray c) (hcfg : c.cfg.Accepted) (hpend : c.pendRedirect = false)
    (hroom : c.fetchQ.count + c.cfg.fetchBlockBytes / 4 ≤ c.cfg.fetchQSize) (hal : c.pc.toNat % 4 = 0) {m : M} :
    PathOk stray { c with
      msys := m
      fOutstanding := true
      fBlock := c.pc &&& ~~~(BitVec.ofNat 32 (c.cfg.fetchBlockBytes - 1))
      fFetchPc := c.pc } := by
  obtain ⟨k, hk, hn⟩ := hcfg.fetch_eq_pow
  have hge := hcfg.fetch_ge
  have h4 : 4 ∣ c.cfg.fetchBlockBytes := Nat.dvd_trans (by decide) hcfg.fetch_dvd
  have hblock : (c.pc &&& ~~~(BitVec.ofNat 32 (c.cfg.fetchBlockBytes - 1))).toNat =
      c.pc.toNat - c.pc.toNat % c.cfg.fetchBlockBytes := by
    rw [hn]
    exact toNat_and_not_mask c.pc k
  have hle : c.pc.toNat % c.cfg.fetchBlockBytes ≤ c.pc.toNat := Nat.mod_le _ _
  have hlt : c.pc.toNat % c.cfg.fetchBlockBytes < c.cfg.fetchBlockBytes := Nat.mod_lt _ (by omega)
  -- the word's distance from its block is a whole number of words below the block's length
  have hsub : (c.pc - (c.pc &&& ~~~(BitVec.ofNat 32 (c.cfg.fetchBlockBytes - 1)))).toNat =
      c.pc.toNat % c.cfg.fetchBlockBytes := by
    rw [BitVec.toNat_sub_of_le (by rw [BitVec.le_def, hblock]; omega), hblock]
    omega
  have hwords : c.pc.toNat % c.cfg.fetchBlockBytes / 4 * 4 = c.pc.toNat % c.cfg.fetchBlockBytes :=
    Nat.div_mul_cancel ((Nat.dvd_mod_iff h4).mpr (Nat.dvd_of_mod_eq_zero hal))
  refine ⟨h.queue, h.capacity, h.decoded, h.path, fun _ _ => ⟨hpend, ?_, ?_, ?_⟩⟩
  · dsimp only
    rw [hsub, hwords]
    apply BitVec.eq_of_toNat_eq
    rw [BitVec.toNat_add, hblock, BitVec.toNat_ofNat]
    have htop := c.pc.isLt
    rw [Nat.mod_eq_of_lt (show c.pc.toNat % c.cfg.fetchBlockBytes < 2 ^ 32 by omega), Nat.sub_add_cancel hle]
    exact Nat.mod_eq_of_lt htop
  · dsimp only
    rw [hsub]
    exact Nat.div_le_div_right (Nat.le_of_lt hlt)
  · show c.fetchQ.n + c.cfg.fetchBlockBytes / 4 ≤ c.fetchQ.capacity
    rw [h.capacity]
    exact hroom

omit [MemPorts Nat M] in
/-- A redirect empties the fetch queue and sets the fetch pc to where the ROB ends. -/
theorem PathOk.redirect (h : PathOk stray c) : PathOk stray c.applyRedirect := by
  unfold OoOCore.applyRedirect
  split
  · rename_i hp
    have hpath := h.path
    rw [OoOCore.front, if_pos hp] at hpath
    refine ⟨h.queue, h.capacity, h.decoded, hpath, fun ho hst => ?_⟩
    change c.fOutstanding = true at ho
    change (c.fOutstanding || c.fStale) = false at hst
    rw [ho] at hst
    cases hst
  · exact h

end Ports

end Path

end RvO3
