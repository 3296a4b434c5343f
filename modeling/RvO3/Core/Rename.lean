import RvO3.Core.InvFront

/-!
# Register renaming

The rename map with the renames of the live ROB entries is a map with an undo log
(`Lib/UndoLog`): `undo` of every entry is the committed map, and a squash undoes a suffix.
`Renames` adds the free list. Together the map, the displaced mappings and the free list
hold every physical register once, at every commit, dispatch and recovery.
-/

set_option autoImplicit false

namespace RvO3

open OoOCore

/-! ## The renaming state -/

/-- The renames `ws` of the in-flight instructions, the map `m` and the free list. -/
structure Renames (physRegs : Nat) (ws : List (Write Reg Nat)) (m : Reg → Nat)
    (free : Ring Nat) : Prop where
  wf : free.Wf
  capacity : free.capacity = physRegs
  logged : Logged (undoAll ws m) ws m
  conserved : heldValues m + displaced ws + ↑free.entries = Multiset.range physRegs
  zero : undoAll ws m 0 = 0
  key_ne_zero : ∀ w ∈ ws, w.key ≠ 0

namespace Renames

variable {physRegs : Nat} {ws vs : List (Write Reg Nat)} {m : Reg → Nat} {free : Ring Nat}

/-- The same law from the other end: the committed map and what was handed out since. -/
theorem conserved' (h : Renames physRegs ws m free) :
    heldValues (undoAll ws m) + written ws + ↑free.entries = Multiset.range physRegs := by
  rw [← h.logged.conserved]
  exact h.conserved

/-- The free list has room for everything in flight. -/
theorem room (h : Renames physRegs ws m free) : free.n + ws.length + 32 = physRegs := by
  have hc := congrArg Multiset.card h.conserved
  simp only [Multiset.card_add, heldValues, displaced, Multiset.card_map, Multiset.coe_card,
    List.length_map, Ring.length_entries, Multiset.card_range, Finset.card_val,
    Finset.card_univ, Fintype.card_fin] at hc
  omega

theorem nodup (h : Renames physRegs ws m free) :
    (heldValues m + displaced ws + ↑free.entries).Nodup := by
  rw [h.conserved]
  exact Multiset.nodup_range physRegs

theorem nodup' (h : Renames physRegs ws m free) :
    (heldValues (undoAll ws m) + written ws + ↑free.entries).Nodup := by
  rw [h.conserved']
  exact Multiset.nodup_range physRegs

/-- Two architectural registers never share a physical one. -/
theorem inj (h : Renames physRegs ws m free) {i j : Reg} (he : m i = m j) : i = j :=
  eq_of_heldValues_nodup (Multiset.nodup_add.mp (Multiset.nodup_add.mp h.nodup).1).1 he

theorem lt_of_free (h : Renames physRegs ws m free) {p : Nat} (hp : p ∈ free.entries) :
    p < physRegs := by
  have : p ∈ Multiset.range physRegs := by
    rw [← h.conserved]
    exact Multiset.mem_add.mpr (Or.inr (Multiset.mem_coe.mpr hp))
  exact Multiset.mem_range.mp this

/-- Registers handed out since the committed map are not in it. -/
theorem written_ne_base (h : Renames physRegs ws m free) {w : Write Reg Nat} (hw : w ∈ ws)
    (r : Reg) : w.new ≠ undoAll ws m r := by
  have hd := (Multiset.nodup_add.mp (Multiset.nodup_add.mp h.nodup').1).2.2
  intro he
  exact (Multiset.disjoint_left.mp hd (mem_heldValues.mpr ⟨r, rfl⟩))
    (he ▸ Multiset.mem_coe.mpr (List.mem_map_of_mem hw))

theorem written_ne_zero (h : Renames physRegs ws m free) {w : Write Reg Nat} (hw : w ∈ ws) :
    w.new ≠ 0 := by
  have := h.written_ne_base hw 0
  rw [h.zero] at this
  exact this

/-- No register is handed out twice. -/
theorem written_nodup (h : Renames physRegs ws m free) : (ws.map Write.new).Nodup :=
  Multiset.coe_nodup.mp (Multiset.nodup_add.mp (Multiset.nodup_add.mp h.nodup').1).2.1

/-- A free register is in no map of the undo log. -/
theorem free_notMem (h : Renames physRegs ws m free) {p : Nat} (hp : p ∈ free.entries) :
    p ∉ heldValues m ∧ p ∉ displaced ws ∧ p ∉ heldValues (undoAll ws m) ∧ p ∉ written ws := by
  have h1 := (Multiset.nodup_add.mp h.nodup).2.2
  have h2 := (Multiset.nodup_add.mp h.nodup').2.2
  refine ⟨?_, ?_, ?_, ?_⟩
  · exact fun hm => Multiset.disjoint_left.mp h1 (Multiset.mem_add.mpr (Or.inl hm))
      (Multiset.mem_coe.mpr hp)
  · exact fun hm => Multiset.disjoint_left.mp h1 (Multiset.mem_add.mpr (Or.inr hm))
      (Multiset.mem_coe.mpr hp)
  · exact fun hm => Multiset.disjoint_left.mp h2 (Multiset.mem_add.mpr (Or.inl hm))
      (Multiset.mem_coe.mpr hp)
  · exact fun hm => Multiset.disjoint_left.mp h2 (Multiset.mem_add.mpr (Or.inr hm))
      (Multiset.mem_coe.mpr hp)

/-- Register 0 always maps to physical register 0. -/
theorem map_zero (h : Renames physRegs ws m free) : m 0 = 0 := by
  rw [h.logged.apply_eq 0, List.find?_eq_none.mpr, ← h.zero]
  · rfl
  · intro w hw hk
    exact h.key_ne_zero w (List.mem_reverse.mp hw) (of_decide_eq_true hk)

theorem zero_notMem_free (h : Renames physRegs ws m free) : 0 ∉ free.entries := by
  intro hp
  exact (h.free_notMem hp).1 (mem_heldValues.mpr ⟨0, h.map_zero⟩)

/-! ### Commit, dispatch and recovery -/

/-- Commit retires the oldest rename and frees what it displaced. -/
theorem retire {w : Write Reg Nat} (h : Renames physRegs (w :: ws) m free) :
    Renames physRegs ws m (free.push w.old) := by
  have hroom := h.room
  have hf : free.full = false := by
    rw [Ring.full, beq_eq_false_iff_ne, h.capacity]
    rw [List.length_cons] at hroom
    omega
  have htail := h.logged.tail
  have hbase : undoAll ws m = w.apply (undoAll (w :: ws) m) := htail.undoAll_eq
  refine ⟨h.wf.push hf _, h.capacity, ?_, ?_, ?_, fun v hv => h.key_ne_zero v
    (List.mem_cons_of_mem _ hv)⟩
  · rw [hbase]
    exact htail
  · rw [← h.conserved, Ring.entries_push h.wf hf, displaced_cons, ← Multiset.coe_add,
      ← Multiset.singleton_add, Multiset.coe_singleton]
    abel
  · rw [hbase, Write.apply, Function.update_of_ne (h.key_ne_zero w List.mem_cons_self).symm]
    exact h.zero

/-- Dispatch hands out the head of the free list. -/
theorem rename (h : Renames physRegs ws m free) (he : free.empty = false) {rd : Reg}
    (hrd : rd ≠ 0) :
    Renames physRegs (ws ++ [⟨rd, m rd, free.head⟩]) (Function.update m rd free.head)
      free.popHead := by
  have hlog := h.logged.snoc (w := ⟨rd, m rd, free.head⟩) rfl
  have hbase : undoAll (ws ++ [⟨rd, m rd, free.head⟩]) (Function.update m rd free.head) =
      undoAll ws m := hlog.undoAll_eq
  refine ⟨h.wf.popHead, h.capacity, ?_, ?_, ?_, ?_⟩
  · rw [hbase]
    exact hlog
  · have hup := heldValues_update m rd free.head
    rw [← h.conserved, Ring.entries_eq_cons h.wf he, displaced_append, displaced_cons,
      displaced_nil, ← Multiset.cons_coe, ← Multiset.singleton_add, ← Multiset.singleton_add]
    calc heldValues (Function.update m rd free.head) + (displaced ws + ({m rd} + 0)) +
          ↑free.popHead.entries
        = (heldValues (Function.update m rd free.head) + {m rd}) + displaced ws +
          ↑free.popHead.entries := by abel
      _ = heldValues m + displaced ws + ({free.head} + ↑free.popHead.entries) := by
          rw [hup]
          abel
  · rw [hbase]
    exact h.zero
  · intro w hw
    rcases List.mem_append.mp hw with hw | hw
    · exact h.key_ne_zero w hw
    · rw [List.mem_singleton.mp hw]
      exact hrd

/-- Recovery undoes a suffix and returns what it handed out. -/
theorem squash (h : Renames physRegs (ws ++ vs) m free) :
    Renames physRegs ws (undoAll vs m) ((vs.map Write.new).reverse.foldl Ring.push free) := by
  have hroom := h.room
  rw [List.length_append] at hroom
  obtain ⟨h1, h2, h3⟩ := Ring.foldl_push (vs.map Write.new).reverse h.wf (by
    rw [h.capacity, List.length_reverse, List.length_map]
    omega)
  have hlog := h.logged.undoAll
  have hbase : undoAll (ws ++ vs) m = undoAll ws (undoAll vs m) := undoAll_append ws vs m
  refine ⟨h1, h2.trans h.capacity, ?_, ?_, ?_, fun w hw => h.key_ne_zero w
    (List.mem_append_left _ hw)⟩
  · rw [← hbase]
    exact hlog
  · have hsuf := h.logged.suffix.conserved
    have hrev : (↑(vs.map Write.new).reverse : Multiset Nat) = written vs :=
      Multiset.coe_eq_coe.mpr (List.reverse_perm _)
    rw [← h.conserved, h3, ← Multiset.coe_add, hrev, displaced_append]
    calc heldValues (undoAll vs m) + displaced ws + (↑free.entries + written vs)
        = (heldValues (undoAll vs m) + written vs) + displaced ws + ↑free.entries := by abel
      _ = heldValues m + (displaced ws + displaced vs) + ↑free.entries := by
          rw [← hsuf]
          abel
  · rw [← hbase]
    exact h.zero

end Renames

/-! ## The core's renaming -/

section Core

variable {M : Type} {c c' : OoOCore M}

/-- The renames of the live entries. -/
def OoOCore.writes (c : OoOCore M) : List (Write Reg Nat) := renames c.rob.entries

/-- The rename map and the free list are those that the destinations in flight account for. -/
structure RenameOk (c : OoOCore M) : Prop where
  maps : Renames c.cfg.physRegs c.writes c.rmap c.freeList
  /-- A system instruction reads its registers through the current map. -/
  system : ∀ i ∈ c.rob.slots, (c.rob.e i).isSystem = true →
    (c.rob.e i).sysA0 = c.rmap 10 ∧ (c.rob.e i).sysA7 = c.rmap 17

theorem RobEntry.write_of_static {e e' : RobEntry} (h : e'.static = e.static) :
    e'.write = e.write := by
  have h1 : e'.pdst = e.pdst := (congrArg RobEntry.pdst h :)
  have h2 : e'.prevPhys = e.prevPhys := (congrArg RobEntry.prevPhys h :)
  have h3 : e'.ins = e.ins := (congrArg RobEntry.ins h :)
  rw [RobEntry.write, RobEntry.write, h1, h2, h3]

theorem SameStatic.renames {r r' : Ring RobEntry} (h : SameStatic r r') :
    renames r'.entries = renames r.entries := by
  unfold RvO3.renames
  rw [Ring.entries, Ring.entries, h.slots, List.filterMap_map, List.filterMap_map]
  apply List.filterMap_congr
  intro i _
  exact RobEntry.write_of_static (h.static i)

/-- The renaming state depends only on what no stage after dispatch writes. -/
theorem RenameOk.same (h : RenameOk c) (hs : SameStatic c.rob c'.rob) (hm : c'.rmap = c.rmap)
    (hf : c'.freeList = c.freeList) (hcfg : c'.cfg = c.cfg) : RenameOk c' := by
  refine ⟨?_, ?_⟩
  · rw [OoOCore.writes, hs.renames, hm, hf, hcfg]
    exact h.maps
  · rw [hs.slots, hm]
    intro i hi hsys
    have h1 : (c'.rob.e i).sysA0 = (c.rob.e i).sysA0 := (congrArg RobEntry.sysA0 (hs.static i) :)
    have h2 : (c'.rob.e i).sysA7 = (c.rob.e i).sysA7 := (congrArg RobEntry.sysA7 (hs.static i) :)
    rw [hs.isSystem] at hsys
    rw [h1, h2]
    exact h.system i hi hsys

/-- The head of the free list is a real register. -/
theorem RenameOk.head_ne (h : RenameOk c) (hcfg : c.cfg.Accepted)
    (he : c.freeList.empty = false) : c.freeList.head ≠ kNoReg := by
  have hmem : c.freeList.head ∈ c.freeList.entries := by
    rw [Ring.entries_eq_cons h.maps.wf he]
    exact List.mem_cons_self
  have := h.maps.lt_of_free hmem
  have := hcfg.physRegs_le
  show c.freeList.head ≠ 0xFF
  omega

theorem squashed_split (h : RobOk c.rob c.seqCtr) (seq : Nat) :
    c.rob.entries =
      (c.rob.slots.filter fun i => decide (robSeq c.rob i ≤ seq)).map c.rob.e ++
        squashed c seq := by
  rw [squashed, ← List.map_append, ← sorted_eq_filter_append seq h.sorted]
  rfl

theorem RenameOk.recover (h : RenameOk c) (hb : BackOk c) (seq : Nat) :
    RenameOk (c.recover seq) := by
  have hs := recover_spec hb seq
  have hsplit := squashed_split hb.rob seq
  have hent : (c.recover seq).rob.entries =
      (c.rob.slots.filter fun i => decide (robSeq c.rob i ≤ seq)).map c.rob.e := by
    rw [Ring.entries, hs.rob.slots, hs.rob.e]
  have hcfg : (c.recover seq).cfg = c.cfg := (congrArg OoOCore.cfg hs.frame :)
  refine ⟨?_, ?_⟩
  · have hm := h.maps
    rw [OoOCore.writes, hsplit, renames_append] at hm
    rw [OoOCore.writes, hent, hs.rmap, hs.freeList, hcfg]
    exact hm.squash
  · intro i hi hsys
    rw [hs.rob.e] at hsys ⊢
    obtain ⟨hi₀, hle⟩ := hs.rob.mem.mp hi
    have halone := hb.rob.alone i hi₀ hsys
    have hnil : squashed c seq = [] := by
      rw [squashed, halone]
      simp [hle]
    rw [hs.rmap, hnil]
    exact h.system i hi₀ hsys

section Ends

/-- What commit does to the renaming state. -/
theorem RenameOk.popHead (h : RenameOk c) (hb : BackOk c) (hne : c.rob.empty = false)
    (hrob : c'.rob = c.rob.popHead) (hm : c'.rmap = c.rmap) (hcfg : c'.cfg = c.cfg)
    (hf : c'.freeList = if c.rob.head.pdst ≠ kNoReg then c.freeList.push c.rob.head.prevPhys
      else c.freeList) : RenameOk c' := by
  have hcons := Ring.entries_eq_cons hb.rob.wf hne
  have hmaps := h.maps
  rw [OoOCore.writes, hcons, ← List.singleton_append, renames_append, renames_singleton,
    RobEntry.write] at hmaps
  refine ⟨?_, ?_⟩
  · rw [OoOCore.writes, hrob, hm, hcfg, hf]
    by_cases hd : c.rob.head.pdst ≠ kNoReg
    · rw [if_pos hd] at hmaps ⊢
      exact hmaps.retire
    · rw [if_neg hd] at hmaps ⊢
      exact hmaps
  · rw [hrob, hm]
    intro i hi hsys
    refine h.system i ?_ hsys
    rw [Ring.slots_popHead hb.rob.wf] at hi
    exact List.mem_of_mem_tail hi

variable [MemPorts Nat M]

theorem RenameOk.commitOne (h : RenameOk c) (hb : BackOk c) {b : Bool} (hne : c.rob.empty = false)
    (hc : c.commitOne = .ok (c', b)) : RenameOk c' := by
  have hhead : c.rob.headIdx ∈ c.rob.slots := by
    obtain ⟨rest, hr⟩ := Ring.slots_eq_cons hb.rob.wf hne
    rw [hr]
    exact List.mem_cons_self
  rcases commitOne_cases hc with ⟨rfl, -⟩ | ⟨rec, hs, -⟩ | ⟨hs, -⟩
  · exact h
  · have hno : c.rob.head.pdst = kNoReg :=
      (hb.rob.consistent _ hhead).system_no_dest hs.isSystem
    obtain ⟨ret, prf, pos, hal, ex, rfl, -⟩ := hs.frame
    exact h.popHead hb hne rfl rfl rfl (by rw [if_neg (by simp [hno])])
  · rw [hs.frame]
    exact h.popHead hb hne rfl rfl rfl rfl

end Ends

theorem pushRob_entries {r : Ring RobEntry} (h : r.Wf) (hf : r.full = false) (e : RobEntry) :
    (pushRob r e).entries = r.entries ++ [e] := by
  have hp := pushed h hf e
  rw [Ring.entries, hp.slots, List.map_append, List.map_singleton, hp.new, Ring.entries]
  congr 1
  exact List.map_congr_left fun i hi => hp.old i hi

theorem RenameOk.dispatchSystem (h : RenameOk c) (hb : BackOk c) {first : Bool}
    (hr : SystemRoom c first) :
    RenameOk (c.dispatchSystem c.fetchQ.head (decode c.fetchQ.head.raw)) := by
  rw [dispatchSystem_eq]
  have hp := pushed hb.rob.wf hr.rob (systemEntry c c.fetchQ.head)
  refine ⟨?_, ?_⟩
  · show Renames c.cfg.physRegs (renames (pushRob c.rob (systemEntry c c.fetchQ.head)).entries)
      c.rmap c.freeList
    rw [pushRob_entries hb.rob.wf hr.rob, renames_append,
      show renames [systemEntry c c.fetchQ.head] = [] from rfl, List.append_nil]
    exact h.maps
  · intro i hi hsys
    change i ∈ (pushRob c.rob (systemEntry c c.fetchQ.head)).slots at hi
    rw [hp.slots, (Ring.empty_iff c.rob).mp hr.robEmpty] at hi
    rw [List.mem_singleton.mp hi]
    show ((pushRob c.rob (systemEntry c c.fetchQ.head)).e c.rob.allocIdx).sysA0 = c.rmap 10 ∧
      ((pushRob c.rob (systemEntry c c.fetchQ.head)).e c.rob.allocIdx).sysA7 = c.rmap 17
    rw [hp.new]
    exact ⟨rfl, rfl⟩

theorem hasDest_rd {I : Instr} (h : hasDest I = true) : I.rd ≠ 0 := by
  rw [hasDest, Bool.and_eq_true, bne_iff_ne] at h
  exact h.2

theorem opEntry_write {f : Fetched} (hfree : hasDest (decode f.raw) = true → c.freeList.head ≠ kNoReg) :
    (opEntry c f).write = if hasDest (decode f.raw) then
      some ⟨(decode f.raw).rd, c.rmap (decode f.raw).rd, c.freeList.head⟩ else none := by
  unfold RobEntry.write opEntry
  dsimp only
  by_cases hd : hasDest (decode f.raw) = true
  · simp only [if_pos hd]
    exact if_pos (hfree hd)
  · simp only [if_neg hd]
    exact if_neg (fun hne => hne rfl)

theorem RenameOk.dispatchOp (h : RenameOk c) (hb : BackOk c) (hr : OpRoom c)
    (hno : ∀ i ∈ c.rob.slots, (c.rob.e i).isSystem = false)
    (hfree : hasDest (decode c.fetchQ.head.raw) = true → c.freeList.head ≠ kNoReg) :
    RenameOk (c.dispatchOp c.fetchQ.head (decode c.fetchQ.head.raw)) := by
  rw [dispatchOp_eq]
  have hp := pushed hb.rob.wf hr.rob (opEntry c c.fetchQ.head)
  refine ⟨?_, ?_⟩
  · show Renames c.cfg.physRegs (renames (pushRob c.rob (opEntry c c.fetchQ.head)).entries) _ _
    rw [pushRob_entries hb.rob.wf hr.rob, renames_append, renames_singleton, opEntry_write hfree]
    by_cases hd : hasDest (decode c.fetchQ.head.raw) = true
    · simp only [if_pos hd, Option.toList_some]
      exact h.maps.rename (hr.freeList hd) (hasDest_rd hd)
    · simp only [if_neg hd, Option.toList_none, List.append_nil]
      exact h.maps
  · intro i hi hsys
    change i ∈ (pushRob c.rob (opEntry c c.fetchQ.head)).slots at hi
    change ((pushRob c.rob (opEntry c c.fetchQ.head)).e i).isSystem = true at hsys
    rw [hp.slots] at hi
    rcases List.mem_append.mp hi with hi | hi
    · rw [hp.old i hi, hno i hi] at hsys
      cases hsys
    · rw [List.mem_singleton.mp hi, hp.new] at hsys
      cases hsys

end Core

end RvO3
