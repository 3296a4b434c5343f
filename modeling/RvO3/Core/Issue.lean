import RvO3.Core.Dataflow
import RvO3.Core.IqBits

/-!
# The issue stage is greedy

`issueStage` resumes its unit searches where the last one of the kind stopped, and releases
entries while it walks the bitmap words. `greedy` is the policy without either: the oldest
waiting instruction with its sources ready takes the first unit of its kind that can accept,
the search starting over every time. Units only get busier within the walk, so the two agree
(`issueStage_greedy`), and the walk over the words is the one over the list (`issueStage_bits`).
-/

set_option autoImplicit false

namespace RvO3

open OoOCore

/-! ## Resuming a search -/

section Search

variable {α : Type} {p : α → Bool}

theorem findIdx?_takeWhile (l : List α) :
    l.findIdx? p =
      if (l.takeWhile fun a => !p a).length < l.length then some (l.takeWhile fun a => !p a).length
      else none := by
  induction l with
  | nil => rfl
  | cons a l ih =>
      rw [List.findIdx?_cons, List.takeWhile_cons]
      cases ha : p a with
      | true => simp
      | false =>
          rw [ih]
          simp only [Bool.false_eq_true, if_false, Bool.not_false, if_true, List.length_cons,
            Nat.add_lt_add_iff_right]
          split <;> rfl

/-- A search that starts behind elements it would pass over finds the same. -/
theorem findIdx?_resume (l : List α) : ∀ {k : Nat}, (∀ i < k, ∀ a, l[i]? = some a → p a = false) →
    l.findIdx? p =
      if k + ((l.drop k).takeWhile fun a => !p a).length < l.length then
        some (k + ((l.drop k).takeWhile fun a => !p a).length)
      else none := by
  induction l with
  | nil => intro k _; simp
  | cons a l ih =>
      intro k hk
      cases k with
      | zero => simpa using findIdx?_takeWhile (a :: l)
      | succ k =>
          have ha : p a = false := hk 0 (Nat.succ_pos k) a rfl
          have hrest := ih (k := k) fun i hi b hb => hk (i + 1) (Nat.succ_lt_succ hi) b (by simpa using hb)
          rw [List.findIdx?_cons, ha, hrest, List.drop_succ_cons, List.length_cons]
          simp only [Bool.false_eq_true, if_false]
          split
          · rw [if_pos (by omega), Option.map_some, Nat.add_right_comm]
          · rw [if_neg (by omega)]
            rfl

end Search

variable {M : Type} {cfg : SimConfig} {c c' : OoOCore M}

/-! ## The plain policy -/

namespace OoOCore

/-- The sources an instruction waits for are ready; a store does not wait for its data. -/
def sourcesReady (c : OoOCore M) (s : Nat) : Bool :=
  (!usesRs1 (c.rob.e s).ins.op || c.prf.ready (c.iq.e s).ps1) &&
    (!(usesRs2 (c.rob.e s).ins.op && !isStore (c.rob.e s).ins.op) || c.prf.ready (c.iq.e s).ps2)

/-- The waiting instructions that may issue, oldest first. -/
def readyWaiters (c : OoOCore M) : List Nat :=
  c.rob.slots.filter fun s => c.iq.occupied s && c.sourcesReady s

/-- The first unit of a kind that can accept. -/
def freeUnit (c : OoOCore M) : FuKind → Option UnitRef
  | .ALU => ((c.units.take c.cfg.aluCount).findIdx? (·.canAccept)).map .wb
  | .BRANCH => some (.wb c.cfg.aluCount) |>.filter fun u => (c.unitAt u).canAccept
  | .MUL => some (.wb (c.cfg.aluCount + 1)) |>.filter fun u => (c.unitAt u).canAccept
  | .DIV => some (.wb (c.cfg.aluCount + 2)) |>.filter fun u => (c.unitAt u).canAccept
  | .LSU => (c.agus.findIdx? (·.canAccept)).map .agu
  | .NONE => none

/-- Which of the instructions issue, and to which unit, if `n` may. -/
def greedy : List Nat → Nat → OoOCore M → List (Nat × UnitRef)
  | _, 0, _ => []
  | [], _, _ => []
  | s :: rest, n + 1, c =>
      match c.freeUnit (c.iq.e s).unit with
      | none => greedy rest (n + 1) c
      | some u => (s, u) :: greedy rest n (c.issueTo s u)

/-- Issue what was selected. -/
def issueAll (c : OoOCore M) (picks : List (Nat × UnitRef)) : OoOCore M :=
  picks.foldl (fun c p => c.issueTo p.1 p.2) c

end OoOCore

/-! ## Units only get busier -/

theorem FuUnit.canAccept_accept {u : FuUnit} (h : u.Wf) {op : FuOp} (hv : op.valid = true) :
    (u.accept op).canAccept = false := by
  unfold canAccept accept
  cases hp : u.pipelined with
  | true =>
      have hslot : u.inputSlot < u.stages.length := by
        rw [h.length_stages, if_pos hp]
        exact h.inputSlot_lt hp
      simp [hslot, hv]
  | false => simp [hv]

/-- None of the first `n` units below the cursor `k` can accept. -/
def Passed (us : List FuUnit) (n k : Nat) : Prop :=
  ∀ i < k, ∀ u, (us.take n)[i]? = some u → u.canAccept = false

theorem Passed.zero (us : List FuUnit) (n : Nat) : Passed us n 0 := fun _ hi => absurd hi (Nat.not_lt_zero _)

/-- After an accept a unit is busy, or another one than the one that accepted. -/
theorem getElem?_modify_accept {us : List FuUnit} {op : FuOp} {n i j : Nat} {u : FuUnit}
    (hwf : ∀ u ∈ us, u.Wf) (hv : op.valid = true)
    (hu : ((us.modify j fun u => u.accept op).take n)[i]? = some u) :
    u.canAccept = false ∨ (i ≠ j ∧ (us.take n)[i]? = some u) := by
  rw [List.getElem?_take] at hu ⊢
  split at hu
  · by_cases hij : j = i
    · rw [List.getElem?_modify, Option.map_eq_map, Option.map_eq_some_iff] at hu
      obtain ⟨u', hu', rfl⟩ := hu
      rw [if_pos hij]
      exact .inl (FuUnit.canAccept_accept (hwf _ (List.mem_of_getElem? hu')) hv)
    · rw [List.getElem?_modify_ne _ _ hij] at hu
      refine .inr ⟨fun he => hij he.symm, ?_⟩
      rw [if_pos ‹_›]
      exact hu
  · cases hu

theorem Passed.modify {us : List FuUnit} {op : FuOp} {n k j : Nat} (h : Passed us n k)
    (hwf : ∀ u ∈ us, u.Wf) (hv : op.valid = true) : Passed (us.modify j fun u => u.accept op) n k := by
  intro i hi u hu
  rcases getElem?_modify_accept hwf hv hu with hacc | ⟨-, hu⟩
  · exact hacc
  · exact h i hi u hu

/-- The cursor behind the unit that accepts. -/
theorem Passed.accepted {us : List FuUnit} {op : FuOp} {n j : Nat}
    (hf : (us.take n).findIdx? (·.canAccept) = some j) (hwf : ∀ u ∈ us, u.Wf) (hv : op.valid = true) :
    Passed (us.modify j fun u => u.accept op) n (j + 1) := by
  intro i hi u hu
  rcases getElem?_modify_accept hwf hv hu with hacc | ⟨hne, hu⟩
  · exact hacc
  · obtain ⟨hj, -, hbefore⟩ := List.findIdx?_eq_some_iff_getElem.mp hf
    obtain ⟨hlen, rfl⟩ := List.getElem?_eq_some_iff.mp hu
    simpa using hbefore i (by omega)

/-- Where no unit can accept, every cursor has passed. -/
theorem Passed.of_none {us : List FuUnit} {n k : Nat} (hf : (us.take n).findIdx? (·.canAccept) = none) :
    Passed us n k :=
  fun _ _ u hu => List.findIdx?_eq_none_iff.mp hf u (List.mem_of_getElem? hu)

/-! ## The search of the source -/

namespace OoOCore

/-- The search cursors have passed only units that cannot accept. -/
structure Cursors (c : OoOCore M) (nextAlu nextAgu : Nat) : Prop where
  alu : Passed c.units c.cfg.aluCount nextAlu
  agu : Passed c.agus c.agus.length nextAgu

/-- The units of the machine, with as many of them as the unit search counts on. -/
structure UnitsWf (c : OoOCore M) : Prop where
  units : ∀ u ∈ c.units, u.Wf
  agus : ∀ u ∈ c.agus, u.Wf
  length : c.units.length = c.cfg.aluCount + 3

/-- The units after an issue. -/
theorem issueTo_units (c : OoOCore M) (s : Nat) (u : UnitRef) :
    (c.issueTo s u).cfg = c.cfg ∧
    ((∃ j, u = .wb j ∧ (c.issueTo s u).agus = c.agus ∧
        (c.issueTo s u).units = c.units.modify j fun u => u.accept (c.issueOp (c.iq.e s))) ∨
      ∃ j, u = .agu j ∧ (c.issueTo s u).units = c.units ∧
        (c.issueTo s u).agus = c.agus.modify j fun u => u.accept (c.issueOp (c.iq.e s))) := by
  cases u with
  | wb j => exact ⟨rfl, .inl ⟨j, rfl, rfl, rfl⟩⟩
  | agu j => exact ⟨rfl, .inr ⟨j, rfl, rfl, rfl⟩⟩

theorem Cursors.issueTo {a b : Nat} (h : c.Cursors a b) (hw : c.UnitsWf) (s : Nat) (u : UnitRef) :
    (c.issueTo s u).Cursors a b := by
  obtain ⟨hcfg, ⟨j, -, hagus, hunits⟩ | ⟨j, -, hunits, hagus⟩⟩ := issueTo_units c s u
  · refine ⟨?_, ?_⟩
    · rw [hunits, hcfg]
      exact h.alu.modify hw.units rfl
    · rw [hagus]
      exact h.agu
  · refine ⟨?_, ?_⟩
    · rw [hunits, hcfg]
      exact h.alu
    · rw [hagus, List.length_modify]
      exact h.agu.modify hw.agus rfl

/-- With the first `k` units passed over, the first of `n` that can accept is the one the search
from `k` comes to. -/
theorem nextUnit_eq {us : List FuUnit} {n k : Nat} (hn : n ≤ us.length) (h : Passed us n k) :
    (us.take n).findIdx? (·.canAccept) =
      if nextUnit us n k < n then some (nextUnit us n k) else none := by
  rw [findIdx?_resume _ h, List.length_take_of_le hn]
  rfl

/-- The unit that is found can accept. -/
theorem canAccept_of_find {us : List FuUnit} {n i : Nat}
    (h : (us.take n).findIdx? (·.canAccept) = some i) : (us[i]?.getD default).canAccept = true := by
  obtain ⟨hi, hacc, -⟩ := List.findIdx?_eq_some_iff_getElem.mp h
  rw [List.getElem_take] at hacc
  rw [List.length_take] at hi
  rw [List.getElem?_eq_getElem (by omega), Option.getD_some]
  exact hacc

/-- The search with cursors finds what a search from the start finds, and the cursors have
passed busy units only: at once if nothing issues, and after the issue otherwise. -/
theorem pickUnit_spec {a b a' b' : Nat} {k : FuKind} {o : Option UnitRef} (h : c.Cursors a b)
    (hw : c.UnitsWf) (hp : c.pickUnit k a b = (o, a', b')) :
    (o.filter fun u => (c.unitAt u).canAccept) = c.freeUnit k ∧
      (c.freeUnit k = none → c.Cursors a' b') ∧
      ∀ s u, c.freeUnit k = some u → (c.issueTo s u).Cursors a' b' := by
  -- kinds with one unit have no cursor
  have hfixed : ∀ {u : UnitRef}, c.freeUnit k = (some u).filter (fun u => (c.unitAt u).canAccept) →
      (some u, a, b) = (o, a', b') → (o.filter fun u => (c.unitAt u).canAccept) = c.freeUnit k ∧
      (c.freeUnit k = none → c.Cursors a' b') ∧
      ∀ s u, c.freeUnit k = some u → (c.issueTo s u).Cursors a' b' := by
    intro u hf he
    cases he
    exact ⟨hf.symm, fun _ => h, fun s u _ => h.issueTo hw s u⟩
  cases k with
  | BRANCH => exact hfixed rfl hp
  | MUL => exact hfixed rfl hp
  | DIV => exact hfixed rfl hp
  | NONE =>
      cases hp
      exact ⟨rfl, fun _ => h, nofun⟩
  | ALU =>
      have hfind := nextUnit_eq (by have := hw.length; omega) h.alu
      have hfree : c.freeUnit .ALU =
          ((c.units.take c.cfg.aluCount).findIdx? (·.canAccept)).map .wb := rfl
      unfold pickUnit at hp
      dsimp only at hp
      split at hp
      · rename_i hlt
        cases hp
        rw [if_pos hlt] at hfind
        rw [hfree, hfind]
        refine ⟨?_, nofun, ?_⟩
        · have hacc : (c.unitAt (.wb (nextUnit c.units c.cfg.aluCount a))).canAccept = true :=
            canAccept_of_find hfind
          rw [Option.filter_some, hacc]
          rfl
        · rintro s u hu
          cases hu
          -- the cursor stops at the unit taken, which is busy after the issue
          exact ⟨Passed.accepted hfind hw.units rfl, h.agu⟩
      · rename_i hge
        cases hp
        rw [if_neg hge] at hfind
        rw [hfree, hfind]
        -- none is free: the cursor has passed them all
        exact ⟨rfl, fun _ => ⟨Passed.of_none hfind, h.agu⟩, nofun⟩
  | LSU =>
      have hfind := nextUnit_eq (Nat.le_refl _) h.agu
      have hfree : c.freeUnit .LSU = ((c.agus.take c.agus.length).findIdx? (·.canAccept)).map .agu := by
        rw [List.take_length]
        rfl
      unfold pickUnit at hp
      dsimp only at hp
      split at hp
      · rename_i hlt
        cases hp
        rw [if_pos hlt] at hfind
        rw [hfree, hfind]
        refine ⟨?_, nofun, ?_⟩
        · have hacc : (c.unitAt (.agu (nextUnit c.agus c.agus.length b))).canAccept = true :=
            canAccept_of_find hfind
          rw [Option.filter_some, hacc]
          rfl
        · rintro s u hu
          cases hu
          have hv : (c.issueOp (c.iq.e s)).valid = true := rfl
          have hpass := Passed.accepted hfind hw.agus hv
          refine ⟨h.alu, ?_⟩
          show Passed (c.agus.modify _ _) (c.agus.modify _ _).length _
          rw [List.length_modify]
          exact hpass
      · rename_i hge
        cases hp
        rw [if_neg hge] at hfind
        rw [hfree, hfind]
        exact ⟨rfl, fun _ => ⟨h.alu, Passed.of_none hfind⟩, nofun⟩

theorem UnitsWf.of_coreOk (hk : CoreOk cfg c) : c.UnitsWf :=
  ⟨hk.back.units.wf, hk.back.agus.wf, hk.units.trans (by rw [hk.config])⟩

/-- An accepting unit of the core stays well formed. -/
theorem wf_modify {us : List FuUnit} {op : FuOp} {j : Nat} (h : ∀ u ∈ us, u.Wf) (hv : op.valid = true)
    (hc : ∀ u, us[j]? = some u → u.canAccept = true) : ∀ u ∈ us.modify j fun u => u.accept op, u.Wf := by
  intro u hu
  obtain ⟨i, hi⟩ := List.getElem?_of_mem hu
  by_cases hij : j = i
  · rw [List.getElem?_modify, Option.map_eq_map, Option.map_eq_some_iff] at hi
    obtain ⟨u', hu', rfl⟩ := hi
    rw [if_pos hij]
    exact (h _ (List.mem_of_getElem? hu')).accept (hc _ (hij ▸ hu')) hv
  · rw [List.getElem?_modify_ne _ _ hij] at hi
    exact h _ (List.mem_of_getElem? hi)

theorem UnitsWf.issueTo (h : c.UnitsWf) {s : Nat} {u : UnitRef} (hc : (c.unitAt u).canAccept = true) :
    (c.issueTo s u).UnitsWf := by
  obtain ⟨hcfg, ⟨j, rfl, hagus, hunits⟩ | ⟨j, rfl, hunits, hagus⟩⟩ := issueTo_units c s u
  · refine ⟨?_, by rw [hagus]; exact h.agus, by rw [hunits, hcfg, List.length_modify]; exact h.length⟩
    rw [hunits]
    apply wf_modify h.units rfl
    intro u hu
    rw [unitAt, hu] at hc
    exact hc
  · refine ⟨by rw [hunits]; exact h.units, ?_, by rw [hunits, hcfg]; exact h.length⟩
    rw [hagus]
    apply wf_modify h.agus rfl
    intro u hu
    rw [unitAt, hu] at hc
    exact hc

/-- The walk with cursors issues what the plain policy selects. -/
theorem issueLoop_greedy (l : List Nat) : ∀ {n a b : Nat} {c : OoOCore M}, 1 ≤ n → c.Cursors a b →
    c.UnitsWf → issueLoop l n a b c = c.issueAll (greedy l n c) := by
  induction l with
  | nil =>
      intro n a b c hn _ _
      obtain ⟨n, rfl⟩ := Nat.exists_eq_add_of_le' hn
      rfl
  | cons s rest ih =>
      intro n a b c hn h hw
      obtain ⟨n, rfl⟩ := Nat.exists_eq_add_of_le' hn
      unfold issueLoop
      rw [greedy]
      rcases hp : c.pickUnit (c.iq.e s).unit a b with ⟨o, a', b'⟩
      obtain ⟨hfree, hnone, hsome⟩ := pickUnit_spec h hw hp
      cases o with
      | none =>
          rw [Option.filter_none] at hfree
          rw [← hfree]
          exact ih hn (hnone hfree.symm) hw
      | some u =>
          rw [Option.filter_some] at hfree
          dsimp only
          by_cases hc : (c.unitAt u).canAccept = true
          · rw [if_pos hc] at hfree ⊢
            have hcur := hsome s u hfree.symm
            rw [← hfree]
            split
            · have hn0 : n = 0 := by omega
              rw [hn0]
              cases rest <;> rfl
            · exact ih (by omega) hcur (hw.issueTo hc)
          · rw [if_neg hc] at hfree ⊢
            rw [← hfree]
            exact ih hn (hnone hfree.symm) hw

end OoOCore

/-! ## The instructions walked -/

section Walked

variable [MemPorts Nat M]

omit [MemPorts Nat M] in
/-- The ready bits are the waiting instructions whose sources are ready. -/
theorem visitReady_waiters (hk : CoreOk cfg c) (hv : ValuesOk c) :
    c.iq.visitReady (c.rob.indexOf 0) = c.readyWaiters := by
  have hb := hk.back
  have hlive : ∀ s, c.iq.ready s = true → s ∈ c.rob.slots :=
    fun s hs => (hb.iq.names s ((hb.iq.wf.ready_iff s).mp hs).1).live
  rw [IssueQueue.visitReady, Ring.headIdx_eq hb.rob.wf, hb.iq.robSize, Ring.visit_eq hb.rob.wf hlive,
    OoOCore.readyWaiters]
  apply List.filter_congr
  intro s _
  rw [Bool.eq_iff_iff, hb.iq.wf.ready_iff, Bool.and_eq_true]
  apply and_congr_right
  intro ho
  rw [hv.iq.blocked1 s ho, hv.iq.blocked2 s ho, sourcesReady]
  cases usesRs1 (c.rob.e s).ins.op <;> cases usesRs2 (c.rob.e s).ins.op <;>
    cases isStore (c.rob.e s).ins.op <;> simp

omit [MemPorts Nat M] in
/-- The issue stage is a greedy choice: the ready waiters in age order, each to the first unit that
can take it, until the width is used up. -/
theorem issueStage_greedy (hcfg : cfg.Accepted) (hk : CoreOk cfg c) (hv : ValuesOk c) :
    c.issueStage = c.issueAll (greedy c.readyWaiters c.cfg.width c) := by
  rw [issueStage, visitReady_waiters hk hv]
  refine issueLoop_greedy _ ?_ ⟨Passed.zero _ _, Passed.zero _ _⟩ (UnitsWf.of_coreOk hk)
  rw [hk.config]
  exact hcfg.width_pos

end Walked

/-! ## The walk over the words -/

/-- What the lambda of `issueStage` works on: the core apart from its queue, how many more may
issue, and the cursors. -/
structure IssueWalk (M : Type) where
  core : OoOCore M
  left : Nat
  nextAlu : Nat := 0
  nextAgu : Nat := 0

/-- The lambda `issueStage` hands to `visitReady`. -/
def issueVisit : IqVisitor (IssueWalk M) := fun q w =>
  match w.core.pickUnit q.unit w.nextAlu w.nextAgu with
  | (none, a, b) => ({ w with nextAlu := a, nextAgu := b }, false, true)
  | (some u, a, b) =>
      if (w.core.unitAt u).canAccept then
        ({ core := (w.core.acceptAt u (w.core.issueOp q)).addLog
             (.issue q.seq (w.core.prf.val q.ps1) (w.core.prf.val q.ps2))
           left := w.left - 1, nextAlu := a, nextAgu := b }, true, decide (w.left - 1 ≠ 0))
      else ({ w with nextAlu := a, nextAgu := b }, false, true)

namespace OoOCore

/-- A core with another issue queue. -/
def withIq (c : OoOCore M) (q : IssueQueue) : OoOCore M := { c with iq := q }

theorem pickUnit_withIq (c : OoOCore M) (q : IssueQueue) (k : FuKind) (a b : Nat) :
    (c.withIq q).pickUnit k a b = c.pickUnit k a b := by
  cases k <;> rfl

theorem unitAt_withIq (c : OoOCore M) (q : IssueQueue) (u : UnitRef) :
    (c.withIq q).unitAt u = c.unitAt u := by
  cases u <;> rfl

/-- Issuing touches the queue only to release the slot. -/
theorem issueTo_withIq (c : OoOCore M) (q : IssueQueue) (s : Nat) (u : UnitRef) :
    (c.withIq q).issueTo s u =
      ((c.acceptAt u (c.issueOp (q.e s))).addLog
        (.issue (q.e s).seq (c.prf.val (q.e s).ps1) (c.prf.val (q.e s).ps2))).withIq (q.release s) := by
  cases u <;> rfl

/-- The walk over the bitmaps is the walk over the sets they stand for. -/
theorem walk_issueVisit (l : List Nat) : ∀ {b : IqBits} {w : IssueWalk M}, b.Sized →
    (∀ s ∈ l, s < b.robSize) →
    (walk (IqBits.visitEntry issueVisit) l (b, w)).1.2.core.withIq
        (walk (IqBits.visitEntry issueVisit) l (b, w)).1.1.sets =
      issueLoop l w.left w.nextAlu w.nextAgu (w.core.withIq b.sets) := by
  -- on the slots left to visit
  induction l with
  | nil => exact fun _ _ => rfl
  | cons s l ih =>
      intro b w hb hl
      have hrest := fun t ht => hl t (List.mem_cons_of_mem s ht)
      unfold issueLoop
      rw [walk]
      rw [pickUnit_withIq]
      have hunit : (w.core.withIq b.sets).iq.e s = b.e s := rfl
      rw [hunit]
      rcases hp : w.core.pickUnit (b.e s).unit w.nextAlu w.nextAgu with ⟨o, a, g⟩
      have hvisit : issueVisit (b.e s) w = match (o, a, g) with
          | (none, a, g) => ({ w with nextAlu := a, nextAgu := g }, false, true)
          | (some u, a, g) =>
              if (w.core.unitAt u).canAccept then
                ({ core := (w.core.acceptAt u (w.core.issueOp (b.e s))).addLog
                     (.issue (b.e s).seq (w.core.prf.val (b.e s).ps1) (w.core.prf.val (b.e s).ps2))
                   left := w.left - 1, nextAlu := a, nextAgu := g }, true, decide (w.left - 1 ≠ 0))
              else ({ w with nextAlu := a, nextAgu := g }, false, true) := by
        rw [issueVisit, hp]
      cases o with
      | none =>
          simp only [IqBits.visitEntry, hvisit, Bool.false_eq_true, if_false]
          exact ih hb hrest
      | some u =>
          dsimp only at hvisit ⊢
          rw [unitAt_withIq]
          by_cases hc : (w.core.unitAt u).canAccept = true
          · rw [if_pos hc] at hvisit ⊢
            have hsets := IqBits.sets_release hb (hl s List.mem_cons_self)
            have hissue := issueTo_withIq w.core b.sets s u
            rw [← hsets] at hissue
            rw [hissue]
            simp only [IqBits.visitEntry, hvisit, if_true]
            -- the last issue of the cycle ends the walk
            by_cases hn : w.left - 1 = 0
            · simp only [hn, if_true, ne_eq, not_true_eq_false, decide_false]
              rfl
            · simp only [hn, if_false, ne_eq, not_false_eq_true, decide_true]
              exact ih (b := b.release s) hb hrest
          · rw [if_neg hc] at hvisit ⊢
            simp only [IqBits.visitEntry, hvisit, Bool.false_eq_true, if_false]
            exact ih hb hrest

end OoOCore

/-- The 64 bits of a set of slots at one word. -/
def packWord (p : SlotSet) (w : Nat) : BitVec 64 :=
  (BitVec.ofBoolListLE ((List.range 64).map fun k => p (w * 64 + k))).setWidth 64

theorem bitAt_packWord (p : SlotSet) (w : Nat) {k : Nat} (hk : k < 64) :
    (packWord p w).getLsbD k = p (w * 64 + k) := by
  rw [packWord, BitVec.getLsbD_setWidth, decide_eq_true hk, Bool.true_and, BitVec.getLsbD_ofBoolListLE,
    List.getD_eq_getElem?_getD, List.getElem?_map, List.getElem?_range hk]
  rfl

/-- Packing a set of slots into words loses nothing. -/
theorem bitmapMem_packWord (p : SlotSet) : bitmapMem (packWord p) = p := by
  funext s
  rw [bitmapMem, bitAt, bitAt_packWord p _ (by omega)]
  congr 1
  omega

/-- The bitmaps of a queue given as sets. -/
def IssueQueue.pack (q : IssueQueue) : IqBits :=
  { e := q.e
    robSize := q.robSize
    capacity := q.capacity
    words := (q.robSize + 63) / 64
    occupied := packWord q.occupied
    ready := packWord q.ready
    blocked1 := packWord q.blocked1
    blocked2 := packWord q.blocked2
    wait1 := fun i => packWord (q.wait1 (i / ((q.robSize + 63) / 64))) (i % ((q.robSize + 63) / 64))
    wait2 := fun i => packWord (q.wait2 (i / ((q.robSize + 63) / 64))) (i % ((q.robSize + 63) / 64))
    n := q.n }

theorem rows_packWord {words : Nat} {m : Nat → SlotSet} (hm : ∀ p s, m p s = true → s / 64 < words) :
    IqBits.rows words (fun i => packWord (m (i / words)) (i % words)) = m := by
  funext p s
  unfold IqBits.rows
  by_cases hs : s / 64 < words
  · have hpos : 0 < words := by omega
    have hdiv : (p * words + s / 64) / words = p := by
      rw [Nat.mul_comm, Nat.mul_add_div hpos, Nat.div_eq_of_lt hs, Nat.add_zero]
    have hmod : (p * words + s / 64) % words = s / 64 := by
      rw [Nat.mul_comm, Nat.mul_add_mod, Nat.mod_eq_of_lt hs]
    have hslot : s / 64 * 64 + s % 64 = s := Nat.div_add_mod' s 64
    rw [bitAt, hdiv, hmod, bitAt_packWord _ _ (by omega), decide_eq_true hs, Bool.true_and, hslot]
  · rw [decide_eq_false hs, Bool.false_and]
    cases hv : m p s with
    | false => rfl
    | true => exact absurd (hm p s hv) hs

/-- Every well-formed queue is stored by some bitmaps. -/
theorem IssueQueue.Wf.pack {q : IssueQueue} (h : q.Wf) : q.pack.Sized ∧ q.pack.sets = q := by
  have hword : ∀ s, q.occupied s = true → s / 64 < (q.robSize + 63) / 64 := by
    intro s hs
    have hlt := h.occ_lt s hs
    omega
  have h1 : IqBits.rows q.pack.words q.pack.wait1 = q.wait1 :=
    rows_packWord fun p s hs => hword s (h.blocked1_occ s ((h.wait1_iff p s).mp hs).1)
  have h2 : IqBits.rows q.pack.words q.pack.wait2 = q.wait2 :=
    rows_packWord fun p s hs => hword s (h.blocked2_occ s ((h.wait2_iff p s).mp hs).1)
  refine ⟨rfl, ?_⟩
  unfold IqBits.sets
  rw [h1, h2]
  simp only [IssueQueue.pack, bitmapMem_packWord]

/-- `issueStage` as the walk over the words of the ready bitmap. -/
theorem issueStage_bits (hk : CoreOk cfg c) {b : IqBits} (hb : b.Sized) (hs : b.sets = c.iq) :
    (IqBits.visitReady issueVisit (c.rob.indexOf 0) (b, ⟨c, c.cfg.width, 0, 0⟩)).1.2.core.withIq
        (IqBits.visitReady issueVisit (c.rob.indexOf 0) (b, ⟨c, c.cfg.width, 0, 0⟩)).1.1.sets =
      c.issueStage := by
  have hwf := hk.back.iq.wf
  rw [← hs] at hwf
  have hsize : b.robSize = c.rob.capacity := by
    rw [← hk.back.iq.robSize, ← hs]
    rfl
  have hhead : c.rob.indexOf 0 < b.robSize := by
    rw [hsize, Ring.headIdx_eq hk.back.rob.wf]
    exact hk.back.rob.wf.headIdx_lt
  rw [IqBits.visitReady_eq issueVisit hb hwf hhead, walk_issueVisit _ hb, hs]
  · rfl
  · intro s hmem
    have hready : b.sets.ready s = true := (List.mem_filter.mp hmem).2
    exact hwf.occ_lt s ((hwf.ready_iff s).mp hready).1

/-! ## At most one issue -/

/-- The instructions a history issues. -/
def issuedSeqs (log : List Event) : List Nat :=
  log.filterMap fun ev => match ev with
    | .issue seq _ _ => some seq
    | _ => none

theorem Silent.issuedSeqs {evs : List Event} (h : Silent evs) : RvO3.issuedSeqs evs = [] := by
  rw [RvO3.issuedSeqs, List.filterMap_eq_nil_iff]
  intro ev hev
  cases ev with
  | issue seq a b => exact absurd hev (h seq a b)
  | _ => rfl

/-- Who waits after a step waited before, or was dispatched by it. -/
structure WaitersFrom (c c' : OoOCore M) : Prop where
  seqCtr : c.seqCtr ≤ c'.seqCtr
  waiter : ∀ s, c'.iq.occupied s = true →
    (c.iq.occupied s = true ∧ (c'.iq.e s).seq = (c.iq.e s).seq) ∨
      ((c'.iq.e s).seq = c.seqCtr ∧ c.seqCtr < c'.seqCtr)

theorem WaitersFrom.of_eq (hs : c'.seqCtr = c.seqCtr) (ho : c'.iq.occupied = c.iq.occupied)
    (he : c'.iq.e = c.iq.e) : WaitersFrom c c' :=
  ⟨Nat.le_of_eq hs.symm, fun s h => .inl ⟨ho ▸ h, by rw [he]⟩⟩

theorem WaitersFrom.trans {c'' : OoOCore M} (h : WaitersFrom c c') (h' : WaitersFrom c' c'')
    (hs : c''.seqCtr = c'.seqCtr) : WaitersFrom c c'' := by
  refine ⟨Nat.le_trans h.seqCtr h'.seqCtr, fun s ho => ?_⟩
  rcases h'.waiter s ho with ⟨ho', he'⟩ | ⟨-, hlt⟩
  · rw [he', hs]
    exact h.waiter s ho'
  · omega

/-- A squash adds no waiter. -/
theorem waitersFrom_recover (hb : BackOk c) (seq : Nat) : WaitersFrom c (c.recover seq) := by
  have hs := recover_spec hb seq
  refine ⟨?_, fun s ho => .inl ?_⟩
  · rw [hs.frame]
  · have hfl := hs.iq s
    have hocc := hfl.occupied
    rw [ho, eq_comm, Bool.and_eq_true] at hocc
    exact ⟨hocc.1, by rw [hfl.entry ho]⟩

/-- Sequence numbers are not given out again. -/
theorem squashRob_seqCtr (seq n : Nat) (c : OoOCore M) : (squashRob seq n c).seqCtr = c.seqCtr := by
  induction n generalizing c with
  | zero => rfl
  | succ n ih =>
      unfold squashRob
      split
      · rw [ih]
        dsimp only
        split <;> rfl
      · rfl

theorem recover_seqCtr (c : OoOCore M) (seq : Nat) : (c.recover seq).seqCtr = c.seqCtr :=
  squashRob_seqCtr seq c.rob.n (c.flushBackEnd seq)

theorem waitersFrom_violationScan (hb : BackOk c) (store : LsqEntry) :
    WaitersFrom c (c.violationScan store) ∧ (c.violationScan store).seqCtr = c.seqCtr := by
  cases hv : c.violationVictim store with
  | none =>
      rw [violationScan_none hv]
      exact ⟨.of_eq rfl rfl rfl, rfl⟩
  | some slot =>
      rw [violationScan_eq hv]
      have hb' : BackOk (c.replayCall slot) := { hb with }
      have hrec := waitersFrom_recover hb' ((c.lsq.at' slot).seq - 1)
      have hctr := recover_seqCtr (c.replayCall slot) ((c.lsq.at' slot).seq - 1)
      exact ⟨⟨hrec.seqCtr, hrec.waiter⟩, hctr⟩

/-- A result that completes wakes waiters and changes no entry. -/
theorem waitersFrom_finish (c : OoOCore M) (i : Nat) (op : FuOp) (slot : OutSlot) :
    WaitersFrom c ((c.complete i op).dropOut slot) := by
  have hiq : ((c.complete i op).dropOut slot).iq = (c.writeReg op).iq := by
    cases slot with
    | unit n => unfold OoOCore.dropOut OoOCore.complete; rfl
    | load n => unfold OoOCore.dropOut OoOCore.complete; rfl
  have hctr : ((c.complete i op).dropOut slot).seqCtr = c.seqCtr := by
    cases slot with
    | unit n => unfold OoOCore.dropOut OoOCore.complete; rfl
    | load n => unfold OoOCore.dropOut OoOCore.complete; rfl
  refine .of_eq hctr ?_ ?_
  · rw [hiq]
    unfold OoOCore.writeReg
    dsimp only
    split <;> rfl
  · rw [hiq]
    unfold OoOCore.writeReg
    dsimp only
    split <;> rfl

theorem mispredictCall_iq (c : OoOCore M) (slot : OutSlot) (e : RobEntry) :
    (c.mispredictCall slot e).iq = (c.dropOut slot).iq ∧
      (c.mispredictCall slot e).seqCtr = (c.dropOut slot).seqCtr := by
  cases slot with
  | unit n => unfold OoOCore.mispredictCall OoOCore.dropOut; exact ⟨rfl, rfl⟩
  | load n => unfold OoOCore.mispredictCall OoOCore.dropOut; exact ⟨rfl, rfl⟩

/-- A write back adds no waiter, with a mispredict or without. -/
theorem waitersFrom_writebackOne (hb : BackOk c) (hne : c.wbReady ≠ []) :
    WaitersFrom c c.writebackOne.1 := by
  obtain ⟨slot, hs, hcase⟩ := writebackOne_cases hne
  have hdone := waitersFrom_finish c c.oldestReady (c.outAt slot) slot
  rcases hcase with ⟨heq, -⟩ | ⟨heq, -⟩
  · rw [heq]
    exact hdone
  · rw [heq, mispredict_eq]
    have hb' := (hb.finishResult hs).mispredictCall
      (resolve (c.rob.e (c.outAt slot).robIdx) (c.outAt slot))
    obtain ⟨hiq, hctr⟩ := mispredictCall_iq (c.complete c.oldestReady (c.outAt slot)) slot
      (resolve (c.rob.e (c.outAt slot).robIdx) (c.outAt slot))
    have hcall : WaitersFrom c _ := hdone.trans
      (.of_eq hctr (congrArg IssueQueue.occupied hiq) (congrArg IssueQueue.e hiq)) hctr
    have hall := hcall.trans (waitersFrom_recover hb' (c.outAt slot).seq)
      (recover_seqCtr _ (c.outAt slot).seq)
    exact ⟨hall.seqCtr, hall.waiter⟩

section Once

variable [MemPorts Nat M]

/-- Only dispatch adds a waiter, and it has a new number. -/
theorem Action.waitersFrom (ha : Action c c') (hb : BackOk c) : WaitersFrom c c' := by
  cases ha.flow with
  | commit _ _ hc =>
      rcases commitOne_cases hc with ⟨rfl, -⟩ | ⟨rec, hs, -⟩ | ⟨hs, -⟩
      · exact .of_eq rfl rfl rfl
      · obtain ⟨ret, prf, pos, hal, ex, rfl, -⟩ := hs.frame
        exact .of_eq rfl rfl rfl
      · rw [hs.frame]
        exact .of_eq rfl rfl rfl
  | writeback hne => exact waitersFrom_writebackOne hb hne
  | @drain i hi =>
      have hfill : WaitersFrom c (c.fillOne i) := by
        rw [fillOne_eq]
        exact .of_eq rfl rfl rfl
      unfold OoOCore.aguDrainOne
      dsimp only
      split
      · obtain ⟨hscan, hctr⟩ := waitersFrom_violationScan (hb.fillOne hi)
          ((c.fillOne i).lsq.at' (c.agus[i]?.getD default).out.lsqIdx)
        exact hfill.trans hscan hctr
      · exact hfill
  | @issue slot u _ _ _ =>
      refine ⟨by cases u <;> exact Nat.le_refl _, fun s ho => .inl ?_⟩
      have hiq : (c.issueTo slot u).iq = c.iq.release slot := by cases u <;> rfl
      rw [hiq] at ho ⊢
      -- the released slot waits no longer
      have hne : s ≠ slot := by
        rintro rfl
        simp [IssueQueue.release] at ho
      simpa [IssueQueue.release, hne] using ho
  | @dispatch first _ =>
      rcases dispatchOne_cases c first with heq | ⟨-, heq⟩ | ⟨-, heq⟩
      · rw [heq]
        exact .of_eq rfl rfl rfl
      · rw [heq]
        exact ⟨Nat.le_succ _, fun s ho => .inl ⟨ho, rfl⟩⟩
      · rw [heq, dispatchOp_eq]
        refine ⟨Nat.le_succ _, fun s ho => ?_⟩
        dsimp only at ho ⊢
        rw [IssueQueue.enqueue_occupied, SlotSet.set_apply] at ho
        rw [IssueQueue.enqueue_e]
        -- the new waiter has the next number; the others are the old ones
        by_cases hs : s = (opIqEntry c (decode c.fetchQ.head.raw)).robIdx
        · rw [hs, Function.update_self]
          exact .inr ⟨rfl, Nat.lt_succ_self _⟩
        · rw [Function.update_of_ne hs]
          exact .inl ⟨by simpa [hs] using ho, rfl⟩
  | tickUnits => exact .of_eq rfl rfl rfl
  | aside h => exact .of_eq h.seqCtr (by rw [h.iq]) (by rw [h.iq])

/-- No instruction has issued twice, and none that waits has issued. -/
structure IssuedOnce (c : OoOCore M) : Prop where
  once : (issuedSeqs c.log).Nodup
  old : ∀ seq ∈ issuedSeqs c.log, seq < c.seqCtr
  gone : ∀ s, c.iq.occupied s = true → (c.iq.e s).seq ∉ issuedSeqs c.log

/-- Every action keeps that no number was issued twice. -/
theorem Action.issuedOnce (ha : Action c c') (hk : CoreOk cfg c) (h : IssuedOnce c) :
    IssuedOnce c' := by
  have hw := ha.waitersFrom hk.back
  -- an issue adds the number of a waiter; every other action adds none
  rcases ha.extends hk with ⟨slot, u, hr, rfl⟩ | ⟨evs, hevs, hsilent⟩
  · have hb := hk.back
    have hocc := ((hb.iq.wf.ready_iff slot).mp hr).1
    have hn := hb.iq.names slot hocc
    have hlog : issuedSeqs (c.issueTo slot u).log = issuedSeqs c.log ++ [(c.iq.e slot).seq] := by
      have hl : (c.issueTo slot u).log = c.log ++ [.issue (c.iq.e slot).seq
          (c.prf.val (c.iq.e slot).ps1) (c.prf.val (c.iq.e slot).ps2)] := by
        cases u <;> rfl
      rw [hl, issuedSeqs, List.filterMap_append]
      rfl
    refine ⟨?_, fun seq hseq => ?_, fun s ho => ?_⟩
    · rw [hlog, List.nodup_append]
      refine ⟨h.once, List.nodup_singleton _, fun a hmem b hb' hab => ?_⟩
      rw [hab, List.mem_singleton.mp hb'] at hmem
      -- a waiter has not been issued before
      exact h.gone slot hocc hmem
    · rw [hlog] at hseq
      refine Nat.lt_of_lt_of_le ?_ hw.seqCtr
      rcases List.mem_append.mp hseq with hseq | hseq
      · exact h.old seq hseq
      · rw [List.mem_singleton.mp hseq, hn.seq]
        exact hb.rob.seq_lt slot hn.live
    · -- another slot waits with another number
      have hiq : (c.issueTo slot u).iq = c.iq.release slot := by cases u <;> rfl
      have hne : s ≠ slot := by
        rintro rfl
        rw [hiq] at ho
        simp [IssueQueue.release] at ho
      have hos : c.iq.occupied s = true := by
        rw [hiq] at ho
        simpa [IssueQueue.release, hne] using ho
      have he : ((c.issueTo slot u).iq.e s).seq = (c.iq.e s).seq := by
        rw [hiq]
        simp [IssueQueue.release, hne]
      rw [hlog, he, List.mem_append]
      rintro (hmem | hmem)
      · exact h.gone s hos hmem
      · have hns := hb.iq.names s hos
        have hsame := List.mem_singleton.mp hmem
        rw [hns.seq, hn.seq] at hsame
        exact hne (hb.rob.seq_inj hns.live hn.live hsame)
  · have hlog : issuedSeqs c'.log = issuedSeqs c.log := by
      rw [hevs, issuedSeqs, List.filterMap_append]
      exact (congrArg _ hsilent.issuedSeqs).trans (List.append_nil _)
    refine ⟨by rw [hlog]; exact h.once, fun seq hseq => ?_, fun s ho => ?_⟩
    · rw [hlog] at hseq
      exact Nat.lt_of_lt_of_le (h.old seq hseq) hw.seqCtr
    · rw [hlog]
      -- a waiter was there before, or has a number not yet given out
      rcases hw.waiter s ho with ⟨ho', he⟩ | ⟨he, -⟩
      · rw [he]
        exact h.gone s ho'
      · rw [he]
        exact fun hmem => Nat.lt_irrefl _ (h.old _ hmem)

/-! ## Every run -/

/-- The issue stage in state `c`, and the issues so far. -/
structure SelectsGreedily (c : OoOCore M) : Prop where
  /-- The stage issues what the plain policy selects, to the units it selects. -/
  policy : c.issueStage = c.issueAll (greedy c.readyWaiters c.cfg.width c)
  oldestFirst : (c.readyWaiters.map (robSeq c.rob)).Pairwise (· < ·)
  /-- So does the walk over the words of the ready bitmap. -/
  words : ∀ b : IqBits, b.Sized → b.sets = c.iq →
    (IqBits.visitReady issueVisit (c.rob.indexOf 0) (b, ⟨c, c.cfg.width, 0, 0⟩)).1.2.core.withIq
        (IqBits.visitReady issueVisit (c.rob.indexOf 0) (b, ⟨c, c.cfg.width, 0, 0⟩)).1.1.sets =
      c.issueStage
  stored : ∃ b : IqBits, b.Sized ∧ b.sets = c.iq
  once : (issuedSeqs c.log).Nodup

/-- In every state of a run the issue stage is greedy, and no instruction issues twice: visited
oldest first, each ready entry goes to its unit if that can accept and the width is not used up, and
an entry that cannot go holds up nothing behind it. -/
theorem selects_greedily (hcfg : cfg.Accepted) (frames : Bool) (inputs : Nat → Word)
    (histLen : Nat → Nat) (msys : M) :
    (∀ c, Actions (OoOCore.init cfg frames inputs histLen msys) c → SelectsGreedily c) ∧
      ∀ ph c, Reach (OoOCore.init cfg frames inputs histLen msys) ph c → SelectsGreedily c := by
  have hk₀ := init_coreOk frames inputs histLen msys hcfg
  have hv₀ := init_valuesOk hcfg frames inputs histLen msys
  have ho₀ : IssuedOnce (OoOCore.init cfg frames inputs histLen msys) :=
    ⟨List.nodup_nil, nofun, nofun⟩
  generalize OoOCore.init cfg frames inputs histLen msys = c₀ at hk₀ hv₀ ho₀ ⊢
  have hall : ∀ c, Actions c₀ c → SelectsGreedily c := by
    intro c hc
    obtain ⟨⟨hk, hv⟩, ho⟩ := Actions.preserve (I := fun c => (CoreOk cfg c ∧ ValuesOk c) ∧ IssuedOnce c)
      (fun ha ⟨⟨hk, hv⟩, ho⟩ =>
        ⟨⟨ha.coreOk hcfg hk, ha.valuesOk hcfg hk hv⟩, ha.issuedOnce hk ho⟩) hc ⟨⟨hk₀, hv₀⟩, ho₀⟩
    exact ⟨issueStage_greedy hcfg hk hv, hk.back.rob.sorted.sublist (List.filter_sublist.map _),
      fun b hb hs => issueStage_bits hk hb hs, ⟨_, hk.back.iq.wf.pack⟩, ho.once⟩
  exact ⟨hall, fun ph c hr => hall c (hr.actions hcfg hk₀)⟩

end Once

/-- In the fifteenth cycle three instructions are ready. The oldest is a quotient and the divider is
busy, so the two younger ones issue past it. -/
theorem selects_greedily_busy : ∃ c, Reach busyCore .operated c ∧ c.readyWaiters = [2, 6, 7] ∧
    (c.unitAt (.wb 4)).canAccept = false ∧
    greedy c.readyWaiters c.cfg.width c = [(6, .wb 2), (7, .wb 0)] ∧ SelectsGreedily c := by
  obtain ⟨c, hr, hp⟩ := Reach.eval busyCore 116 .operated
    (p := fun c => decide (c.readyWaiters = [2, 6, 7] ∧ (c.unitAt (.wb 4)).canAccept = false ∧
      greedy c.readyWaiters c.cfg.width c = [(6, .wb 2), (7, .wb 0)])) (by decide +kernel)
  obtain ⟨hready, hbusy, hpicks⟩ := of_decide_eq_true hp
  exact ⟨c, hr, hready, hbusy, hpicks, (selects_greedily busyConfig_accepted false (fun _ => 0)
    (fun _ => 0) (MemorySystem.init busyConfig fun a => wordByte (busyProgram (a / 4)) (a % 4))).2 _ c hr⟩

end RvO3
