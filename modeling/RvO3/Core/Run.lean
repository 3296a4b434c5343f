import RvO3.Core.Ooo
import Mathlib.Logic.Relation

/-!
# Runs of the core

`ReachIf P c₀ ph c`: from the reset state `c₀` the core can be in state `c` at the point
`ph` of its cycle, every state on the way satisfying `P`. The points are the cycle
boundary and the gaps between the stages of `stepCycle`.

`Action c c'` is the elementary step underneath: one result written back, one
instruction issued, one response consumed. Its guards are what the loop that performs the
step has checked. Every stage is a sequence of actions, so what every action preserves
holds between stages and also in the middle of each of them.
-/

set_option autoImplicit false

namespace RvO3

open OoOCore

variable {M : Type} [MemPorts Nat M]

/-! ## The states of a run -/

/-- The points of a cycle: its boundary, and after each stage. -/
inductive Phase where
  | boundary | committed | wrote | drained | operated | issued | dispatched | fetched
  deriving DecidableEq, Repr

/-- The states of a run from `c₀`, at each point of the cycle, where every state on the way
satisfies `P`. With no condition this is `Reach`. A cycle that halts at commit has no further point.
-/
inductive ReachIf (P : OoOCore M → Prop) (c₀ : OoOCore M) : Phase → OoOCore M → Prop
  | reset : ReachIf P c₀ .boundary c₀
  | commit {c c' : OoOCore M} : ReachIf P c₀ .boundary c → P c → c.halted = false →
      c.commitStage = .ok c' → ReachIf P c₀ .committed c'
  | writeback {c : OoOCore M} : ReachIf P c₀ .committed c → P c → c.halted = false →
      ReachIf P c₀ .wrote c.writebackStage
  | drain {c : OoOCore M} : ReachIf P c₀ .wrote c → P c → ReachIf P c₀ .drained c.aguDrain
  | operate {c c' : OoOCore M} : ReachIf P c₀ .drained c → P c → c.lsqOperate = .ok c' →
      ReachIf P c₀ .operated c'
  | issue {c : OoOCore M} : ReachIf P c₀ .operated c → P c → ReachIf P c₀ .issued c.issueStage
  | dispatch {c : OoOCore M} : ReachIf P c₀ .issued c → P c →
      ReachIf P c₀ .dispatched c.dispatchStage
  | fetch {c c' : OoOCore M} : ReachIf P c₀ .dispatched c → P c → c.fetchStage = .ok c' →
      ReachIf P c₀ .fetched c'
  | edge {c c' : OoOCore M} : ReachIf P c₀ .fetched c → P c → c.clockEdge = .ok c' →
      ReachIf P c₀ .boundary c'

/-- The states of the unconditional runs. -/
abbrev Reach (c₀ : OoOCore M) : Phase → OoOCore M → Prop := ReachIf (fun _ => True) c₀

/-- A cycle leads from a boundary to a boundary, or to a halt after commit. -/
theorem Reach.stepCycle {c₀ c c' : OoOCore M} (h : Reach c₀ .boundary c)
    (hh : c.halted = false) (hs : c.stepCycle = .ok c') :
    Reach c₀ .boundary c' ∨ (Reach c₀ .committed c' ∧ c'.halted = true) := by
  unfold OoOCore.stepCycle at hs
  cases hc : c.commitStage with
  | error e => rw [hc] at hs; cases hs
  | ok c1 =>
      rw [hc] at hs
      have h1 : Reach c₀ .committed c1 := .commit h trivial hh hc
      by_cases hh1 : c1.halted = true
      · simp only [hh1, if_true] at hs
        cases hs
        exact Or.inr ⟨h1, hh1⟩
      · simp only [if_neg hh1] at hs
        have h2 := ReachIf.drain (.writeback h1 trivial (by simpa using hh1)) trivial
        cases hl : c1.writebackStage.aguDrain.lsqOperate with
        | error e => rw [hl] at hs; cases hs
        | ok c2 =>
            rw [hl] at hs
            have h3 := ReachIf.dispatch (.issue (.operate h2 trivial hl) trivial) trivial
            cases hf : c2.issueStage.dispatchStage.fetchStage with
            | error e => simp only [hf] at hs; cases hs
            | ok c3 =>
                simp only [hf] at hs
                exact Or.inl (.edge (.fetch h3 trivial hf) trivial hs)

/-- Every state `run` ends in is reached. -/
theorem Reach.run {c₀ : OoOCore M} (n : Nat) : ∀ {c c' : OoOCore M}, Reach c₀ .boundary c →
    c.run n = .ok c' →
    Reach c₀ .boundary c' ∨ (Reach c₀ .committed c' ∧ c'.halted = true) := by
  induction n with
  | zero =>
      intro c c' h hr
      cases hr
      exact Or.inl h
  | succ n ih =>
      intro c c' h hr
      unfold OoOCore.run at hr
      by_cases hh : c.halted = true
      · rw [if_pos hh] at hr
        cases hr
        exact Or.inl h
      · rw [if_neg hh] at hr
        cases hs : c.stepCycle with
        | error e => rw [hs] at hr; cases hr
        | ok c1 =>
            rw [hs] at hr
            rcases h.stepCycle (by simpa using hh) hs with h1 | ⟨h1, hh1⟩
            · exact ih h1 hr
            · have : c' = c1 := by
                cases n with
                | zero => cases hr; rfl
                | succ n =>
                    simp only [OoOCore.run, hh1, if_true] at hr
                    cases hr
                    rfl
              subst this
              exact Or.inr ⟨h1, hh1⟩

/-! ### Runs with a condition on each stage -/

/-- One stage of the cycle, between two points of it. -/
inductive Stage : Phase → OoOCore M → Phase → OoOCore M → Prop
  | commit {c c' : OoOCore M} : c.halted = false → c.commitStage = .ok c' →
      Stage .boundary c .committed c'
  | writeback {c : OoOCore M} : c.halted = false → Stage .committed c .wrote c.writebackStage
  | drain {c : OoOCore M} : Stage .wrote c .drained c.aguDrain
  | operate {c c' : OoOCore M} : c.lsqOperate = .ok c' → Stage .drained c .operated c'
  | issue {c : OoOCore M} : Stage .operated c .issued c.issueStage
  | dispatch {c : OoOCore M} : Stage .issued c .dispatched c.dispatchStage
  | fetch {c c' : OoOCore M} : c.fetchStage = .ok c' → Stage .dispatched c .fetched c'
  | edge {c c' : OoOCore M} : c.clockEdge = .ok c' → Stage .fetched c .boundary c'

/-- From `c₀` the core can be in state `c` at the point `ph` by stages each of which `Q`
allows where it starts. -/
inductive ReachWhen (Q : Phase → OoOCore M → Prop) (c₀ : OoOCore M) : Phase → OoOCore M → Prop
  | reset : ReachWhen Q c₀ .boundary c₀
  | step {ph ph' : Phase} {c c' : OoOCore M} : ReachWhen Q c₀ ph c → Q ph c →
      Stage ph c ph' c' → ReachWhen Q c₀ ph' c'

theorem ReachWhen.reach {Q : Phase → OoOCore M → Prop} {c₀ c : OoOCore M} {ph : Phase}
    (h : ReachWhen Q c₀ ph c) : Reach c₀ ph c := by
  induction h with
  | reset => exact .reset
  | step _ _ hs ih =>
      cases hs with
      | commit hh hs => exact .commit ih trivial hh hs
      | writeback hh => exact .writeback ih trivial hh
      | drain => exact .drain ih trivial
      | operate hs => exact .operate ih trivial hs
      | issue => exact .issue ih trivial
      | dispatch => exact .dispatch ih trivial
      | fetch hs => exact .fetch ih trivial hs
      | edge hs => exact .edge ih trivial hs

/-! ### Runs by evaluation -/

/-- `Stage` as a function: the stage that starts at a point of the cycle. There is none where the
core has halted, and none when the stage ends the run with an error. -/
def stageFrom : Phase → OoOCore M → Option (Phase × OoOCore M)
  | .boundary, c => if c.halted then none else c.commitStage.toOption.map fun c' => (.committed, c')
  | .committed, c => if c.halted then none else some (.wrote, c.writebackStage)
  | .wrote, c => some (.drained, c.aguDrain)
  | .drained, c => c.lsqOperate.toOption.map fun c' => (.operated, c')
  | .operated, c => some (.issued, c.issueStage)
  | .issued, c => some (.dispatched, c.dispatchStage)
  | .dispatched, c => c.fetchStage.toOption.map fun c' => (.fetched, c')
  | .fetched, c => c.clockEdge.toOption.map fun c' => (.boundary, c')

/-- `n` stages, each of which `q` allows where it starts. Eight of them are a cycle. -/
def stagesFrom (q : Phase → OoOCore M → Bool) :
    Nat → Phase → OoOCore M → Option (Phase × OoOCore M)
  | 0, ph, c => some (ph, c)
  | n + 1, ph, c => if q ph c then (stageFrom ph c).bind fun r => stagesFrom q n r.1 r.2 else none

section Eval

variable {c₀ c c' : OoOCore M} {ph ph' : Phase} {q : Phase → OoOCore M → Bool}
  {Q : Phase → OoOCore M → Prop}

omit [MemPorts Nat M] in
theorem toOption_eq_some {x : Except Fatal (OoOCore M)} (h : x.toOption = some c') : x = .ok c' := by
  cases x with
  | error e => cases h
  | ok d =>
      cases h
      rfl

omit [MemPorts Nat M] in
theorem map_eq_error {x : Except Fatal (OoOCore M)} {e : Fatal}
    (h : x.map (fun _ => ()) = .error e) : x = .error e := by
  cases x with
  | error e' =>
      cases h
      rfl
  | ok d => cases h

omit [MemPorts Nat M] in
theorem map_toOption_eq_some {x : Except Fatal (OoOCore M)}
    (h : (x.toOption.map fun d => (ph, d)) = some (ph', c')) : x = .ok c' ∧ ph' = ph := by
  obtain ⟨d, hd, he⟩ := Option.map_eq_some_iff.mp h
  cases he
  exact ⟨toOption_eq_some hd, rfl⟩

/-- A stage that was evaluated is a stage. -/
theorem Stage.of_stageFrom (h : stageFrom ph c = some (ph', c')) : Stage ph c ph' c' := by
  cases ph with
  | boundary =>
      cases hh : c.halted with
      | true => simp [stageFrom, hh] at h
      | false =>
          simp only [stageFrom, hh, Bool.false_eq_true, if_false] at h
          obtain ⟨hs, rfl⟩ := map_toOption_eq_some h
          exact .commit hh hs
  | committed =>
      cases hh : c.halted with
      | true => simp [stageFrom, hh] at h
      | false =>
          simp only [stageFrom, hh, Bool.false_eq_true, if_false] at h
          cases h
          exact .writeback hh
  | wrote =>
      cases h
      exact .drain
  | drained =>
      obtain ⟨hs, rfl⟩ := map_toOption_eq_some h
      exact .operate hs
  | operated =>
      cases h
      exact .issue
  | issued =>
      cases h
      exact .dispatch
  | dispatched =>
      obtain ⟨hs, rfl⟩ := map_toOption_eq_some h
      exact .fetch hs
  | fetched =>
      obtain ⟨hs, rfl⟩ := map_toOption_eq_some h
      exact .edge hs

theorem ReachWhen.stagesFrom (hq : ∀ ph c, q ph c = true → Q ph c) (n : Nat) :
    ∀ {ph : Phase} {c : OoOCore M}, ReachWhen Q c₀ ph c → RvO3.stagesFrom q n ph c = some (ph', c') →
    ReachWhen Q c₀ ph' c' := by
  induction n with
  | zero =>
      intro ph c h hs
      cases hs
      exact h
  | succ n ih =>
      intro ph c h hs
      unfold RvO3.stagesFrom at hs
      by_cases hqc : q ph c = true
      · rw [if_pos hqc] at hs
        obtain ⟨r, hr, hs⟩ := Option.bind_eq_some_iff.mp hs
        exact ih (.step h (hq ph c hqc) (.of_stageFrom hr)) hs
      · rw [if_neg hqc] at hs
        cases hs

/-- What an evaluation of the stages shows, some state has that is reached at this point. -/
theorem ReachWhen.eval (hq : ∀ ph c, q ph c = true → Q ph c) (c₀ : OoOCore M) (n : Nat) (ph : Phase)
    {p : OoOCore M → Bool}
    (h : ((RvO3.stagesFrom q n .boundary c₀).any fun r => r.1 == ph && p r.2) = true) :
    ∃ c, ReachWhen Q c₀ ph c ∧ p c = true := by
  obtain ⟨r, hr, hp⟩ := (Option.any_eq_true _ _).mp h
  rw [Bool.and_eq_true, beq_iff_eq] at hp
  obtain ⟨rfl, hp⟩ := hp
  exact ⟨r.2, ReachWhen.stagesFrom hq n .reset hr, hp⟩

/-- The same in a run without conditions. -/
theorem Reach.eval (c₀ : OoOCore M) (n : Nat) (ph : Phase) {p : OoOCore M → Bool}
    (h : ((RvO3.stagesFrom (fun _ _ => true) n .boundary c₀).any fun r => r.1 == ph && p r.2) = true) :
    ∃ c, Reach c₀ ph c ∧ p c = true := by
  obtain ⟨c, hr, hp⟩ := ReachWhen.eval (Q := fun _ _ => True) (fun _ _ _ => trivial) c₀ n ph h
  exact ⟨c, hr.reach, hp⟩

/-- Does the run end within `n` stages, with `p` in every state up to there? -/
def stagesAll (p : OoOCore M → Bool) : Nat → Phase → OoOCore M → Bool
  | 0, _, _ => false
  | n + 1, ph, c => p c && (stageFrom ph c).all fun r => stagesAll p n r.1 r.2

/-- A stage is what its evaluation gives. -/
theorem Stage.stageFrom_eq (h : Stage ph c ph' c') : stageFrom ph c = some (ph', c') := by
  cases h with
  | commit hh hs => simp [stageFrom, hh, hs, Except.toOption]
  | writeback hh => simp [stageFrom, hh]
  | drain => rfl
  | operate hs => simp [stageFrom, hs, Except.toOption]
  | issue => rfl
  | dispatch => rfl
  | fetch hs => simp [stageFrom, hs, Except.toOption]
  | edge hs => simp [stageFrom, hs, Except.toOption]

/-- What an evaluation to the end shows holds of every state that is reached. -/
theorem ReachWhen.all {p : OoOCore M → Bool} (n : Nat) (hall : stagesAll p n .boundary c₀ = true)
    (h : ReachWhen Q c₀ ph c) : p c = true := by
  suffices hrest : ∃ k, stagesAll p (k + 1) ph c = true by
    obtain ⟨k, hk⟩ := hrest
    rw [stagesAll, Bool.and_eq_true] at hk
    exact hk.1
  induction h with
  | reset =>
      cases n with
      | zero => cases hall
      | succ n => exact ⟨n, hall⟩
  | step _ _ hs ih =>
      obtain ⟨k, hk⟩ := ih
      rw [stagesAll, hs.stageFrom_eq, Option.all_some, Bool.and_eq_true] at hk
      cases k with
      | zero => cases hk.2
      | succ k => exact ⟨k, hk.2⟩

end Eval

/-! ## Elementary steps -/

namespace OoOCore

/-- Is an older store's address still unknown? -/
def wall (c : OoOCore M) (slot : Nat) : Bool := before c.lsq.oldestUnknownStore (c.lsq.at' slot).seq

/-- A load that may look at memory: a candidate without a fault that no wall holds back. -/
structure MayGo (c : OoOCore M) (slot : Nat) : Prop where
  candidate : c.lsq.candidates slot = true
  noFault : (c.rob.e (c.lsq.at' slot).robIdx).fault = 0
  notWalled : c.wall slot = true → c.cautious (c.lsq.at' slot) = false

/-- The unit a kind of instruction issues to. -/
def UnitRef.serves (c : OoOCore M) : UnitRef → FuKind → Prop
  | .wb i, k => k ≠ .LSU ∧ k ≠ .NONE ∧ i < c.units.length
  | .agu i, k => k = .LSU ∧ i < c.agus.length

end OoOCore

/-- One elementary step of a stage: a commit, a writeback, a drained address, a response and so on,
each under the conditions that its stage has checked. Every stage is a sequence of these, so an
invariant needs a proof for each of them only. -/
inductive Action : OoOCore M → OoOCore M → Prop
  | commit {c c' : OoOCore M} {b : Bool} : c.rob.empty = false → c.rob.head.done = true →
      c.halted = false → c.commitOne = .ok (c', b) → Action c c'
  | writeback {c : OoOCore M} : c.wbReady ≠ [] → Action c c.writebackOne.1
  | drain {c : OoOCore M} {i : Nat} : c.readyAgu = some i → Action c (c.aguDrainOne i)
  | response {c : OoOCore M} {r : MemResponse Nat} : MemPorts.dResponse c.msys = some r →
      Action c ({ c with msys := MemPorts.dPop c.msys }.dataResponse r)
  | popAck {c : OoOCore M} : c.sb.ring.empty = false → c.sb.ring.head.acked = true →
      Action c { c with sb := c.sb.popHead }
  | capture {c : OoOCore M} {slot : Nat} : slot ∈ c.lsq.ring.slots →
      Action c (c.captureStore slot)
  | surface {c : OoOCore M} {slot k : Nat} : slot ∈ c.lsq.ring.slots → k ≤ c.loadOuts.length →
      Action c (c.surfaceLoad slot k).1
  | zero {c : OoOCore M} {slot : Nat} : c.lsq.candidates slot = true →
      (c.rob.e (c.lsq.at' slot).robIdx).fault ≠ 0 →
      Action c { c with lsq := c.lsq.completeLoad slot 0 }
  | forward {c : OoOCore M} {slot : Nat} {data : Word} : c.MayGo slot →
      c.verdict slot = .forward data →
      Action c { c with
        lsq := c.lsq.completeLoad slot (extendLoad (c.lsq.at' slot).op data) }
  | sendLoad {c c' : OoOCore M} {slot : Nat} : c.MayGo slot → c.verdict slot = .clear →
      MemPorts.dCanAccept c.msys = true → c.sendLoad slot = .ok c' → Action c c'
  | sendStore {c c' : OoOCore M} {slot : Nat} : c.sb.nextToIssue = some slot →
      MemPorts.dCanAccept c.msys = true → c.sendStore slot = .ok c' → Action c c'
  | issue {c : OoOCore M} {slot : Nat} {u : UnitRef} : c.iq.ready slot = true →
      u.serves c (c.iq.e slot).unit → (c.unitAt u).canAccept = true →
      Action c (c.issueTo slot u)
  | dispatch {c : OoOCore M} {first : Bool} :
      (∀ i ∈ c.rob.slots, (c.rob.e i).isSystem = false) → Action c (c.dispatchOne first).1
  | consume {c : OoOCore M} {r : MemResponse Nat} : MemPorts.iResponse c.msys = some r →
      c.fOutstanding = true → Action c (c.consume r)
  | request {c : OoOCore M} {m : M} : c.fOutstanding = false → c.pendRedirect = false →
      c.fetchQ.count + c.cfg.fetchBlockBytes / 4 ≤ c.cfg.fetchQSize → c.pc.toNat % 4 = 0 →
      c.pc.toNat < MemPorts.memSize c.msys → MemPorts.iCanAccept c.msys = true →
      MemPorts.iAccess c.msys
        { addr := (c.pc &&& ~~~(BitVec.ofNat 32 (c.cfg.fetchBlockBytes - 1))).toNat
          size := c.cfg.fetchBlockBytes, tag := 0 } = .ok m →
      Action c { c with
        msys := m
        fOutstanding := true
        fBlock := c.pc &&& ~~~(BitVec.ofNat 32 (c.cfg.fetchBlockBytes - 1))
        fFetchPc := c.pc }
  | redirect {c : OoOCore M} : Action c c.applyRedirect
  | tickUnits {c : OoOCore M} : Action c c.tickUnits
  | tickMem {c : OoOCore M} {m : M} : MemPorts.tick c.msys = .ok m →
      Action c { c with msys := m }

/-- Sequences of actions. -/
abbrev Actions : OoOCore M → OoOCore M → Prop := Relation.ReflTransGen Action

/-- An invariant of every action holds after every sequence of actions. -/
theorem Actions.preserve {I : OoOCore M → Prop} (hI : ∀ {c c'}, Action c c' → I c → I c')
    {c c' : OoOCore M} (h : Actions c c') (hc : I c) : I c' := by
  induction h with
  | refl => exact hc
  | tail _ hstep ih => exact hI hstep ih

end RvO3
