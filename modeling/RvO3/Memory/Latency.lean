import RvO3.Lib.DelayLine
import RvO3.Memory.System

/-!
# Fixed latency

Main memory answers in the order of its requests, and each one exactly `latency - 1` ticks after it
was accepted (`DRAM.answers_on_time`): its transactions are a delay line, so the release loop, which
looks at the front alone, leaves nothing behind that is due.
-/

set_option autoImplicit false

namespace RvO3

variable {τ : Type} {d d' : DRAM τ} {m m' : Memory} {req : MemRequest τ} {r : MemResponse τ}

/-- The runs of a main memory. `sent` are the answers to the requests accepted so far, each with the
tick at which it was accepted, and `got` the responses taken. Another port may write the backing store
in between. -/
inductive DramRun (latency : Nat) : List (Nat × MemResponse τ) → List (MemResponse τ) → DRAM τ → Prop
  | reset : DramRun latency [] [] (DRAM.init latency)
  | tick {sent : List (Nat × MemResponse τ)} {got : List (MemResponse τ)} {d : DRAM τ} :
      DramRun latency sent got d → DramRun latency sent got d.tick
  | access {sent : List (Nat × MemResponse τ)} {got : List (MemResponse τ)} {d d' : DRAM τ} {m m' : Memory}
      {req : MemRequest τ} {r : MemResponse τ} : DramRun latency sent got d → d.canAccept = true →
      DRAM.perform m req = .ok (m', r) → d.access m req = .ok (d', m') →
      DramRun latency (sent ++ [(d.tickCount, r)]) got d'
  | pop {sent : List (Nat × MemResponse τ)} {got : List (MemResponse τ)} {d : DRAM τ} {r : MemResponse τ} :
      DramRun latency sent got d → d.respQ.head? = some r → DramRun latency sent (got ++ [r]) d.popResponse

namespace DRAM

/-- The two ways in which a request is accepted. -/
theorem access_cases (h : d.access m req = .ok (d', m')) : ∃ r, perform m req = .ok (m', r) ∧
    ((d.latency = 1 ∧ d' = { d with acceptedThisCycle := true, respQ := d.respQ ++ [r] }) ∨
      (d.latency ≠ 1 ∧ d' = { d with
        acceptedThisCycle := true, inflight := d.inflight ++ [⟨r, d.tickCount + d.latency - 1⟩] })) := by
  unfold access at h
  cases hp : perform m req with
  | error e =>
      rw [hp] at h
      cases h
  | ok x =>
      obtain ⟨m₁, r⟩ := x
      rw [hp] at h
      dsimp only at h
      by_cases hl : d.latency = 1
      · rw [if_pos hl] at h
        cases h
        exact ⟨r, rfl, .inl ⟨hl, rfl⟩⟩
      · rw [if_neg hl] at h
        cases h
        exact ⟨r, rfl, .inr ⟨hl, rfl⟩⟩

/-- The answer to a request accepted at `t`, with the tick at which it becomes visible. -/
def txnOf (latency : Nat) (x : Nat × MemResponse τ) : Txn τ := ⟨x.2, x.1 + latency - 1⟩

section Due

variable {latency : Nat} (now : Nat) (sent : List (Nat × MemResponse τ))

theorem txnOf_due (hpos : 1 ≤ latency) (x : Nat × MemResponse τ) :
    (txnOf latency x).readyAt ≤ now ↔ x.1 + latency ≤ now + 1 := by
  change x.1 + latency - 1 ≤ now ↔ _
  omega

/-- The responses that are visible by now. -/
theorem filter_due (hpos : 1 ≤ latency) : ((sent.map (txnOf latency)).filter fun t => t.readyAt ≤ now).map (·.resp) =
    (sent.filter fun x => x.1 + latency ≤ now + 1).map Prod.snd := by
  rw [List.filter_map, List.map_map]
  congr 1
  apply List.filter_congr
  intro x _
  exact decide_eq_decide.mpr (txnOf_due now hpos x)

/-- The responses that are not. -/
theorem filter_waiting (hpos : 1 ≤ latency) :
    ((sent.map (txnOf latency)).filter fun t => !decide (t.readyAt ≤ now)).map (·.resp) =
      (sent.filter fun x => now + 1 < x.1 + latency).map Prod.snd := by
  rw [List.filter_map, List.map_map]
  congr 1
  apply List.filter_congr
  intro x _
  change (!decide _) = decide _
  rw [← decide_not]
  exact decide_eq_decide.mpr ((not_congr (txnOf_due now hpos x)).trans Nat.not_le)

end Due

/-- Main memory as a delay line: `out` are the transactions whose responses have become visible. -/
structure OnTime (latency : Nat) (sent : List (Nat × MemResponse τ)) (got : List (MemResponse τ)) (d : DRAM τ)
    (out : List (Txn τ)) : Prop where
  delay : d.latency = latency ∧ 1 ≤ latency
  visible : out.map (·.resp) = got ++ d.respQ
  line : Delayed Txn.readyAt (latency - 1) d.tickCount (sent.map (txnOf latency)) out d.inflight
  past : ∀ x ∈ sent, x.1 ≤ d.tickCount

variable {latency : Nat} {sent : List (Nat × MemResponse τ)} {got : List (MemResponse τ)} {out : List (Txn τ)}

theorem OnTime.access (h : OnTime latency sent got d out) (hp : perform m req = .ok (m', r))
    (ha : d.access m req = .ok (d', m')) : ∃ out, OnTime latency (sent ++ [(d.tickCount, r)]) got d' out := by
  obtain ⟨rfl, hpos⟩ := h.delay
  have hpast : ∀ x ∈ sent ++ [(d.tickCount, r)], x.1 ≤ d.tickCount := by
    simpa [or_imp, forall_and] using h.past
  have hsent : (sent ++ [(d.tickCount, r)]).map (txnOf d.latency) =
      sent.map (txnOf d.latency) ++ [txnOf d.latency (d.tickCount, r)] := by
    rw [List.map_append, List.map_singleton]
  obtain ⟨r', hp', ⟨hone, rfl⟩ | ⟨hone, rfl⟩⟩ := access_cases ha
  all_goals
    rw [hp] at hp'
    cases hp'
  · -- a combinational answer is visible at once
    refine ⟨out ++ [txnOf d.latency (d.tickCount, r)], ⟨rfl, hpos⟩, ?_, ?_, hpast⟩
    · rw [List.map_append, h.visible, List.append_assoc]
      rfl
    · rw [hsent]
      have hline := h.line
      rw [hone] at hline ⊢
      exact hline.pass (show d.tickCount + 1 - 1 = d.tickCount by omega)
  · refine ⟨out, ⟨rfl, hpos⟩, h.visible, ?_, hpast⟩
    rw [hsent]
    exact h.line.enter (by omega) (show d.tickCount + d.latency - 1 = d.tickCount + (d.latency - 1) by omega)

theorem OnTime.tick (h : OnTime latency sent got d out) : ∃ out, OnTime latency sent got d.tick out := by
  refine ⟨_, h.delay, ?_, h.line.tick, fun x hx => Nat.le_succ_of_le (h.past x hx)⟩
  rw [List.map_append, h.visible, List.append_assoc]
  rfl

theorem OnTime.pop (h : OnTime latency sent got d out) (hr : d.respQ.head? = some r) :
    OnTime latency sent (got ++ [r]) d.popResponse out := by
  refine ⟨h.delay, ?_, h.line, h.past⟩
  obtain ⟨rest, hq⟩ := List.head?_eq_some_iff.mp hr
  rw [h.visible, popResponse, hq, List.append_assoc]
  rfl

end DRAM

/-! ## Every run -/

section Runs

variable {latency : Nat} {sent : List (Nat × MemResponse τ)} {got : List (MemResponse τ)}

/-- The latency that the constructor keeps. -/
def dramLatency (latency : Nat) : Nat := if latency ≠ 0 then latency else 1

theorem DramRun.onTime (h : DramRun latency sent got d) : ∃ out, d.OnTime (dramLatency latency) sent got out := by
  induction h with
  | reset =>
      refine ⟨[], ⟨rfl, ?_⟩, rfl, .start, by simp⟩
      unfold dramLatency
      split <;> omega
  | tick _ ih =>
      obtain ⟨out, h⟩ := ih
      exact h.tick
  | access _ _ hp ha ih =>
      obtain ⟨out, h⟩ := ih
      exact h.access hp ha
  | pop _ hr ih =>
      obtain ⟨out, h⟩ := ih
      exact ⟨out, h.pop hr⟩

/-- At most one request is accepted between two ticks. -/
theorem DramRun.oneEach (h : DramRun latency sent got d) :
    (sent.map Prod.fst).Pairwise (· < ·) ∧ (d.canAccept = true → ∀ x ∈ sent, x.1 < d.tickCount) := by
  induction h with
  | reset => simp
  | @tick sent got d h ih =>
      obtain ⟨out, ht⟩ := h.onTime
      exact ⟨ih.1, fun _ x hx => Nat.lt_succ_of_le (ht.past x hx)⟩
  | @access sent got d d' m m' req r h hacc hp ha ih =>
      refine ⟨?_, fun hacc' => ?_⟩
      · rw [List.map_append, List.pairwise_append]
        refine ⟨ih.1, List.pairwise_singleton _ _, fun t ht t' ht' => ?_⟩
        obtain ⟨x, hx, rfl⟩ := List.mem_map.mp ht
        rw [List.map_singleton, List.mem_singleton] at ht'
        rw [ht']
        exact ih.2 hacc x hx
      · obtain ⟨r', -, ⟨-, rfl⟩ | ⟨-, rfl⟩⟩ := DRAM.access_cases ha <;> cases hacc'
  | pop _ _ ih => exact ih

/-- Every request is answered once its latency is over, and in order: the responses taken and those that
wait to be taken are the answers to the requests accepted at least `latency - 1` ticks ago. -/
theorem DRAM.answers_on_time (h : DramRun latency sent got d) :
    got ++ d.respQ = (sent.filter fun x => x.1 + dramLatency latency ≤ d.tickCount + 1).map Prod.snd ∧
      d.inflight.map (·.resp) = (sent.filter fun x => d.tickCount + 1 < x.1 + dramLatency latency).map Prod.snd ∧
      (sent.map Prod.fst).Pairwise (· < ·) := by
  obtain ⟨out, ht⟩ := h.onTime
  obtain ⟨hout, hline⟩ := ht.line.out_eq
  refine ⟨?_, ?_, h.oneEach.1⟩
  · rw [← ht.visible, hout, filter_due _ _ ht.delay.2]
  · rw [hline, filter_waiting _ _ ht.delay.2]

/-- A latency of three: of two reads accepted one tick apart, the first is answered two ticks later, and the
second is still on its way. -/
theorem DRAM.answers_on_time_reads : ∃ d : DRAM Nat, d.respQ.map (·.tag) = [0] ∧
    d.inflight.map (·.resp.tag) = [1] ∧ d.tickCount = 2 := by
  let backing : Memory := { bytes := fun _ => 7, size := 16 }
  let first : MemRequest Nat := { tag := 0, addr := 4, size := 4 }
  let second : MemRequest Nat := { tag := 1, addr := 8, size := 4 }
  have hfirst : DRAM.perform backing first = .ok (backing, { tag := 0, rdata := scalarOf 4 fun _ => 7 }) := rfl
  have hsecond : DRAM.perform backing second = .ok (backing, { tag := 1, rdata := scalarOf 4 fun _ => 7 }) := rfl
  have h₁ := (DramRun.reset.access rfl hfirst (rfl : (DRAM.init 3).access backing first = _)).tick
  have h₂ := (h₁.access rfl hsecond rfl).tick
  obtain ⟨hq, hline, -⟩ := DRAM.answers_on_time h₂
  have htags := congrArg (List.map (·.tag)) hline
  rw [List.map_map] at htags
  exact ⟨_, congrArg (List.map (·.tag)) hq, htags, rfl⟩

end Runs

end RvO3
