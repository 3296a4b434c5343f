import Mathlib.Data.List.Rotate
import RvO3.Core.Fu
import RvO3.Lib.Pipeline

/-!
# A functional unit is a plain pipeline

`plain` reads a unit as a pipeline of its latency: the circular buffer in order of age, or the
one op of a non-pipelined unit with the cycles it still needs. Every operation of the unit is
the operation of that pipeline (`plain_step`), so what is known of a plain pipeline's runs
holds of the unit's.
-/

set_option autoImplicit false

namespace RvO3

namespace FuUnit

open Pipeline

/-! ## The unit as a pipeline -/

/-- The stages from the one that comes out next to the one just behind the input. -/
def oldestFirst (u : FuUnit) : List FuOp := (u.stages.rotate u.inputSlot).reverse

/-- The valid ones of a list of stages, the first of which has `n` cycles left. -/
def timed (stages : List FuOp) (n : Nat) : List (FuOp × Nat) :=
  (stages.zipIdx n).filter (·.1.valid)

/-- The unit as a plain pipeline: its ops with the ticks they still need, oldest first, and its
output. -/
def plain (u : FuUnit) : Pipeline FuOp where
  flight :=
    if u.pipelined then timed u.oldestFirst 1
    else if u.cur.valid then [(u.cur, u.remaining)] else []
  out := if u.out.valid then some u.out else none

/-- An event of the unit. -/
def step (u : FuUnit) : PipeEvent FuOp → FuUnit
  | .accept op => u.accept op
  | .tick => u.tick.1
  | .drain => u.dropOut
  | .flush s => u.flushYounger s

/-- The unit after some events. -/
def run (u : FuUnit) (es : List (PipeEvent FuOp)) : FuUnit := es.foldl step u

/-- Valid ops, accepted only when the unit can. -/
def Legal (u : FuUnit) : List (PipeEvent FuOp) → Prop
  | [] => True
  | e :: es => (∀ op, e = .accept op → u.canAccept = true ∧ op.valid = true) ∧ Legal (u.step e) es

/-- The op an event puts in the output slot. -/
def emits (u : FuUnit) : PipeEvent FuOp → List FuOp
  | .tick => if u.tick.2 then [u.tick.1.out] else []
  | _ => []

/-- The ops that leave through the output slot during some events, in order. -/
def emitted (u : FuUnit) : List (PipeEvent FuOp) → List FuOp
  | [] => []
  | e :: es => u.emits e ++ emitted (u.step e) es

/-- The ticks of a run that do not start with the output slot occupied. -/
def unfrozen (u : FuUnit) : List (PipeEvent FuOp) → Nat
  | [] => 0
  | .tick :: es => (if u.out.valid then 0 else 1) + unfrozen (u.step .tick) es
  | e :: es => unfrozen (u.step e) es

variable {u : FuUnit}

/-! ## Stages in order of age -/

theorem timed_cons (op : FuOp) (l : List FuOp) (n : Nat) :
    timed (op :: l) n = (if op.valid then [(op, n)] else []) ++ timed l (n + 1) := by
  unfold timed
  rw [List.zipIdx_cons, List.filter_cons]
  split <;> rfl

/-- The ages of a pipeline's halves: the second starts where the first ends. -/
theorem timed_append (l l' : List FuOp) (n : Nat) :
    timed (l ++ l') n = timed l n ++ timed l' (n + l.length) := by
  unfold timed
  rw [List.zipIdx_append, List.filter_append, Nat.add_comm n]

theorem aged_timed (l : List FuOp) (n : Nat) : aged (timed l (n + 1)) = timed l n := by
  unfold aged timed
  rw [List.zipIdx_succ, List.filter_map, List.map_map]
  exact List.map_id'' (fun _ => rfl) _

theorem timed_left {l : List FuOp} {n : Nat} {x : FuOp × Nat} (h : x ∈ timed l n) :
    n ≤ x.2 ∧ x.2 < n + l.length := by
  have hz := List.mem_of_mem_filter h
  exact ⟨List.le_snd_of_mem_zipIdx hz, List.snd_lt_add_of_mem_zipIdx hz⟩

theorem timed_eq_nil {l : List FuOp} {n : Nat} (h : l.filter (·.valid) = []) : timed l n = [] := by
  rw [timed, List.filter_eq_nil_iff]
  intro x hx
  exact List.filter_eq_nil_iff.mp h _ (List.fst_mem_of_mem_zipIdx hx)

/-- The input slot's stage is the youngest. -/
theorem rotate_set {l : List FuOp} {k : Nat} (hk : k < l.length) :
    ∃ rest, l.rotate k = l[k] :: rest ∧ ∀ op, (l.set k op).rotate k = op :: rest := by
  refine ⟨l.drop (k + 1) ++ l.take k, ?_, fun op => ?_⟩
  · rw [List.rotate_eq_drop_append_take (Nat.le_of_lt hk), List.drop_eq_getElem_cons hk, List.cons_append]
  · have hk' : k < (l.set k op).length := by
      rw [List.length_set]
      exact hk
    rw [List.rotate_eq_drop_append_take (Nat.le_of_lt hk'), List.drop_eq_getElem_cons hk',
      List.getElem_set_self, List.cons_append, List.take_set_of_le (Nat.le_refl k),
      List.drop_set_of_lt (Nat.lt_succ_self k)]

/-- The stage before the input slot is the oldest. -/
theorem rotate_pred {l : List FuOp} {k k' : Nat}
    (hk' : k' = if k ≠ 0 then k - 1 else l.length - 1) (hlt : k' < l.length) :
    ∃ rest, l.rotate k = rest ++ [l[k']] ∧ l.rotate k' = l[k'] :: rest ∧
      ∀ op, (l.set k' op).rotate k' = op :: rest := by
  obtain ⟨rest, hrot, hset⟩ := rotate_set hlt
  refine ⟨rest, ?_, hrot, hset⟩
  have hone : l.rotate k = (l.rotate k').rotate 1 := by
    rw [List.rotate_rotate]
    split at hk'
    · rw [hk', Nat.sub_add_cancel (by omega)]
    · have hk0 : k = 0 := by omega
      rw [hk', Nat.sub_add_cancel (by omega), List.rotate_length, hk0, List.rotate_zero]
  rw [hone, hrot, List.rotate_cons_succ, List.rotate_zero]

/-! ## Each operation is the pipeline's -/

theorem plain_out (u : FuUnit) : u.plain.out = if u.out.valid then some u.out else none := rfl

theorem plain_out_none : u.plain.out = none ↔ u.out.valid = false := by
  rw [plain_out]
  split <;> simp_all

/-- The stages of a pipelined unit around its input slot. -/
theorem Wf.stages (h : u.Wf) (hp : u.pipelined = true) :
    u.stages.length = u.latency ∧ u.inputSlot < u.stages.length := by
  have hlen : u.stages.length = u.latency := by
    rw [h.length_stages, if_pos hp]
  exact ⟨hlen, hlen ▸ h.inputSlot_lt hp⟩

/-- Accepting an operation is the pipeline's own accept, with the latency still to go. -/
theorem plain_accept (h : u.Wf) {op : FuOp} (hc : u.canAccept = true) (hv : op.valid = true) :
    (u.accept op).plain = u.plain.step FuOp.seq u.latency (.accept op) := by
  have hout : (u.accept op).plain.out = u.plain.out := by
    rw [plain_out, plain_out, accept_out]
  refine congrArg₂ Pipeline.mk ?_ hout
  unfold canAccept at hc
  cases hp : u.pipelined with
  | true =>
      rw [if_pos hp] at hc
      obtain ⟨hlen, hslot⟩ := h.stages hp
      obtain ⟨rest, hrot, hset⟩ := rotate_set hslot
      have hnew : (u.accept op).oldestFirst = rest.reverse ++ [op] := by
        simp only [oldestFirst, accept, hp, if_true, hset, List.reverse_cons]
      have hold : u.oldestFirst = rest.reverse ++ [u.stages[u.inputSlot]] := by
        rw [oldestFirst, hrot, List.reverse_cons]
      have hinv : (u.stages[u.inputSlot]).valid = false := by
        rw [List.getElem?_eq_getElem hslot] at hc
        simpa using hc
      have hlast : 1 + rest.reverse.length = u.latency := by
        rw [← hlen, ← List.length_rotate u.stages u.inputSlot, hrot, List.length_reverse, List.length_cons,
          Nat.add_comm]
      have hpn : (u.accept op).pipelined = true := by
        simp only [accept, hp, if_true]
      show (if (u.accept op).pipelined then _ else _) = (if u.pipelined then _ else _) ++ [(op, u.latency)]
      rw [if_pos hpn, if_pos hp, hnew, hold, timed_append, timed_append, timed_cons, timed_cons, hlast, hv, hinv]
      simp [timed]
  | false =>
      rw [if_neg (by simp [hp])] at hc
      have hcur : u.cur.valid = false := by
        simp only [Bool.and_eq_true, Bool.not_eq_true'] at hc
        exact hc.1
      simp [plain, accept, hp, hcur, hv]

theorem plain_dropOut (u : FuUnit) : u.dropOut.plain = { u.plain with out := none } := rfl

/-- A flush keeps an op, kills it, or finds none. -/
theorem killYounger_cases (seq : Nat) (op : FuOp) :
    (op.valid = true ∧ op.seq ≤ seq ∧ op.killYounger seq = op) ∨
    (op.valid = true ∧ seq < op.seq ∧ (op.killYounger seq).valid = false) ∨
    (op.valid = false ∧ (op.killYounger seq).valid = false) := by
  unfold FuOp.killYounger
  by_cases hv : op.valid = true
  · by_cases hs : op.seq > seq
    · exact .inr (.inl ⟨hv, hs, by rw [if_pos ⟨hv, hs⟩]; rfl⟩)
    · exact .inl ⟨hv, by omega, if_neg fun hk => hs hk.2⟩
  · have hv' : op.valid = false := by simpa using hv
    exact .inr (.inr ⟨hv', by rw [if_neg fun hk => hv hk.1]; exact hv'⟩)

theorem timed_killYounger (l : List FuOp) (seq n : Nat) :
    timed (l.map (FuOp.killYounger seq)) n =
      (timed l n).filter fun x => decide (x.1.seq ≤ seq) := by
  induction l generalizing n with
  | nil => rfl
  | cons op l ih =>
      rw [List.map_cons, timed_cons, timed_cons, List.filter_append, ih (n + 1)]
      congr 1
      rcases killYounger_cases seq op with ⟨hv, hs, hk⟩ | ⟨hv, hs, hk⟩ | ⟨hv, hk⟩
      · simp [hv, hs, hk]
      · simp [hv, hk, hs]
      · simp [hv, hk]

/-- Flushing a unit is the pipeline's own flush. -/
theorem plain_flushYounger (u : FuUnit) (seq : Nat) :
    (u.flushYounger seq).plain = u.plain.step FuOp.seq u.latency (.flush seq) := by
  have hout : (u.flushYounger seq).plain.out = u.plain.out.filter fun op => decide (op.seq ≤ seq) := by
    have hkill : (u.flushYounger seq).out = u.out.killYounger seq := rfl
    rw [plain_out, plain_out, hkill]
    rcases killYounger_cases seq u.out with ⟨hv, hs, hk⟩ | ⟨hv, hs, hk⟩ | ⟨hv, hk⟩
    · simp [hv, hs, hk, Option.filter]
    · simp [hv, hk, hs, Option.filter]
    · simp [hv, hk]
  refine congrArg₂ Pipeline.mk ?_ hout
  have hstages : (u.flushYounger seq).oldestFirst = u.oldestFirst.map (FuOp.killYounger seq) := by
    unfold oldestFirst
    rw [List.map_reverse, List.map_rotate]
    rfl
  show (if u.pipelined then _ else _) = List.filter _ (if u.pipelined then _ else _)
  cases hp : u.pipelined with
  | true =>
      rw [if_pos rfl, if_pos rfl, hstages]
      exact timed_killYounger _ _ _
  | false =>
      simp only [Bool.false_eq_true, if_false]
      have hcur : (u.flushYounger seq).cur = u.cur.killYounger seq := rfl
      have hrem : (u.flushYounger seq).remaining =
          if u.cur.valid ∧ u.cur.seq > seq then 0 else u.remaining := rfl
      rw [hcur, hrem]
      rcases killYounger_cases seq u.cur with ⟨hv, hs, hk⟩ | ⟨hv, hs, hk⟩ | ⟨hv, hk⟩
      · simp [hv, hs, hk]
      · simp [hv, hk, hs]
      · simp [hv, hk]

/-- One cycle of a pipelined unit that runs. -/
theorem plain_advance (h : u.Wf) (hp : u.pipelined = true) (ho : u.out.valid = false) :
    (u.advance.1.plain, u.advance.2) = u.plain.tick := by
  obtain ⟨hlen, hslot⟩ := h.stages hp
  have hlt : (if u.inputSlot ≠ 0 then u.inputSlot - 1 else u.stages.length - 1) < u.stages.length := by
    split <;> omega
  unfold advance
  rw [← hlen]
  dsimp only
  generalize hk : (if u.inputSlot ≠ 0 then u.inputSlot - 1 else u.stages.length - 1) = k at hlt
  obtain ⟨rest, hrot, hrot', hset⟩ := rotate_pred hk.symm hlt
  have hget : u.stages[k]?.getD {} = u.stages[k] := by
    rw [List.getElem?_eq_getElem hlt]
    rfl
  have hold : u.plain.flight = timed (u.stages[k] :: rest.reverse) 1 := by
    show (if u.pipelined then _ else _) = _
    rw [if_pos hp, oldestFirst, hrot, List.reverse_append]
    rfl
  have hnone := plain_out_none.mpr ho
  rw [hget]
  rw [timed_cons] at hold
  cases hv : (u.stages[k]).valid with
  | true =>
      rw [hv, if_pos rfl, List.singleton_append] at hold
      rw [if_pos rfl, tick_due hnone hold, aged_timed]
      -- the slot that came out is the empty input now
      simp only [plain, oldestFirst, hp, if_true, hset, List.reverse_cons, timed_append, timed_cons, hv]
      simp [timed, FuOp.invalidate]
  | false =>
      rw [hv, if_neg Bool.false_ne_true, List.nil_append] at hold
      have hleft : ∀ x ∈ u.plain.flight, x.2 ≠ 1 := by
        intro x hx
        rw [hold] at hx
        have hx2 := (timed_left hx).1
        omega
      rw [if_neg Bool.false_ne_true, tick_not_due hnone hleft, hold, aged_timed]
      simp only [plain, oldestFirst, hp, if_true, hrot', List.reverse_cons, timed_append, timed_cons, hv, ho]
      simp [timed]

/-- A unit that is not busy holds nothing in flight. -/
theorem plain_idle (h : u.Wf) (hb : u.busy = false) : u.plain.flight = [] := by
  unfold busy at hb
  show (if u.pipelined then _ else _) = _
  split at hb
  · rename_i hp
    have hzero : u.inFlight = 0 := by simpa using hb
    have hnil : u.stages.filter (·.valid) = [] := List.length_eq_zero_iff.mp (h.inFlight_eq.symm.trans hzero)
    rw [if_pos hp]
    apply timed_eq_nil
    unfold oldestFirst
    rw [List.filter_eq_nil_iff] at hnil ⊢
    intro op hop
    rw [List.mem_reverse, List.mem_rotate] at hop
    exact hnil op hop
  · rename_i hp
    rw [if_neg hp, if_neg (by simp [hb])]

/-- Ticking a unit is the pipeline's own tick, what it reports included. -/
theorem plain_tick (h : u.Wf) (ht : u.plain.Timed u.latency) :
    (u.tick.1.plain, u.tick.2) = u.plain.tick := by
  unfold FuUnit.tick
  by_cases hb : u.busy = true
  · rw [if_neg (by simp [hb])]
    unfold busy at hb
    by_cases hp : u.pipelined = true
    · rw [if_pos hp]
      by_cases ho : u.out.valid = true
      · rw [if_pos ho, tick_frozen (by rw [plain_out, if_pos ho])]
      · rw [if_neg ho]
        have hov : u.out.valid = false := by simpa using ho
        exact plain_advance h hp hov
    · rw [if_neg hp] at hb ⊢
      have hpf : u.pipelined = false := by simpa using hp
      have ho := plain_out_none.mpr (h.out_free hpf hb)
      -- an iterative unit holds one operation, with the cycles it has left
      have hflight : u.plain.flight = [(u.cur, u.remaining)] := by
        unfold plain
        rw [if_neg hp, if_pos hb]
      have hpos : 1 ≤ u.remaining := (ht.range (u.cur, u.remaining) (hflight ▸ List.mem_cons_self)).1
      dsimp only
      by_cases hr : u.remaining - 1 = 0
      · -- its last cycle: the result reaches the output
        have hone : u.remaining = 1 := by omega
        rw [if_pos hr, tick_due ho (hone ▸ hflight)]
        simp [plain, hpf, hb, FuOp.invalidate, aged]
      · rw [if_neg hr, tick_not_due ho fun x hx => by
          rw [hflight] at hx
          rw [List.mem_singleton.mp hx]
          show u.remaining ≠ 1
          omega]
        rw [hflight]
        have hout := h.out_free hpf hb
        simp [plain, hpf, hb, hout, aged]
  · -- an idle unit: the model has nothing in flight either
    rw [if_pos (by simpa using hb)]
    have hidle : u.plain.flight = [] := plain_idle h (by simpa using hb)
    cases ho : u.plain.out with
    | some op => rw [tick_frozen ho]
    | none =>
        rcases tick_cases ho with ⟨-, ht⟩ | ⟨op, rest, hf, -⟩ | ⟨op, k, rest, hf, -, -⟩
        · rw [ht]
        · rw [hidle] at hf
          cases hf
        · rw [hidle] at hf
          cases hf

/-- A unit that can accept has room in its pipeline. -/
theorem plain_room (h : u.Wf) (hc : u.canAccept = true) : ∀ x ∈ u.plain.flight, x.2 < u.latency := by
  intro x hx
  change x ∈ (if u.pipelined then _ else _) at hx
  unfold canAccept at hc
  split at hc
  · rename_i hp
    obtain ⟨hlen, hslot⟩ := h.stages hp
    obtain ⟨rest, hrot, -⟩ := rotate_set hslot
    have hinv : (u.stages[u.inputSlot]).valid = false := by
      rw [List.getElem?_eq_getElem hslot] at hc
      simpa using hc
    rw [if_pos hp, oldestFirst, hrot, List.reverse_cons, timed_append, timed_cons, hinv] at hx
    have hin : x ∈ timed rest.reverse 1 := by simpa [timed] using hx
    have hlt := (timed_left hin).2
    rw [← hlen, ← List.length_rotate u.stages u.inputSlot, hrot, List.length_cons]
    rw [List.length_reverse] at hlt
    omega
  · rename_i hp
    simp only [Bool.and_eq_true, Bool.not_eq_true'] at hc
    rw [if_neg hp, if_neg (by simp [hc.1])] at hx
    cases hx

/-! ## Runs -/

/-- A unit that keeps its invariant, read as a pipeline in time. -/
structure Piped (u : FuUnit) : Prop where
  wf : u.Wf
  timed : u.plain.Timed u.latency

theorem step_latency (u : FuUnit) (e : PipeEvent FuOp) :
    (u.step e).latency = u.latency ∧ (u.step e).pipelined = u.pipelined := by
  cases e with
  | accept op => exact ⟨by simp only [step, accept]; split <;> rfl, by simp only [step, accept]; split <;> rfl⟩
  | drain => exact ⟨rfl, rfl⟩
  | flush s => exact ⟨rfl, rfl⟩
  | tick =>
      simp only [step, FuUnit.tick, advance]
      constructor
      · repeat' split
        all_goals rfl
      · repeat' split
        all_goals rfl

/-- The event is legal. -/
def Enabled (u : FuUnit) (e : PipeEvent FuOp) : Prop :=
  ∀ op, e = .accept op → u.canAccept = true ∧ op.valid = true

/-- Each event of a unit is the same event of the pipeline. -/
theorem plain_step (h : u.Piped) {e : PipeEvent FuOp} (he : u.Enabled e) :
    (u.step e).plain = u.plain.step FuOp.seq u.latency e := by
  cases e with
  | accept op => exact plain_accept h.wf (he op rfl).1 (he op rfl).2
  | drain => exact plain_dropOut u
  | flush s => exact plain_flushYounger u s
  | tick => exact (Prod.mk.inj (plain_tick h.wf h.timed)).1

theorem Piped.room (h : u.Piped) {e : PipeEvent FuOp} (he : u.Enabled e) :
    ∀ op, e = .accept op → ∀ x ∈ u.plain.flight, x.2 < u.latency :=
  fun op hop => plain_room h.wf (he op hop).1

/-- Every enabled event keeps the unit related to its pipeline. -/
theorem Piped.step (h : u.Piped) {e : PipeEvent FuOp} (he : u.Enabled e) : (u.step e).Piped := by
  refine ⟨?_, ?_⟩
  · cases e with
    | accept op => exact h.wf.accept (he op rfl).1 (he op rfl).2
    | drain => exact h.wf.dropOut
    | flush s => exact h.wf.flushYounger s
    | tick => exact (tick_spec h.wf).1
  · rw [plain_step h he, (step_latency u e).1]
    exact h.timed.step h.wf.latency_pos (h.room he)

theorem plain_emits (h : u.Piped) (e : PipeEvent FuOp) : u.plain.emits e = u.emits e := by
  cases e with
  | accept op => rfl
  | drain => rfl
  | flush s => rfl
  | tick =>
      have htick := plain_tick h.wf h.timed
      rw [Pipeline.emits, emits, ← htick]
      cases ht : u.tick.2 with
      | false => rfl
      | true =>
          have hv := ((tick_spec h.wf).2.2.1 ht).2
          simp only [if_true]
          rw [plain_out, if_pos hv]
          rfl

/-- A run of the unit is the run of its pipeline. -/
structure SameRun (u : FuUnit) (es : List (PipeEvent FuOp)) : Prop where
  piped : (u.run es).Piped
  plain : (u.run es).plain = u.plain.run FuOp.seq u.latency es
  legal : u.plain.Legal FuOp.seq u.latency es
  emitted : u.emitted es = u.plain.emitted FuOp.seq u.latency es
  unfrozen : u.unfrozen es = u.plain.unfrozen FuOp.seq u.latency es
  latency : (u.run es).latency = u.latency ∧ (u.run es).pipelined = u.pipelined

/-- A legal run of the unit and the run of its pipeline go together and emit the same. -/
theorem Piped.sameRun {es : List (PipeEvent FuOp)} (h : u.Piped) (hl : u.Legal es) : u.SameRun es := by
  induction es generalizing u with
  | nil => exact ⟨h, rfl, trivial, rfl, rfl, rfl, rfl⟩
  | cons e es ih =>
      have hstep := plain_step h hl.1
      have hlat := step_latency u e
      have hrest := ih (h.step hl.1) hl.2
      refine ⟨hrest.piped, ?_, ⟨h.room hl.1, ?_⟩, ?_, ?_, ?_⟩
      · rw [run_cons, ← hstep, ← hlat.1]
        exact hrest.plain
      · rw [← hstep, ← hlat.1]
        exact hrest.legal
      · rw [FuUnit.emitted, Pipeline.emitted, plain_emits h, ← hstep, hrest.emitted, hlat.1]
      · have hout : u.plain.out.isSome = u.out.valid := by
          rw [plain_out]
          cases u.out.valid <;> rfl
        have hn := hrest.unfrozen
        rw [hlat.1, hstep] at hn
        cases e with
        | tick => rw [FuUnit.unfrozen, Pipeline.unfrozen, hn, hout]
        | accept op => exact hn
        | drain => exact hn
        | flush s => exact hn
      · exact ⟨hrest.latency.1.trans hlat.1, hrest.latency.2.trans hlat.2⟩

/-- A tick reports true exactly when it fills an empty output. -/
theorem Wf.tick_true_iff (h : u.Wf) :
    u.tick.2 = true ↔ u.out.valid = false ∧ u.tick.1.out.valid = true := by
  obtain ⟨-, -, htrue, hfalse⟩ := tick_spec h
  refine ⟨htrue, fun ⟨ho, hv⟩ => ?_⟩
  cases ht : u.tick.2 with
  | true => rfl
  | false =>
      rw [hfalse ht, ho] at hv
      cases hv

/-- Just behind an accept, the op has its whole latency before it. -/
theorem Piped.accepted (h : u.Piped) {op : FuOp} (he : u.Enabled (.accept op)) :
    (op, u.latency) ∈ (u.step (.accept op)).plain.flight := by
  rw [plain_step h he]
  exact List.mem_append_right _ List.mem_cons_self

/-- A tick fills the output with an operation exactly when the output was empty and the operation
was one tick from its end. -/
theorem Wf.tick_fills (h : u.Wf) (ht : u.plain.Timed u.latency) {op : FuOp} :
    u.tick.2 = true ∧ u.tick.1.out = op ↔ u.out.valid = false ∧ (op, 1) ∈ u.plain.flight := by
  rw [← plain_out_none, ← tick_emits ht, ← plain_tick h ht]
  apply and_congr_right
  intro hfill
  have hv := (h.tick_true_iff.mp hfill).2
  show _ ↔ (if u.tick.1.out.valid then _ else _) = some op
  rw [if_pos hv, Option.some.injEq]

/-- When an op that was just accepted comes out. -/
theorem Piped.due {op : FuOp} {w : List (PipeEvent FuOp)} (h : u.Piped) (hl : u.Legal w)
    (hf : u.plain.Fresh FuOp.seq w) (ha : (op, u.latency) ∈ u.plain.flight) :
    ((u.run w).tick.2 = true ∧ (u.run w).tick.1.out = op ↔
      (u.run w).out.valid = false ∧ ¬ Squashed FuOp.seq op w ∧ u.unfrozen w + 1 = u.latency) := by
  have hrun := h.sameRun hl
  rw [hrun.piped.wf.tick_fills hrun.piped.timed, hrun.plain,
    mem_flight_iff h.wf.latency_pos h.timed hrun.legal hf ha 1, hrun.unfrozen]
  refine and_congr_right fun _ => and_congr_right fun _ => ?_
  omega

end FuUnit

end RvO3
