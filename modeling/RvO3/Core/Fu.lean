import RvO3.Isa.Instr
import Mathlib.Data.List.Perm.Basic
import Mathlib.Data.List.Permutation

/-!
# Functional units

`core/fu.h`: a fixed-latency unit, pipelined (a circular buffer with one slot per cycle
of latency) or not (one op occupies it for its whole latency). Every unit ends in a
one-entry output slot. The `ops` and `busyCycles` counters are left out.

`ops u` lists the ops a unit holds; each operation is specified by what it does to that
list, up to order.
-/

set_option autoImplicit false

namespace RvO3

open scoped List

/-- "No physical register": branches, stores, and writes to x0. -/
def kNoReg : Nat := 0xFF

/-- A result in flight. -/
structure FuOp where
  seq : Nat := 0
  robIdx : Nat := 0
  value : Word := 0
  lsqIdx : Nat := 0
  target : Word := 0
  pdst : Nat := kNoReg
  valid : Bool := false
  redirect : Bool := false
  deriving DecidableEq, Repr

instance : Inhabited FuOp := ⟨{}⟩

/-- `op.valid = false`. -/
def FuOp.invalidate (op : FuOp) : FuOp := { op with valid := false }

/-- An op younger than `seq` is killed. -/
def FuOp.killYounger (seq : Nat) (op : FuOp) : FuOp :=
  if op.valid ∧ op.seq > seq then op.invalidate else op

/-- A functional unit (`FuUnit` of `core/fu.h`). A pipelined one keeps its ops in a ring of stages,
one that is not has a single op with the ticks it still needs. `out` is the slot in which a result
waits for writeback. -/
structure FuUnit where
  latency : Nat
  pipelined : Bool
  stages : List FuOp
  cur : FuOp := {}
  remaining : Nat := 0
  out : FuOp := {}
  inputSlot : Nat := 0
  inFlight : Nat := 0
  deriving DecidableEq, Repr

namespace FuUnit

/-- The constructor: a pipeline has one stage for each tick of its latency. -/
def init (latency : Nat) (pipelined : Bool) : FuUnit :=
  { latency := latency, pipelined := pipelined
    stages := if pipelined then List.replicate latency {} else [] }

instance : Inhabited FuUnit := ⟨init 1 true⟩

/-- Is an op in the unit, not counting the output slot? -/
def busy (u : FuUnit) : Bool := if u.pipelined then u.inFlight != 0 else u.cur.valid

/-- A pipeline accepts when its input stage is free, and the other kind when it holds neither an op
nor a result. -/
def canAccept (u : FuUnit) : Bool :=
  if u.pipelined then !(u.stages[u.inputSlot]?.getD {}).valid else !u.cur.valid && !u.out.valid

/-- An op enters. The result is already computed, so only its delay is left. -/
def accept (u : FuUnit) (op : FuOp) : FuUnit :=
  if u.pipelined then
    { u with stages := u.stages.set u.inputSlot op, inFlight := u.inFlight + 1 }
  else { u with cur := op, remaining := u.latency }

/-- One cycle of a busy pipelined unit whose output slot is free: the last stage becomes
the next input slot and its op, if any, moves to the output slot. -/
def advance (u : FuUnit) : FuUnit × Bool :=
  let inputSlot := if u.inputSlot ≠ 0 then u.inputSlot - 1 else u.latency - 1
  let last := u.stages[inputSlot]?.getD {}
  if last.valid then
    ({ u with
        inputSlot := inputSlot
        out := last
        stages := u.stages.set inputSlot last.invalidate
        inFlight := u.inFlight - 1 }, true)
  else ({ u with inputSlot := inputSlot }, false)

/-- Clock edge: advance one cycle; true exactly when a new output becomes ready. -/
def tick (u : FuUnit) : FuUnit × Bool :=
  if !u.busy then (u, false)
  else if u.pipelined then
    if u.out.valid then (u, false) else u.advance
  else
    let remaining := u.remaining - 1
    if remaining = 0 then
      ({ u with remaining := 0, out := u.cur, cur := u.cur.invalidate }, true)
    else ({ u with remaining := remaining }, false)

/-- Squash: kill every in-flight op younger than `seq`. -/
def flushYounger (u : FuUnit) (seq : Nat) : FuUnit :=
  { u with
    stages := u.stages.map (FuOp.killYounger seq)
    inFlight := u.inFlight - (u.stages.filter fun s => s.valid && decide (s.seq > seq)).length
    cur := u.cur.killYounger seq
    remaining := if u.cur.valid ∧ u.cur.seq > seq then 0 else u.remaining
    out := u.out.killYounger seq }

/-- `out.valid = false`: the output slot is drained. -/
def dropOut (u : FuUnit) : FuUnit := { u with out := u.out.invalidate }

/-! ## The ops a unit holds -/

/-- The ops inside the unit, its output slot excepted. -/
def inner (u : FuUnit) : List FuOp := (u.stages ++ [u.cur]).filter (·.valid)

/-- All the ops of the unit. -/
def ops (u : FuUnit) : List FuOp := u.inner ++ [u.out].filter (·.valid)

/-- The representation invariant. -/
structure Wf (u : FuUnit) : Prop where
  latency_pos : 1 ≤ u.latency
  length_stages : u.stages.length = if u.pipelined then u.latency else 0
  inputSlot_lt : u.pipelined = true → u.inputSlot < u.latency
  inFlight_eq : u.inFlight = (u.stages.filter (·.valid)).length
  cur_invalid : u.pipelined = true → u.cur.valid = false
  /-- A non-pipelined unit keeps its output slot free while it runs. -/
  out_free : u.pipelined = false → u.cur.valid = true → u.out.valid = false

variable {u : FuUnit}

theorem wf_init {latency : Nat} {pipelined : Bool} (h : 1 ≤ latency) :
    (init latency pipelined).Wf := by
  cases pipelined with
  | true =>
      refine ⟨h, by simp [init], fun _ => h, ?_, fun _ => rfl, nofun⟩
      show 0 = _
      simp [init]
  | false => exact ⟨h, rfl, nofun, rfl, nofun, nofun⟩

/-- Replacing an invalid element of a list by a valid one adds it to the valid ones. -/
theorem filter_set_valid {l : List FuOp} {i : Nat} {op : FuOp} (hi : i < l.length)
    (hold : (l[i]?.getD {}).valid = false) (hop : op.valid = true) :
    (l.set i op).filter (·.valid) ~ op :: l.filter (·.valid) := by
  induction l generalizing i with
  | nil => simp at hi
  | cons a l ih =>
      cases i with
      | zero =>
          have ha : a.valid = false := by simpa using hold
          simp [hop, ha]
      | succ i =>
          have hi' : i < l.length := by simpa using hi
          have hold' : (l[i]?.getD {}).valid = false := by simpa using hold
          have h := ih hi' hold'
          rw [List.set_cons_succ]
          cases ha : a.valid with
          | true =>
              rw [List.filter_cons_of_pos ha, List.filter_cons_of_pos ha]
              exact (List.Perm.cons a h).trans (List.Perm.swap op a _)
          | false =>
              rw [List.filter_cons_of_neg (by simp [ha]), List.filter_cons_of_neg (by simp [ha])]
              exact h

/-- Invalidating a valid element of a list takes it out of the valid ones. -/
theorem filter_set_invalid {l : List FuOp} {i : Nat} {op : FuOp}
    (hv : (l[i]?.getD {}).valid = true) (hop : op.valid = false) :
    l.filter (·.valid) ~ l[i]?.getD {} :: (l.set i op).filter (·.valid) := by
  induction l generalizing i with
  | nil => simp at hv
  | cons a l ih =>
      cases i with
      | zero =>
          have ha : a.valid = true := by simpa using hv
          simp [hop, ha]
      | succ i =>
          have hv' : (l[i]?.getD {}).valid = true := by simpa using hv
          have h := ih hv'
          rw [List.set_cons_succ]
          simp only [List.getElem?_cons_succ]
          cases ha : a.valid with
          | true =>
              rw [List.filter_cons_of_pos ha, List.filter_cons_of_pos ha]
              exact (List.Perm.cons a h).trans (List.Perm.swap _ a _)
          | false =>
              rw [List.filter_cons_of_neg (by simp [ha]), List.filter_cons_of_neg (by simp [ha])]
              exact h

theorem filter_killYounger (seq : Nat) (l : List FuOp) :
    (l.map (FuOp.killYounger seq)).filter (·.valid) =
      (l.filter (·.valid)).filter fun op => decide (op.seq ≤ seq) := by
  induction l with
  | nil => rfl
  | cons a l ih =>
      rw [List.map_cons]
      by_cases hv : a.valid = true
      · by_cases hs : a.seq > seq
        · have hk : a.killYounger seq = a.invalidate := if_pos ⟨hv, hs⟩
          rw [hk, List.filter_cons_of_neg (by simp [FuOp.invalidate]),
            List.filter_cons_of_pos hv, List.filter_cons_of_neg (by simp; omega), ih]
        · have hk : a.killYounger seq = a := if_neg (by simp [hv]; omega)
          rw [hk, List.filter_cons_of_pos hv, List.filter_cons_of_pos hv,
            List.filter_cons_of_pos (by simp; omega), ih]
      · have hk : a.killYounger seq = a := if_neg (by simp [hv])
        rw [hk, List.filter_cons_of_neg hv, List.filter_cons_of_neg hv, ih]

/-! ## What each operation does to the ops -/

@[simp] theorem accept_out (u : FuUnit) (op : FuOp) : (u.accept op).out = u.out := by
  unfold accept
  split <;> rfl

theorem inner_accept (h : u.Wf) (hc : u.canAccept = true) {op : FuOp} (hv : op.valid = true) :
    (u.accept op).inner ~ op :: u.inner := by
  unfold canAccept at hc
  cases hp : u.pipelined with
  | true =>
      rw [if_pos hp] at hc
      have hlen : u.inputSlot < u.stages.length := by
        rw [h.length_stages, if_pos hp]
        exact h.inputSlot_lt hp
      have hset := filter_set_valid hlen (by simpa using hc) hv
      simp only [inner, accept, hp, if_true, List.filter_append]
      exact hset.append_right _
  | false =>
      rw [if_neg (by simp [hp])] at hc
      have hcur : u.cur.valid = false := by
        simp only [Bool.and_eq_true, Bool.not_eq_true'] at hc
        exact hc.1
      simp only [inner, accept, hp, Bool.false_eq_true, if_false, List.filter_append]
      rw [List.filter_cons_of_pos hv, List.filter_cons_of_neg (by simp [hcur])]
      simp only [List.filter_nil, List.append_nil]
      exact List.perm_append_singleton _ _

theorem ops_accept (h : u.Wf) (hc : u.canAccept = true) {op : FuOp} (hv : op.valid = true) :
    (u.accept op).ops ~ op :: u.ops := by
  simp only [ops, accept_out]
  exact (inner_accept h hc hv).append_right _

theorem Wf.accept (h : u.Wf) (hc : u.canAccept = true) {op : FuOp} (hv : op.valid = true) :
    (u.accept op).Wf := by
  unfold canAccept at hc
  cases hp : u.pipelined with
  | true =>
      rw [if_pos hp] at hc
      have hlen : u.inputSlot < u.stages.length := by
        rw [h.length_stages, if_pos hp]
        exact h.inputSlot_lt hp
      have hset := filter_set_valid hlen (by simpa using hc) hv
      have ha : u.accept op =
          { u with stages := u.stages.set u.inputSlot op, inFlight := u.inFlight + 1 } := if_pos hp
      rw [ha]
      refine ⟨h.latency_pos, ?_, h.inputSlot_lt, ?_, h.cur_invalid, h.out_free⟩
      · rw [List.length_set]
        exact h.length_stages
      · show u.inFlight + 1 = _
        rw [hset.length_eq, List.length_cons, h.inFlight_eq]
  | false =>
      rw [if_neg (by simp [hp])] at hc
      simp only [Bool.and_eq_true, Bool.not_eq_true'] at hc
      have ha : u.accept op = { u with cur := op, remaining := u.latency } := if_neg (by simp [hp])
      rw [ha]
      exact ⟨h.latency_pos, h.length_stages, h.inputSlot_lt, h.inFlight_eq,
        (fun hp' => by rw [hp] at hp'; cases hp'), fun _ _ => hc.2⟩

theorem inner_flushYounger (u : FuUnit) (seq : Nat) :
    (u.flushYounger seq).inner = u.inner.filter fun op => decide (op.seq ≤ seq) := by
  have := filter_killYounger seq (u.stages ++ [u.cur])
  simpa [inner, flushYounger] using this

theorem ops_flushYounger (u : FuUnit) (seq : Nat) :
    (u.flushYounger seq).ops = u.ops.filter fun op => decide (op.seq ≤ seq) := by
  have hout := filter_killYounger seq [u.out]
  rw [ops, inner_flushYounger, ops, List.filter_append]
  congr 1

theorem Wf.flushYounger (h : u.Wf) (seq : Nat) : (u.flushYounger seq).Wf := by
  -- a kill only ever clears `valid`
  have hk : ∀ op : FuOp, op.valid = false → (op.killYounger seq).valid = false := by
    intro op hop
    unfold FuOp.killYounger
    split
    · rfl
    · exact hop
  have hcur : (u.flushYounger seq).cur = u.cur.killYounger seq := rfl
  have hout : (u.flushYounger seq).out = u.out.killYounger seq := rfl
  have hkt : ∀ op : FuOp, (op.killYounger seq).valid = true → op.valid = true := by
    intro op hop
    cases hv : op.valid with
    | true => rfl
    | false => rw [hk op hv] at hop; cases hop
  refine ⟨h.latency_pos, ?_, h.inputSlot_lt, ?_, ?_, ?_⟩
  · show (u.stages.map _).length = _
    rw [List.length_map]
    exact h.length_stages
  · show u.inFlight - _ = ((u.stages.map (FuOp.killYounger seq)).filter (·.valid)).length
    rw [filter_killYounger, h.inFlight_eq]
    -- what was in flight is what is kept and what is killed
    have hsplit : ∀ l : List FuOp, (l.filter (·.valid)).length =
        ((l.filter (·.valid)).filter fun op => decide (op.seq ≤ seq)).length +
          (l.filter fun s => s.valid && decide (s.seq > seq)).length := by
      intro l
      induction l with
      | nil => rfl
      | cons a l ih =>
          by_cases hv : a.valid = true
          · by_cases hs : a.seq > seq
            · have hs' : ¬ a.seq ≤ seq := by omega
              simp [hv, hs, hs', ih, Nat.add_assoc]
            · have hs' : a.seq ≤ seq := by omega
              simp [hv, hs, hs', ih]
              omega
          · simp [hv, ih]
    have := hsplit u.stages
    omega
  · intro hp
    rw [hcur]
    exact hk _ (h.cur_invalid hp)
  · intro hp hv
    rw [hcur] at hv
    rw [hout]
    exact hk _ (h.out_free hp (hkt _ hv))

@[simp] theorem inner_dropOut (u : FuUnit) : u.dropOut.inner = u.inner := rfl

@[simp] theorem dropOut_out (u : FuUnit) : u.dropOut.out = u.out.invalidate := rfl

theorem ops_dropOut (hv : u.out.valid = true) : u.ops ~ u.out :: u.dropOut.ops := by
  have h : u.dropOut.ops = u.inner := by
    simp [ops, dropOut, FuOp.invalidate, inner]
  rw [h, ops, List.filter_cons_of_pos hv]
  exact List.perm_append_singleton _ _

theorem Wf.dropOut (h : u.Wf) : u.dropOut.Wf :=
  ⟨h.latency_pos, h.length_stages, h.inputSlot_lt, h.inFlight_eq, h.cur_invalid,
    fun _ _ => rfl⟩

/-- What a clock edge may do: the ops are kept, and a newly filled output slot is
reported. -/
def TickSpec (u : FuUnit) (r : FuUnit × Bool) : Prop :=
  r.1.Wf ∧ r.1.ops ~ u.ops ∧
    (r.2 = true → u.out.valid = false ∧ r.1.out.valid = true) ∧
    (r.2 = false → r.1.out = u.out)

theorem tickSpec_same (h : u.Wf) : TickSpec u (u, false) :=
  ⟨h, List.Perm.refl _, nofun, fun _ => rfl⟩

theorem advance_spec (h : u.Wf) (hp : u.pipelined = true) (ho : u.out.valid = false) :
    TickSpec u u.advance := by
  have hslot : (if u.inputSlot ≠ 0 then u.inputSlot - 1 else u.latency - 1) < u.latency := by
    have := h.inputSlot_lt hp
    have := h.latency_pos
    split <;> omega
  unfold advance
  dsimp only
  generalize (if u.inputSlot ≠ 0 then u.inputSlot - 1 else u.latency - 1) = s at hslot
  by_cases hl : (u.stages[s]?.getD {}).valid = true
  · rw [if_pos hl]
    have hset := @filter_set_invalid _ _ (u.stages[s]?.getD {}).invalidate hl rfl
    refine ⟨⟨h.latency_pos, ?_, fun _ => hslot, ?_, h.cur_invalid, ?_⟩, ?_,
      fun _ => ⟨ho, hl⟩, nofun⟩
    · show (u.stages.set s _).length = _
      rw [List.length_set]
      exact h.length_stages
    · show u.inFlight - 1 = ((u.stages.set s _).filter (·.valid)).length
      rw [h.inFlight_eq, hset.length_eq, List.length_cons]
      rfl
    · intro hp'
      rw [show u.pipelined = false from hp'] at hp
      cases hp
    · have hcur := h.cur_invalid hp
      simp only [ops, inner, List.filter_append]
      rw [List.filter_cons_of_pos hl, List.filter_cons_of_neg (by simp [hcur]),
        List.filter_cons_of_neg (by simp [ho])]
      simp only [List.filter_nil, List.append_nil]
      exact (List.perm_append_singleton _ _).trans hset.symm
  · rw [if_neg hl]
    exact ⟨⟨h.latency_pos, h.length_stages, fun _ => hslot, h.inFlight_eq, h.cur_invalid,
      h.out_free⟩, List.Perm.refl _, nofun, fun _ => rfl⟩

/-- A clock edge keeps the ops, and reports exactly a newly filled output slot. -/
theorem tick_spec (h : u.Wf) : TickSpec u u.tick := by
  unfold tick
  by_cases hb : u.busy = true
  · rw [if_neg (by simp [hb])]
    unfold busy at hb
    by_cases hp : u.pipelined = true
    · rw [if_pos hp]
      by_cases ho : u.out.valid = true
      · rw [if_pos ho]
        exact tickSpec_same h
      · rw [if_neg ho]
        exact advance_spec h hp (by simpa using ho)
    · rw [if_neg hp] at hb ⊢
      have hpf : u.pipelined = false := by simpa using hp
      have ho := h.out_free hpf hb
      dsimp only
      by_cases hr : u.remaining - 1 = 0
      · rw [if_pos hr]
        refine ⟨⟨h.latency_pos, h.length_stages, h.inputSlot_lt, h.inFlight_eq,
          fun _ => rfl, fun _ hv => ?_⟩, ?_, fun _ => ⟨ho, hb⟩, nofun⟩
        · cases hv
        · have hinv : u.cur.invalidate.valid = false := rfl
          simp only [ops, inner, List.filter_append]
          simp [hb, ho, hinv]
      · rw [if_neg hr]
        exact ⟨⟨h.latency_pos, h.length_stages, h.inputSlot_lt, h.inFlight_eq,
          h.cur_invalid, h.out_free⟩, List.Perm.refl _, nofun, fun _ => rfl⟩
  · rw [if_pos (by simpa using hb)]
    exact tickSpec_same h

end FuUnit

end RvO3
