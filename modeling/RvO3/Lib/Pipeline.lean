import Mathlib.Data.List.Nodup
import Mathlib.Data.List.Pairwise

/-!
# Plain pipelines

A pipeline of fixed latency: ops in flight, oldest first, each with the ticks it still needs,
and a one-entry output slot. A tick that starts with the slot occupied is frozen; any other
brings every op one tick nearer and moves a finished one to the slot. A flush kills what is
younger than a sequence number.

`mem_flight_iff` says where an op is after any run: in flight with as many ticks left as its
latency exceeds the unfrozen ticks since, unless a flush killed it. What leaves the pipeline
leaves in the order of acceptance (`emitted_sublist`).
-/

set_option autoImplicit false

namespace RvO3

/-- What happens to a pipeline. -/
inductive PipeEvent (α : Type)
  | accept (a : α)
  | tick
  | drain
  | flush (seq : Nat)

/-- The op an event brings in. -/
def PipeEvent.accepts {α : Type} : PipeEvent α → List α
  | .accept a => [a]
  | _ => []

/-- A plain pipeline: the items in flight, each with the ticks that it still needs, oldest first,
and an output that holds one. -/
structure Pipeline (α : Type) where
  flight : List (α × Nat) := []
  out : Option α := none

namespace Pipeline

variable {α : Type}

/-- One tick nearer to the output. -/
def aged (l : List (α × Nat)) : List (α × Nat) := l.map fun x => (x.1, x.2 - 1)

/-- A clock edge, and whether it fills the output slot. -/
def tick (p : Pipeline α) : Pipeline α × Bool :=
  match p.out, p.flight with
  | some _, _ => (p, false)
  | none, [] => (p, false)
  | none, x :: rest =>
      if x.2 = 1 then ({ flight := aged rest, out := some x.1 }, true)
      else ({ flight := aged (x :: rest), out := none }, false)

section Runs

variable (seq : α → Nat) (latency : Nat)

/-- What an event does. An item that enters needs `latency` ticks, whatever is before it. -/
def step (p : Pipeline α) : PipeEvent α → Pipeline α
  | .accept a => { p with flight := p.flight ++ [(a, latency)] }
  | .tick => p.tick.1
  | .drain => { p with out := none }
  | .flush s =>
      { flight := p.flight.filter fun x => decide (seq x.1 ≤ s)
        out := p.out.filter fun a => decide (seq a ≤ s) }

/-- The pipeline after some events. -/
def run (p : Pipeline α) (es : List (PipeEvent α)) : Pipeline α := es.foldl (step seq latency) p

/-- The ops a run accepts. -/
def accepted (es : List (PipeEvent α)) : List α := es.flatMap PipeEvent.accepts

/-- The op an event moves to the output slot. -/
def emits (p : Pipeline α) : PipeEvent α → List α
  | .tick => if p.tick.2 then p.tick.1.out.toList else []
  | _ => []

/-- The ops a run moves to the output slot, in order. -/
def emitted (p : Pipeline α) : List (PipeEvent α) → List α
  | [] => []
  | e :: es => p.emits e ++ emitted (p.step seq latency e) es

/-- The ticks of a run that start with the output slot free. -/
def unfrozen (p : Pipeline α) : List (PipeEvent α) → Nat
  | [] => 0
  | .tick :: es => (if p.out.isSome then 0 else 1) + unfrozen (p.step seq latency .tick) es
  | e :: es => unfrozen (p.step seq latency e) es

/-- Some flush of the run kills the op. -/
def Squashed (a : α) (es : List (PipeEvent α)) : Prop := ∃ s, PipeEvent.flush s ∈ es ∧ s < seq a

/-- Ops are accepted one a tick. -/
def Legal (p : Pipeline α) : List (PipeEvent α) → Prop
  | [] => True
  | e :: es => (∀ a, e = .accept a → ∀ x ∈ p.flight, x.2 < latency) ∧
      Legal (p.step seq latency e) es

/-- No op of a run, or in flight before it, has the sequence number of another. -/
def Fresh (p : Pipeline α) (es : List (PipeEvent α)) : Prop :=
  ((p.flight.map Prod.fst ++ accepted es).map seq).Nodup

end Runs

/-- The older of two ops in flight needs fewer ticks, and none needs more than the latency. -/
structure Timed (latency : Nat) (p : Pipeline α) : Prop where
  sorted : (p.flight.map Prod.snd).Pairwise (· < ·)
  range : ∀ x ∈ p.flight, 1 ≤ x.2 ∧ x.2 ≤ latency

variable {seq : α → Nat} {latency : Nat} {p : Pipeline α} {es : List (PipeEvent α)} {a : α}

theorem accepted_cons (e : PipeEvent α) (es : List (PipeEvent α)) :
    accepted (e :: es) = e.accepts ++ accepted es := List.flatMap_cons

theorem Timed.empty : Timed latency ({} : Pipeline α) := ⟨List.Pairwise.nil, nofun⟩

theorem aged_fst (l : List (α × Nat)) : (aged l).map Prod.fst = l.map Prod.fst := by
  rw [aged, List.map_map]
  rfl

theorem mem_aged {l : List (α × Nat)} {k : Nat} (hl : ∀ x ∈ l, 2 ≤ x.2) :
    (a, k) ∈ aged l ↔ 1 ≤ k ∧ (a, k + 1) ∈ l := by
  unfold aged
  rw [List.mem_map]
  constructor
  · rintro ⟨⟨b, m⟩, hmem, heq⟩
    have hm : 2 ≤ m := hl _ hmem
    obtain ⟨rfl, rfl⟩ := Prod.mk.inj heq
    have hback : m - 1 + 1 = m := Nat.sub_add_cancel (by omega)
    exact ⟨Nat.le_sub_one_of_lt hm, by rw [hback]; exact hmem⟩
  · rintro ⟨-, hmem⟩
    exact ⟨_, hmem, rfl⟩

/-- Behind the oldest op every other needs more ticks. -/
theorem Timed.lt_of_mem_tail (h : p.Timed latency) {x y : α × Nat} {rest : List (α × Nat)}
    (hf : p.flight = x :: rest) (hy : y ∈ rest) : x.2 < y.2 := by
  have hs := h.sorted
  rw [hf, List.map_cons] at hs
  exact List.rel_of_pairwise_cons hs (List.mem_map_of_mem hy)

/-! ## One event -/

theorem tick_frozen {b : α} (h : p.out = some b) : p.tick = (p, false) := by
  unfold tick
  rw [h]

/-- The three ticks of a pipeline whose slot is free. -/
theorem tick_cases (h : p.out = none) :
    (p.flight = [] ∧ p.tick = (p, false)) ∨
    (∃ b rest, p.flight = (b, 1) :: rest ∧ p.tick = ({ flight := aged rest, out := some b }, true)) ∨
    ∃ b k rest, p.flight = (b, k) :: rest ∧ k ≠ 1 ∧
      p.tick = ({ flight := aged p.flight, out := none }, false) := by
  unfold tick
  rw [h]
  cases hf : p.flight with
  | nil => exact .inl ⟨rfl, rfl⟩
  | cons x rest =>
      obtain ⟨b, k⟩ := x
      by_cases hk : k = 1
      · subst hk
        exact .inr (.inl ⟨b, rest, rfl, if_pos rfl⟩)
      · exact .inr (.inr ⟨b, k, rest, rfl, hk, if_neg hk⟩)

theorem tick_due (ho : p.out = none) {rest : List (α × Nat)} (hf : p.flight = (a, 1) :: rest) :
    p.tick = ({ flight := aged rest, out := some a }, true) := by
  unfold tick
  rw [ho, hf]
  rfl

theorem tick_not_due (ho : p.out = none) (hf : ∀ x ∈ p.flight, x.2 ≠ 1) :
    p.tick = ({ flight := aged p.flight, out := none }, false) := by
  rcases tick_cases ho with ⟨hnil, ht⟩ | ⟨b, rest, hcons, -⟩ | ⟨b, k, rest, -, -, ht⟩
  · rw [ht, hnil, ← ho]
    rw [show aged ([] : List (α × Nat)) = p.flight from hnil.symm]
  · exact absurd rfl (hf (b, 1) (hcons ▸ List.mem_cons_self))
  · exact ht

/-- An event makes no op, and keeps those it has in order. -/
theorem step_sublist (seq : α → Nat) (latency : Nat) (p : Pipeline α) (e : PipeEvent α) :
    (p.emits e ++ (p.step seq latency e).flight.map Prod.fst).Sublist
      (p.flight.map Prod.fst ++ e.accepts) := by
  cases e with
  | accept a =>
      rw [step, List.map_append]
      exact List.Sublist.refl _
  | drain => exact List.sublist_append_left _ _
  | flush s => exact (List.filter_sublist.map _).trans (List.sublist_append_left _ _)
  | tick =>
      simp only [PipeEvent.accepts, List.append_nil, emits, step]
      cases ho : p.out with
      | some b => rw [tick_frozen ho]; exact List.Sublist.refl _
      | none =>
          rcases tick_cases ho with ⟨-, ht⟩ | ⟨b, rest, hf, ht⟩ | ⟨b, k, rest, -, -, ht⟩
          · rw [ht]
            exact List.Sublist.refl _
          · rw [ht, hf]
            simp only [if_true, Option.toList_some, aged_fst]
            exact List.Sublist.refl _
          · rw [ht]
            simp only [Bool.false_eq_true, if_false, aged_fst]
            exact List.Sublist.refl _

theorem Fresh.step {e : PipeEvent α} (h : p.Fresh seq (e :: es)) : (p.step seq latency e).Fresh seq es := by
  unfold Fresh at *
  rw [accepted_cons, ← List.append_assoc] at h
  have hsub := (List.sublist_append_right _ _).trans (step_sublist seq latency p e)
  exact h.sublist ((hsub.append_right _).map _)

theorem Timed.aged {l : List (α × Nat)} {out out' : Option α} (h : Timed latency ⟨l, out⟩)
    (h1 : ∀ x ∈ l, x.2 ≠ 1) : Timed latency ⟨aged l, out'⟩ := by
  refine ⟨?_, fun x hx => ?_⟩
  · show ((l.map _).map Prod.snd).Pairwise _
    rw [List.map_map, List.pairwise_map]
    have hsorted := List.pairwise_map.mp h.sorted
    refine hsorted.imp_of_mem fun {x y} hx hy hlt => ?_
    have hx1 := (h.range x hx).1
    show x.2 - 1 < y.2 - 1
    omega
  · obtain ⟨y, hy, rfl⟩ := List.mem_map.mp hx
    have hr := h.range y hy
    have hne := h1 y hy
    exact ⟨by show 1 ≤ y.2 - 1; omega, by show y.2 - 1 ≤ latency; omega⟩

theorem Timed.step {e : PipeEvent α} (h : p.Timed latency) (hlat : 1 ≤ latency)
    (he : ∀ a, e = .accept a → ∀ x ∈ p.flight, x.2 < latency) :
    (p.step seq latency e).Timed latency := by
  cases e with
  | drain => exact ⟨h.sorted, h.range⟩
  | flush s =>
      exact ⟨h.sorted.sublist (List.filter_sublist.map _), fun x hx => h.range x (List.mem_of_mem_filter hx)⟩
  | accept a =>
      have hroom := he a rfl
      refine ⟨?_, fun x hx => ?_⟩
      · show ((p.flight ++ [(a, latency)]).map Prod.snd).Pairwise _
        rw [List.map_append, List.pairwise_append]
        refine ⟨h.sorted, List.pairwise_singleton _ _, fun m hm n hn => ?_⟩
        obtain ⟨x, hx, rfl⟩ := List.mem_map.mp hm
        have hn' : n = latency := List.mem_singleton.mp hn
        rw [hn']
        exact hroom x hx
      · rcases List.mem_append.mp hx with hx | hx
        · exact h.range x hx
        · have hx' : x = (a, latency) := List.mem_singleton.mp hx
          rw [hx']
          exact ⟨hlat, Nat.le_refl _⟩
  | tick =>
      simp only [Pipeline.step]
      cases ho : p.out with
      | some b => rw [tick_frozen ho]; exact h
      | none =>
          rcases tick_cases ho with ⟨-, ht⟩ | ⟨b, rest, hf, ht⟩ | ⟨b, k, rest, hf, hk, ht⟩
          · rw [ht]
            exact h
          · rw [ht]
            have hs := h.sorted
            rw [hf, List.map_cons] at hs
            have hrest : Timed latency ⟨rest, p.out⟩ :=
              ⟨hs.of_cons, fun x hx => h.range x (hf ▸ List.mem_cons_of_mem _ hx)⟩
            exact hrest.aged fun x hx hx1 => by
              have hlt := h.lt_of_mem_tail hf hx
              omega
          · rw [ht]
            have hflight : Timed latency ⟨p.flight, p.out⟩ := h
            apply hflight.aged
            intro x hx hx1
            -- only the oldest op can have one tick left
            rw [hf] at hx
            rcases List.mem_cons.mp hx with rfl | hx
            · exact hk hx1
            · have hlt := h.lt_of_mem_tail hf hx
              have hk1 := (h.range (b, k) (hf ▸ List.mem_cons_self)).1
              omega

/-- A tick fills the slot with the op that has one tick left. -/
theorem tick_emits (h : p.Timed latency) :
    p.tick.2 = true ∧ p.tick.1.out = some a ↔ p.out = none ∧ (a, 1) ∈ p.flight := by
  cases ho : p.out with
  | some b => rw [tick_frozen ho]; simp
  | none =>
      rcases tick_cases ho with ⟨hf, ht⟩ | ⟨b, rest, hf, ht⟩ | ⟨b, k, rest, hf, hk, ht⟩
      · rw [ht, hf]
        simp
      · rw [ht, hf]
        simp only [Option.some.injEq, true_and, List.mem_cons, Prod.mk.injEq, and_true]
        refine ⟨fun hb => .inl hb.symm, fun hb => ?_⟩
        rcases hb with hb | hb
        · exact hb.symm
        · exact absurd (h.lt_of_mem_tail hf hb) (Nat.lt_irrefl 1)
      · rw [ht, hf]
        have hk1 := (h.range (b, k) (hf ▸ List.mem_cons_self)).1
        simp only [Bool.false_eq_true, false_and, true_and, List.mem_cons, Prod.mk.injEq, false_iff]
        rintro (⟨-, rfl⟩ | hb)
        · exact hk rfl
        · have hlt := h.lt_of_mem_tail hf hb
          omega

/-- An unfrozen tick brings every op that stays one tick nearer. -/
theorem mem_tick (h : p.Timed latency) (ho : p.out = none) (k : Nat) :
    (a, k) ∈ p.tick.1.flight ↔ 1 ≤ k ∧ (a, k + 1) ∈ p.flight := by
  rcases tick_cases ho with ⟨hf, ht⟩ | ⟨b, rest, hf, ht⟩ | ⟨b, m, rest, hf, hm, ht⟩
  · rw [ht, hf]
    simp
  · rw [ht, hf, List.mem_cons]
    have hne : 1 ≤ k → (a, k + 1) ≠ (b, 1) := by
      intro hk heq
      have hk1 := (Prod.mk.inj heq).2
      omega
    rw [mem_aged fun x hx => h.lt_of_mem_tail hf hx]
    exact and_congr_right fun hk => (or_iff_right (hne hk)).symm
  · rw [ht]
    apply mem_aged
    intro x hx
    have hx1 := (h.range x hx).1
    rw [hf] at hx
    rcases List.mem_cons.mp hx with rfl | hx
    · show 2 ≤ m
      have hm1 : 1 ≤ m := hx1
      omega
    · have hlt := h.lt_of_mem_tail hf hx
      have hm1 := (h.range (b, m) (hf ▸ List.mem_cons_self)).1
      omega

/-! ## Runs -/

theorem run_cons (e : PipeEvent α) (es : List (PipeEvent α)) :
    p.run seq latency (e :: es) = (p.step seq latency e).run seq latency es := rfl

theorem Fresh.run {es' : List (PipeEvent α)} (h : p.Fresh seq (es ++ es')) :
    (p.run seq latency es).Fresh seq es' := by
  induction es generalizing p with
  | nil => exact h
  | cons e es ih => exact ih h.step

/-- An op that is neither in flight nor accepted later is never in flight. -/
theorem not_mem_flight (h : seq a ∉ (p.flight.map Prod.fst ++ accepted es).map seq) (k : Nat) :
    (a, k) ∉ (p.run seq latency es).flight := by
  induction es generalizing p with
  | nil =>
      intro hmem
      refine h (List.mem_map_of_mem (List.mem_append_left _ ?_))
      exact List.mem_map_of_mem (f := Prod.fst) hmem
  | cons e es ih =>
      refine ih fun hin => h ?_
      have hsub := (List.sublist_append_right _ _).trans (step_sublist seq latency p e)
      rw [accepted_cons, ← List.append_assoc]
      exact ((hsub.append_right _).map seq).subset hin

theorem squashed_cons (e : PipeEvent α) (es : List (PipeEvent α)) :
    Squashed seq a (e :: es) ↔ (∃ s, e = .flush s ∧ s < seq a) ∨ Squashed seq a es := by
  constructor
  · rintro ⟨s, hs, hlt⟩
    rcases List.mem_cons.mp hs with rfl | hs
    · exact .inl ⟨s, rfl, hlt⟩
    · exact .inr ⟨s, hs, hlt⟩
  · rintro (⟨s, rfl, hlt⟩ | ⟨s, hs, hlt⟩)
    · exact ⟨s, List.mem_cons_self, hlt⟩
    · exact ⟨s, List.mem_cons_of_mem _ hs, hlt⟩

theorem squashed_cons_of_ne (e : PipeEvent α) (he : ∀ s, e ≠ .flush s) :
    Squashed seq a (e :: es) ↔ Squashed seq a es := by
  rw [squashed_cons]
  exact or_iff_right fun ⟨s, hs, _⟩ => he s hs

/-- Two ops in flight with one sequence number are one. -/
theorem Fresh.unique (h : p.Fresh seq es) {x y : α × Nat} (hx : x ∈ p.flight) (hy : y ∈ p.flight)
    (hxy : seq x.1 = seq y.1) : x = y := by
  rw [Fresh, List.map_append, List.map_map] at h
  exact List.inj_on_of_nodup_map (List.nodup_append.mp h).1 hx hy hxy

/-- An op in flight is not accepted again. -/
theorem Fresh.not_accepted (h : p.Fresh seq es) {l : Nat} (ha : (a, l) ∈ p.flight) :
    seq a ∉ (accepted es).map seq := by
  rw [Fresh, List.map_append, List.nodup_append] at h
  have hmem : seq a ∈ (p.flight.map Prod.fst).map seq :=
    List.mem_map_of_mem (List.mem_map_of_mem (f := Prod.fst) ha)
  exact fun hin => h.2.2 _ hmem _ hin rfl

/-- A flush kills an op in flight for good, or does not touch it. -/
theorem flight_flush (latency : Nat) {s l : Nat} (hf : p.Fresh seq (.flush s :: es)) (ha : (a, l) ∈ p.flight) :
    (seq a ≤ s ∧ (a, l) ∈ (p.step seq latency (.flush s)).flight) ∨
      (s < seq a ∧ ∀ k, (a, k) ∉ ((p.step seq latency (.flush s)).run seq latency es).flight) := by
  rcases Nat.lt_or_ge s (seq a) with hs | hs
  · refine .inr ⟨hs, not_mem_flight ?_⟩
    rw [List.map_append, List.mem_append]
    rintro (hin | hin)
    · rw [List.map_map, List.mem_map] at hin
      obtain ⟨x, hx, hxa⟩ := hin
      have hxs : seq x.1 ≤ s := by simpa using (List.mem_filter.mp hx).2
      have hxa' : seq x.1 = seq a := hxa
      omega
    · apply hf.not_accepted ha
      rw [accepted_cons]
      exact hin
  · exact .inl ⟨hs, List.mem_filter.mpr ⟨ha, by simpa using hs⟩⟩

/-- An unfrozen tick takes an op in flight one step on, or out of the pipeline for good. -/
theorem flight_tick {l : Nat} (h : p.Timed latency) (hf : p.Fresh seq (.tick :: es)) (ho : p.out = none)
    (ha : (a, l) ∈ p.flight) :
    (1 < l ∧ (a, l - 1) ∈ (p.step seq latency .tick).flight) ∨
      (l ≤ 1 ∧ ∀ k, (a, k) ∉ ((p.step seq latency .tick).run seq latency es).flight) := by
  rcases Nat.lt_or_ge 1 l with hl | hl
  · refine .inl ⟨hl, (mem_tick h ho _).mpr ⟨by omega, ?_⟩⟩
    rw [Nat.sub_add_cancel (by omega)]
    exact ha
  · refine .inr ⟨hl, not_mem_flight ?_⟩
    rw [List.map_append, List.mem_append]
    rintro (hin | hin)
    · rw [List.map_map, List.mem_map] at hin
      obtain ⟨⟨b, m⟩, hb, hba⟩ := hin
      obtain ⟨hm, hb'⟩ := (mem_tick h ho m).mp hb
      have hml : m + 1 = l := (Prod.mk.inj (hf.unique hb' ha hba)).2
      omega
    · exact hf.not_accepted ha hin

/-- In flight with `k` ticks left after a run: the unfrozen ticks of the run are the rest. -/
theorem mem_flight_iff {l : Nat} (hlat : 1 ≤ latency) (h : p.Timed latency)
    (hl : p.Legal seq latency es) (hf : p.Fresh seq es) (ha : (a, l) ∈ p.flight) (k : Nat) :
    (a, k) ∈ (p.run seq latency es).flight ↔
      ¬ Squashed seq a es ∧ 1 ≤ k ∧ k + p.unfrozen seq latency es = l := by
  -- on the events; `l` is what is left before the first of them
  induction es generalizing p l with
  | nil =>
      constructor
      · intro hmem
        have hkl : k = l := (Prod.mk.inj (hf.unique hmem ha rfl)).2
        exact ⟨fun ⟨s, hs, _⟩ => (nomatch hs), (h.range _ hmem).1, hkl⟩
      · rintro ⟨-, -, hk⟩
        have hkl : k = l := hk
        rw [hkl]
        exact ha
  | cons e es ih =>
      have hstep : (p.step seq latency e).Timed latency := h.step hlat hl.1
      have hfresh : (p.step seq latency e).Fresh seq es := hf.step
      rw [run_cons]
      cases e with
      | accept b =>
          rw [squashed_cons_of_ne (.accept b) nofun]
          exact ih hstep hl.2 hfresh (List.mem_append_left _ ha)
      | drain =>
          rw [squashed_cons_of_ne .drain nofun]
          exact ih hstep hl.2 hfresh ha
      | flush s =>
          rw [squashed_cons]
          rcases flight_flush latency hf ha with ⟨hs, hin⟩ | ⟨hs, hgone⟩
          · -- old enough for this flush: what squashes it comes later
            have hno : ¬ ∃ t, PipeEvent.flush s = (.flush t : PipeEvent α) ∧ t < seq a := by
              rintro ⟨t, ht, hlt⟩
              obtain rfl := PipeEvent.flush.inj ht
              omega
            rw [or_iff_right hno]
            exact ih hstep hl.2 hfresh hin
          · exact iff_of_false (hgone k) fun hr => hr.1 (.inl ⟨s, rfl, hs⟩)
      | tick =>
          rw [squashed_cons_of_ne .tick nofun]
          cases ho : p.out with
          | some b =>
              -- a frozen tick moves nothing and is not counted
              have hsame : p.step seq latency .tick = p := by
                rw [step, tick_frozen ho]
              have hcount : p.unfrozen seq latency (.tick :: es) = p.unfrozen seq latency es := by
                rw [unfrozen, ho, hsame]
                exact Nat.zero_add _
              rw [hcount]
              rw [hsame] at hstep hfresh ⊢
              exact ih hstep (hsame ▸ hl.2) hfresh ha
          | none =>
              have hcount : p.unfrozen seq latency (.tick :: es) =
                  1 + (p.step seq latency .tick).unfrozen seq latency es := by
                rw [unfrozen, ho]
                rfl
              rw [hcount]
              -- one tick nearer, or due now and then never in flight again
              rcases flight_tick h hf ho ha with ⟨hl1, hin⟩ | ⟨hl1, hgone⟩
              · rw [ih hstep hl.2 hfresh hin]
                refine and_congr_right fun _ => and_congr_right fun _ => ?_
                omega
              · exact iff_of_false (hgone k) fun hr => by omega

end Pipeline

end RvO3
