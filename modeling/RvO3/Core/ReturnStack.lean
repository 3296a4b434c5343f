import RvO3.Core.FoldedHistory
import RvO3.Lib.Nested

/-!
# The return-address stack

The stack is an array of `rasSize` slots under a depth that goes on counting. A call writes the
slot of its depth; while `rasSize` or more calls are open above it, one of them has written the
same slot. A return whose call had fewer than `rasSize` open above it finds its address, whatever
was lost below.
-/

set_option autoImplicit false

namespace RvO3

namespace Predictor

/-- A predicted call with its pc, or a predicted return with the target it was given. -/
abbrev RasEvent := CallEvent Word Word

/-- What a prediction is to the stack: the kind is that of the BTB entry. -/
def rasEvent (p : Predictor) (pc : Word) : RasEvent :=
  match p.btbLookup pc with
  | none => .other
  | some i =>
      match (p.btb i).kind with
      | .CALL => .call pc
      | .RET => .ret (p.predict pc).2.target
      | .COND => .other
      | .UNCOND => .other

/-- Predictions, with training between them; no flush. -/
inductive RasRun : Predictor → List RasEvent → Predictor → Prop
  | nil (p : Predictor) : RasRun p [] p
  | predict {p q : Predictor} {s : List RasEvent} (pc : Word) : RasRun (p.predict pc).1 s q →
      RasRun p (p.rasEvent pc :: s) q
  | update {p q : Predictor} {s : List RasEvent} (pc : Word) (ins : Instr) (taken : Bool) (target : Word)
      (phtIdx : Nat) (before : Checkpoint) : RasRun (p.update pc ins taken target phtIdx before) s q →
      RasRun p s q

/-! ## One event -/

/-- What an event does to the stack. -/
structure RasStep (p : Predictor) (e : RasEvent) (q : Predictor) : Prop where
  size : q.rasSize = p.rasSize
  call : ∀ pc, e = .call pc → q.rasN = (p.rasN + 1) % 2 ^ 32 ∧
    q.ras = Function.update p.ras (p.rasN % p.rasSize) (pc + 4)
  ret : ∀ t, e = .ret t → 0 < p.rasN → q.rasN = p.rasN - 1 ∧ q.ras = p.ras ∧
    t = p.ras ((p.rasN - 1) % p.rasSize)
  other : e = .other → q.rasN = p.rasN ∧ q.ras = p.ras

theorem pushHistory_ras (p : Predictor) (taken : Bool) : (p.pushHistory taken).rasSize = p.rasSize ∧
    (p.pushHistory taken).rasN = p.rasN ∧ (p.pushHistory taken).ras = p.ras := by
  unfold pushHistory
  dsimp only
  split
  · exact ⟨rfl, rfl, rfl⟩
  · exact ⟨rfl, rfl, rfl⟩

theorem predict_rasStep (p : Predictor) (pc : Word) : RasStep p (p.rasEvent pc) (p.predict pc).1 := by
  unfold rasEvent predict
  cases p.btbLookup pc with
  | none => exact ⟨rfl, nofun, nofun, fun _ => ⟨rfl, rfl⟩⟩
  | some i =>
      dsimp only
      cases (p.btb i).kind with
      | COND =>
          obtain ⟨hsize, hn, hras⟩ := pushHistory_ras (p.btbTouch i) (if (p.btbTouch i).nTables ≠ 0 then
            ((p.btbTouch i).tageLookup pc (p.btbTouch i).histPos).pred
            else decide ((p.btbTouch i).pht (p.phtIndex pc) ≥ 2))
          exact ⟨hsize, nofun, nofun, fun _ => ⟨hn, hras⟩⟩
      | UNCOND => exact ⟨rfl, nofun, nofun, fun _ => ⟨rfl, rfl⟩⟩
      | CALL =>
          refine ⟨rfl, fun pc' he => ?_, nofun, nofun⟩
          cases he
          exact ⟨rfl, rfl⟩
      | RET =>
          dsimp only
          by_cases hpos : p.rasN > 0
          · have htouch : (p.btbTouch i).rasN > 0 := hpos
            rw [if_pos htouch]
            refine ⟨rfl, nofun, fun t he _ => ?_, nofun⟩
            cases he
            exact ⟨rfl, rfl, rfl⟩
          · have htouch : ¬ (p.btbTouch i).rasN > 0 := hpos
            rw [if_neg htouch]
            exact ⟨rfl, nofun, fun t _ h0 => absurd h0 hpos, nofun⟩

/-! ## Nested sequences -/

section Nesting

variable {p q r : Predictor} {s t w : List RasEvent} {h h' : Nat}

theorem RasRun.append (hrun : RasRun p (s ++ t) q) : ∃ r, RasRun p s r ∧ RasRun r t q := by
  generalize heq : s ++ t = st at hrun
  induction hrun generalizing s with
  | nil p =>
      obtain ⟨rfl, rfl⟩ := List.append_eq_nil_iff.mp heq
      exact ⟨p, .nil p, .nil p⟩
  | @predict p q s' pc hrun ih =>
      cases s with
      | nil =>
          rw [List.nil_append] at heq
          rw [heq]
          exact ⟨p, .nil p, hrun.predict pc⟩
      | cons e s =>
          obtain ⟨rfl, rfl⟩ := List.cons.inj heq
          obtain ⟨r, h1, h2⟩ := ih rfl
          exact ⟨r, h1.predict pc, h2⟩
  | update pc ins taken target phtIdx before _ ih =>
      obtain ⟨r, h1, h2⟩ := ih heq
      exact ⟨r, h1.update pc ins taken target phtIdx before, h2⟩

/-- The first event of a run, and the state after it. -/
theorem RasRun.first {e : RasEvent} (hrun : RasRun p (e :: s) q) : ∃ r, RasStep p e r ∧ RasRun r s q := by
  generalize heq : e :: s = es at hrun
  induction hrun with
  | nil p => cases heq
  | @predict p q s' pc hrun _ =>
      obtain ⟨rfl, rfl⟩ := List.cons.inj heq
      exact ⟨_, predict_rasStep p pc, hrun⟩
  | @update p q s' pc ins taken target phtIdx before _ ih =>
      obtain ⟨r, hstep, hrun⟩ := ih heq
      have hspec := update_speculative p pc ins taken target phtIdx before
      have hsize : (p.update pc ins taken target phtIdx before).rasSize = p.rasSize :=
        congrArg (·.history.shape.rasSize) hspec
      have hn : (p.update pc ins taken target phtIdx before).rasN = p.rasN := congrArg Speculative.rasN hspec
      have hras : (p.update pc ins taken target phtIdx before).ras = p.ras := congrArg Speculative.ras hspec
      obtain ⟨h1, h2, h3, h4⟩ := hstep
      rw [hsize] at h1 h2 h3
      rw [hn] at h2 h3 h4
      rw [hras] at h2 h3 h4
      exact ⟨r, ⟨h1, h2, h3, h4⟩, hrun⟩

theorem RasRun.size_eq (hrun : RasRun p s q) : q.rasSize = p.rasSize := by
  induction hrun with
  | nil p => rfl
  | @predict p q s pc _ ih => exact ih.trans (predict_rasStep p pc).size
  | @update p q s pc ins taken target phtIdx before _ ih =>
      exact ih.trans (congrArg (·.history.shape.rasSize)
        (update_speculative p pc ins taken target phtIdx before))

theorem RasRun.nil_eq (hrun : RasRun p [] q) : q.rasN = p.rasN ∧ q.ras = p.ras := by
  generalize heq : ([] : List RasEvent) = es at hrun
  induction hrun with
  | nil p => exact ⟨rfl, rfl⟩
  | predict pc _ _ => cases heq
  | @update p q s pc ins taken target phtIdx before _ ih =>
      have hspec := update_speculative p pc ins taken target phtIdx before
      exact ⟨(ih heq).1.trans (congrArg Speculative.rasN hspec), (ih heq).2.trans (congrArg Speculative.ras hspec)⟩

/-- The depth counts the calls that are open. -/
theorem RasRun.depth (hrun : RasRun p s q) (hlevel : ∀ u, u <+: s → 0 ≤ p.rasN + level u ∧
    p.rasN + level u < 2 ^ 32) : (q.rasN : Int) = p.rasN + level s := by
  induction s generalizing p with
  | nil => rw [hrun.nil_eq.1]; exact (Int.add_zero _).symm
  | cons e s ih =>
      obtain ⟨r, hstep, hrest⟩ := hrun.first
      have h1 := hlevel [e] (List.prefix_cons_iff.mpr (.inr ⟨[], rfl, List.nil_prefix⟩))
      have hnext : (r.rasN : Int) = p.rasN + level [e] := by
        cases e with
        | call pc =>
            have hl : level [CallEvent.call (β := Word) pc] = 1 := rfl
            rw [hl] at h1 ⊢
            rw [(hstep.call pc rfl).1, Nat.mod_eq_of_lt (by omega)]
            rfl
        | ret t =>
            have hl : level [CallEvent.ret (α := Word) t] = -1 := rfl
            rw [hl] at h1 ⊢
            rw [(hstep.ret t rfl (by omega)).1]
            omega
        | other =>
            have hl : level [CallEvent.other (α := Word) (β := Word)] = 0 := rfl
            rw [hl, (hstep.other rfl).1]
            omega
      have hcons : level (e :: s) = level [e] + level s := level_append [e] s
      rw [ih hrest (fun u hu => ?_), hnext, hcons]
      · omega
      · have h2 := hlevel (e :: u) (List.cons_prefix_cons.mpr ⟨rfl, hu⟩)
        have hu' : level (e :: u) = level [e] + level u := level_append [e] u
        omega

/-- A nested sequence leaves the depth, and writes only the slots of its own height. -/
theorem nested_ras (hs : Nested s h) : ∀ {p q : Predictor}, RasRun p s q → p.rasN + h < 2 ^ 32 →
    q.rasN = p.rasN ∧ ∀ x, (∀ j < h, x ≠ (p.rasN + j) % p.rasSize) → q.ras x = p.ras x := by
  induction hs with
  | empty =>
      intro p q hrun _
      obtain ⟨hn, hras⟩ := hrun.nil_eq
      exact ⟨hn, fun x _ => congrFun hras x⟩
  | skip _ ih =>
      intro p q hrun hlt
      obtain ⟨r, hstep, hrest⟩ := hrun.first
      obtain ⟨hn, hras⟩ := hstep.other rfl
      obtain ⟨hn', hkeep⟩ := ih hrest (by rw [hn]; exact hlt)
      rw [hn, hstep.size, hras] at hkeep
      exact ⟨hn'.trans hn, hkeep⟩
  | @enclose w s h h' pc t _ _ ihw ihs =>
      intro p q hrun hlt
      have hle1 : h + 1 ≤ max (h + 1) h' := Nat.le_max_left _ _
      have hle2 : h' ≤ max (h + 1) h' := Nat.le_max_right _ _
      -- the call, what it encloses, the return, and what follows
      obtain ⟨r1, hcall, hrun⟩ := hrun.first
      obtain ⟨r2, hbody, hrun⟩ := hrun.append
      obtain ⟨r3, hret, hrest⟩ := hrun.first
      obtain ⟨hn1, hras1⟩ := hcall.call pc rfl
      rw [Nat.mod_eq_of_lt (by omega)] at hn1
      obtain ⟨hn2, hkeep2⟩ := ihw hbody (by omega)
      obtain ⟨hn3, hras3, -⟩ := hret.ret t rfl (by omega)
      have hn : r3.rasN = p.rasN := by omega
      obtain ⟨hn4, hkeep4⟩ := ihs hrest (by omega)
      have hsize3 : r3.rasSize = p.rasSize := hret.size.trans (hbody.size_eq.trans hcall.size)
      refine ⟨hn4.trans hn, fun x hx => ?_⟩
      have hfirst : x ≠ p.rasN % p.rasSize := hx 0 (by omega)
      rw [hkeep4 x (fun j hj => by rw [hn, hsize3]; exact hx j (by omega)), hras3,
        hkeep2 x (fun j hj => ?_), hras1, Function.update_of_ne hfirst]
      rw [hn1, hcall.size, Nat.add_assoc, Nat.add_comm 1 j]
      exact hx (j + 1) (by omega)

/-- A return whose call had fewer than `rasSize` open above it gets the address after the call. -/
theorem return_target {pc target : Word} (hw : Nested w h)
    (hrun : RasRun p (.call pc :: (w ++ .ret target :: t)) q) (hlt : p.rasN + 1 + h < 2 ^ 32)
    (hsize : h < p.rasSize) : target = pc + 4 := by
  obtain ⟨r1, hcall, hrun⟩ := hrun.first
  obtain ⟨r2, hbody, hrun⟩ := hrun.append
  obtain ⟨r3, hret, -⟩ := hrun.first
  obtain ⟨hn1, hras1⟩ := hcall.call pc rfl
  rw [Nat.mod_eq_of_lt (by omega)] at hn1
  obtain ⟨hn2, hkeep⟩ := nested_ras hw hbody (by omega)
  obtain ⟨-, -, htarget⟩ := hret.ret target rfl (by omega)
  have hslot : (r2.rasN - 1) % r2.rasSize = p.rasN % p.rasSize := by
    rw [hn2, hn1, Nat.add_sub_cancel, hbody.size_eq, hcall.size]
  rw [htarget, hslot, hkeep _ (fun j hj => ?_), hras1, Function.update_self]
  rw [hn1, hcall.size, Nat.add_assoc]
  exact (mod_ne_of_lt (by omega) (by omega)).symm

/-- In a well-nested sequence every return has its call, a return gets the address after its call
when fewer than `rasSize` calls were open above that one, and no return is wrong while at most
`rasSize` calls are open at once. Training between the predictions changes nothing of this. -/
theorem returns_predicted (hs : Nested s h) (hrun : RasRun p s q) (hdeep : p.rasN + h < 2 ^ 32) :
    (∀ u pc w h' target v, s = u ++ .call pc :: (w ++ .ret target :: v) → Nested w h' → h' < p.rasSize →
      target = pc + 4) ∧
    (∀ u target v, s = u ++ .ret target :: v →
      ∃ u' pc w h', u = u' ++ .call pc :: w ∧ Nested w h' ∧ (h' < p.rasSize → target = pc + 4) ∧
        (h ≤ p.rasSize → target = pc + 4)) := by
  have hmatched : ∀ u pc w h' target v, s = u ++ .call pc :: (w ++ .ret target :: v) → Nested w h' →
      h' < p.rasSize → target = pc + 4 := by
    intro u pc w h' target v heq hw hlt
    obtain ⟨hpos, hheight⟩ := hs.height_le hw heq
    rw [heq] at hrun
    obtain ⟨r, hu, hcall⟩ := hrun.append
    have hdepth := hu.depth (fun u' hu' => by
      have := hs.level_le u' (hu'.trans ⟨_, heq.symm⟩)
      omega)
    exact return_target hw hcall (by omega) (by rw [hu.size_eq]; exact hlt)
  refine ⟨hmatched, fun u target v heq => ?_⟩
  obtain ⟨u', pc, w, h', rfl, hw⟩ := hs.exists_call heq
  rw [List.append_assoc, List.cons_append] at heq
  have hheight := hs.height_le hw heq
  exact ⟨u', pc, w, h', rfl, hw, hmatched u' pc w h' target v heq hw,
    fun hle => hmatched u' pc w h' target v heq hw (by omega)⟩

end Nesting

/-- The predictions of some pcs in a row. -/
def rasEvents (p : Predictor) : List Word → List RasEvent × Predictor
  | [] => ([], p)
  | pc :: pcs => (p.rasEvent pc :: ((p.predict pc).1.rasEvents pcs).1, ((p.predict pc).1.rasEvents pcs).2)

theorem RasRun.predicts (p : Predictor) (pcs : List Word) : RasRun p (p.rasEvents pcs).1 (p.rasEvents pcs).2 := by
  induction pcs generalizing p with
  | nil => exact .nil p
  | cons pc pcs ih => exact .predict pc (ih (p.predict pc).1)

/-- A stack of two slots, and a BTB that knows three calls, each in the one before, and their returns. -/
def threeCalls : Predictor :=
  let calls := [(0x100#32, 0x208#32), (0x208, 0x310), (0x310, 0x418)].foldl
    (fun (p : Predictor) call => p.update call.1 { op := .JAL, rd := 1 } true call.2 0 {})
    (init { defaultConfig with rasEntries := 2 } fun _ => 4)
  [(0x418#32, 0x314#32), (0x314, 0x20C), (0x20C, 0x104)].foldl
    (fun p ret => p.update ret.1 { op := .JALR, rs1 := 1 } true ret.2 0 {}) calls

/-- The third call takes the slot of the first. The two inner returns find their addresses, and the outer
one does not. -/
theorem returns_predicted_overflow : ∃ q inner middle outer, RasRun threeCalls
    [.call 0x100, .call 0x208, .call 0x310, .ret inner, .ret middle, .ret outer] q ∧
    inner = 0x314 ∧ middle = 0x20C ∧ outer ≠ 0x104 := by
  obtain ⟨inner, middle, outer, hevents, houter⟩ : ∃ inner middle outer : Word,
      (threeCalls.rasEvents [0x100, 0x208, 0x310, 0x418, 0x314, 0x20C]).1 =
        [.call 0x100, .call 0x208, .call 0x310, .ret inner, .ret middle, .ret outer] ∧ outer ≠ 0x104 :=
    ⟨0x314, 0x20C, 0x314, by decide +kernel, by decide⟩
  have hrun := RasRun.predicts threeCalls [0x100, 0x208, 0x310, 0x418, 0x314, 0x20C]
  rw [hevents] at hrun
  have hinner : Nested [CallEvent.call 0x310#32, .ret inner] 1 := .enclose 0x310 inner .empty .empty
  have hmiddle : Nested [CallEvent.call 0x208#32, .call 0x310, .ret inner, .ret middle] 2 :=
    .enclose 0x208 middle hinner .empty
  have hnest : Nested [CallEvent.call 0x100#32, .call 0x208, .call 0x310, .ret inner, .ret middle, .ret outer] 3 :=
    .enclose 0x100 outer hmiddle .empty
  obtain ⟨hmatched, -⟩ := returns_predicted hnest hrun (by decide +kernel)
  refine ⟨_, inner, middle, outer, hrun, ?_, ?_, houter⟩
  · exact hmatched [.call 0x100, .call 0x208] 0x310 [] 0 inner _ rfl .empty (by decide +kernel)
  · exact hmatched [.call 0x100] 0x208 _ 1 middle [.ret outer] rfl hinner (by decide +kernel)

end Predictor

end RvO3
