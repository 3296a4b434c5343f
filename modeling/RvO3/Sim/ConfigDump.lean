import RvO3.Sim.ConfigFile

/-!
# Writing a configuration

`dumpConfig` of `sim/config.cpp`, and the round trip: what it writes loads back. Printing and
parsing are two switches over the kinds of knob. They agree field by field (`store_text`), each
line is taken apart into the name and the value it was made of (`applyLine_dump`), and every
line fits the buffer of the reader.
-/

set_option autoImplicit false

namespace RvO3

/-- `name = value`. -/
def dumpLine (name value : CString) : CString := name ++ " = ".toList ++ value

/-- The lines that a knob prints: `%u`, `%llu` or `%d`, or one for each mode with its value. -/
def Knob.dump (c : Settings) (k : Knob) : List CString :=
  match k.field with
  | .U32 get _ => [dumpLine k.name (Nat.toDigits 10 (get c))]
  | .U64 get _ => [dumpLine k.name (Nat.toDigits 10 (get c))]
  | .BOOL get _ => [dumpLine k.name (if get c then "1".toList else "0".toList)]
  | .MEMORD get _ => (kMemOrders.filter fun m => m.2 == get c).map fun m => dumpLine k.name m.1

/-- `dumpConfig`: one line for each knob, in the order of the table. -/
def dumpConfig (c : Settings) : List Char := unlines (kKnobs.flatMap (Knob.dump c))

/-- The value fits the type of the field. -/
def Field.Fits (c : Settings) : Field → Prop
  | .U32 get _ => get c < 2 ^ 32
  | .U64 get _ => get c < 2 ^ 64
  | .BOOL _ _ => True
  | .MEMORD _ _ => True

instance (c : Settings) : ∀ f : Field, Decidable (f.Fits c)
  | .U32 get _ => Nat.decLt (get c) (2 ^ 32)
  | .U64 get _ => Nat.decLt (get c) (2 ^ 64)
  | .BOOL _ _ => .isTrue trivial
  | .MEMORD _ _ => .isTrue trivial

/-- The settings are values of a `SimConfig`. -/
def Settings.Fits (c : Settings) : Prop := ∀ k ∈ kKnobs, k.field.Fits c

/-- One field of `c'` is set as in `c`. -/
def Field.copy (c : Settings) (f : Field) (c' : Settings) : Settings :=
  match f with
  | .U32 get set => set c' (get c)
  | .U64 get set => set c' (get c)
  | .BOOL get set => set c' (get c)
  | .MEMORD get set => set c' (get c)

/-! ## Decimal numbers -/

/-- No character that the reader treats specially. -/
def isPlain (c : Char) : Bool :=
  c != ' ' && c != '\t' && c != '\n' && c != '\r' && c != '#' && c != '=' && c != '\x00'

section Decimal

variable {n : Nat}

theorem digitChar_ten {d : Nat} (h : d < 10) :
    isDigitIn 10 d.digitChar = true ∧ digitValue d.digitChar = d ∧ isPlain d.digitChar = true := by
  revert d
  decide

theorem digitsValue_append (base : Nat) (ds : List Char) (c : Char) :
    digitsValue base (ds ++ [c]) = digitsValue base ds * base + digitValue c := by
  rw [digitsValue, List.foldl_append]
  rfl

/-- The digits that are printed are digits, and they have the value that is printed. -/
theorem toDigits_ten (n : Nat) :
    (∀ c ∈ Nat.toDigits 10 n, isDigitIn 10 c = true ∧ isPlain c = true) ∧ digitsValue 10 (Nat.toDigits 10 n) = n := by
  induction n using Nat.strong_induction_on with
  | _ n ih =>
      rw [Nat.toDigits_eq_if (by decide)]
      split
      · rename_i hlt
        obtain ⟨h1, h2, h3⟩ := digitChar_ten hlt
        refine ⟨fun c hc => ?_, ?_⟩
        · rw [List.mem_singleton.mp hc]
          exact ⟨h1, h3⟩
        · show 0 * 10 + digitValue n.digitChar = n
          omega
      · obtain ⟨h1, h2, h3⟩ := digitChar_ten (Nat.mod_lt n (show 10 > 0 by decide))
        obtain ⟨hmem, hval⟩ := ih (n / 10) (by omega)
        refine ⟨fun c hc => ?_, ?_⟩
        · rcases List.mem_append.mp hc with hc | hc
          · exact hmem c hc
          · rw [List.mem_singleton.mp hc]
            exact ⟨h1, h3⟩
        · rw [digitsValue_append, hval, h2]
          omega

/-- A number other than 0 does not start with the digit `0`. -/
theorem toDigits_head (hn : n ≠ 0) : (Nat.toDigits 10 n).head? ≠ some '0' := by
  induction n using Nat.strong_induction_on with
  | _ n ih =>
      rw [Nat.toDigits_eq_if (by decide)]
      split
      · -- a single digit, and not 0
        rw [List.head?_cons]
        intro h
        exact hn (Nat.digitChar_eq_zero.mp (Option.some.inj h))
      · rw [List.head?_append_of_ne_nil _ Nat.toDigits_ne_nil]
        exact ih (n / 10) (by omega) (by omega)

theorem magnitude_toDigits (n : Nat) : Magnitude (Nat.toDigits 10 n) n := by
  by_cases hn : n = 0
  · subst hn
    -- `0` alone is an octal constant
    exact .octal nofun
  · have h := Magnitude.decimal ⟨Nat.toDigits_ne_nil, fun c hc => ((toDigits_ten n).1 c hc).1⟩ (toDigits_head hn)
    rwa [(toDigits_ten n).2] at h

/-- The number that is printed is parsed again. -/
theorem parseNum_toDigits (hn : n < 2 ^ 64) : parseNum (Nat.toDigits 10 n) = some n := by
  rw [parseNum_iff]
  refine ⟨false, n, 0, ⟨⟨[], ⟨[], [], _, by simp, nofun, .none, magnitude_toDigits n⟩, .none⟩⟩, ?_⟩
  rw [machineValue, toUnsigned, if_pos hn, if_neg Bool.false_ne_true, Nat.pow_zero, Nat.mul_one,
    Nat.mod_eq_of_lt hn]

end Decimal

/-! ## One line -/

/-- A nonempty text without special characters. -/
structure PlainText (s : CString) : Prop where
  nonempty : s ≠ []
  plain : ∀ c ∈ s, isPlain c = true

section Line

variable {c c' : Settings} {k : Knob} {name value : CString}

/-- The value that a knob prints. -/
structure Printed (c : Settings) (f : Field) (value : CString) : Prop where
  text : PlainText value
  short : value.length ≤ 20
  store : ∀ c', f.store c' value = some (f.copy c c')

theorem printed_number (n : Nat) (hn : n < 2 ^ 64) :
    PlainText (Nat.toDigits 10 n) ∧ (Nat.toDigits 10 n).length ≤ 20 := by
  refine ⟨⟨Nat.toDigits_ne_nil, fun c hc => ((toDigits_ten n).1 c hc).2⟩, ?_⟩
  rw [Nat.length_toDigits_le_iff (by decide) (by decide)]
  exact Nat.lt_trans hn (by decide)

/-- Each knob prints one line, and its value is stored again. -/
theorem Knob.dump_printed (hk : k ∈ kKnobs) (hfits : c.Fits) :
    ∃ value, k.dump c = [dumpLine k.name value] ∧ Printed c k.field value := by
  have hrange := hfits k hk
  unfold Knob.dump
  cases hf : k.field with
  | U32 get set =>
      rw [hf] at hrange
      have hlt : get c < 2 ^ 32 := hrange
      obtain ⟨hplain, hshort⟩ := printed_number (get c) (by omega)
      refine ⟨_, rfl, hplain, hshort, fun c' => ?_⟩
      unfold Field.store
      dsimp only
      rw [parseNum_toDigits (by omega)]
      exact if_neg (by omega)
  | U64 get set =>
      rw [hf] at hrange
      obtain ⟨hplain, hshort⟩ := printed_number (get c) hrange
      refine ⟨_, rfl, hplain, hshort, fun c' => ?_⟩
      unfold Field.store
      dsimp only
      rw [parseNum_toDigits hrange]
      rfl
  | BOOL get set =>
      refine ⟨_, rfl, ?_⟩
      -- both texts are among those that the parser knows
      cases hb : get c with
      | false =>
          refine ⟨⟨by decide, List.all_eq_true.mp rfl⟩, by decide, fun c' => ?_⟩
          rw [Field.copy, hb]
          rfl
      | true =>
          refine ⟨⟨by decide, List.all_eq_true.mp rfl⟩, by decide, fun c' => ?_⟩
          rw [Field.copy, hb]
          rfl
  | MEMORD get set =>
      -- the name printed for a mode is the one that the parser finds for it
      have hmode : ∀ m : MemOrder, ∃ value, kMemOrders.filter (fun m' => m'.2 == m) = [(value, m)] ∧
          PlainText value ∧ value.length ≤ 20 ∧ (kMemOrders.find? fun m' => m'.1 == value) = some (value, m) := by
        intro m
        cases m <;> exact ⟨_, rfl, ⟨by decide, List.all_eq_true.mp rfl⟩, by decide, rfl⟩
      obtain ⟨value, hfilter, hplain, hshort, hfind⟩ := hmode (get c)
      refine ⟨value, ?_, hplain, hshort, fun c' => ?_⟩
      · dsimp only
        rw [hfilter]
        rfl
      · unfold Field.store
        dsimp only
        rw [hfind]
        rfl

/-- Blanks around a text that starts and ends with other characters. -/
theorem trim_pad {a s b : CString} {x y : Char} {t u : CString} (ha : ∀ c ∈ a, c = ' ') (hb : ∀ c ∈ b, c = ' ')
    (hx : s = x :: t) (hy : s = u ++ [y]) (hxp : isPlain x = true) (hyp : isPlain y = true) :
    trim (a ++ s ++ b) = s := by
  have hfront : (x == ' ' || x == '\t') = false := by
    unfold isPlain at hxp
    simp only [Bool.and_eq_true, bne_iff_ne] at hxp
    simp [hxp]
  have hback : ¬ (y == ' ' || y == '\t' || y == '\n' || y == '\r') = true := by
    unfold isPlain at hyp
    simp only [Bool.and_eq_true, bne_iff_ne] at hyp
    simp [hyp]
  have hdrop : (a ++ s ++ b).dropWhile (fun c => c == ' ' || c == '\t') = s ++ b := by
    rw [List.append_assoc, List.dropWhile_append_of_pos, hx, List.cons_append, List.dropWhile_cons, hfront]
    · rfl
    · intro c hc
      rw [ha c hc]
      rfl
  unfold trim
  rw [hdrop]
  -- the blanks behind come off one at a time
  induction b using List.reverseRecOn with
  | nil =>
      rw [List.append_nil, hy]
      exact List.rdropWhile_concat_neg _ _ _ hback
  | append_singleton b c ih =>
      have hc : c = ' ' := hb c (List.mem_append_right _ List.mem_cons_self)
      subst hc
      rw [← List.append_assoc, List.rdropWhile_concat_pos _ _ _ rfl]
      apply ih fun c h => hb c (List.mem_append_left _ h)
      rw [List.append_assoc, List.dropWhile_append_of_pos, hx, List.cons_append, List.dropWhile_cons, hfront]
      · rfl
      · intro c hc
        rw [ha c hc]
        rfl

theorem PlainText.ends {s : CString} (h : PlainText s) :
    (∃ x t, s = x :: t ∧ isPlain x = true) ∧ ∃ t y, s = t ++ [y] ∧ isPlain y = true := by
  constructor
  · obtain ⟨x, t, rfl⟩ := List.exists_cons_of_ne_nil h.nonempty
    exact ⟨x, t, rfl, h.plain x List.mem_cons_self⟩
  · obtain ⟨t, y, rfl⟩ := (List.eq_nil_or_concat' s).resolve_left h.nonempty
    exact ⟨t, y, rfl, h.plain y (List.mem_append_right _ List.mem_cons_self)⟩

theorem knobs_plain : ∀ k ∈ kKnobs, PlainText k.name ∧ k.name.length ≤ 16 := by
  have h : ∀ k ∈ kKnobs, k.name ≠ [] ∧ k.name.all isPlain = true ∧ k.name.length ≤ 16 := by decide +kernel
  exact fun k hk => ⟨⟨(h k hk).1, List.all_eq_true.mp (h k hk).2.1⟩, (h k hk).2.2⟩

/-- No character of a printed line ends it or starts a comment. -/
theorem dumpLine_mem (hn : PlainText name) (hv : PlainText value) {ch : Char} (h : ch ∈ dumpLine name value) :
    ch ≠ '\n' ∧ ch ≠ '#' ∧ ch ≠ '\x00' := by
  have hplain : isPlain ch = true → ch ≠ '\n' ∧ ch ≠ '#' ∧ ch ≠ '\x00' := by
    intro hp
    unfold isPlain at hp
    simp only [Bool.and_eq_true, bne_iff_ne] at hp
    exact ⟨hp.1.1.1.1.2, hp.1.1.2, hp.2⟩
  rcases List.mem_append.mp h with h | h
  · rcases List.mem_append.mp h with h | h
    · exact hplain (hn.plain ch h)
    · have heq : (" = ".toList.all fun ch => decide (ch ≠ '\n' ∧ ch ≠ '#' ∧ ch ≠ '\x00')) = true := rfl
      exact of_decide_eq_true (List.all_eq_true.mp heq ch h)
  · exact hplain (hv.plain ch h)

/-- A printed line sets the knob it names to the value it shows. -/
theorem applyLine_dump {n : Nat} (hn : PlainText name) (hv : PlainText value) :
    applyLine c' n (dumpLine name value) = setKnob c' name value (.line n) := by
  obtain ⟨⟨x, t, hx, hxp⟩, ⟨t', y', hy', hyp'⟩⟩ := hn.ends
  obtain ⟨⟨x', u, hx', hxp'⟩, ⟨u', y, hy, hyp⟩⟩ := hv.ends
  -- no comment is cut off, and no blank is trimmed
  have hcut : (dumpLine name value).takeWhile (fun c => c != '#') = dumpLine name value := by
    rw [List.takeWhile_eq_self_iff]
    intro ch hch
    rw [bne_iff_ne]
    exact (dumpLine_mem hn hv hch).2.1
  have hwhole : trim (dumpLine name value) = dumpLine name value := by
    have h := trim_pad (a := []) (b := []) (s := dumpLine name value) (x := x) (y := y)
      (t := t ++ " = ".toList ++ value) (u := name ++ " = ".toList ++ u') nofun nofun ?_ ?_ hxp hyp
    · rwa [List.nil_append, List.append_nil] at h
    · rw [dumpLine, hx]
      rfl
    · rw [dumpLine, List.append_assoc _ u', ← hy]
  -- the first `=` of the line is the one after the name
  have hname : ∀ ch ∈ name ++ [' '], (ch != '=') = true := by
    intro ch hch
    rcases List.mem_append.mp hch with h | h
    · have hp := hn.plain ch h
      unfold isPlain at hp
      simp only [Bool.and_eq_true] at hp
      exact hp.1.2
    · rw [List.mem_singleton.mp h]
      rfl
  have hsplit : dumpLine name value = (name ++ [' ']) ++ '=' :: ([' '] ++ value) := by
    rw [dumpLine, List.append_assoc, List.append_assoc]
    rfl
  have hne : dumpLine name value ≠ [] := by
    rw [hsplit]
    simp
  unfold applyLine
  dsimp only
  rw [hcut, hwhole, if_neg hne, hsplit, List.dropWhile_append_of_pos hname, List.takeWhile_append_of_pos hname]
  show setKnob c' (trim (name ++ [' '] ++ [])) (trim ([' '] ++ value)) _ = _
  have hkey := trim_pad (a := []) (b := [' ']) (s := name) nofun (by simp) hx hy' hxp hyp'
  have hval := trim_pad (a := [' ']) (b := []) (s := value) (by simp) nofun hx' hy hxp' hyp
  rw [List.nil_append] at hkey
  rw [List.append_nil] at hval
  rw [List.append_nil, hkey, hval]

end Line

/-! ## The round trip -/

section RoundTrip

variable {c c₀ : Settings}

/-- Loading the lines of some knobs sets their fields. -/
theorem applyLines_dump (hfits : c.Fits) (ks : List Knob) (hks : ∀ k ∈ ks, k ∈ kKnobs) (c' : Settings) (n : Nat) :
    applyLines c' n (ks.flatMap (Knob.dump c) ++ [[]]) = .ok (ks.foldl (fun c' k => k.field.copy c c') c') := by
  induction ks generalizing c' n with
  | nil => rfl
  | cons k ks ih =>
      have hk := hks k List.mem_cons_self
      obtain ⟨value, hdump, hprint⟩ := k.dump_printed hk hfits
      have hset : applyLine c' (n + 1) (dumpLine k.name value) = .ok (k.field.copy c c') := by
        rw [applyLine_dump (knobs_plain k hk).1 hprint.text, setKnob_name hk, hprint.store c']
      -- one knob is one line, and the rest is loaded after it
      rw [List.flatMap_cons, hdump, List.singleton_append, List.cons_append, applyLines_cons, hset]
      exact ih (fun k' h => hks k' (List.mem_cons_of_mem _ h)) _ _

/-- Every field but three belongs to a knob. -/
theorem copy_all (c c₀ : Settings) : kKnobs.foldl (fun c' k => k.field.copy c c') c₀ =
    { c with trace := c₀.trace, dumpRegs := c₀.dumpRegs, diffCheck := c₀.diffCheck } := by
  cases c₀
  simp only [kKnobs, List.foldl_cons, List.foldl_nil, Field.copy]

/-- What is written fits the buffer line by line. -/
theorem dump_readsLines {ls : List CString} (h : ∀ l ∈ ls, l.length ≤ 254) : ReadsLines (ls ++ [[]]) := by
  induction ls with
  | nil => exact .inl (Nat.zero_le 255)
  | cons l ls ih =>
      have hrest := ih fun l' h' => h l' (List.mem_cons_of_mem _ h')
      obtain ⟨l', ls', hls⟩ := List.exists_cons_of_ne_nil (show ls ++ [[]] ≠ [] by simp)
      rw [hls] at hrest
      rw [List.cons_append, hls]
      exact .inl ⟨h l List.mem_cons_self, .inr hrest⟩

/-- What `dumpConfig` writes loads back: into any settings, and with no effect on the fields that
are no knobs. Every knob is written and read by the same table. -/
theorem loadConfigFile_dumpConfig (hfits : c.Fits) (c₀ : Settings) :
    loadConfigFile c₀ (dumpConfig c) =
      .ok { c with trace := c₀.trace, dumpRegs := c₀.dumpRegs, diffCheck := c₀.diffCheck } := by
  have hline : ∀ l ∈ kKnobs.flatMap (Knob.dump c), (∀ ch ∈ l, ch ≠ '\n' ∧ ch ≠ '#' ∧ ch ≠ '\x00') ∧ l.length ≤ 254 := by
    intro l hl
    obtain ⟨k, hk, hl⟩ := List.mem_flatMap.mp hl
    obtain ⟨value, hdump, hprint⟩ := k.dump_printed hk hfits
    rw [hdump, List.mem_singleton] at hl
    subst hl
    obtain ⟨hname, hlen⟩ := knobs_plain k hk
    refine ⟨fun ch hch => dumpLine_mem hname hprint.text hch, ?_⟩
    have hshort := hprint.short
    rw [dumpLine, List.length_append, List.length_append]
    show k.name.length + 3 + value.length ≤ 254
    omega
  have hsplit : (dumpConfig c).splitOn '\n' = kKnobs.flatMap (Knob.dump c) ++ [[]] := by
    have h := splitOn_unlines (fun l hl hmem => ((hline l hl).1 _ hmem).1 rfl) []
    rwa [List.append_nil] at h
  have hnul : '\x00' ∉ dumpConfig c := by
    intro hmem
    obtain ⟨l, hl, hmem⟩ := List.mem_flatMap.mp hmem
    rcases List.mem_append.mp hmem with h | h
    · exact ((hline l hl).1 _ h).2.2 rfl
    · exact absurd h (by decide)
  -- so the file has the effect of its lines
  have hsame := loadLoop_sameEffect (c := c₀) (n := 0) hnul (by
    rw [hsplit]
    exact dump_readsLines fun l hl => (hline l hl).2)
  rw [hsplit, applyLines_dump hfits kKnobs (fun k hk => hk), copy_all] at hsame
  -- an effect without a fatal error is the settings themselves
  rw [loadConfigFile]
  cases hload : loadLoop c₀ 0 (dumpConfig c) with
  | error e =>
      rw [hload] at hsame
      exact absurd hsame not_sameEffect_ok
  | ok c' =>
      rw [hload] at hsame
      exact congrArg Except.ok (Except.ok.inj hsame)

/-- The shipped machine, loaded over a traced run. -/
theorem loadConfigFile_dumpConfig_default :
    loadConfigFile { trace := true, robSize := 8 } (dumpConfig {}) = .ok { trace := true } :=
  loadConfigFile_dumpConfig (c := {}) (by unfold Settings.Fits; decide +kernel) { trace := true, robSize := 8 }

end RoundTrip

end RvO3
