import RvO3.Lib.Numerals
import RvO3.Sim.Config

/-!
# Named knobs

The first half of `sim/config.cpp`: the table of knobs, the parser of their numbers and
`setKnob`. `offsetof` is modelled as the pair of functions that read and write the field.

A number is exact or the run ends, with the exceptions that `Slips` describes: `strtoull`
negates a number with a minus sign, saturates, and the shift of a suffix drops bits; only the
32-bit knobs look at the range, and only afterwards.
-/

set_option autoImplicit false

namespace RvO3

/-- A C string, without its terminator. -/
abbrev CString := List Char

/-- The whole of `SimConfig`: the machine, and the fields that only the driver reads. -/
structure Settings extends SimConfig where
  maxCycles : Nat := 10000000
  trace : Bool := false
  dumpRegs : Bool := false
  diffCheck : Bool := false
  deriving DecidableEq, Repr

/-! ## The table -/

/-- A field of `Settings`, by its `Kind`. -/
inductive Field where
  | U32 (get : Settings → Nat) (set : Settings → Nat → Settings)
  | U64 (get : Settings → Nat) (set : Settings → Nat → Settings)
  | BOOL (get : Settings → Bool) (set : Settings → Bool → Settings)
  | MEMORD (get : Settings → MemOrder) (set : Settings → MemOrder → Settings)

/-- A knob: its name, and the field that it sets. -/
structure Knob where
  name : CString
  field : Field

/-- The table of the knobs, in the source's order. Reading and writing both go through it. -/
def kKnobs : List Knob := [
  ⟨"memBytes".toList, .U64 (·.memBytes) fun c v => { c with memBytes := v }⟩,
  ⟨"maxCycles".toList, .U64 (·.maxCycles) fun c v => { c with maxCycles := v }⟩,
  ⟨"flatMemory".toList, .BOOL (·.flatMemory) fun c v => { c with flatMemory := v }⟩,
  ⟨"flatLatency".toList, .U32 (·.flatLatency) fun c v => { c with flatLatency := v }⟩,
  ⟨"dramLatency".toList, .U32 (·.dramLatency) fun c v => { c with dramLatency := v }⟩,
  ⟨"l1i.size".toList, .U32 (·.l1i.sizeBytes) fun c v => { c with l1i.sizeBytes := v }⟩,
  ⟨"l1i.ways".toList, .U32 (·.l1i.ways) fun c v => { c with l1i.ways := v }⟩,
  ⟨"l1i.line".toList, .U32 (·.l1i.lineBytes) fun c v => { c with l1i.lineBytes := v }⟩,
  ⟨"l1i.latency".toList, .U32 (·.l1i.hitLatency) fun c v => { c with l1i.hitLatency := v }⟩,
  ⟨"l1i.mshrs".toList, .U32 (·.l1i.mshrs) fun c v => { c with l1i.mshrs := v }⟩,
  ⟨"l1i.wbq".toList, .U32 (·.l1i.wbq) fun c v => { c with l1i.wbq := v }⟩,
  ⟨"l1d.size".toList, .U32 (·.l1d.sizeBytes) fun c v => { c with l1d.sizeBytes := v }⟩,
  ⟨"l1d.ways".toList, .U32 (·.l1d.ways) fun c v => { c with l1d.ways := v }⟩,
  ⟨"l1d.line".toList, .U32 (·.l1d.lineBytes) fun c v => { c with l1d.lineBytes := v }⟩,
  ⟨"l1d.latency".toList, .U32 (·.l1d.hitLatency) fun c v => { c with l1d.hitLatency := v }⟩,
  ⟨"l1d.mshrs".toList, .U32 (·.l1d.mshrs) fun c v => { c with l1d.mshrs := v }⟩,
  ⟨"l1d.wbq".toList, .U32 (·.l1d.wbq) fun c v => { c with l1d.wbq := v }⟩,
  ⟨"l2.size".toList, .U32 (·.l2.sizeBytes) fun c v => { c with l2.sizeBytes := v }⟩,
  ⟨"l2.ways".toList, .U32 (·.l2.ways) fun c v => { c with l2.ways := v }⟩,
  ⟨"l2.line".toList, .U32 (·.l2.lineBytes) fun c v => { c with l2.lineBytes := v }⟩,
  ⟨"l2.latency".toList, .U32 (·.l2.hitLatency) fun c v => { c with l2.hitLatency := v }⟩,
  ⟨"l2.mshrs".toList, .U32 (·.l2.mshrs) fun c v => { c with l2.mshrs := v }⟩,
  ⟨"l2.wbq".toList, .U32 (·.l2.wbq) fun c v => { c with l2.wbq := v }⟩,
  ⟨"aluCount".toList, .U32 (·.aluCount) fun c v => { c with aluCount := v }⟩,
  ⟨"aguCount".toList, .U32 (·.aguCount) fun c v => { c with aguCount := v }⟩,
  ⟨"dataPorts".toList, .U32 (·.dataPorts) fun c v => { c with dataPorts := v }⟩,
  ⟨"mulLatency".toList, .U32 (·.mulLatency) fun c v => { c with mulLatency := v }⟩,
  ⟨"mulPipelined".toList, .BOOL (·.mulPipelined) fun c v => { c with mulPipelined := v }⟩,
  ⟨"divLatency".toList, .U32 (·.divLatency) fun c v => { c with divLatency := v }⟩,
  ⟨"wbPorts".toList, .U32 (·.wbPorts) fun c v => { c with wbPorts := v }⟩,
  ⟨"width".toList, .U32 (·.width) fun c v => { c with width := v }⟩,
  ⟨"robSize".toList, .U32 (·.robSize) fun c v => { c with robSize := v }⟩,
  ⟨"iqSize".toList, .U32 (·.iqSize) fun c v => { c with iqSize := v }⟩,
  ⟨"lsqSize".toList, .U32 (·.lsqSize) fun c v => { c with lsqSize := v }⟩,
  ⟨"sbSize".toList, .U32 (·.sbSize) fun c v => { c with sbSize := v }⟩,
  ⟨"physRegs".toList, .U32 (·.physRegs) fun c v => { c with physRegs := v }⟩,
  ⟨"fetchQSize".toList, .U32 (·.fetchQSize) fun c v => { c with fetchQSize := v }⟩,
  ⟨"fetchBytes".toList, .U32 (·.fetchBytes) fun c v => { c with fetchBytes := v }⟩,
  ⟨"usePredictor".toList, .BOOL (·.usePredictor) fun c v => { c with usePredictor := v }⟩,
  ⟨"memOrder".toList, .MEMORD (·.memOrder) fun c v => { c with memOrder := v }⟩,
  ⟨"depPredictor".toList, .BOOL (·.depPredictor) fun c v => { c with depPredictor := v }⟩,
  ⟨"depTableSize".toList, .U32 (·.depTableSize) fun c v => { c with depTableSize := v }⟩,
  ⟨"phtBits".toList, .U32 (·.phtBits) fun c v => { c with phtBits := v }⟩,
  ⟨"ghrBits".toList, .U32 (·.ghrBits) fun c v => { c with ghrBits := v }⟩,
  ⟨"btbEntries".toList, .U32 (·.btbEntries) fun c v => { c with btbEntries := v }⟩,
  ⟨"btbWays".toList, .U32 (·.btbWays) fun c v => { c with btbWays := v }⟩,
  ⟨"rasEntries".toList, .U32 (·.rasEntries) fun c v => { c with rasEntries := v }⟩,
  ⟨"rasRepair".toList, .BOOL (·.rasRepair) fun c v => { c with rasRepair := v }⟩,
  ⟨"tageTables".toList, .U32 (·.tageTables) fun c v => { c with tageTables := v }⟩,
  ⟨"tageTableBits".toList, .U32 (·.tageTableBits) fun c v => { c with tageTableBits := v }⟩,
  ⟨"tageTagBits".toList, .U32 (·.tageTagBits) fun c v => { c with tageTagBits := v }⟩,
  ⟨"tageMinHist".toList, .U32 (·.tageMinHist) fun c v => { c with tageMinHist := v }⟩,
  ⟨"tageMaxHist".toList, .U32 (·.tageMaxHist) fun c v => { c with tageMaxHist := v }⟩]

/-- The names of the memory orders. -/
def kMemOrders : List (CString × MemOrder) :=
  [("conservative".toList, .Conservative), ("bypass".toList, .Bypass),
    ("speculative".toList, .Speculative)]

/-! ## Setting a knob -/

/-- Where a setting stands: a line of the config file, or an override. -/
inductive Where where
  | line (lineno : Nat)
  | override
  deriving DecidableEq, Repr

/-- A fatal error of the knob interface: `fatal: where: what 'detail'`. -/
structure KnobFail where
  loc : Where
  what : String
  detail : CString
  deriving DecidableEq, Repr

/-- `k/K` multiplies by 1024 and `m/M` by 1048576; the shift is one of 64-bit integers. -/
def applySuffix (v : Nat) : List Char → Nat × List Char
  | 'k' :: e => ((v <<< 10) % 2 ^ 64, e)
  | 'K' :: e => ((v <<< 10) % 2 ^ 64, e)
  | 'm' :: e => ((v <<< 20) % 2 ^ 64, e)
  | 'M' :: e => ((v <<< 20) % 2 ^ 64, e)
  | e => (v, e)

/-- The 64-bit number of a text that is a number and nothing else. -/
def parseNum (s : CString) : Option Nat :=
  match strtoul 64 0 s with
  | none => none
  | some (v, e) =>
      let (v, e) := applySuffix v e
      if e = [] then some v else none

/-- The `switch` over the kinds: the new settings, or a bad value. -/
def Field.store (f : Field) (c : Settings) (val : CString) : Option Settings :=
  match f with
  | .U32 _ set =>
      match parseNum val with
      | some n => if n > 2 ^ 32 - 1 then none else some (set c n)
      | none => none
  | .U64 _ set => (parseNum val).map (set c)
  | .BOOL _ set =>
      if val = "1".toList ∨ val = "true".toList then some (set c true)
      else if val = "0".toList ∨ val = "false".toList then some (set c false)
      else none
  | .MEMORD _ set => (kMemOrders.find? fun m => m.1 == val).map fun m => set c m.2

/-- `setKnob`: the knob of this name stores the value, or the error says where it stood. -/
def setKnob (c : Settings) (key val : CString) (loc : Where) : Except KnobFail Settings :=
  match kKnobs.find? fun k => k.name == key with
  | some k =>
      match k.field.store c val with
      | some c' => .ok c'
      | none => .error ⟨loc, "bad value for", key⟩
  | none => .error ⟨loc, "unknown knob", key⟩

/-! ### The table is sound -/

/-- What is written to a field is read back. -/
def Field.Lawful : Field → Prop
  | .U32 get set => ∀ c v, get (set c v) = v
  | .U64 get set => ∀ c v, get (set c v) = v
  | .BOOL get set => ∀ c v, get (set c v) = v
  | .MEMORD get set => ∀ c v, get (set c v) = v

theorem knobs_lawful : ∀ k ∈ kKnobs, k.field.Lawful := by
  simp [kKnobs, Field.Lawful]

theorem knobs_nodup : (kKnobs.map Knob.name).Nodup := by decide +kernel

/-- A knob is found by its name. -/
theorem find_knob {k : Knob} (hk : k ∈ kKnobs) : kKnobs.find? (fun k' => k'.name == k.name) = some k := by
  have hfind : ∀ ks : List Knob, (ks.map Knob.name).Nodup → k ∈ ks →
      ks.find? (fun k' => k'.name == k.name) = some k := by
    intro ks hnd hmem
    induction ks with
    | nil => cases hmem
    | cons k' ks ih =>
        rw [List.map_cons, List.nodup_cons] at hnd
        rcases List.mem_cons.mp hmem with rfl | hmem
        · rw [List.find?_cons_of_pos]
          exact beq_self_eq_true _
        · rw [List.find?_cons_of_neg, ih hnd.2 hmem]
          intro he
          rw [eq_of_beq he] at hnd
          exact hnd.1 (List.mem_map_of_mem hmem)
  exact hfind kKnobs knobs_nodup hk

theorem setKnob_name {k : Knob} (hk : k ∈ kKnobs) (c : Settings) (val : CString) (loc : Where) :
    setKnob c k.name val loc = match k.field.store c val with
      | some c' => .ok c'
      | none => .error ⟨loc, "bad value for", k.name⟩ := by
  rw [setKnob, find_knob hk]

/-! ## The number in a text -/

/-- The suffix of a number, and the shift it asks for. -/
inductive SuffixText : List Char → Nat → Prop
  | none : SuffixText [] 0
  | kilo {c : Char} : c = 'k' ∨ c = 'K' → SuffixText [c] 10
  | mega {c : Char} : c = 'm' ∨ c = 'M' → SuffixText [c] 20

/-- The text is the number `n`, with a sign, times `2 ^ shift`. -/
structure NumberText (s : CString) (negative : Bool) (n shift : Nat) : Prop where
  intro ::
  exists_suffix : ∃ suffix, Written Magnitude s negative n suffix ∧ SuffixText suffix shift

/-- The nonnegative integer that a text denotes: a constant in decimal, octal or hexadecimal,
times 1024 or 1048576 if a suffix says so. -/
def Denotes (s : CString) (v : Nat) : Prop :=
  ∃ n shift, NumberText s false n shift ∧ v = n * 2 ^ shift

/-- What 64-bit arithmetic makes of such a number. -/
def machineValue (negative : Bool) (n shift : Nat) : Nat := toUnsigned 64 negative n * 2 ^ shift % 2 ^ 64

section Text

variable {s : CString} {negative negative' : Bool} {n n' shift shift' : Nat}

theorem SuffixText.stops {suffix : List Char} (h : SuffixText suffix shift) : Stops suffix := by
  intro c hc
  cases h with
  | none => cases hc
  | kilo hk =>
      obtain rfl := Option.some.inj hc
      rcases hk with rfl | rfl <;> decide
  | mega hm =>
      obtain rfl := Option.some.inj hc
      rcases hm with rfl | rfl <;> decide

theorem toUnsigned_lt (w : Nat) (negative : Bool) (n : Nat) : toUnsigned w negative n < 2 ^ w := by
  have hpos : 0 < 2 ^ w := Nat.two_pow_pos w
  unfold toUnsigned
  split
  · split
    · exact Nat.mod_lt _ hpos
    · assumption
  · omega

/-- A text is a number in one way only. -/
theorem NumberText.unique (h : NumberText s negative n shift) (h' : NumberText s negative' n' shift') :
    negative = negative' ∧ n = n' ∧ shift = shift' := by
  obtain ⟨suf, hw, hs⟩ := h.exists_suffix
  obtain ⟨suf', hw', hs'⟩ := h'.exists_suffix
  obtain ⟨t, ht, h1, h2, h3⟩ := (hw.scan hs.stops).exists_numeral
  obtain ⟨t', ht', h1', h2', h3'⟩ := (hw'.scan hs'.stops).exists_numeral
  obtain rfl : t = t' := Option.some.inj (ht.symm.trans ht')
  refine ⟨h1.symm.trans h1', h2.symm.trans h2', ?_⟩
  have hsuf : suf = suf' := h3.symm.trans h3'
  subst hsuf
  -- the letter of the suffix decides the shift
  cases hs with
  | none =>
      cases hs'
      rfl
  | kilo hk =>
      cases hs' with
      | kilo _ => rfl
      | mega hm => rcases hk with rfl | rfl <;> rcases hm with hm | hm <;> cases hm
  | mega hm =>
      cases hs' with
      | kilo hk => rcases hk with rfl | rfl <;> rcases hm with hm | hm <;> cases hm
      | mega _ => rfl

/-- What `applySuffix` takes off, when nothing is left. -/
theorem applySuffix_nil {v w : Nat} {e : List Char} (hv : v < 2 ^ 64) (h : applySuffix v e = (w, [])) :
    ∃ shift, SuffixText e shift ∧ w = v * 2 ^ shift % 2 ^ 64 := by
  unfold applySuffix at h
  split at h
  · obtain ⟨rfl, rfl⟩ := Prod.mk.inj h
    exact ⟨10, .kilo (.inl rfl), by rw [Nat.shiftLeft_eq]⟩
  · obtain ⟨rfl, rfl⟩ := Prod.mk.inj h
    exact ⟨10, .kilo (.inr rfl), by rw [Nat.shiftLeft_eq]⟩
  · obtain ⟨rfl, rfl⟩ := Prod.mk.inj h
    exact ⟨20, .mega (.inl rfl), by rw [Nat.shiftLeft_eq]⟩
  · obtain ⟨rfl, rfl⟩ := Prod.mk.inj h
    exact ⟨20, .mega (.inr rfl), by rw [Nat.shiftLeft_eq]⟩
  · obtain ⟨rfl, rfl⟩ := Prod.mk.inj h
    exact ⟨0, .none, by rw [Nat.pow_zero, Nat.mul_one, Nat.mod_eq_of_lt hv]⟩

theorem applySuffix_suffix {v : Nat} {e : List Char} (hv : v < 2 ^ 64) (h : SuffixText e shift) :
    applySuffix v e = (v * 2 ^ shift % 2 ^ 64, []) := by
  cases h with
  | none =>
      rw [Nat.pow_zero, Nat.mul_one, Nat.mod_eq_of_lt hv]
      unfold applySuffix
      rfl
  | kilo hk =>
      rw [← Nat.shiftLeft_eq]
      rcases hk with rfl | rfl <;> unfold applySuffix <;> rfl
  | mega hm =>
      rw [← Nat.shiftLeft_eq]
      rcases hm with rfl | rfl <;> unfold applySuffix <;> rfl

/-- The parser accepts the texts of numbers and computes in 64 bits. -/
theorem parseNum_iff {v : Nat} :
    parseNum s = some v ↔ ∃ negative n shift, NumberText s negative n shift ∧
      v = machineValue negative n shift := by
  constructor
  · intro h
    unfold parseNum strtoul at h
    cases ht : scanNumeral 0 s with
    | none =>
        rw [ht] at h
        cases h
    | some t =>
        rw [ht] at h
        dsimp only [Option.map_some] at h
        -- the suffix is what the scan left
        have hlt := toUnsigned_lt 64 t.negative (digitsValue t.base t.digits)
        cases ha : applySuffix (toUnsigned 64 t.negative (digitsValue t.base t.digits)) t.rest with
        | mk w e =>
            rw [ha] at h
            dsimp only at h
            split at h
            · rename_i he
              subst he
              cases h
              obtain ⟨shift, hs, hw⟩ := applySuffix_nil hlt ha
              exact ⟨t.negative, _, shift, ⟨_, scanNumeral_written ht, hs⟩, hw⟩
            · cases h
  · rintro ⟨negative, n, shift, h, rfl⟩
    obtain ⟨suf, hw, hs⟩ := h.exists_suffix
    obtain ⟨t, ht, h1, h2, h3⟩ := (hw.scan hs.stops).exists_numeral
    unfold parseNum strtoul
    rw [ht]
    dsimp only [Option.map_some]
    rw [h1, h2, h3, applySuffix_suffix (toUnsigned_lt 64 negative n) hs]
    exact if_pos rfl

end Text

/-! ## Exact or fatal -/

/-- The width of a numeric field, and how it is written. -/
def Field.number : Field → Option (Nat × (Settings → Nat → Settings))
  | .U32 _ set => some (32, set)
  | .U64 _ set => some (64, set)
  | _ => none

/-- Setting the knob to this text ends the run, or stores the number that the text denotes. -/
def KnobExact (k : Knob) (set : Settings → Nat → Settings) (val : CString) : Prop :=
  ∀ c loc c', setKnob c k.name val loc = .ok c' → ∃ v, Denotes val v ∧ c' = set c v

/-- The text is a number with a minus sign, or one that 64 bits do not hold, and what 64-bit
arithmetic makes of it passes the range check of the knob. -/
def Slips (bits : Nat) (s : CString) : Prop :=
  ∃ negative n shift, NumberText s negative n shift ∧ (negative = true ∨ 2 ^ 64 ≤ n * 2 ^ shift) ∧
    machineValue negative n shift < 2 ^ bits

section Exact

variable {k : Knob} {bits : Nat} {set : Settings → Nat → Settings} {val : CString} {c c' : Settings}
  {loc : Where}

/-- What a numeric knob stores. -/
theorem setKnob_number (hk : k ∈ kKnobs) (hf : k.field.number = some (bits, set)) :
    setKnob c k.name val loc = .ok c' ↔
      ∃ v, parseNum val = some v ∧ v < 2 ^ bits ∧ c' = set c v := by
  have hlt : ∀ v, parseNum val = some v → v < 2 ^ 64 := by
    intro v hv
    obtain ⟨negative, n, shift, -, rfl⟩ := parseNum_iff.mp hv
    exact Nat.mod_lt _ (Nat.two_pow_pos 64)
  rw [setKnob_name hk]
  cases hfield : k.field with
  | U32 get set' =>
      rw [hfield] at hf
      cases hf
      unfold Field.store
      dsimp only
      cases hp : parseNum val with
      | none => simp
      | some v =>
          dsimp only
          -- the range check
          by_cases hv : v > 2 ^ 32 - 1
          · rw [if_pos hv]
            simp
            omega
          · rw [if_neg hv]
            simp only [Except.ok.injEq, Option.some.injEq, exists_eq_left']
            exact ⟨fun h => ⟨by omega, h.symm⟩, fun h => h.2.symm⟩
  | U64 get set' =>
      rw [hfield] at hf
      cases hf
      unfold Field.store
      cases hp : parseNum val with
      | none => simp
      | some v =>
          simp only [Option.map_some, Except.ok.injEq, Option.some.injEq, exists_eq_left']
          exact ⟨fun h => ⟨hlt v hp, h.symm⟩, fun h => h.2.symm⟩
  | BOOL get set' =>
      rw [hfield] at hf
      cases hf
  | MEMORD get set' =>
      rw [hfield] at hf
      cases hf

/-- A numeric field tells the numbers that are written to it apart. -/
theorem number_inj (hk : k ∈ kKnobs) (hf : k.field.number = some (bits, set)) {v w : Nat}
    (h : set c v = set c w) : v = w := by
  have hl := knobs_lawful k hk
  cases hfield : k.field with
  | U32 get set' =>
      rw [hfield] at hf hl
      cases hf
      rw [← hl c v, h, hl c w]
  | U64 get set' =>
      rw [hfield] at hf hl
      cases hf
      rw [← hl c v, h, hl c w]
  | BOOL get set' =>
      rw [hfield] at hf
      cases hf
  | MEMORD get set' =>
      rw [hfield] at hf
      cases hf

theorem exact_of_not_slips (hk : k ∈ kKnobs) (hf : k.field.number = some (bits, set))
    (h : ¬ Slips bits val) : KnobExact k set val := by
  intro c loc c' hset
  obtain ⟨v, hp, hlt, rfl⟩ := (setKnob_number hk hf).mp hset
  obtain ⟨negative, n, shift, ht, rfl⟩ := parseNum_iff.mp hp
  have hgood : negative = false ∧ n * 2 ^ shift < 2 ^ 64 := by
    constructor
    · rw [← Bool.not_eq_true]
      exact fun hn => h ⟨negative, n, shift, ht, .inl hn, hlt⟩
    · rw [← Nat.not_le]
      exact fun hle => h ⟨negative, n, shift, ht, .inr hle, hlt⟩
  obtain ⟨rfl, hsmall⟩ := hgood
  refine ⟨_, ⟨n, shift, ht, rfl⟩, ?_⟩
  -- the magnitude fits too, so neither saturation nor the shift changes the number
  have hn : n < 2 ^ 64 := Nat.lt_of_le_of_lt (Nat.le_mul_of_pos_right n (Nat.two_pow_pos shift)) hsmall
  rw [machineValue, toUnsigned, if_pos hn, if_neg Bool.false_ne_true, Nat.mod_eq_of_lt hsmall]

theorem Slips.not_exact (h : Slips bits val) (hk : k ∈ kKnobs)
    (hf : k.field.number = some (bits, set)) : ¬ KnobExact k set val := by
  intro hexact
  obtain ⟨negative, n, shift, ht, hbad, hlt⟩ := h
  have hset : setKnob {} k.name val .override = .ok (set {} (machineValue negative n shift)) :=
    (setKnob_number hk hf).mpr ⟨_, parseNum_iff.mpr ⟨_, _, _, ht, rfl⟩, hlt, rfl⟩
  obtain ⟨v, ⟨n', shift', ht', rfl⟩, heq⟩ := hexact {} .override _ hset
  obtain ⟨h1, rfl, rfl⟩ := ht.unique ht'
  -- the number that was stored is the one that the text denotes
  have hv := number_inj hk hf heq
  rcases hbad with hneg | hbig
  · rw [hneg] at h1
    cases h1
  · rw [← hv] at hbig
    exact absurd (Nat.mod_lt (toUnsigned 64 negative n * 2 ^ shift) (Nat.two_pow_pos 64))
      (Nat.not_lt.mpr hbig)

/-- A numeric knob is exact or fatal for every text that does not slip, and for no other. A text
slips by a sign, by a value that `strtoull` cuts off, or by a suffix that shifts bits out. -/
theorem knobs_exact (hk : k ∈ kKnobs) (hf : k.field.number = some (bits, set)) (val : CString) :
    KnobExact k set val ↔ ¬ Slips bits val :=
  ⟨fun h hs => hs.not_exact hk hf h, exact_of_not_slips hk hf⟩

/-- A knob is set to 64 kilobytes. -/
theorem knobs_exact_suffix : KnobExact ⟨"memBytes".toList, .U64 (·.memBytes) fun c v => { c with memBytes := v }⟩
    (fun c v => { c with memBytes := v }) "64k".toList :=
  (knobs_exact List.mem_cons_self rfl "64k".toList).mpr (by
    rintro ⟨negative, n, shift, ht, hbad, -⟩
    have h64 : NumberText "64k".toList false 64 10 :=
      ⟨⟨['k'], ⟨[], [], ['6', '4'], rfl, by simp, .none, .decimal ⟨by simp, List.all_eq_true.mp rfl⟩ (by decide)⟩,
        .kilo (.inl rfl)⟩⟩
    obtain ⟨rfl, rfl, rfl⟩ := ht.unique h64
    exact absurd hbad (by decide))

-- a shift that drops every bit also passes the range check of the 32-bit knobs
example : parseNum "18014398509481984k".toList = some 0 := by decide

/-- A minus sign is accepted: `memBytes = -1` sets the largest size. -/
theorem knobs_inexact :
    ¬ (∀ k ∈ kKnobs, ∀ bits set, k.field.number = some (bits, set) → ∀ val, KnobExact k set val) := by
  intro h
  have h1 : NumberText "-1".toList true 1 0 :=
    ⟨⟨[], ⟨[], ['-'], ['1'], rfl, by simp, .minus, .decimal ⟨by simp, List.all_eq_true.mp rfl⟩ (by decide)⟩, .none⟩⟩
  have hslip : Slips 64 "-1".toList := ⟨true, 1, 0, h1, .inl rfl, by decide⟩
  exact hslip.not_exact List.mem_cons_self rfl (h _ List.mem_cons_self _ _ rfl _)

end Exact

end RvO3
