import RvO3.Lib.Bitmap
import RvO3.Core.SlotSet

/-!
# The scans of a slot set

`core/slot_set.h` as it computes: a set of ring slots is a bitmap of 64-bit words, and a visit
scans words. `visit` takes the two halves of a single word apart when the queue fits in one,
and otherwise runs the forward scan twice; `visitOlder` runs the reverse scan once or twice.
The first and the last word of a scan are masked.

Whatever path is taken, the visitor is presented the members in age order (`visit_eq`), and
those older than a slot in the opposite order (`visitOlder_eq`), which is what `SlotSet` says.
-/

set_option autoImplicit false

namespace RvO3

/-- The words of a set of slots. No bit stands for a slot that does not exist: the single-word
path of `visit` does not mask the capacity. -/
structure SlotBits (capacity : Nat) where
  words : Nat → BitVec 64
  inside : ∀ slot, bitmapMem words slot = true → slot < capacity

namespace SlotBits

variable {capacity : Nat}

/-- The slots of the set. -/
def members (b : SlotBits capacity) : SlotSet := bitmapMem b.words

/-- The constructor: every word is zero. -/
def init (capacity : Nat) : SlotBits capacity where
  words := fun _ => 0#64
  inside := by
    intro slot h
    rw [bitmapMem, bitAt, BitVec.getLsbD_zero] at h
    cases h

/-- `words[slot / 64] |= 1 << (slot % 64)`. -/
def set (b : SlotBits capacity) (slot : Nat) (h : slot < capacity) : SlotBits capacity where
  words := setBit b.words (slot / 64) (slot % 64)
  inside := by
    intro i hi
    rw [bitmapMem_setBit (by decide), Bool.or_eq_true, decide_eq_true_eq] at hi
    rcases hi with hi | rfl
    · exact b.inside i hi
    · exact h

/-- `words[slot / 64] &= ~(1 << (slot % 64))`. -/
def reset (b : SlotBits capacity) (slot : Nat) : SlotBits capacity where
  words := clearBit b.words (slot / 64) (slot % 64)
  inside := by
    intro i hi
    rw [bitmapMem_clearBit, Bool.and_eq_true] at hi
    exact b.inside i hi.1

@[simp] theorem members_init : (init capacity).members = SlotSet.none := by
  funext i
  rw [members, init, bitmapMem, bitAt, BitVec.getLsbD_zero]
  rfl

@[simp] theorem members_set (b : SlotBits capacity) (slot : Nat) (h : slot < capacity) :
    (b.set slot h).members = b.members.set slot := by
  funext i
  rw [members, set, bitmapMem_setBit (by decide), SlotSet.set_apply]
  by_cases hi : i = slot
  · rw [if_pos hi, decide_eq_true hi, Bool.or_true]
  · rw [if_neg hi, decide_eq_false hi, Bool.or_false]
    rfl

@[simp] theorem members_reset (b : SlotBits capacity) (slot : Nat) :
    (b.reset slot).members = b.members.reset slot := by
  funext i
  rw [members, reset, bitmapMem_clearBit, SlotSet.reset_apply]
  by_cases hi : i = slot
  · rw [if_pos hi, decide_eq_true hi, Bool.not_true, Bool.and_false]
  · rw [if_neg hi, decide_eq_false hi, Bool.not_false, Bool.and_true]
    rfl

/-! ## The masks -/

/-- The bits below `bit`, where `0` stands for the end of the word. -/
def below (bit : Nat) : BitVec 64 := if bit ≠ 0 then (1 <<< bit) - 1 else BitVec.allOnes 64

/-- The bits of word `w` that a scan of `[first, fin)` looks at. -/
def wordBits (words : Nat → BitVec 64) (first fin w : Nat) : BitVec 64 :=
  let bits := words w
  let bits := if w = first / 64 then bits &&& (BitVec.allOnes 64 <<< (first % 64)) else bits
  if w = (fin - 1) / 64 then bits &&& below (fin % 64) else bits

/-- `(1 << bit) - 1` has the bits below `bit`. -/
theorem getLsbD_lowMask {bit : Nat} (hb : bit < 64) (k : Nat) :
    ((1#64 <<< bit) - 1#64).getLsbD k = decide (k < bit) := by
  have hpow : 2 ^ bit < 2 ^ 64 := Nat.pow_lt_pow_right (by decide) hb
  have hpos := Nat.two_pow_pos bit
  have hone : (1#64 <<< bit).toNat = 2 ^ bit := by
    rw [BitVec.toNat_shiftLeft, Nat.shiftLeft_eq]
    show 1 * 2 ^ bit % 2 ^ 64 = 2 ^ bit
    rw [Nat.one_mul, Nat.mod_eq_of_lt hpow]
  have hle : 1#64 ≤ 1#64 <<< bit := by
    rw [BitVec.le_def, hone]
    exact hpos
  rw [BitVec.getLsbD, BitVec.toNat_sub_of_le hle, hone]
  exact Nat.testBit_two_pow_sub_one bit k

theorem getLsbD_highMask (bit : Nat) {k : Nat} (hk : k < 64) :
    (BitVec.allOnes 64 <<< bit).getLsbD k = decide (bit ≤ k) := by
  rw [BitVec.getLsbD_shiftLeft, BitVec.getLsbD_allOnes, decide_eq_true hk, Bool.true_and]
  by_cases h : k < bit
  · simp [h]
  · simp [h]
    omega

theorem getLsbD_below {bit k : Nat} (hb : bit < 64) (hk : k < 64) :
    (below bit).getLsbD k = decide (bit = 0 ∨ k < bit) := by
  unfold below
  by_cases h : bit = 0
  · rw [if_neg (not_not.mpr h), BitVec.getLsbD_allOnes, decide_eq_true hk, decide_eq_true (.inl h)]
  · rw [if_pos h]
    apply (getLsbD_lowMask hb k).trans
    rw [decide_eq_decide]
    omega

/-- The masks keep what lies in `[first, fin)`. -/
theorem getLsbD_wordBits (words : Nat → BitVec 64) {first fin w k : Nat} (hlt : first < fin)
    (hw1 : first / 64 ≤ w) (hw2 : w ≤ (fin - 1) / 64) (hk : k < 64) :
    (wordBits words first fin w).getLsbD k =
      (bitmapMem words (w * 64 + k) && decide (first ≤ w * 64 + k ∧ w * 64 + k < fin)) := by
  -- the first mask is applied in one word only: the others lie above `first` as they are
  have hhigh : (if w = first / 64 then words w &&& (BitVec.allOnes 64 <<< (first % 64)) else words w).getLsbD k =
      (bitmapMem words (w * 64 + k) && decide (first ≤ w * 64 + k)) := by
    rw [bitmapMem_word (by decide) words w hk]
    by_cases h : w = first / 64
    · rw [if_pos h, BitVec.getLsbD_and, getLsbD_highMask _ hk]
      congr 1
      rw [decide_eq_decide]
      omega
    · rw [if_neg h, decide_eq_true (by omega), Bool.and_true]
  unfold wordBits
  dsimp only
  -- likewise the second; where `fin` ends a word, `below` keeps all of it
  by_cases h : w = (fin - 1) / 64
  · rw [if_pos h, BitVec.getLsbD_and, hhigh, getLsbD_below (Nat.mod_lt _ (by decide)) hk, Bool.and_assoc,
      ← Bool.decide_and]
    congr 1
    rw [decide_eq_decide]
    omega
  · rw [if_neg h, hhigh]
    congr 1
    rw [decide_eq_decide]
    omega

/-! ## The visits -/

section Visits

variable {σ : Type} (get : σ → SlotBits capacity) (f : Nat → σ → σ × Bool)

/-- `forwardBits`: the members of one word, lowest first. -/
def forwardBits (bits : BitVec 64) (base : Nat) (s : σ) : σ × Bool :=
  walkBits (fun bit => f (base + bit)) bits s

/-- The words that a scan of `[first, fin)` goes through, in ascending order. -/
def wordRange (first fin : Nat) : List Nat := List.range' (first / 64) ((fin - 1) / 64 + 1 - first / 64)

/-- The forward scan of `[first, fin)`, word by word, until the visitor ends it. -/
def forward (first fin : Nat) (s : σ) : σ × Bool :=
  if first = fin then (s, true)
  else walk (fun w s => forwardBits f (wordBits (get s).words first fin w) (w * 64) s) (wordRange first fin) s

/-- The reverse scan of `[first, fin)`. -/
def reverse (first fin : Nat) (s : σ) : σ × Bool :=
  if first = fin then (s, true)
  else
    walk (fun w s => walkBitsDown (fun bit => f (w * 64 + bit)) (wordBits (get s).words first fin w) s)
      (wordRange first fin).reverse s

/-- The visit in ring order from the head. A queue of one word is scanned without the loop over
words. -/
def visit (head : Nat) (s : σ) : σ :=
  if capacity ≤ 64 then
    match forwardBits f ((get s).words 0 &&& (BitVec.allOnes 64 <<< head)) 0 s with
    | (s, false) => s
    | (s, true) =>
        -- the word is read again: what the visitor has removed is gone
        if head ≠ 0 then (forwardBits f ((get s).words 0 &&& ((1 <<< head) - 1)) 0 s).1 else s
  else
    match forward get f head capacity s with
    | (s, true) => (forward get f 0 head s).1
    | (s, false) => s

/-- The visit of what is older than `fin`, newest first: around the start of the bitmap when the
head is behind it. -/
def visitOlder (head fin : Nat) (s : σ) : σ :=
  if fin ≥ head then (reverse get f head fin s).1
  else
    match reverse get f 0 fin s with
    | (s, true) => (reverse get f head capacity s).1
    | (s, false) => s

/-- A visitor that may remove the slot it is given, and changes the set in no other way. -/
def Removes : Prop := ∀ slot s, get (f slot s).1 = get s ∨ get (f slot s).1 = (get s).reset slot

end Visits

/-! ## One scan -/

/-- A test that picks a range out of a range. -/
theorem filter_range' {p : Nat → Bool} {a n b m : Nat}
    (h : ∀ i, (a ≤ i ∧ i < a + n) ∧ p i = true ↔ b ≤ i ∧ i < b + m) :
    (List.range' a n).filter p = List.range' b m := by
  apply (List.Pairwise.filter _ List.pairwise_lt_range').eq_of_mem_iff List.pairwise_lt_range'
  intro i
  rw [List.mem_filter, List.mem_range'_1, List.mem_range'_1]
  exact h i

section Scan

variable {σ : Type} {get : σ → SlotBits capacity} {f : Nat → σ → σ × Bool}

theorem Removes.own (hf : Removes get f) : Own (fun s => (get s).members) f := by
  intro a s j hj
  dsimp only
  rcases hf a s with h | h
  · rw [h]
  · rw [h, members_reset, SlotSet.reset_apply, if_neg hj]

/-- The slots of word `w` in `[first, fin)`. -/
def wordSlots (first fin w : Nat) : List Nat :=
  (List.range' (w * 64) 64).filter fun i => decide (first ≤ i ∧ i < fin)

/-- The bits of a word, at the slots they stand for. -/
theorem map_members_wordBits (b : SlotBits capacity) {first fin w : Nat} (hlt : first < fin)
    (hw : w ∈ wordRange first fin) :
    (RvO3.members (wordBits b.words first fin w)).map (w * 64 + ·) =
      (wordSlots first fin w).filter b.members := by
  have hw := List.mem_range'_1.mp hw
  unfold wordSlots RvO3.members
  rw [List.filter_filter, List.range'_eq_map_range, List.filter_map]
  congr 1
  apply List.filter_congr
  intro k hk
  rw [getLsbD_wordBits b.words hlt (by omega) (by omega) (List.mem_range.mp hk)]
  rfl

/-- The words of a scan cover `[first, fin)` in order. -/
theorem flatMap_wordSlots {first fin : Nat} (hlt : first < fin) :
    (wordRange first fin).flatMap (wordSlots first fin) = List.range' first (fin - first) := by
  have hcover : ∀ n a, (List.range' a n).flatMap (fun w => List.range' (w * 64) 64) = List.range' (a * 64) (n * 64) := by
    intro n
    induction n with
    | zero => exact fun a => rfl
    | succ n ih =>
        intro a
        rw [List.range'_succ, List.flatMap_cons, ih, Nat.succ_mul, Nat.succ_mul, Nat.add_comm (n * 64),
          ← List.range'_append_1]
  have hfilter : (wordRange first fin).flatMap (wordSlots first fin) =
      ((wordRange first fin).flatMap fun w => List.range' (w * 64) 64).filter
        (fun i => decide (first ≤ i ∧ i < fin)) := by
    rw [List.filter_flatMap]
    rfl
  rw [hfilter, wordRange, hcover]
  apply filter_range'
  intro i
  rw [decide_eq_true_eq]
  omega

/-- A forward scan presents the members of its range, lowest first. -/
theorem forward_eq (hf : Removes get f) {first fin : Nat} (hle : first ≤ fin) (s : σ) :
    forward get f first fin s = walk f ((List.range' first (fin - first)).filter (get s).members) s := by
  unfold forward
  by_cases he : first = fin
  · rw [if_pos he, he, Nat.sub_self]
    rfl
  · have hlt : first < fin := by omega
    rw [if_neg he, ← flatMap_wordSlots hlt]
    refine walk_blocks hf.own ?_ ?_ s
    · intro w hw s
      rw [forwardBits, walkBits_eq, ← walk_map (w * 64 + ·) f, map_members_wordBits (get s) hlt hw]
    · rw [flatMap_wordSlots hlt]
      exact List.nodup_range'

/-- A reverse scan presents them highest first. -/
theorem reverse_eq (hf : Removes get f) {first fin : Nat} (hle : first ≤ fin) (s : σ) :
    reverse get f first fin s = walk f ((List.range' first (fin - first)).reverse.filter (get s).members) s := by
  unfold reverse
  by_cases he : first = fin
  · rw [if_pos he, he, Nat.sub_self]
    rfl
  · have hlt : first < fin := by omega
    have hcover : (wordRange first fin).reverse.flatMap (fun w => (wordSlots first fin w).reverse) =
        (List.range' first (fin - first)).reverse := by
      rw [← flatMap_wordSlots hlt, List.reverse_flatMap]
      rfl
    rw [if_neg he, ← hcover]
    refine walk_blocks hf.own ?_ ?_ s
    · intro w hw s
      rw [walkBitsDown_eq, ← walk_map (w * 64 + ·) f, List.map_reverse, List.filter_reverse,
        map_members_wordBits (get s) hlt (List.mem_reverse.mp hw)]
    · rw [hcover]
      exact List.nodup_reverse.mpr List.nodup_range'

end Scan

/-! ## Age order -/

/-- Slots are visited in the order of their age with respect to the head. -/
def age (capacity head slot : Nat) : Nat := (slot + capacity - head) % capacity

/-- All slots by age: `(head + k) % capacity` for every `k` below the capacity. -/
def byAge (capacity head : Nat) : List Nat := (List.range capacity).map fun k => (head + k) % capacity

section Age

variable {head fin i : Nat}

/-- The head comes first, and the scan wraps once. -/
theorem byAge_eq (hh : head < capacity) :
    byAge capacity head = List.range' head (capacity - head) ++ List.range' 0 head := by
  have hsplit : List.range capacity = List.range' 0 (capacity - head) ++ List.range' (capacity - head) head := by
    rw [List.range_eq_range']
    conv_lhs => rw [show capacity = (capacity - head) + head by omega]
    rw [← List.range'_append_1, Nat.zero_add]
  rw [byAge, hsplit, List.map_append]
  congr 1
  · rw [← List.range_eq_range', List.range'_eq_map_range]
    apply List.map_congr_left
    intro k hk
    have := List.mem_range.mp hk
    exact Nat.mod_eq_of_lt (by omega)
  · rw [List.range'_eq_map_range, List.map_map, ← List.range_eq_range']
    conv_rhs => rw [← List.map_id (List.range head)]
    apply List.map_congr_left
    intro k hk
    have := List.mem_range.mp hk
    rw [Function.comp_apply, show head + (capacity - head + k) = k + capacity by omega, Nat.add_mod_right,
      Nat.mod_eq_of_lt (by omega), id]

theorem byAge_nodup (hh : head < capacity) : (byAge capacity head).Nodup := by
  rw [byAge_eq hh, List.nodup_append]
  refine ⟨List.nodup_range', List.nodup_range', ?_⟩
  intro a ha b hb
  have ha := List.mem_range'_1.mp ha
  have hb := List.mem_range'_1.mp hb
  omega

theorem age_of_ge (hi : i < capacity) (h : head ≤ i) : age capacity head i = i - head := by
  rw [age, show i + capacity - head = (i - head) + capacity by omega, Nat.add_mod_right]
  exact Nat.mod_eq_of_lt (by omega)

theorem age_of_lt (hh : head < capacity) (h : i < head) : age capacity head i = i + capacity - head :=
  Nat.mod_eq_of_lt (by omega)

/-- The slots older than `fin`, youngest last: one range, or all up to the end and one range. -/
theorem byAge_filter_older (hh : head < capacity) (hfin : fin < capacity) :
    (byAge capacity head).filter (fun i => decide (age capacity head i < age capacity head fin)) =
      if fin ≥ head then List.range' head (fin - head)
      else List.range' head (capacity - head) ++ List.range' 0 fin := by
  rw [byAge_eq hh, List.filter_append]
  -- the age of `fin` tells whether the scan has wrapped before it
  by_cases h : fin ≥ head
  · rw [if_pos h, age_of_ge hfin h]
    -- nothing that comes after the wrap is older
    have hold : (List.range' 0 head).filter (fun i => decide (age capacity head i < fin - head)) = [] := by
      rw [List.filter_eq_nil_iff]
      intro i hi
      have hi := List.mem_range'_1.mp hi
      rw [age_of_lt hh (by omega), decide_eq_true_eq]
      omega
    rw [hold, List.append_nil]
    apply filter_range'
    intro i
    rw [decide_eq_true_eq]
    constructor
    · rintro ⟨hi, ha⟩
      rw [age_of_ge (by omega) (by omega)] at ha
      omega
    · intro hi
      rw [age_of_ge (by omega) (by omega)]
      omega
  · rw [if_neg h, age_of_lt hh (by omega)]
    congr 1
    · -- not wrapped: older than every slot below the head
      rw [List.filter_eq_self]
      intro i hi
      have hi := List.mem_range'_1.mp hi
      rw [age_of_ge (by omega) (by omega), decide_eq_true_eq]
      omega
    · apply filter_range'
      intro i
      rw [decide_eq_true_eq]
      constructor
      · rintro ⟨hi, ha⟩
        rw [age_of_lt hh (by omega)] at ha
        omega
      · intro hi
        rw [age_of_lt hh (by omega)]
        omega

end Age

/-! ## The visits in age order -/

section Order

variable {σ : Type} {get : σ → SlotBits capacity} {f : Nat → σ → σ × Bool} {head fin : Nat}

/-- In a single word the capacity needs no mask. -/
theorem members_word_zero (b : SlotBits capacity) (hcap : capacity ≤ 64) {mask : BitVec 64} {first n : Nat}
    (hmask : ∀ i, i < capacity → (mask.getLsbD i = true ↔ first ≤ i ∧ i < first + n)) :
    RvO3.members (b.words 0 &&& mask) = (List.range' first n).filter b.members := by
  apply (members_pairwise _).eq_of_mem_iff (List.Pairwise.filter _ List.pairwise_lt_range')
  have hword : ∀ {i}, i < 64 → (b.words 0).getLsbD i = b.members i := by
    intro i hi
    rw [members, ← bitmapMem_word (by decide) b.words 0 hi, Nat.zero_mul, Nat.zero_add]
  intro i
  rw [mem_members, BitVec.getLsbD_and, Bool.and_eq_true, List.mem_filter, List.mem_range'_1]
  constructor
  · rintro ⟨hi, hm⟩
    rw [hword (BitVec.lt_of_getLsbD hi)] at hi
    exact ⟨(hmask i (b.inside i hi)).mp hm, hi⟩
  · rintro ⟨hm, hi⟩
    have hlt := b.inside i hi
    rw [hword (by omega)]
    exact ⟨hi, (hmask i hlt).mpr hm⟩

theorem forwardBits_word_zero (b : SlotBits capacity) (hcap : capacity ≤ 64) {mask : BitVec 64} {first n : Nat}
    (hmask : ∀ i, i < capacity → (mask.getLsbD i = true ↔ first ≤ i ∧ i < first + n)) (s : σ) :
    forwardBits f (b.words 0 &&& mask) 0 s = walk f ((List.range' first n).filter b.members) s := by
  rw [forwardBits, walkBits_eq, members_word_zero b hcap hmask]
  congr 1
  funext i
  rw [Nat.zero_add]

/-- **Visit.** Both paths present the members in age order, up to where the visitor stops. -/
theorem visit_eq (hf : Removes get f) (hh : head < capacity) (s : σ) :
    visit get f head s = (walk f ((byAge capacity head).filter (get s).members) s).1 := by
  have hnd := byAge_nodup hh
  rw [byAge_eq hh] at hnd ⊢
  rw [walk_members_append hf.own hnd, visit]
  by_cases hcap : capacity ≤ 64
  · have hhigh : ∀ i, i < capacity →
        ((BitVec.allOnes 64 <<< head).getLsbD i = true ↔ head ≤ i ∧ i < head + (capacity - head)) := by
      intro i hi
      rw [getLsbD_highMask head (by omega), decide_eq_true_eq]
      omega
    have hlow : ∀ i, i < capacity → (((1#64 <<< head) - 1#64).getLsbD i = true ↔ 0 ≤ i ∧ i < 0 + head) := by
      intro i hi
      rw [getLsbD_lowMask (by omega), decide_eq_true_eq]
      omega
    rw [if_pos hcap, forwardBits_word_zero (get s) hcap hhigh]
    generalize walk f ((List.range' head (capacity - head)).filter (get s).members) s = r
    obtain ⟨s', more⟩ := r
    cases more with
    | false => rfl
    | true =>
        dsimp only
        by_cases h0 : head = 0
        · rw [if_neg (not_not.mpr h0), h0]
          rfl
        · rw [if_pos h0]
          exact congrArg Prod.fst (forwardBits_word_zero (get s') hcap hlow s')
  · rw [if_neg hcap, forward_eq hf (by omega)]
    generalize walk f ((List.range' head (capacity - head)).filter (get s).members) s = r
    obtain ⟨s', more⟩ := r
    cases more with
    | false => rfl
    | true => exact congrArg Prod.fst (forward_eq hf (Nat.zero_le head) s')

/-- **Older slots.** The members older than `fin` are presented newest first. -/
theorem visitOlder_eq (hf : Removes get f) (hh : head < capacity) (hfin : fin < capacity) (s : σ) :
    visitOlder get f head fin s =
      (walk f (((byAge capacity head).filter fun i =>
        (get s).members i && decide (age capacity head i < age capacity head fin)).reverse) s).1 := by
  rw [← List.filter_filter, byAge_filter_older hh hfin, visitOlder]
  by_cases h : fin ≥ head
  · rw [if_pos h, if_pos h, reverse_eq hf h, List.filter_reverse]
  · -- the lower range holds the newer slots: it comes first
    have hnd : ((List.range' 0 fin).reverse ++ (List.range' head (capacity - head)).reverse).Nodup := by
      have hall := (byAge_nodup hh).filter fun i => decide (age capacity head i < age capacity head fin)
      rw [byAge_filter_older hh hfin, if_neg h] at hall
      rw [← List.reverse_append]
      exact List.nodup_reverse.mpr hall
    rw [if_neg h, if_neg h, ← List.filter_reverse, List.reverse_append, walk_members_append hf.own hnd,
      reverse_eq hf (Nat.zero_le fin)]
    generalize walk f ((List.range' 0 (fin - 0)).reverse.filter (get s).members) s = r
    obtain ⟨s', more⟩ := r
    cases more with
    | false => rfl
    | true => exact congrArg Prod.fst (reverse_eq hf (by omega) s')

end Order

/-! ## Main result -/

/-- **Slot sets.** Whatever its capacity and its contents, a set presents exactly its members in
ring order from the head, and exactly those strictly older than `fin` newest first, to a visitor
that may remove the slot it is given and may stop. -/
theorem visits_by_age {σ : Type} {get : σ → SlotBits capacity} {f : Nat → σ → σ × Bool} (hf : Removes get f)
    {head fin : Nat} (hh : head < capacity) (hfin : fin < capacity) (s : σ) :
    visit get f head s = (walk f ((byAge capacity head).filter (get s).members) s).1 ∧
      visitOlder get f head fin s =
        (walk f (((byAge capacity head).filter fun i =>
          (get s).members i && decide (age capacity head i < age capacity head fin)).reverse) s).1 :=
  ⟨visit_eq hf hh s, visitOlder_eq hf hh hfin s⟩

/-- A visitor that empties the set, and writes down what it is presented. -/
def emptying (slot : Nat) (s : SlotBits 65 × List Nat) : (SlotBits 65 × List Nat) × Bool :=
  ((s.1.reset slot, s.2 ++ [slot]), true)

/-- Slots 1 and 64 of 65, with the head at 64. -/
theorem visits_by_age_two_words :
    (visit Prod.fst emptying 64 (((SlotBits.init 65).set 1 (by decide)).set 64 (by decide), [])).2 = [64, 1] ∧
      (visitOlder Prod.fst emptying 64 1 (((SlotBits.init 65).set 1 (by decide)).set 64 (by decide), [])).2 =
        [64] := by
  have hf : Removes Prod.fst emptying := fun slot s => .inr rfl
  have h := visits_by_age hf (by decide : 64 < 65) (by decide : 1 < 65)
    (((SlotBits.init 65).set 1 (by decide)).set 64 (by decide), [])
  rw [h.1, h.2]
  exact ⟨rfl, rfl⟩

end SlotBits

end RvO3
