import Mathlib.Data.List.Sort
import Mathlib.Data.List.Nodup
import Mathlib.Data.List.Range
import Mathlib.Data.Nat.ModEq
import Mathlib.Logic.Function.Basic
import Mathlib.Tactic.Common

/-!
# Bitmaps walked a word at a time

A bitmap is a sequence of words. `walkBits` visits the members of one word, lowest first,
by counting trailing zeros and clearing the lowest bit; `walkSegs` visits a list of words,
each under a mask. `walkBitsDown` visits the members of a word highest first, by counting
leading zeros. The visitor carries a state and may stop the walk. The words can be
part of that state: as long as a visitor changes no member but the one it is given, the
walk presents the members present when it starts (`walkSegs_eq`).
-/

set_option autoImplicit false

namespace RvO3

/-! ## Walks over lists -/

section Walk

variable {σ α : Type}

/-- Visit the elements until the visitor answers false. -/
def walk (f : α → σ → σ × Bool) : List α → σ → σ × Bool
  | [], s => (s, true)
  | a :: l, s =>
      match f a s with
      | (s, true) => walk f l s
      | (s, false) => (s, false)

theorem walk_append (f : α → σ → σ × Bool) (l l' : List α) (s : σ) :
    walk f (l ++ l') s =
      if (walk f l s).2 then walk f l' (walk f l s).1 else ((walk f l s).1, false) := by
  induction l generalizing s with
  | nil => rfl
  | cons a l ih =>
      rw [List.cons_append, walk, walk]
      split
      · exact ih _
      · rfl

theorem walk_map {β : Type} (g : β → α) (f : α → σ → σ × Bool) (l : List β) (s : σ) :
    walk f (l.map g) s = walk (fun b => f (g b)) l s := by
  induction l generalizing s with
  | nil => rfl
  | cons b l ih =>
      rw [List.map_cons, walk, walk]
      split
      · exact ih _
      · rfl

/-- What each visit to an element of the list keeps, the walk keeps. -/
theorem walk_preserve {I : σ → Prop} {f : α → σ → σ × Bool} {l : List α}
    (hI : ∀ a ∈ l, ∀ s, I s → I (f a s).1) {s : σ} (hs : I s) : I (walk f l s).1 := by
  induction l generalizing s with
  | nil => exact hs
  | cons a l ih =>
      have h1 := hI a List.mem_cons_self s hs
      rw [walk]
      split
      · rename_i s' heq
        rw [heq] at h1
        exact ih (fun b hb => hI b (List.mem_cons_of_mem _ hb)) h1
      · rename_i s' heq
        rw [heq] at h1
        exact h1

/-- A visitor that changes the membership of no element but the one it is given. -/
def Own (mem : σ → α → Bool) (f : α → σ → σ × Bool) : Prop :=
  ∀ a s b, b ≠ a → mem (f a s).1 b = mem s b

theorem Own.walk {mem : σ → α → Bool} {f : α → σ → σ × Bool} (h : Own mem f) {l : List α} {b : α}
    (hb : b ∉ l) (s : σ) : mem (walk f l s).1 b = mem s b := by
  refine walk_preserve (I := fun s' => mem s' b = mem s b) ?_ rfl
  intro a ha s' hs'
  rw [h a s' b fun he => hb (he ▸ ha)]
  exact hs'

/-- Two walks in turn, each over the elements that are members when it starts, present the
members present at the first start: the first walk visits nothing of the second list. -/
theorem walk_members_append {mem : σ → α → Bool} {f : α → σ → σ × Bool} (h : Own mem f) {l l' : List α}
    (hnd : (l ++ l').Nodup) (s : σ) :
    walk f ((l ++ l').filter (mem s)) s =
      match walk f (l.filter (mem s)) s with
      | (s', true) => walk f (l'.filter (mem s')) s'
      | (s', false) => (s', false) := by
  obtain ⟨-, -, hdisj⟩ := List.nodup_append.mp hnd
  have hrest : l'.filter (mem (walk f (l.filter (mem s)) s).1) = l'.filter (mem s) := by
    apply List.filter_congr
    intro a ha
    apply h.walk
    intro hmem
    exact hdisj a (List.mem_of_mem_filter hmem) a ha rfl
  rw [List.filter_append, walk_append]
  generalize walk f (l.filter (mem s)) s = r at hrest
  obtain ⟨s', more⟩ := r
  cases more with
  | true =>
      dsimp only at hrest ⊢
      rw [if_pos rfl, hrest]
  | false => rfl

/-- A walk over blocks, each of which visits the elements of it that are members when the walk
comes to it, presents the members present when it starts. -/
theorem walk_blocks {β : Type} {mem : σ → α → Bool} {f : α → σ → σ × Bool} (h : Own mem f)
    {block : β → List α} {g : β → σ → σ × Bool} {bs : List β}
    (hg : ∀ b ∈ bs, ∀ s, g b s = walk f ((block b).filter (mem s)) s)
    (hnd : (bs.flatMap block).Nodup) (s : σ) :
    walk g bs s = walk f ((bs.flatMap block).filter (mem s)) s := by
  induction bs generalizing s with
  | nil => rfl
  | cons b bs ih =>
      rw [List.flatMap_cons] at hnd ⊢
      rw [walk, hg b List.mem_cons_self, walk_members_append h hnd]
      split
      · exact ih (fun c hc => hg c (List.mem_cons_of_mem _ hc)) (List.nodup_append.mp hnd).2.1 _
      · rfl

end Walk

/-! ## The members of a word -/

section Word

variable {w : Nat}

/-- The bit positions that are set, lowest first. -/
def members (x : BitVec w) : List Nat := (List.range w).filter x.getLsbD

theorem mem_members {x : BitVec w} {i : Nat} : i ∈ members x ↔ x.getLsbD i = true := by
  rw [members, List.mem_filter, List.mem_range]
  exact ⟨fun h => h.2, fun h => ⟨BitVec.lt_of_getLsbD h, h⟩⟩

theorem members_pairwise (x : BitVec w) : (members x).Pairwise (· < ·) :=
  List.pairwise_lt_range.sublist List.filter_sublist

/-- `bits &= bits - 1` clears the lowest member and no other. -/
theorem getLsbD_clearLowest {x : BitVec w} (hx : x ≠ 0#w) (i : Nat) :
    (x &&& (x - 1#w)).getLsbD i = (x.getLsbD i && decide (i ≠ x.ctz.toNat)) := by
  have hbit := BitVec.getLsbD_true_ctz_of_ne_zero hx
  have hlow : ∀ j, j < x.ctz.toNat → x.toNat.testBit j = false :=
    fun j hj => BitVec.getLsbD_false_of_lt_ctz hj
  have htw := BitVec.lt_of_getLsbD hbit
  rw [BitVec.getLsbD] at hbit
  generalize x.ctz.toNat = t at hbit hlow htw
  -- below the lowest member the number is a multiple of the next power of two
  have hsplit : x.toNat = 2 ^ (t + 1) * (x.toNat / 2 ^ (t + 1)) + 2 ^ t := by
    apply Nat.eq_of_testBit_eq
    intro j
    rw [Nat.testBit_two_pow_mul_add _ (Nat.pow_lt_pow_right (by omega) (Nat.lt_succ_self t)),
      Nat.testBit_two_pow]
    split
    · rename_i hj
      rcases Nat.lt_or_eq_of_le (Nat.le_of_lt_succ hj) with hlt | rfl
      · rw [hlow j hlt, decide_eq_false (by omega)]
      · rw [hbit, decide_eq_true rfl]
    · rename_i hj
      rw [Nat.testBit_div_two_pow]
      congr 1
      omega
  have hpos : 1 ≤ x.toNat := by
    have := Nat.two_pow_pos t
    omega
  have hsub : (x - 1#w).toNat = 2 ^ (t + 1) * (x.toNat / 2 ^ (t + 1)) + (2 ^ t - 1) := by
    have hone : (1#w).toNat = 1 := by
      rw [BitVec.toNat_ofNat, Nat.mod_eq_of_lt]
      exact Nat.one_lt_two_pow (by omega)
    have hle : 1#w ≤ x := by
      rw [BitVec.le_def, hone]
      exact hpos
    rw [BitVec.toNat_sub_of_le hle, hone]
    have := Nat.two_pow_pos t
    omega
  rw [BitVec.getLsbD_and]
  by_cases hx' : x.getLsbD i = true
  · rw [hx', Bool.true_and, Bool.true_and, BitVec.getLsbD, hsub, Nat.testBit_two_pow_mul_add]
    · rcases Nat.lt_trichotomy i t with hlt | rfl | hgt
      · rw [BitVec.getLsbD, hlow i hlt] at hx'
        cases hx'
      · rw [if_pos (Nat.lt_succ_self i), Nat.testBit_two_pow_sub_one,
          decide_eq_false (Nat.lt_irrefl i), decide_eq_false (fun h => h rfl)]
      · rw [if_neg (by omega), Nat.testBit_div_two_pow, decide_eq_true (by omega : i ≠ t)]
        rw [BitVec.getLsbD] at hx'
        rw [← hx']
        congr 1
        omega
    · have := Nat.two_pow_pos t
      rw [Nat.pow_succ]
      omega
  · rw [Bool.not_eq_true] at hx'
    rw [hx', Bool.false_and, Bool.false_and]

theorem members_zero : members (0#w) = [] := by
  rw [members, List.filter_eq_nil_iff]
  intro i _
  simp

/-- The lowest member comes first. -/
theorem members_eq_cons {x : BitVec w} (hx : x ≠ 0#w) :
    members x = x.ctz.toNat :: members (x &&& (x - 1#w)) := by
  have hrest : ∀ i ∈ members (x &&& (x - 1#w)), x.ctz.toNat < i := by
    intro i hi
    rw [mem_members, getLsbD_clearLowest hx, Bool.and_eq_true, decide_eq_true_eq] at hi
    by_contra hle
    have hlt : i < x.ctz.toNat := by omega
    rw [BitVec.getLsbD_false_of_lt_ctz hlt] at hi
    cases hi.1
  refine (members_pairwise x).eq_of_mem_iff (List.pairwise_cons.mpr ⟨hrest, members_pairwise _⟩) ?_
  intro i
  rw [List.mem_cons, mem_members, mem_members, getLsbD_clearLowest hx, Bool.and_eq_true,
    decide_eq_true_eq]
  constructor
  · intro hi
    by_cases he : i = x.ctz.toNat
    · exact Or.inl he
    · exact Or.inr ⟨hi, he⟩
  · rintro (rfl | ⟨hi, -⟩)
    · exact BitVec.getLsbD_true_ctz_of_ne_zero hx
    · exact hi

theorem clearLowest_lt {x : BitVec w} (hx : x ≠ 0#w) : (x &&& (x - 1#w)).toNat < x.toNat := by
  have hpos : 1 ≤ x.toNat := by
    have hne : x.toNat ≠ 0 := fun h => hx (BitVec.eq_of_toNat_eq (by simpa using h))
    omega
  have hle : (x &&& (x - 1#w)).toNat ≤ x.toNat := by
    rw [BitVec.toNat_and]
    exact Nat.and_le_left
  apply Nat.lt_of_le_of_ne hle
  intro heq
  -- the lowest member is gone
  have hbit := getLsbD_clearLowest hx x.ctz.toNat
  rw [BitVec.eq_of_toNat_eq heq, BitVec.getLsbD_true_ctz_of_ne_zero hx] at hbit
  simp at hbit

variable {σ : Type}

/-- `while (bits) { visit(ctz(bits)); bits &= bits - 1; }`. -/
def walkBits (f : Nat → σ → σ × Bool) (x : BitVec w) (s : σ) : σ × Bool :=
  if _ : x = 0#w then (s, true)
  else
    match f x.ctz.toNat s with
    | (s, true) => walkBits f (x &&& (x - 1#w)) s
    | (s, false) => (s, false)
termination_by x.toNat
decreasing_by exact clearLowest_lt ‹_›

theorem walkBits_eq (f : Nat → σ → σ × Bool) (x : BitVec w) (s : σ) :
    walkBits f x s = walk f (members x) s := by
  fun_induction walkBits f x s with
  | case1 s => rw [members_zero, walk]
  | case2 x s hx s' heq ih => rw [members_eq_cons hx, walk, heq, ih]
  | case3 x s hx s' heq => rw [members_eq_cons hx, walk, heq]

/-! ### Highest first -/

/-- The highest member, by counting leading zeros. -/
def highest (x : BitVec w) : Nat := w - 1 - x.clz.toNat

theorem getLsbD_highest {x : BitVec w} (hx : x ≠ 0#w) : x.getLsbD (highest x) = true := by
  have hw : 0 < w := by
    by_contra h
    obtain rfl : w = 0 := by omega
    exact hx (BitVec.eq_nil x)
  exact BitVec.getLsbD_true_clz_of_ne_zero hw hx

theorem le_highest {x : BitVec w} {i : Nat} (hi : x.getLsbD i = true) : i ≤ highest x := by
  have hlt : x.toNat < 2 ^ (w - x.clz.toNat) := BitVec.toNat_lt_two_pow_sub_clz
  have hge : 2 ^ i ≤ x.toNat := Nat.ge_two_pow_of_testBit hi
  have := (Nat.pow_lt_pow_iff_right (by omega)).mp (Nat.lt_of_le_of_lt hge hlt)
  unfold highest
  omega

/-- `bits &= ~(1 << bit)` at the highest member. -/
def clearHighest (x : BitVec w) : BitVec w := x &&& ~~~BitVec.twoPow w (highest x)

theorem getLsbD_clearHighest (x : BitVec w) (i : Nat) :
    (clearHighest x).getLsbD i = (x.getLsbD i && decide (i ≠ highest x)) := by
  rw [clearHighest, BitVec.getLsbD_and, BitVec.getLsbD_not, BitVec.getLsbD_twoPow]
  by_cases hi : i < w
  · by_cases he : highest x = i
    · simp [he, hi]
    · simp [he, Ne.symm he, hi]
  · rw [BitVec.getLsbD_of_ge x i (by omega), Bool.false_and, Bool.false_and]

/-- The highest member comes last. -/
theorem members_eq_append {x : BitVec w} (hx : x ≠ 0#w) :
    members x = members (clearHighest x) ++ [highest x] := by
  have hrest : ∀ i ∈ members (clearHighest x), i < highest x := by
    intro i hi
    rw [mem_members, getLsbD_clearHighest, Bool.and_eq_true, decide_eq_true_eq] at hi
    have := le_highest hi.1
    omega
  refine (members_pairwise x).eq_of_mem_iff ?_ ?_
  · rw [List.pairwise_append]
    refine ⟨members_pairwise _, List.pairwise_singleton _ _, ?_⟩
    intro i hi j hj
    rw [List.mem_singleton.mp hj]
    exact hrest i hi
  · intro i
    rw [List.mem_append, List.mem_singleton, mem_members, mem_members, getLsbD_clearHighest, Bool.and_eq_true,
      decide_eq_true_eq]
    constructor
    · intro hi
      by_cases he : i = highest x
      · exact Or.inr he
      · exact Or.inl ⟨hi, he⟩
    · rintro (⟨hi, -⟩ | rfl)
      · exact hi
      · exact getLsbD_highest hx

theorem clearHighest_lt {x : BitVec w} (hx : x ≠ 0#w) : (clearHighest x).toNat < x.toNat := by
  have hle : (clearHighest x).toNat ≤ x.toNat := by
    rw [clearHighest, BitVec.toNat_and]
    exact Nat.and_le_left
  apply Nat.lt_of_le_of_ne hle
  intro heq
  have hbit := getLsbD_clearHighest x (highest x)
  rw [BitVec.eq_of_toNat_eq heq, getLsbD_highest hx] at hbit
  simp at hbit

/-- `while (bits) { bit = 63 - clz(bits); bits &= ~(1 << bit); visit(bit); }`. -/
def walkBitsDown (f : Nat → σ → σ × Bool) (x : BitVec w) (s : σ) : σ × Bool :=
  if _ : x = 0#w then (s, true)
  else
    match f (highest x) s with
    | (s, true) => walkBitsDown f (clearHighest x) s
    | (s, false) => (s, false)
termination_by x.toNat
decreasing_by exact clearHighest_lt ‹_›

theorem walkBitsDown_eq (f : Nat → σ → σ × Bool) (x : BitVec w) (s : σ) :
    walkBitsDown f x s = walk f (members x).reverse s := by
  fun_induction walkBitsDown f x s with
  | case1 s => rw [members_zero, List.reverse_nil, walk]
  | case2 x s hx s' heq ih =>
      rw [members_eq_append hx, List.reverse_append, List.reverse_singleton, List.singleton_append, walk, heq, ih]
  | case3 x s hx s' heq =>
      rw [members_eq_append hx, List.reverse_append, List.reverse_singleton, List.singleton_append, walk, heq]

end Word

/-! ## Bitmaps -/

section Bitmap

variable {w : Nat}

/-- Bit `k` of word `i`. -/
def bitAt (b : Nat → BitVec w) (i k : Nat) : Bool := (b i).getLsbD k

/-- Set bit `k` of word `i`. -/
def setBit (b : Nat → BitVec w) (i k : Nat) : Nat → BitVec w :=
  Function.update b i (b i ||| BitVec.twoPow w k)

/-- Clear bit `k` of word `i`. -/
def clearBit (b : Nat → BitVec w) (i k : Nat) : Nat → BitVec w :=
  Function.update b i (b i &&& ~~~BitVec.twoPow w k)

theorem bitAt_setBit (b : Nat → BitVec w) {i k : Nat} (hk : k < w) (j l : Nat) :
    bitAt (setBit b i k) j l = (bitAt b j l || decide (j = i ∧ l = k)) := by
  unfold bitAt setBit
  by_cases hj : j = i
  · subst hj
    rw [Function.update_self, BitVec.getLsbD_or, BitVec.getLsbD_twoPow, decide_eq_true hk,
      Bool.true_and]
    by_cases hl : l = k
    · rw [decide_eq_true hl.symm, decide_eq_true ⟨rfl, hl⟩]
    · rw [decide_eq_false (Ne.symm hl), decide_eq_false fun h => hl h.2]
  · rw [Function.update_of_ne hj, decide_eq_false fun h => hj h.1, Bool.or_false]

theorem bitAt_clearBit (b : Nat → BitVec w) (i k j l : Nat) :
    bitAt (clearBit b i k) j l = (bitAt b j l && !decide (j = i ∧ l = k)) := by
  unfold bitAt clearBit
  by_cases hj : j = i
  · subst hj
    rw [Function.update_self, BitVec.getLsbD_and, BitVec.getLsbD_not, BitVec.getLsbD_twoPow]
    by_cases hl : l = k
    · subst hl
      by_cases hlw : l < w
      · simp [hlw]
      · simp [BitVec.getLsbD_of_ge _ _ (Nat.le_of_not_lt hlw)]
    · by_cases hlw : l < w
      · simp [hl, Ne.symm hl, hlw]
      · simp [BitVec.getLsbD_of_ge _ _ (Nat.le_of_not_lt hlw)]
  · rw [Function.update_of_ne hj, decide_eq_false fun h => hj h.1, Bool.not_false, Bool.and_true]

/-- Membership of position `s` in a bitmap whose word `i` holds positions `i * w` on. -/
def bitmapMem (b : Nat → BitVec w) (s : Nat) : Bool := bitAt b (s / w) (s % w)

theorem bitmapMem_setBit (hw : 0 < w) (b : Nat → BitVec w) (s t : Nat) :
    bitmapMem (setBit b (s / w) (s % w)) t = (bitmapMem b t || decide (t = s)) := by
  unfold bitmapMem
  rw [bitAt_setBit b (Nat.mod_lt s hw)]
  congr 1
  rw [decide_eq_decide]
  constructor
  · rintro ⟨h1, h2⟩
    rw [← Nat.div_add_mod t w, ← Nat.div_add_mod s w, h1, h2]
  · rintro rfl
    exact ⟨rfl, rfl⟩

theorem bitmapMem_clearBit (b : Nat → BitVec w) (s t : Nat) :
    bitmapMem (clearBit b (s / w) (s % w)) t = (bitmapMem b t && !decide (t = s)) := by
  unfold bitmapMem
  rw [bitAt_clearBit]
  congr 2
  rw [decide_eq_decide]
  constructor
  · rintro ⟨h1, h2⟩
    rw [← Nat.div_add_mod t w, ← Nat.div_add_mod s w, h1, h2]
  · rintro rfl
    exact ⟨rfl, rfl⟩

theorem bitmapMem_word (hw : 0 < w) (b : Nat → BitVec w) (i : Nat) {k : Nat} (hk : k < w) :
    bitmapMem b (i * w + k) = (b i).getLsbD k := by
  unfold bitmapMem bitAt
  rw [Nat.mul_comm, Nat.mul_add_div hw, Nat.div_eq_of_lt hk, Nat.add_zero, Nat.mul_add_mod,
    Nat.mod_eq_of_lt hk]

end Bitmap

/-! ## Walks over the words of a bitmap -/

section Segs

variable {w : Nat} {σ : Type}

/-- Visit the members of a list of words, each under a mask. A word is read when the walk
comes to it. -/
def walkSegs (read : σ → Nat → BitVec w) (f : Nat → σ → σ × Bool) :
    List (Nat × BitVec w) → σ → σ × Bool
  | [], s => (s, true)
  | (i, mask) :: segs, s =>
      match walkBits (fun k => f (i * w + k)) (read s i &&& mask) s with
      | (s, true) => walkSegs read f segs s
      | (s, false) => (s, false)

/-- The positions that a segment covers. -/
def segPositions (seg : Nat × BitVec w) : List Nat := (members seg.2).map (seg.1 * w + ·)

/-- One segment visits its positions that are members. -/
theorem walkBits_seg (f : Nat → σ → σ × Bool) (b : Nat → BitVec w) (seg : Nat × BitVec w) (s : σ) :
    walkBits (fun k => f (seg.1 * w + k)) (b seg.1 &&& seg.2) s =
      walk f ((segPositions seg).filter (bitmapMem b)) s := by
  rw [walkBits_eq, ← walk_map (seg.1 * w + ·) f]
  congr 1
  unfold segPositions
  rw [List.filter_map]
  congr 1
  unfold members
  rw [List.filter_filter]
  apply List.filter_congr
  intro k hk
  have hlt := List.mem_range.mp hk
  rw [BitVec.getLsbD_and, Function.comp_apply, bitmapMem_word (by omega) b seg.1 hlt]

/-- A visitor that changes no member but the one it is given. -/
def OwnBit (read : σ → Nat → BitVec w) (f : Nat → σ → σ × Bool) : Prop :=
  ∀ a s j, j ≠ a → bitmapMem (read (f a s).1) j = bitmapMem (read s) j

theorem walkSegs_eq_walk (read : σ → Nat → BitVec w) (f : Nat → σ → σ × Bool) (segs : List (Nat × BitVec w))
    (s : σ) :
    walkSegs read f segs s =
      walk (fun seg s => walkBits (fun k => f (seg.1 * w + k)) (read s seg.1 &&& seg.2) s) segs s := by
  induction segs generalizing s with
  | nil => rfl
  | cons seg segs ih =>
      rw [walkSegs, walk]
      split
      · exact ih _
      · rfl

/-- The walk presents the members present when it starts, segment by segment. -/
theorem walkSegs_eq {read : σ → Nat → BitVec w} {f : Nat → σ → σ × Bool} (h : OwnBit read f)
    {segs : List (Nat × BitVec w)} (hnd : (segs.flatMap segPositions).Nodup) (s : σ) :
    walkSegs read f segs s =
      walk f ((segs.flatMap segPositions).filter (bitmapMem (read s))) s := by
  have hown : Own (fun s => bitmapMem (read s)) f := h
  rw [walkSegs_eq_walk]
  exact walk_blocks hown (fun seg _ s => walkBits_seg f (read s) seg s) hnd s

end Segs

end RvO3
