import Mathlib.Algebra.BigOperators.Group.List.Basic
import Mathlib.Algebra.Order.Group.Multiset
import Mathlib.Data.List.Nodup
import Mathlib.Data.Multiset.Filter
import Mathlib.Data.Multiset.UnionInter
import Mathlib.Logic.Function.Basic
import Mathlib.Tactic.Abel

/-!
# Tallies

A conservation law says that what several containers hold, taken together, is what it
should be. Two kinds of container are counted here: an array with a membership bit for
each index (`tally`) and a list of boxes (`bag`). The rules say how a tally or a bag
changes when one index or one box changes, and what a filter leaves.
-/

set_option autoImplicit false

namespace RvO3

/-! ## Containers indexed by slots -/

section Tally

variable {ι α : Type}

/-- The labels of the indices of `l` that are present. -/
def tally (l : List ι) (p : ι → Bool) (f : ι → α) : Multiset α := ↑((l.filter p).map f)

/-- One label, if it is present. -/
def single (b : Bool) (a : α) : Multiset α := if b then {a} else 0

@[simp] theorem single_true (a : α) : single true a = {a} := rfl

@[simp] theorem single_false (a : α) : single false a = 0 := rfl

@[simp] theorem tally_nil (p : ι → Bool) (f : ι → α) : tally [] p f = 0 := rfl

theorem tally_append (l m : List ι) (p : ι → Bool) (f : ι → α) :
    tally (l ++ m) p f = tally l p f + tally m p f := by
  simp [tally]

theorem tally_cons (i : ι) (l : List ι) (p : ι → Bool) (f : ι → α) :
    tally (i :: l) p f = single (p i) (f i) + tally l p f := by
  cases hp : p i with
  | true => simp [tally, hp]
  | false => simp [tally, hp]

theorem tally_singleton (i : ι) (p : ι → Bool) (f : ι → α) :
    tally [i] p f = single (p i) (f i) := by
  rw [tally_cons, tally_nil, add_zero]

theorem tally_congr {l : List ι} {p q : ι → Bool} {f g : ι → α}
    (h : ∀ i ∈ l, p i = q i ∧ f i = g i) : tally l p f = tally l q g := by
  induction l with
  | nil => rfl
  | cons a l ih =>
      have ha := h a List.mem_cons_self
      rw [tally_cons, tally_cons, ha.1, ha.2, ih fun i hi => h i (List.mem_cons_of_mem _ hi)]

theorem mem_tally {l : List ι} {p : ι → Bool} {f : ι → α} {a : α} :
    a ∈ tally l p f ↔ ∃ i ∈ l, p i = true ∧ f i = a := by
  simp [tally, and_assoc]

theorem tally_perm {l m : List ι} (h : l.Perm m) (p : ι → Bool) (f : ι → α) :
    tally l p f = tally m p f :=
  Multiset.coe_eq_coe.mpr ((h.filter p).map f)

/-- The indices of a mapped list. -/
theorem tally_map {κ : Type} (g : κ → ι) (l : List κ) (p : ι → Bool) (f : ι → α) :
    tally (l.map g) p f = tally l (fun k => p (g k)) fun k => f (g k) := by
  induction l with
  | nil => rfl
  | cons a l ih => rw [List.map_cons, tally_cons, tally_cons, ih]

/-- Two disjoint properties are tallied apart. -/
theorem tally_or {l : List ι} {p q : ι → Bool} (f : ι → α)
    (h : ∀ i ∈ l, p i = true → q i = false) :
    tally l (fun i => p i || q i) f = tally l p f + tally l q f := by
  induction l with
  | nil => rfl
  | cons a l ih =>
      rw [tally_cons, tally_cons, tally_cons, ih fun i hi => h i (List.mem_cons_of_mem _ hi)]
      have hsplit : single (p a || q a) (f a) = single (p a) (f a) + single (q a) (f a) := by
        cases hp : p a with
        | true => rw [h a List.mem_cons_self hp, Bool.or_false, single_false, add_zero]
        | false => rw [Bool.false_or, single_false, zero_add]
      rw [hsplit]
      abel

/-- A tally over a list, by position. -/
theorem tally_range [Inhabited ι] (l : List ι) (p : ι → Bool) (f : ι → α) :
    tally (List.range l.length) (fun k => p (l[k]?.getD default)) (fun k => f (l[k]?.getD default)) =
      tally l p f := by
  have hl : (List.range l.length).map (fun k => l[k]?.getD default) = l := by
    apply List.ext_getElem
    · simp
    · intro k h1 h2
      simp [List.getElem?_eq_getElem h2]
  rw [← tally_map (fun k => l[k]?.getD default) (List.range l.length) p f, hl]

/-- Where no label is tallied twice, a label is tallied at one index. -/
theorem tally_unique {l : List ι} {p : ι → Bool} {f : ι → α} (hnd : (tally l p f).Nodup)
    {i j : ι} (hi : i ∈ l) (hj : j ∈ l) (hpi : p i = true) (hpj : p j = true) (hf : f i = f j) :
    i = j :=
  List.inj_on_of_nodup_map (Multiset.coe_nodup.mp hnd) (List.mem_filter.mpr ⟨hi, hpi⟩)
    (List.mem_filter.mpr ⟨hj, hpj⟩) hf

/-- When one index changes, its old label leaves and its new one enters. -/
theorem tally_change [DecidableEq ι] {l : List ι} (hl : l.Nodup) {s : ι} (hs : s ∈ l)
    {p q : ι → Bool} {f g : ι → α} (h : ∀ i ∈ l, i ≠ s → q i = p i ∧ g i = f i) :
    tally l q g + single (p s) (f s) = tally l p f + single (q s) (g s) := by
  have hsplit := List.perm_cons_erase hs
  rw [tally_perm hsplit q g, tally_perm hsplit p f, tally_cons, tally_cons]
  have hrest : tally (l.erase s) q g = tally (l.erase s) p f := by
    apply tally_congr
    intro i hi
    have hi' := (List.Nodup.mem_erase_iff hl).mp hi
    exact h i hi'.2 hi'.1
  rw [hrest]
  abel

theorem tally_filter (l : List ι) (p : ι → Bool) (f : ι → α) (r : α → Prop) [DecidablePred r] :
    (tally l p f).filter r = tally (l.filter fun i => decide (r (f i))) p f := by
  induction l with
  | nil => rfl
  | cons a l ih =>
      rw [tally_cons, Multiset.filter_add, ih]
      by_cases hr : r (f a)
      · rw [List.filter_cons_of_pos (by simpa using hr), tally_cons]
        congr 1
        cases p a <;> simp [single, hr, Multiset.filter_singleton]
      · rw [List.filter_cons_of_neg (by simpa using hr)]
        cases p a <;> simp [single, hr, Multiset.filter_singleton]

/-- A tally in which every index that survives a filter keeps its bit. -/
theorem tally_restrict {l : List ι} {p q : ι → Bool} {f g : ι → α} (r : α → Prop)
    [DecidablePred r] (hq : ∀ i ∈ l, q i = (p i && decide (r (f i))))
    (hg : ∀ i ∈ l, q i = true → g i = f i) :
    tally l q g = (tally l p f).filter r := by
  induction l with
  | nil => rfl
  | cons a l ih =>
      have hqa := hq a List.mem_cons_self
      have hga := hg a List.mem_cons_self
      rw [tally_cons, tally_cons, Multiset.filter_add,
        ih (fun i hi => hq i (List.mem_cons_of_mem _ hi))
          (fun i hi => hg i (List.mem_cons_of_mem _ hi))]
      congr 1
      cases hp : p a with
      | false =>
          rw [hp] at hqa
          simp [hqa]
      | true =>
          rw [hp] at hqa
          by_cases hr : r (f a)
          · have hqt : q a = true := by simp [hqa, hr]
            simp [hqt, hga hqt, hr, Multiset.filter_singleton]
          · simp [hqa, hr, Multiset.filter_singleton]

end Tally

/-! ## Containers that are lists of boxes -/

section Bag

variable {α β : Type}

/-- What the boxes hold together. -/
def bag (us : List α) (g : α → Multiset β) : Multiset β := (us.map g).sum

@[simp] theorem bag_nil (g : α → Multiset β) : bag [] g = 0 := rfl

@[simp] theorem bag_cons (u : α) (us : List α) (g : α → Multiset β) :
    bag (u :: us) g = g u + bag us g := by
  simp [bag]

theorem bag_congr {us : List α} {g h : α → Multiset β} (hgh : ∀ u ∈ us, g u = h u) :
    bag us g = bag us h := by
  unfold bag
  rw [List.map_congr_left hgh]

theorem bag_map {γ : Type} (us : List γ) (f : γ → α) (g : α → Multiset β) :
    bag (us.map f) g = bag us fun u => g (f u) := by
  simp [bag, Function.comp_def]

theorem mem_bag {us : List α} {g : α → Multiset β} {b : β} :
    b ∈ bag us g ↔ ∃ u ∈ us, b ∈ g u := by
  induction us with
  | nil => simp
  | cons u us ih => simp [ih]

theorem bag_eq_zero {us : List α} {g : α → Multiset β} (h : ∀ u ∈ us, g u = 0) :
    bag us g = 0 := by
  induction us with
  | nil => rfl
  | cons u us ih =>
      rw [bag_cons, h u List.mem_cons_self, zero_add]
      exact ih fun v hv => h v (List.mem_cons_of_mem _ hv)

/-- What the boxes hold, by position. -/
theorem bag_range [Inhabited α] (us : List α) (g : α → Multiset β) :
    bag (List.range us.length) (fun k => g (us[k]?.getD default)) = bag us g := by
  have hl : (List.range us.length).map (fun k => us[k]?.getD default) = us := by
    apply List.ext_getElem
    · simp
    · intro k h1 h2
      simp [List.getElem?_eq_getElem h2]
  rw [← bag_map (List.range us.length) (fun k => us[k]?.getD default) g, hl]

/-- Boxes that are tallies are a tally of all their indices. -/
theorem bag_tally {ι : Type} (us : List α) (l : α → List ι) (p : ι → Bool) (f : ι → β) :
    (bag us fun u => tally (l u) p f) = tally (us.flatMap l) p f := by
  induction us with
  | nil => rfl
  | cons u us ih => rw [bag_cons, ih, List.flatMap_cons, tally_append]

/-- When one box changes, its old content leaves and its new content enters. -/
theorem bag_modify (f : α → α) (g : α → Multiset β) {us : List α} {i : Nat} {u : α}
    (h : us[i]? = some u) : bag (us.modify i f) g + g u = bag us g + g (f u) := by
  induction us generalizing i with
  | nil => simp at h
  | cons a us ih =>
      cases i with
      | zero =>
          have ha : a = u := by simpa using h
          subst ha
          rw [List.modify_zero_cons, bag_cons, bag_cons]
          abel
      | succ i =>
          have h' : us[i]? = some u := by simpa using h
          rw [List.modify_succ_cons, bag_cons, bag_cons, add_assoc, ih h', add_assoc]

theorem bag_set (g : α → Multiset β) {us : List α} {i : Nat} {u : α} (h : us[i]? = some u)
    (v : α) : bag (us.set i v) g + g u = bag us g + g v := by
  rw [List.set_eq_modify]
  exact bag_modify (fun _ => v) g h

theorem bag_filter (us : List α) (g : α → Multiset β) (r : β → Prop) [DecidablePred r] :
    (bag us g).filter r = bag us fun u => (g u).filter r := by
  induction us with
  | nil => rfl
  | cons u us ih => rw [bag_cons, bag_cons, Multiset.filter_add, ih]

end Bag

end RvO3
