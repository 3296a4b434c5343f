import Mathlib.Algebra.Group.Nat.Defs
import Mathlib.Logic.Function.Basic
import Mathlib.Tactic.Common

/-!
# Array code that stays in bounds

Code on arrays and 32-bit words as computations in `Option`: an access outside an array, a
shift by the width or more and a division by zero answer `none`. An array is a function on
its indices together with a size. A loop all of whose steps answer, answers what the loop
without the checks does.
-/

set_option autoImplicit false

namespace RvO3.Bounded

variable {α β σ : Type}

/-- `a[i]` of an array of `size` elements. -/
def get (size : Nat) (a : Nat → α) (i : Nat) : Option α := if i < size then some (a i) else none

/-- `a[i] = v`. -/
def set (size : Nat) (a : Nat → α) (i : Nat) (v : α) : Option (Nat → α) :=
  if i < size then some (Function.update a i v) else none

/-- `x << n` on 32 bits. -/
def shl (x n : Nat) : Option Nat := if n < 32 then some ((x <<< n) % 2 ^ 32) else none

/-- `x >> n` on 32 bits. -/
def shr (x n : Nat) : Option Nat := if n < 32 then some (x >>> n) else none

/-- Division, which is undefined by zero. -/
def div (x n : Nat) : Option Nat := if n ≠ 0 then some (x / n) else none

/-- Remainder, which is undefined by zero. -/
def mod (x n : Nat) : Option Nat := if n ≠ 0 then some (x % n) else none

theorem get_eq {size i : Nat} (a : Nat → α) (h : i < size) : get size a i = some (a i) := if_pos h

theorem set_eq {size i : Nat} (a : Nat → α) (v : α) (h : i < size) :
    set size a i v = some (Function.update a i v) := if_pos h

theorem shr_eq (x : Nat) {n : Nat} (h : n < 32) : shr x n = some (x >>> n) := if_pos h

theorem div_eq (x : Nat) {n : Nat} (h : n ≠ 0) : div x n = some (x / n) := if_pos h

theorem mod_eq (x : Nat) {n : Nat} (h : n ≠ 0) : mod x n = some (x % n) := if_pos h

/-- No bit is lost. -/
theorem shl_eq {x n : Nat} (h : n < 32) (hx : x ≤ 1) : shl x n = some (x <<< n) := by
  have hpow : 2 ^ n < 2 ^ 32 := Nat.pow_lt_pow_right (by decide) h
  have hle : x * 2 ^ n ≤ 1 * 2 ^ n := Nat.mul_le_mul_right _ hx
  rw [shl, if_pos h, Nat.shiftLeft_eq, Nat.mod_eq_of_lt (by omega)]

/-! ### In front of the rest of a computation -/

section Bind

variable {size i x n : Nat} {v : α} {a : Nat → α}

theorem some_bind (v : α) (k : α → Option β) : (some v >>= k) = k v := rfl

theorem get_bind (h : i < size) (k : α → Option β) : (get size a i >>= k) = k (a i) := by
  rw [get_eq a h, some_bind]

theorem set_bind (h : i < size) (k : (Nat → α) → Option β) :
    (set size a i v >>= k) = k (Function.update a i v) := by
  rw [set_eq a v h, some_bind]

theorem mod_bind (h : n ≠ 0) (k : Nat → Option β) : (mod x n >>= k) = k (x % n) := by
  rw [mod_eq x h, some_bind]

theorem shl_bind (h : n < 32) (hx : x ≤ 1) (k : Nat → Option β) : (shl x n >>= k) = k (x <<< n) := by
  rw [shl_eq h hx, some_bind]

theorem shr_bind (h : n < 32) (k : Nat → Option β) : (shr x n >>= k) = k (x >>> n) := by
  rw [shr_eq x h, some_bind]

end Bind

/-! ## Loops -/

section Loops

variable {l : List α}

theorem mapM_eq {f : α → Option β} {g : α → β} (h : ∀ a ∈ l, f a = some (g a)) : l.mapM f = some (l.map g) := by
  induction l with
  | nil => rfl
  | cons a l ih =>
      rw [List.mapM_cons, h a List.mem_cons_self, ih fun b hb => h b (List.mem_cons_of_mem _ hb)]
      rfl

theorem findM?_eq {f : α → Option Bool} {g : α → Bool} (h : ∀ a ∈ l, f a = some (g a)) :
    l.findM? f = some (l.find? g) := by
  induction l with
  | nil => rfl
  | cons a l ih =>
      rw [List.findM?, h a List.mem_cons_self, List.find?_cons]
      cases g a with
      | true => rfl
      | false => exact ih fun b hb => h b (List.mem_cons_of_mem _ hb)

/-- Every step answers as long as `I` holds, and keeps it. -/
theorem foldlM_eq {I : σ → Prop} {f : σ → α → Option σ} {g : σ → α → σ}
    (h : ∀ a ∈ l, ∀ s, I s → f s a = some (g s a) ∧ I (g s a)) {s : σ} (hs : I s) :
    l.foldlM f s = some (l.foldl g s) := by
  induction l generalizing s with
  | nil => rfl
  | cons a l ih =>
      obtain ⟨h1, h2⟩ := h a List.mem_cons_self s hs
      rw [List.foldlM_cons, h1, List.foldl_cons]
      exact ih (fun b hb => h b (List.mem_cons_of_mem _ hb)) h2

/-- The loop that notes the first two elements that are hits, and breaks at the second. -/
def firstTwo (hit : α → Option Bool) : List α → Option (Option α × Option α)
  | [] => some (none, none)
  | a :: l => do
      if ← hit a then
        let second ← l.findM? hit
        return (some a, second)
      else firstTwo hit l

theorem firstTwo_eq {f : α → Option Bool} {g : α → Bool} (h : ∀ a ∈ l, f a = some (g a)) :
    firstTwo f l = some ((l.filter g)[0]?, (l.filter g)[1]?) := by
  induction l with
  | nil => rfl
  | cons a l ih =>
      have hl : ∀ b ∈ l, f b = some (g b) := fun b hb => h b (List.mem_cons_of_mem _ hb)
      rw [firstTwo, h a List.mem_cons_self, List.filter_cons]
      cases g a with
      | true =>
          show (do let second ← l.findM? f; return (some a, second)) = _
          rw [findM?_eq hl, if_pos rfl, ← List.head?_filter, List.head?_eq_getElem?]
          rfl
      | false => exact ih hl

end Loops

end RvO3.Bounded
