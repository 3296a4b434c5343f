import Mathlib.Data.List.Basic
import Mathlib.Data.List.Range
import Mathlib.Tactic.Common
import RvO3.Isa.Instr

/-!
# The run-length benchmark

`bench/rle.c` encodes a buffer as pairs of a count and a value, a count being one byte, and decodes
it again. A run ends where the value changes, at the end of the buffer, and at 255 elements, so that the
count is never cut by its conversion to a byte (`runLength_spec`). Decoding gives the buffer
back, whatever is in it, and neither loop leaves its array (`decode_encode`).
-/

set_option autoImplicit false

namespace RvO3.Bench

/-! ## The program -/

section Program

variable (src : Nat → Byte) (n : Nat)

/-- The loop over one run, which starts at `i`. -/
def runLength (i run : Nat) : Nat :=
  if i + run < n ∧ src (i + run) = src i ∧ run < 255 then runLength i (run + 1) else run
  termination_by 255 - run
  decreasing_by omega

theorem runLength_ge (i run : Nat) : run ≤ runLength src n i run := by
  fun_induction runLength src n i run with
  | case1 run _ ih => omega
  | case2 run _ => exact Nat.le_refl run

/-- The pairs of the runs from `i` on, after those in `enc`. -/
def encode (i : Nat) (enc : List Byte) : List Byte :=
  if i < n then encode (i + runLength src n i 1) (enc ++ [BitVec.ofNat 8 (runLength src n i 1), src i]) else enc
  termination_by n - i
  decreasing_by
    have := runLength_ge src n i 1
    omega

/-- One pair after the other. -/
def decode : List Byte → List Byte
  | count :: value :: rest => List.replicate count.toNat value ++ decode rest
  | _ => []

end Program

/-! ## The round trip -/

section RoundTrip

variable {src : Nat → Byte} {n : Nat}

/-- A run is not empty, fits its byte, stays in the buffer and holds one value. -/
theorem runLength_spec {i run : Nat} (hin : i + run ≤ n) (hrun : run ≤ 255) (hsame : ∀ k < run, src (i + k) = src i) :
    i + runLength src n i run ≤ n ∧ runLength src n i run ≤ 255 ∧ ∀ k < runLength src n i run, src (i + k) = src i := by
  fun_induction runLength src n i run with
  | case1 run hgo ih =>
      obtain ⟨hlt, hnext, hroom⟩ := hgo
      apply ih (by omega) (by omega)
      intro k hk
      rcases Nat.lt_or_eq_of_le (Nat.le_of_lt_succ hk) with hold | rfl
      · exact hsame k hold
      · exact hnext
  | case2 run _ => exact ⟨hin, hrun, hsame⟩

theorem decode_append {enc rest : List Byte} (heven : 2 ∣ enc.length) : decode (enc ++ rest) = decode enc ++ decode rest := by
  fun_induction decode enc with
  | case1 count value more ih =>
      rw [List.cons_append, List.cons_append, decode, ih, List.append_assoc]
      rw [List.length_cons, List.length_cons] at heven
      omega
  | case2 enc hshort =>
      rcases enc with _ | ⟨a, _ | ⟨b, more⟩⟩
      · rfl
      · exact absurd heven (show ¬ 2 ∣ 1 by decide)
      · exact absurd rfl (hshort a b more)

/-- A run is the part of the buffer that it stands for. -/
theorem replicate_run {i r : Nat} (hsame : ∀ k < r, src (i + k) = src i) :
    List.replicate r (src i) = (List.range' i r).map src := by
  apply List.ext_getElem
  · rw [List.length_replicate, List.length_map, List.length_range']
  · intro k hk hk'
    rw [List.length_replicate] at hk
    rw [List.getElem_replicate, List.getElem_map, List.getElem_range', Nat.one_mul]
    exact (hsame k hk).symm

/-- What the encoder adds stands for the rest of the buffer, and is at most twice as long. -/
theorem encode_spec (i : Nat) (enc : List Byte) (heven : 2 ∣ enc.length) :
    decode (encode src n i enc) = decode enc ++ (List.range' i (n - i)).map src ∧
      (encode src n i enc).length ≤ enc.length + 2 * (n - i) := by
  fun_induction encode src n i enc with
  | case1 i enc hi ih =>
      have hge := runLength_ge src n i 1
      obtain ⟨hin, hfits, hsame⟩ := @runLength_spec src n i 1 (by omega) (by omega) (by
        intro k hk
        rw [Nat.lt_one_iff.mp hk, Nat.add_zero])
      generalize runLength src n i 1 = r at *
      obtain ⟨hdec, hlen⟩ := ih (by rw [List.length_append]; exact Nat.dvd_add heven (dvd_refl 2))
      rw [List.length_append, List.length_cons, List.length_cons, List.length_nil] at hlen
      refine ⟨?_, by omega⟩
      have hcount : (BitVec.ofNat 8 r).toNat = r := by
        rw [BitVec.toNat_ofNat, Nat.mod_eq_of_lt (by omega)]
      have hsplit : List.range' i (n - i) = List.range' i r ++ List.range' (i + r) (n - (i + r)) := by
        rw [List.range'_append_1]
        congr 1
        omega
      rw [hdec, decode_append heven, List.append_assoc, hsplit, List.map_append, ← replicate_run hsame]
      congr 2
      rw [decode, hcount]
      exact List.append_nil _
  | case2 i enc hi =>
      have hnone : n - i = 0 := by omega
      rw [hnone]
      exact ⟨(List.append_nil _).symm, Nat.le_refl _⟩

/-- **The run-length round trip.** Decoding gives back the buffer that was encoded; the encoding takes at
most two bytes for each of its elements. -/
theorem decode_encode (src : Nat → Byte) (n : Nat) :
    decode (encode src n 0 []) = (List.range n).map src ∧ (encode src n 0 []).length ≤ 2 * n := by
  obtain ⟨hdec, hlen⟩ := @encode_spec src n 0 [] (dvd_zero 2)
  rw [List.length_nil, Nat.zero_add] at hlen
  refine ⟨?_, hlen⟩
  rw [hdec, List.range_eq_range']
  rfl

end RoundTrip

end RvO3.Bench
