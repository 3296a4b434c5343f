import RvO3.Isa.Instr
import RvO3.Lib.Strides

/-!
# Copying and filling memory

`memcpy` and `memset` of `doom/memops.c`, which move words where the pointers are word-aligned,
and the byte loops of `cdemo/runtime.c` that they replace. A program's memory is a byte for each
address, and every access is recorded, because the simulator kills a program on a misaligned one.

Both versions write a growing prefix of the destination (`written`), whatever the strides are.
-/

set_option autoImplicit false

namespace RvO3.Doom

/-! ## Memory -/

/-- One load or store. -/
structure Access where
  write : Bool
  addr : Word
  size : Nat
  deriving DecidableEq, Repr

/-- The memory of a program, and its accesses so far. -/
structure Store where
  mem : Word → Byte
  log : List Access

/-- A byte is read, and the access noted. -/
def Store.load8 (s : Store) (a : Word) : Byte × Store := (s.mem a, { s with log := s.log ++ [⟨false, a, 1⟩] })

/-- A byte is written, and the access noted. -/
def Store.store8 (s : Store) (a : Word) (v : Byte) : Store :=
  { mem := fun x => if x = a then v else s.mem x, log := s.log ++ [⟨true, a, 1⟩] }

/-- A word is little-endian. -/
def Store.load32 (s : Store) (a : Word) : Word × Store :=
  (s.mem (a + 3) ++ s.mem (a + 2) ++ s.mem (a + 1) ++ s.mem a, { s with log := s.log ++ [⟨false, a, 4⟩] })

/-- A word is written in little-endian order, and the access noted. -/
def Store.store32 (s : Store) (a : Word) (v : Word) : Store :=
  { mem := fun x => if (x - a).toNat < 4 then v.extractLsb' (8 * (x - a).toNat) 8 else s.mem x,
    log := s.log ++ [⟨true, a, 4⟩] }

/-! ## The byte loops of `cdemo` -/

/-- `for (i = 0; i < count; ++i) out[i] = in[i];` -/
def byteMemcpy (s : Store) (destination source : Word) (count : Nat) : Store × Word :=
  ((List.range count).foldl (fun s i =>
    let (v, s) := s.load8 (source + BitVec.ofNat 32 i)
    s.store8 (destination + BitVec.ofNat 32 i) v) s, destination)

/-- The byte loop that `memset` replaces. -/
def byteMemset (s : Store) (destination value : Word) (count : Nat) : Store × Word :=
  ((List.range count).foldl (fun s i => s.store8 (destination + BitVec.ofNat 32 i) (value.setWidth 8)) s,
    destination)

/-! ## The word loops of `doom` -/

/-- The first three loops of both functions: bytes up to an aligned address, blocks of four words
and single words. What is left of the count is less than a word. -/
def wordLoops {σ : Type} (out : σ → Word) (byte block word : σ → σ) (count : Nat) (s : σ) : σ × Nat :=
  let (s, count) := countLoop 1 (by decide) (fun s => out s &&& 3#32 ≠ 0) byte count s
  let (s, count) := countLoop 16 (by decide) (fun _ => true) block count s
  countLoop 4 (by decide) (fun _ => true) word count s

/-- The pointers of `memcpy`, which move together. -/
structure Cursor where
  store : Store
  out : Word
  inp : Word

/-- `*out++ = *in++` -/
def Cursor.copyByte (c : Cursor) : Cursor :=
  let (v, s) := c.store.load8 c.inp
  ⟨s.store8 c.out v, c.out + 1, c.inp + 1⟩

/-- `*wo++ = *wi++` -/
def Cursor.copyWord (c : Cursor) : Cursor :=
  let (v, s) := c.store.load32 c.inp
  ⟨s.store32 c.out v, c.out + 4, c.inp + 4⟩

/-- Four words are loaded, and then they are stored. -/
def Cursor.copyBlock (cur : Cursor) : Cursor :=
  let (a, s) := cur.store.load32 cur.inp
  let (b, s) := s.load32 (cur.inp + 4)
  let (c, s) := s.load32 (cur.inp + 8)
  let (d, s) := s.load32 (cur.inp + 12)
  let s := s.store32 cur.out a
  let s := s.store32 (cur.out + 4) b
  let s := s.store32 (cur.out + 8) c
  let s := s.store32 (cur.out + 12) d
  ⟨s, cur.out + 16, cur.inp + 16⟩

/-- Words are used only where both pointers can be aligned together. -/
def memcpy (s : Store) (destination source : Word) (count : Nat) : Store × Word :=
  let c : Cursor := ⟨s, destination, source⟩
  let (c, count) :=
    if (destination ^^^ source) &&& 3#32 = 0 then
      wordLoops Cursor.out Cursor.copyByte Cursor.copyBlock Cursor.copyWord count c
    else (c, count)
  ((countLoop 1 (by decide) (fun _ => true) Cursor.copyByte count c).1.store, destination)

/-- The pointer of `memset`. -/
structure Filler where
  store : Store
  out : Word

/-- One turn of the byte loops. -/
def Filler.fillByte (byte : Byte) (c : Filler) : Filler := ⟨c.store.store8 c.out byte, c.out + 1⟩

/-- One turn of the word loop. -/
def Filler.fillWord (pattern : Word) (c : Filler) : Filler := ⟨c.store.store32 c.out pattern, c.out + 4⟩

/-- One turn of the loop that writes four words. -/
def Filler.fillBlock (pattern : Word) (c : Filler) : Filler :=
  let s := c.store.store32 c.out pattern
  let s := s.store32 (c.out + 4) pattern
  let s := s.store32 (c.out + 8) pattern
  let s := s.store32 (c.out + 12) pattern
  ⟨s, c.out + 16⟩

/-- `memset`: bytes up to an aligned address, blocks of four words, words, and the bytes that are
left. -/
def memset (s : Store) (destination value : Word) (count : Nat) : Store × Word :=
  let byte : Byte := value.setWidth 8
  let pattern : Word := byte.setWidth 32 * 0x01010101#32
  let (c, count) :=
    wordLoops Filler.out (Filler.fillByte byte) (Filler.fillBlock pattern) (Filler.fillWord pattern) count ⟨s, destination⟩
  ((countLoop 1 (by decide) (fun _ => true) (Filler.fillByte byte) count c).1.store, destination)

/-! ## A written prefix -/

/-- The memory `m` with the first `k` bytes from `d` on written, the one at offset `i` with `f i`. -/
def written (d : Word) (f : Word → Byte) (k : Nat) (m : Word → Byte) : Word → Byte :=
  fun x => if (x - d).toNat < k then f (x - d) else m x

section Written

variable {d src : Word} {f : Word → Byte} {m : Word → Byte} {k n : Nat} {s : Store}

/-- The next byte. -/
theorem store8_written (hk : k < 2 ^ 32) (hs : s.mem = written d f k m) {v : Byte} (hv : v = f (BitVec.ofNat 32 k)) :
    (s.store8 (d + BitVec.ofNat 32 k) v).mem = written d f (k + 1) m := by
  funext x
  have hat : x = d + BitVec.ofNat 32 k ↔ (x - d).toNat = k := by
    constructor
    · rintro rfl
      rw [BitVec.add_comm, BitVec.add_sub_cancel, BitVec.toNat_ofNat, Nat.mod_eq_of_lt hk]
    · intro h
      rw [← h, BitVec.ofNat_toNat, BitVec.setWidth_eq, BitVec.add_comm, BitVec.sub_add_cancel]
  show (if x = d + BitVec.ofNat 32 k then v else s.mem x) = _
  rw [hs]
  unfold written
  by_cases hx : (x - d).toNat = k
  · rw [if_pos (hat.mpr hx), if_pos (by omega), hv, ← hx, BitVec.ofNat_toNat, BitVec.setWidth_eq]
  · rw [if_neg fun h => hx (hat.mp h)]
    by_cases hlt : (x - d).toNat < k
    · rw [if_pos hlt, if_pos (by omega)]
    · rw [if_neg hlt, if_neg (by omega)]

/-- The next word, byte by byte. -/
theorem store32_written (hk : k + 4 ≤ 2 ^ 32) (hs : s.mem = written d f k m) {v : Word}
    (hv : ∀ i < 4, v.extractLsb' (8 * i) 8 = f (BitVec.ofNat 32 (k + i))) :
    (s.store32 (d + BitVec.ofNat 32 k) v).mem = written d f (k + 4) m := by
  funext x
  -- the offset in the word is the offset in the range less `k`
  have hoff : x - (d + BitVec.ofNat 32 k) = x - d - BitVec.ofNat 32 k :=
    (sub_sub x d _).symm
  have hsub : (x - d - BitVec.ofNat 32 k).toNat = (2 ^ 32 - k + (x - d).toNat) % 2 ^ 32 := by
    rw [BitVec.toNat_sub, BitVec.toNat_ofNat, Nat.mod_eq_of_lt (show k < 2 ^ 32 by omega)]
  have hlt := (x - d).isLt
  show (if (x - (d + BitVec.ofNat 32 k)).toNat < 4 then
    v.extractLsb' (8 * (x - (d + BitVec.ofNat 32 k)).toNat) 8 else s.mem x) = _
  rw [hoff, hsub, hs]
  unfold written
  by_cases hin : k ≤ (x - d).toNat ∧ (x - d).toNat < k + 4
  · have hi : (2 ^ 32 - k + (x - d).toNat) % 2 ^ 32 = (x - d).toNat - k := by omega
    rw [hi, if_pos (by omega), if_pos hin.2, hv _ (by omega)]
    rw [show k + ((x - d).toNat - k) = (x - d).toNat by omega, BitVec.ofNat_toNat, BitVec.setWidth_eq]
  · rw [if_neg (by omega)]
    by_cases hbelow : (x - d).toNat < k
    · rw [if_pos hbelow, if_pos (by omega)]
    · rw [if_neg hbelow, if_neg (by omega)]

/-- Bytes away from the destination are those of the start. -/
theorem written_outside {x : Word} (hx : n ≤ (x - d).toNat) (hk : k ≤ n) : written d f k m x = m x :=
  if_neg (by omega)

end Written

/-! ## Stores that extend the prefix -/

/-- The access stays within the `n` bytes from `a` on. -/
def Inside (a : Word) (n : Nat) (x : Access) : Prop :=
  a.toNat ≤ x.addr.toNat ∧ x.addr.toNat + x.size ≤ a.toNat + n

/-- Words are aligned, stores stay in the destination, and loads where they may read. -/
structure Allowed (d : Word) (n : Nat) (readable : Access → Prop) (x : Access) : Prop where
  aligned : x.size = 4 → x.addr.toNat % 4 = 0
  written : x.write = true → Inside d n x
  read : x.write = false → readable x

/-- After `k` of `n` bytes: the pointer, the memory and the accesses. -/
structure Moved (d : Word) (f : Word → Byte) (n : Nat) (readable : Access → Prop) (m : Word → Byte) (k : Nat)
    (s : Store) (out : Word) : Prop where
  out : out = d + BitVec.ofNat 32 k
  mem : s.mem = written d f k m
  log : ∀ x ∈ s.log, Allowed d n readable x

section Moved

variable {d out : Word} {f : Word → Byte} {m : Word → Byte} {k n : Nat} {s : Store} {readable : Access → Prop}

theorem add_offset {a : Word} {j : Nat} (h : a.toNat + j < 2 ^ 32) : (a + BitVec.ofNat 32 j).toNat = a.toNat + j := by
  rw [BitVec.toNat_add, BitVec.toNat_ofNat, Nat.mod_eq_of_lt (show j < 2 ^ 32 by omega), Nat.mod_eq_of_lt h]

theorem offset_add (a : Word) (i j : Nat) : a + BitVec.ofNat 32 i + BitVec.ofNat 32 j = a + BitVec.ofNat 32 (i + j) := by
  rw [BitVec.add_assoc, ← BitVec.ofNat_add]

theorem inside_offset {a : Word} {j size : Nat} {write : Bool} (ha : a.toNat + n ≤ 2 ^ 32) (hsize : 0 < size)
    (hj : j + size ≤ n) : Inside a n ⟨write, a + BitVec.ofNat 32 j, size⟩ := by
  have hoff := add_offset (a := a) (j := j) (by omega)
  show a.toNat ≤ (a + BitVec.ofNat 32 j).toNat ∧ (a + BitVec.ofNat 32 j).toNat + size ≤ a.toNat + n
  omega

theorem Moved.store8 (hd : d.toNat + n ≤ 2 ^ 32) (h : Moved d f n readable m k s out) (hk : k + 1 ≤ n) {v : Byte}
    (hv : v = f (BitVec.ofNat 32 k)) : Moved d f n readable m (k + 1) (s.store8 out v) (out + 1) := by
  obtain ⟨rfl, hmem, hlog⟩ := h
  refine ⟨offset_add d k 1, store8_written (by omega) hmem hv, fun x hx => ?_⟩
  rcases List.mem_append.mp hx with hx | hx
  · exact hlog x hx
  · rw [List.mem_singleton.mp hx]
    exact ⟨nofun, fun _ => inside_offset hd Nat.one_pos hk, nofun⟩

theorem Moved.store32 (hd : d.toNat + n ≤ 2 ^ 32) (h : Moved d f n readable m k s out) (hk : k + 4 ≤ n)
    (hal : (d.toNat + k) % 4 = 0) {v : Word} (hv : ∀ i < 4, v.extractLsb' (8 * i) 8 = f (BitVec.ofNat 32 (k + i))) :
    Moved d f n readable m (k + 4) (s.store32 out v) (out + 4) := by
  obtain ⟨rfl, hmem, hlog⟩ := h
  refine ⟨offset_add d k 4, store32_written (by omega) hmem hv, fun x hx => ?_⟩
  rcases List.mem_append.mp hx with hx | hx
  · exact hlog x hx
  · rw [List.mem_singleton.mp hx]
    refine ⟨fun _ => ?_, fun _ => inside_offset hd (by decide) hk, nofun⟩
    show (d + BitVec.ofNat 32 k).toNat % 4 = 0
    rw [add_offset (by omega)]
    exact hal

/-- Four stores of words, as in the unrolled loops. -/
theorem Moved.store128 (hd : d.toNat + n ≤ 2 ^ 32) (h : Moved d f n readable m k s out) (hk : k + 16 ≤ n)
    (hal : (d.toNat + k) % 4 = 0) {v₀ v₁ v₂ v₃ : Word}
    (h₀ : ∀ i < 4, v₀.extractLsb' (8 * i) 8 = f (BitVec.ofNat 32 (k + i)))
    (h₁ : ∀ i < 4, v₁.extractLsb' (8 * i) 8 = f (BitVec.ofNat 32 (k + 4 + i)))
    (h₂ : ∀ i < 4, v₂.extractLsb' (8 * i) 8 = f (BitVec.ofNat 32 (k + 8 + i)))
    (h₃ : ∀ i < 4, v₃.extractLsb' (8 * i) 8 = f (BitVec.ofNat 32 (k + 12 + i))) :
    Moved d f n readable m (k + 16)
      ((((s.store32 out v₀).store32 (out + 4) v₁).store32 (out + 8) v₂).store32 (out + 12) v₃) (out + 16) := by
  have hstep : ∀ i j : Nat, out + BitVec.ofNat 32 i + BitVec.ofNat 32 j = out + BitVec.ofNat 32 (i + j) := offset_add out
  have s₁ := h.store32 hd (by omega) hal h₀
  have s₂ := s₁.store32 hd (by omega) (by omega) h₁
  rw [show out + 4 + 4 = out + 8 from hstep 4 4] at s₂
  have s₃ := s₂.store32 hd (by omega) (by omega) h₂
  rw [show out + 8 + 4 = out + 12 from hstep 8 4] at s₃
  have s₄ := s₃.store32 hd (by omega) (by omega) h₃
  rw [show out + 12 + 4 = out + 16 from hstep 12 4] at s₄
  exact s₄

/-- A load changes nothing and is recorded. -/
theorem Moved.load (a : Word) (size : Nat) (h : Moved d f n readable m k s out)
    (hal : size = 4 → a.toNat % 4 = 0) (hread : readable ⟨false, a, size⟩) :
    Moved d f n readable m k { s with log := s.log ++ [⟨false, a, size⟩] } out := by
  refine ⟨h.out, h.mem, fun x hx => ?_⟩
  rcases List.mem_append.mp hx with hx | hx
  · exact h.log x hx
  · rw [List.mem_singleton.mp hx]
    exact ⟨hal, nofun, fun _ => hread⟩

end Moved

/-- The bytes of a word that is loaded. -/
theorem load32_byte (s : Store) (a : Word) {i : Nat} (hi : i < 4) :
    (s.load32 a).1.extractLsb' (8 * i) 8 = s.mem (a + BitVec.ofNat 32 i) := by
  apply BitVec.eq_of_getLsbD_eq
  intro j hj
  unfold Store.load32
  rw [BitVec.getLsbD_extractLsb', decide_eq_true hj, Bool.true_and]
  simp only [BitVec.getLsbD_append]
  -- byte `i` is the one that bit `8 * i + j` falls into
  match i, hi with
  | 0, _ => simp [hj]
  | 1, _ =>
      rw [if_neg (by omega), if_pos (by omega), show 8 * 1 + j - 8 = j by omega]
      rfl
  | 2, _ =>
      rw [if_neg (by omega), if_neg (by omega), if_pos (by omega), show 8 * 2 + j - 8 - 8 = j by omega]
      rfl
  | 3, _ =>
      rw [if_neg (by omega), if_neg (by omega), if_neg (by omega), show 8 * 3 + j - 8 - 8 - 8 = j by omega]
      rfl

/-- Every byte of the pattern of `memset` is the fill byte. -/
theorem pattern_byte (byte : Byte) {i : Nat} (hi : i < 4) :
    (byte.setWidth 32 * 0x01010101#32).extractLsb' (8 * i) 8 = byte := by
  have h : ∀ byte : Byte, ∀ i < 4, (byte.setWidth 32 * 0x01010101#32).extractLsb' (8 * i) 8 = byte := by decide +kernel
  exact h byte i hi

/-! ## Words where the pointers are aligned -/

/-- The low two bits. -/
theorem and_three (x : Word) : (x &&& 3#32).toNat = x.toNat % 4 := by
  rw [BitVec.toNat_and]
  exact Nat.and_two_pow_sub_one_eq_mod x.toNat 2

/-- The test of the first loop. -/
theorem unaligned_iff (x : Word) : decide (x &&& 3#32 ≠ 0) = false ↔ x.toNat % 4 = 0 := by
  rw [decide_eq_false_iff_not, Decidable.not_not, ← and_three]
  constructor
  · intro h
    rw [h]
    rfl
  · exact fun h => BitVec.eq_of_toNat_eq h

/-- Two pointers that can be aligned together. -/
theorem xor_aligned {x y : Word} (h : (x ^^^ y) &&& 3#32 = 0) : x.toNat % 4 = y.toNat % 4 := by
  have hand : x &&& 3#32 = y &&& 3#32 := by
    apply BitVec.eq_of_getLsbD_eq
    intro i hi
    have hbit := congrArg (fun z : Word => z.getLsbD i) h
    simp only [BitVec.getLsbD_and, BitVec.getLsbD_xor] at hbit ⊢
    revert hbit
    cases x.getLsbD i <;> cases y.getLsbD i <;> cases (3#32).getLsbD i <;> simp
  rw [← and_three, ← and_three, hand]

section Loops

variable {σ : Type} {d : Word} {n : Nat} {P : Nat → σ → Prop}

/-- The three loops keep an invariant of the number of bytes done, if single bytes keep it and
words keep it at aligned addresses. -/
theorem wordLoops_inv (out : σ → Word) (byte block word : σ → σ) (hd : d.toNat + n ≤ 2 ^ 32) (hout : ∀ k s, P k s → out s = d + BitVec.ofNat 32 k)
    (hbyte : ∀ k s, k + 1 ≤ n → P k s → P (k + 1) (byte s))
    (hblock : ∀ k s, k + 16 ≤ n → (d.toNat + k) % 4 = 0 → P k s → P (k + 16) (block s))
    (hword : ∀ k s, k + 4 ≤ n → (d.toNat + k) % 4 = 0 → P k s → P (k + 4) (word s))
    {s : σ} (h : P 0 s) :
    ∃ k, k + (wordLoops out byte block word n s).2 = n ∧ P k (wordLoops out byte block word n s).1 := by
  obtain ⟨k₁, hk₁, hP₁, hstop⟩ := countLoop_inv Nat.one_pos (fun s => decide (out s &&& 3#32 ≠ 0))
    (fun k s hk _ hP => hbyte k s hk hP) (Nat.zero_add n) h
  -- past the first loop the address is aligned, unless nothing is left
  have hal : k₁ < n → (d.toNat + k₁) % 4 = 0 := by
    intro hlt
    have hcond := hstop
    rw [not_and, Bool.not_eq_true] at hcond
    have haddr := (unaligned_iff _).mp (hcond (by omega))
    rwa [hout k₁ _ hP₁, add_offset (by omega)] at haddr
  have hkeep : ∀ {stride : Nat} {step : σ → σ}, 4 ∣ stride → 0 < stride →
      (∀ k s, k + stride ≤ n → (d.toNat + k) % 4 = 0 → P k s → P (k + stride) (step s)) →
      ∀ k s, k + stride ≤ n → P k s ∧ (k < n → (d.toNat + k) % 4 = 0) →
        P (k + stride) (step s) ∧ (k + stride < n → (d.toNat + (k + stride)) % 4 = 0) := by
    rintro stride step ⟨j, rfl⟩ hpos hstep k s hk ⟨hP, hmod⟩
    have hnow := hmod (by omega)
    exact ⟨hstep k s hk hnow hP, fun _ => by omega⟩
  obtain ⟨k₂, hk₂, hP₂, -⟩ := countLoop_rest (show 0 < 16 by decide)
    (hkeep (by decide) (by decide) hblock) hk₁ ⟨hP₁, hal⟩
  obtain ⟨k₃, hk₃, hP₃, -⟩ := countLoop_rest (show 0 < 4 by decide)
    (hkeep (by decide) (by decide) hword) hk₂ hP₂
  exact ⟨k₃, hk₃, hP₃.1⟩

/-- The last loop leaves nothing. -/
theorem byteLoop_inv {byte : σ → σ} (hbyte : ∀ k s, k + 1 ≤ n → P k s → P (k + 1) (byte s)) {k count : Nat} {s : σ}
    (hk : k + count = n) (h : P k s) : P n (countLoop 1 (by decide) (fun _ => true) byte count s).1 := by
  obtain ⟨k', hk', hP, hrest⟩ := countLoop_rest Nat.one_pos hbyte hk h
  have hn : k' = n := by omega
  rwa [hn] at hP

end Loops

/-! ## Copying -/

/-- The ranges have no byte in common. -/
def Disjoint (d src : Word) (n : Nat) : Prop := d.toNat + n ≤ src.toNat ∨ src.toNat + n ≤ d.toNat

/-- After `k` of `n` bytes of a copy. -/
structure Copied (d src : Word) (n : Nat) (m : Word → Byte) (k : Nat) (c : Cursor) : Prop where
  moved : Moved d (fun i => m (src + i)) n (Inside src n) m k c.store c.out
  inp : c.inp = src + BitVec.ofNat 32 k

section Copy

variable {d src : Word} {n k : Nat} {m : Word → Byte} {s : Store} {c : Cursor}

/-- The source lies outside what is written. -/
theorem source_outside (hd : d.toNat + n ≤ 2 ^ 32) (hs : src.toNat + n ≤ 2 ^ 32) (hdis : Disjoint d src n) {j : Nat}
    (hj : j < n) : n ≤ (src + BitVec.ofNat 32 j - d).toNat := by
  have hoff := add_offset (a := src) (j := j) (by omega)
  have hlt := d.isLt
  rw [BitVec.toNat_sub, hoff]
  rcases hdis with h | h <;> omega

/-- The bytes of a word of the source. -/
theorem load32_source (hd : d.toNat + n ≤ 2 ^ 32) (hs : src.toNat + n ≤ 2 ^ 32) (hdis : Disjoint d src n)
    (hmem : s.mem = written d (fun i => m (src + i)) k m) (hk : k ≤ n) {j : Nat} (hj : j + 4 ≤ n) :
    ∀ i < 4, (s.load32 (src + BitVec.ofNat 32 j)).1.extractLsb' (8 * i) 8 = m (src + BitVec.ofNat 32 (j + i)) := by
  intro i hi
  rw [load32_byte s _ hi, offset_add, hmem]
  exact written_outside (source_outside hd hs hdis (by omega)) hk

theorem copyByte_copied (hd : d.toNat + n ≤ 2 ^ 32) (hs : src.toNat + n ≤ 2 ^ 32) (hdis : Disjoint d src n)
    (hk : k + 1 ≤ n) (h : Copied d src n m k c) : Copied d src n m (k + 1) c.copyByte := by
  obtain ⟨hmoved, hinp⟩ := h
  have hload := hmoved.load c.inp 1 nofun (by rw [hinp]; exact inside_offset hs Nat.one_pos hk)
  have hbyte : c.store.mem c.inp = m (src + BitVec.ofNat 32 k) := by
    rw [hinp, hmoved.mem]
    exact written_outside (source_outside hd hs hdis (by omega)) (by omega)
  refine ⟨hload.store8 hd hk hbyte, ?_⟩
  show c.inp + 1 = _
  rw [hinp]
  exact offset_add src k 1

/-- A word of the source is loaded from an aligned address. -/
theorem load_word (hs : src.toNat + n ≤ 2 ^ 32) {j : Nat} (hj : j + 4 ≤ n) (hal : (src.toNat + j) % 4 = 0)
    {out : Word} (h : Moved d (fun i => m (src + i)) n (Inside src n) m k s out) :
    Moved d (fun i => m (src + i)) n (Inside src n) m k (s.load32 (src + BitVec.ofNat 32 j)).2 out := by
  apply h.load
  · intro _
    rw [add_offset (by omega)]
    exact hal
  · exact inside_offset hs (by decide) hj

theorem copyWord_copied (hd : d.toNat + n ≤ 2 ^ 32) (hs : src.toNat + n ≤ 2 ^ 32) (hdis : Disjoint d src n)
    (hmod : d.toNat % 4 = src.toNat % 4) (hk : k + 4 ≤ n) (hal : (d.toNat + k) % 4 = 0) (h : Copied d src n m k c) :
    Copied d src n m (k + 4) c.copyWord := by
  obtain ⟨hmoved, hinp⟩ := h
  unfold Cursor.copyWord
  rw [hinp]
  have hload := load_word hs hk (by omega) hmoved
  have hword := load32_source hd hs hdis hmoved.mem (by omega) hk
  exact ⟨hload.store32 hd hk hal hword, offset_add src k 4⟩

theorem copyBlock_copied (hd : d.toNat + n ≤ 2 ^ 32) (hs : src.toNat + n ≤ 2 ^ 32) (hdis : Disjoint d src n)
    (hmod : d.toNat % 4 = src.toNat % 4) (hk : k + 16 ≤ n) (hal : (d.toNat + k) % 4 = 0) (h : Copied d src n m k c) :
    Copied d src n m (k + 16) c.copyBlock := by
  obtain ⟨hmoved, hinp⟩ := h
  have hat : ∀ j : Nat, c.inp + BitVec.ofNat 32 j = src + BitVec.ofNat 32 (k + j) := by
    intro j
    rw [hinp]
    exact offset_add src k j
  unfold Cursor.copyBlock
  rw [show c.inp + 4 = _ from hat 4, show c.inp + 8 = _ from hat 8, show c.inp + 12 = _ from hat 12,
    show c.inp + 16 = _ from hat 16, hinp]
  -- four loads, which leave the memory alone
  have hload₁ := load_word hs (j := k) (by omega) (by omega) hmoved
  have hload₂ := load_word hs (j := k + 4) (by omega) (by omega) hload₁
  have hload₃ := load_word hs (j := k + 8) (by omega) (by omega) hload₂
  have hload₄ := load_word hs (j := k + 12) (by omega) (by omega) hload₃
  have hword : ∀ (s : Store) (j : Nat), s.mem = c.store.mem → j + 4 ≤ n → ∀ i < 4,
      (s.load32 (src + BitVec.ofNat 32 j)).1.extractLsb' (8 * i) 8 = m (src + BitVec.ofNat 32 (j + i)) :=
    fun s j hmem hj => load32_source hd hs hdis (hmem.trans hmoved.mem) (by omega) hj
  exact ⟨hload₄.store128 hd hk hal (hword _ k rfl (by omega)) (hword _ (k + 4) rfl (by omega))
    (hword _ (k + 8) rfl (by omega)) (hword _ (k + 12) rfl (by omega)), rfl⟩

/-- The word-wise copy writes the whole destination. -/
theorem memcpy_moved (hd : d.toNat + n ≤ 2 ^ 32) (hs : src.toNat + n ≤ 2 ^ 32) (hdis : Disjoint d src n) :
    ∃ out, Moved d (fun i => m (src + i)) n (Inside src n) m n (memcpy ⟨m, []⟩ d src n).1 out := by
  have hinit : Copied d src n m 0 ⟨⟨m, []⟩, d, src⟩ := by
    refine ⟨⟨?_, rfl, nofun⟩, ?_⟩ <;> exact (BitVec.add_zero _).symm
  have hbyte : ∀ k c, k + 1 ≤ n → Copied d src n m k c → Copied d src n m (k + 1) c.copyByte :=
    fun k c hk h => copyByte_copied hd hs hdis hk h
  unfold memcpy
  dsimp only
  split
  · rename_i hxor
    have hmod := xor_aligned hxor
    obtain ⟨k, hk, h⟩ := wordLoops_inv Cursor.out Cursor.copyByte Cursor.copyBlock Cursor.copyWord hd (fun k c h => h.moved.out) hbyte
      (fun k c hk hal h => copyBlock_copied hd hs hdis hmod hk hal h)
      (fun k c hk hal h => copyWord_copied hd hs hdis hmod hk hal h) hinit
    exact ⟨_, (byteLoop_inv hbyte hk h).moved⟩
  · exact ⟨_, (byteLoop_inv hbyte (Nat.zero_add n) hinit).moved⟩

/-- So does the byte loop. -/
theorem byteMemcpy_mem (hd : d.toNat + n ≤ 2 ^ 32) (hs : src.toNat + n ≤ 2 ^ 32) (hdis : Disjoint d src n) :
    (byteMemcpy ⟨m, []⟩ d src n).1.mem = written d (fun i => m (src + i)) n m := by
  have hprefix : ∀ k ≤ n, (byteMemcpy ⟨m, []⟩ d src k).1.mem = written d (fun i => m (src + i)) k m := by
    intro k hk
    induction k with
    | zero => rfl
    | succ k ih =>
        have hmem := ih (by omega)
        have hbyte : (byteMemcpy ⟨m, []⟩ d src k).1.mem (src + BitVec.ofNat 32 k) = m (src + BitVec.ofNat 32 k) := by
          rw [hmem]
          exact written_outside (source_outside hd hs hdis (by omega)) (by omega)
        unfold byteMemcpy at hmem hbyte ⊢
        dsimp only at hmem hbyte ⊢
        rw [List.range_succ, List.foldl_append]
        exact store8_written (by omega) hmem hbyte
  exact hprefix n (Nat.le_refl n)

end Copy

/-! ## Filling -/

section Fill

variable {d value : Word} {n k : Nat} {m : Word → Byte} {c : Filler} {byte : Byte}

theorem fillBlock_moved (hd : d.toNat + n ≤ 2 ^ 32) (hk : k + 16 ≤ n) (hal : (d.toNat + k) % 4 = 0)
    (h : Moved d (fun _ => byte) n (fun _ => False) m k c.store c.out) :
    Moved d (fun _ => byte) n (fun _ => False) m (k + 16)
      (c.fillBlock (byte.setWidth 32 * 0x01010101#32)).store (c.fillBlock (byte.setWidth 32 * 0x01010101#32)).out :=
  h.store128 hd hk hal (fun _ hi => pattern_byte byte hi) (fun _ hi => pattern_byte byte hi)
    (fun _ hi => pattern_byte byte hi) (fun _ hi => pattern_byte byte hi)

theorem memset_moved (value : Word) (hd : d.toNat + n ≤ 2 ^ 32) :
    ∃ out, Moved d (fun _ => value.setWidth 8) n (fun _ => False) m n (memset ⟨m, []⟩ d value n).1 out := by
  have hinit : Moved d (fun _ => value.setWidth 8) n (fun _ => False) m 0 ⟨m, []⟩ d :=
    ⟨(BitVec.add_zero _).symm, rfl, nofun⟩
  have hbyte : ∀ k (c : Filler), k + 1 ≤ n → Moved d (fun _ => value.setWidth 8) n (fun _ => False) m k c.store c.out →
      Moved d (fun _ => value.setWidth 8) n (fun _ => False) m (k + 1) (c.fillByte (value.setWidth 8)).store
        (c.fillByte (value.setWidth 8)).out := fun k c hk h => h.store8 hd hk rfl
  obtain ⟨k, hk, h⟩ := wordLoops_inv Filler.out (Filler.fillByte (value.setWidth 8))
    (Filler.fillBlock ((value.setWidth 8).setWidth 32 * 0x01010101#32))
    (Filler.fillWord ((value.setWidth 8).setWidth 32 * 0x01010101#32))
    (P := fun k c => Moved d (fun _ => value.setWidth 8) n (fun _ => False) m k c.store c.out)
    (s := ⟨⟨m, []⟩, d⟩) hd (fun k c h => h.out) hbyte
    (fun k c hk hal h => fillBlock_moved hd hk hal h)
    (fun k c hk hal h => h.store32 hd hk hal fun _ hi => pattern_byte _ hi) hinit
  exact ⟨_, byteLoop_inv hbyte hk h⟩

theorem byteMemset_mem (hd : d.toNat + n ≤ 2 ^ 32) :
    (byteMemset ⟨m, []⟩ d value n).1.mem = written d (fun _ => value.setWidth 8) n m := by
  have hprefix : ∀ k ≤ n, (byteMemset ⟨m, []⟩ d value k).1.mem = written d (fun _ => value.setWidth 8) k m := by
    intro k hk
    induction k with
    | zero => rfl
    | succ k ih =>
        have hmem := ih (by omega)
        unfold byteMemset at hmem ⊢
        dsimp only at hmem ⊢
        rw [List.range_succ, List.foldl_append]
        exact store8_written (by omega) hmem rfl
  exact hprefix n (Nat.le_refl n)

end Fill

/-! ## The two versions agree -/

/-- One version leaves the memory of the other, returns the destination, and makes only aligned
accesses within the ranges. -/
structure Replaces (fast slow : Store × Word) (d : Word) (n : Nat) (readable : Access → Prop) : Prop where
  mem : fast.1.mem = slow.1.mem
  result : fast.2 = d ∧ slow.2 = d
  accesses : ∀ x ∈ fast.1.log, Allowed d n readable x

/-- `memcpy` and `memset` of Doom do what the byte loops do: the same bytes are written, each once
and no other, and every access is aligned and inside the two ranges, whatever the alignment of the
arguments. -/
theorem memops_replace :
    (∀ (m : Word → Byte) (d src : Word) (n : Nat), d.toNat + n ≤ 2 ^ 32 → src.toNat + n ≤ 2 ^ 32 → Disjoint d src n →
      Replaces (memcpy ⟨m, []⟩ d src n) (byteMemcpy ⟨m, []⟩ d src n) d n (Inside src n)) ∧
    (∀ (m : Word → Byte) (d value : Word) (n : Nat), d.toNat + n ≤ 2 ^ 32 →
      Replaces (memset ⟨m, []⟩ d value n) (byteMemset ⟨m, []⟩ d value n) d n fun _ => False) := by
  constructor
  · intro m d src n hd hs hdis
    obtain ⟨out, h⟩ := memcpy_moved (m := m) hd hs hdis
    refine ⟨?_, ⟨rfl, rfl⟩, h.log⟩
    rw [h.mem, byteMemcpy_mem hd hs hdis]
  · intro m d value n hd
    obtain ⟨out, h⟩ := memset_moved (m := m) value hd
    refine ⟨?_, ⟨rfl, rfl⟩, h.log⟩
    rw [h.mem, byteMemset_mem hd]

/-- Twenty-two bytes between two odd addresses. -/
theorem memops_replace_odd :
    Replaces (memcpy ⟨fun a => a.setWidth 8, []⟩ 0x101#32 0x205#32 22)
      (byteMemcpy ⟨fun a => a.setWidth 8, []⟩ 0x101#32 0x205#32 22) 0x101#32 22 (Inside 0x205#32 22) :=
  memops_replace.1 _ _ _ _ (by decide) (by decide) (.inl (by decide))

end RvO3.Doom
