import Mathlib.Algebra.Group.Nat.Defs
import Mathlib.Data.List.Basic
import Mathlib.Data.List.TakeWhile
import Mathlib.Tactic.Common

/-!
# Numbers in C text

Reading a number as the `strtoul` family of the C standard does, over strings as lists of
characters: white space, a sign, a base prefix and the longest run of digits. A result that
does not fit the type is its largest value, and a negative one is negated in the type.

`Magnitude` is the grammar of an unsigned integer constant. `Written` adds what may stand
before it, and reading such a text finds its number again (`Written.scan`).
-/

set_option autoImplicit false

namespace RvO3

/-! ## Characters -/

/-- `isspace` in the C locale. -/
def isSpace (c : Char) : Bool :=
  c == ' ' || c == '\t' || c == '\n' || c == '\x0b' || c == '\x0c' || c == '\r'

/-- The value of a digit or letter, or 36. -/
def digitValue (c : Char) : Nat :=
  if '0' ≤ c ∧ c ≤ '9' then c.toNat - '0'.toNat
  else if 'a' ≤ c ∧ c ≤ 'z' then c.toNat - 'a'.toNat + 10
  else if 'A' ≤ c ∧ c ≤ 'Z' then c.toNat - 'A'.toNat + 10
  else 36

/-- Is `c` a digit in this base? -/
def isDigitIn (base : Nat) (c : Char) : Bool := decide (digitValue c < base)

/-- The number a run of digits stands for. -/
def digitsValue (base : Nat) (ds : List Char) : Nat := ds.foldl (fun n c => n * base + digitValue c) 0

/-! ## Reading -/

/-- The text of a number: its sign, base and digits, and what follows. -/
structure Numeral where
  negative : Bool
  base : Nat
  digits : List Char
  rest : List Char
  deriving DecidableEq, Repr

/-- An optional sign; true for a minus. -/
def takeSign : List Char → Bool × List Char
  | '-' :: s => (true, s)
  | '+' :: s => (false, s)
  | s => (false, s)

/-- The letter of a hexadecimal prefix. -/
def isHexMark (c : Char) : Bool := c == 'x' || c == 'X'

/-- The base, and the digits from their first one on. A prefix `0x` counts only before a
hexadecimal digit; base 0 asks for the base that the text shows. -/
def takePrefix (base : Nat) (s : List Char) : Nat × List Char :=
  match s with
  | '0' :: x :: d :: t =>
      if isHexMark x && isDigitIn 16 d && (base == 0 || base == 16) then (16, d :: t)
      else (if base = 0 then 8 else base, s)
  | '0' :: _ => (if base = 0 then 8 else base, s)
  | _ => (if base = 0 then 10 else base, s)

/-- Scan a number; `none` when no conversion can be performed. -/
def scanNumeral (base : Nat) (s : List Char) : Option Numeral :=
  let (negative, s) := takeSign (s.dropWhile isSpace)
  let (base, s) := takePrefix base s
  let digits := s.takeWhile (isDigitIn base)
  if digits = [] then none
  else some { negative := negative, base := base, digits := digits, rest := s.dropWhile (isDigitIn base) }

/-- A number as a value of an unsigned type of `w` bits: too large a magnitude gives the
largest value, and a negative number is negated in the type. -/
def toUnsigned (w : Nat) (negative : Bool) (n : Nat) : Nat :=
  if n < 2 ^ w then (if negative then (2 ^ w - n) % 2 ^ w else n) else 2 ^ w - 1

/-- `strtoul` for a type of `w` bits: the value and the end of the number, or `none` where the
end is the start of the string. -/
def strtoul (w base : Nat) (s : List Char) : Option (Nat × List Char) :=
  (scanNumeral base s).map fun t => (toUnsigned w t.negative (digitsValue t.base t.digits), t.rest)

/-! ## The grammar -/

/-- The characters of `ds` are digits in this base, and there is one. -/
structure Digits (base : Nat) (ds : List Char) : Prop where
  nonempty : ds ≠ []
  digit : ∀ c ∈ ds, isDigitIn base c = true

/-- An unsigned integer constant: decimal, octal with a leading zero, or hexadecimal. -/
inductive Magnitude : List Char → Nat → Prop
  | decimal {ds : List Char} : Digits 10 ds → ds.head? ≠ some '0' →
      Magnitude ds (digitsValue 10 ds)
  | octal {ds : List Char} : (∀ c ∈ ds, isDigitIn 8 c = true) →
      Magnitude ('0' :: ds) (digitsValue 8 ('0' :: ds))
  | hex {x : Char} {ds : List Char} : isHexMark x = true → Digits 16 ds →
      Magnitude ('0' :: x :: ds) (digitsValue 16 ds)

/-- A hexadecimal number, with or without the prefix. -/
inductive HexMagnitude : List Char → Nat → Prop
  | plain {ds : List Char} : Digits 16 ds → HexMagnitude ds (digitsValue 16 ds)
  | marked {x : Char} {ds : List Char} : isHexMark x = true → Digits 16 ds →
      HexMagnitude ('0' :: x :: ds) (digitsValue 16 ds)

/-- The sign of a number; none counts as positive. -/
inductive SignText : List Char → Bool → Prop
  | none : SignText [] false
  | plus : SignText ['+'] false
  | minus : SignText ['-'] true

/-- `s` is white space, a sign and a number `n` of the grammar `G`, and then `rest`. -/
structure Written (G : List Char → Nat → Prop) (s : List Char) (negative : Bool) (n : Nat)
    (rest : List Char) : Prop where
  intro ::
  exists_parts : ∃ sp sign m, s = sp ++ sign ++ m ++ rest ∧ (∀ c ∈ sp, isSpace c = true) ∧
    SignText sign negative ∧ G m n

/-! ## Characters of the grammar -/

section Characters

variable {base : Nat} {c : Char} {ds s : List Char}

theorem isDigitIn_mono {base' : Nat} (h : base ≤ base') (hc : isDigitIn base c = true) :
    isDigitIn base' c = true := by
  unfold isDigitIn at hc ⊢
  simp only [decide_eq_true_eq] at hc ⊢
  omega

/-- White space, signs and prefix letters are no digits. -/
theorem digitValue_of_isSpace (h : isSpace c = true) : digitValue c = 36 := by
  unfold isSpace at h
  simp only [Bool.or_eq_true, beq_iff_eq] at h
  rcases h with ((((rfl | rfl) | rfl) | rfl) | rfl) | rfl <;> decide

theorem isSpace_of_isDigitIn (hb : base ≤ 36) (h : isDigitIn base c = true) : isSpace c = false := by
  rw [← Bool.not_eq_true]
  intro hs
  unfold isDigitIn at h
  rw [digitValue_of_isSpace hs, decide_eq_true_eq] at h
  omega

/-- A digit is no sign. -/
theorem takeSign_digit (hb : base ≤ 36) (h : isDigitIn base c = true) : takeSign (c :: s) = (false, c :: s) := by
  unfold takeSign
  split
  · rename_i he
    cases he
    have : digitValue '-' = 36 := by decide
    simp only [isDigitIn, this, decide_eq_true_eq] at h
    omega
  · rename_i he
    cases he
    have : digitValue '+' = 36 := by decide
    simp only [isDigitIn, this, decide_eq_true_eq] at h
    omega
  · rfl

theorem isDigitIn_hexMark (hb : base ≤ 16) (h : isHexMark c = true) : isDigitIn base c = false := by
  unfold isHexMark at h
  simp only [Bool.or_eq_true, beq_iff_eq] at h
  have hx : digitValue 'x' = 33 := by decide
  have hX : digitValue 'X' = 33 := by decide
  rcases h with rfl | rfl
  · simp only [isDigitIn, hx, decide_eq_false_iff_not]
    omega
  · simp only [isDigitIn, hX, decide_eq_false_iff_not]
    omega

/-- The longest run of digits of a text that goes on with no digit. -/
theorem takeWhile_digits (hd : ∀ c ∈ ds, isDigitIn base c = true)
    (hr : ∀ c, s.head? = some c → isDigitIn base c = false) :
    (ds ++ s).takeWhile (isDigitIn base) = ds ∧ (ds ++ s).dropWhile (isDigitIn base) = s := by
  have hs : s.takeWhile (isDigitIn base) = [] ∧ s.dropWhile (isDigitIn base) = s := by
    cases s with
    | nil => exact ⟨rfl, rfl⟩
    | cons c t =>
        have hc := hr c rfl
        rw [List.takeWhile_cons, List.dropWhile_cons, hc]
        exact ⟨rfl, rfl⟩
  rw [List.takeWhile_append_of_pos hd, List.dropWhile_append_of_pos hd, hs.1, hs.2, List.append_nil]
  exact ⟨rfl, rfl⟩

end Characters

/-! ## What a scan finds -/

section Scan

variable {s v rest : List Char} {t : Numeral} {neg : Bool} {n : Nat}

theorem takeSign_text (s : List Char) :
    ∃ sign, s = sign ++ (takeSign s).2 ∧ SignText sign (takeSign s).1 := by
  unfold takeSign
  split
  · exact ⟨['-'], rfl, .minus⟩
  · exact ⟨['+'], rfl, .plus⟩
  · exact ⟨[], rfl, .none⟩

/-- A character that is a digit in base 10 but not `0` starts no prefix. -/
theorem takePrefix_plain {base : Nat} (h : v.head? ≠ some '0') :
    takePrefix base v = (if base = 0 then 10 else base, v) := by
  unfold takePrefix
  split
  · exact absurd rfl h
  · exact absurd rfl h
  · rfl

/-- A prefix before a hexadecimal digit. -/
theorem takePrefix_marked {base : Nat} (hb : base = 0 ∨ base = 16) {x d : Char} {t : List Char}
    (hx : isHexMark x = true) (hd : isDigitIn 16 d = true) :
    takePrefix base ('0' :: x :: d :: t) = (16, d :: t) := by
  apply if_pos
  rw [hx, hd]
  rcases hb with rfl | rfl <;> rfl

/-- What `takePrefix` takes off, for a base that is 0 or 16. -/
theorem takePrefix_cases {base : Nat} (hb : base = 0 ∨ base = 16) (s : List Char) :
    (∃ x d t, s = '0' :: x :: d :: t ∧ isHexMark x = true ∧ isDigitIn 16 d = true ∧
      takePrefix base s = (16, d :: t)) ∨
    (∃ t, s = '0' :: t ∧ takePrefix base s = (if base = 0 then 8 else base, s)) ∨
    (s.head? ≠ some '0' ∧ takePrefix base s = (if base = 0 then 10 else base, s)) := by
  have hbase : (base == 0 || base == 16) = true := by
    rcases hb with rfl | rfl <;> rfl
  unfold takePrefix
  split
  · rename_i x d t
    by_cases hc : (isHexMark x && isDigitIn 16 d && (base == 0 || base == 16)) = true
    · rw [if_pos hc]
      simp only [Bool.and_eq_true] at hc
      exact .inl ⟨x, d, t, rfl, hc.1.1, hc.1.2, rfl⟩
    · -- the letter after the zero is no prefix
      rw [if_neg hc]
      exact .inr (.inl ⟨_, rfl, rfl⟩)
  · exact .inr (.inl ⟨_, rfl, rfl⟩)
  · -- no leading zero
    rename_i h1 h2
    refine .inr (.inr ⟨?_, rfl⟩)
    intro he
    cases s with
    | nil => cases he
    | cons c t =>
        obtain rfl := Option.some.inj he
        exact h2 t rfl

/-- The parts of a scan that found a number. -/
theorem scanNumeral_some {base : Nat} (h : scanNumeral base s = some t) :
    ∃ sp sign v, s = sp ++ sign ++ v ∧ (∀ c ∈ sp, isSpace c = true) ∧ SignText sign t.negative ∧
      t.base = (takePrefix base v).1 ∧ t.digits = (takePrefix base v).2.takeWhile (isDigitIn t.base) ∧
      t.rest = (takePrefix base v).2.dropWhile (isDigitIn t.base) ∧ t.digits ≠ [] := by
  unfold scanNumeral at h
  dsimp only at h
  split at h
  · cases h
  · rename_i hne
    cases h
    obtain ⟨sign, hsign, htext⟩ := takeSign_text (s.dropWhile isSpace)
    refine ⟨s.takeWhile isSpace, sign, _, ?_, ?_, htext, rfl, rfl, rfl, hne⟩
    · rw [List.append_assoc, ← hsign, List.takeWhile_append_dropWhile]
    · intro c hc
      exact List.mem_takeWhile_imp hc

theorem digits_takeWhile {base : Nat} {s : List Char} (h : s.takeWhile (isDigitIn base) ≠ []) :
    Digits base (s.takeWhile (isDigitIn base)) :=
  ⟨h, fun _ hc => List.mem_takeWhile_imp hc⟩

/-- A number found in base 0 is an integer constant. -/
theorem scanNumeral_written (h : scanNumeral 0 s = some t) :
    Written Magnitude s t.negative (digitsValue t.base t.digits) t.rest := by
  obtain ⟨sp, sign, v, hs, hsp, hsign, hbase, hdigits, hrest, hne⟩ := scanNumeral_some h
  have hsplit : t.digits ++ t.rest = (takePrefix 0 v).2 := by
    rw [hdigits, hrest, List.takeWhile_append_dropWhile]
  have hd : Digits t.base t.digits := by
    rw [hdigits] at hne ⊢
    exact digits_takeWhile hne
  rcases takePrefix_cases (.inl rfl) v with ⟨x, d, u, hv, hx, -, hp⟩ | ⟨u, hv, hp⟩ | ⟨hhead, hp⟩
  · -- a prefix: the digits are those after it
    rw [hp] at hsplit hbase
    rw [hbase] at hd ⊢
    refine ⟨⟨sp, sign, '0' :: x :: t.digits, ?_, hsp, hsign, .hex hx hd⟩⟩
    rw [hs, hv, List.append_assoc _ _ t.rest, List.cons_append, List.cons_append, hsplit]
  · rw [hp] at hsplit hbase
    rw [hbase] at hd ⊢
    -- the leading zero is the first of the digits
    cases hds : t.digits with
    | nil => exact absurd hds hne
    | cons c ds =>
        have hc : c = '0' := by
          rw [hds, hv] at hsplit
          exact (List.cons.inj hsplit).1
        subst hc
        rw [hds] at hd hsplit
        refine ⟨⟨sp, sign, '0' :: ds, ?_, hsp, hsign, .octal fun c hc => ?_⟩⟩
        · rw [hs, List.append_assoc _ _ t.rest, hsplit]
        · exact hd.digit c (List.mem_cons_of_mem _ hc)
  · -- neither prefix nor zero: a decimal number
    rw [hp] at hsplit hbase
    rw [hbase] at hd ⊢
    refine ⟨⟨sp, sign, t.digits, ?_, hsp, hsign, .decimal hd fun he => hhead ?_⟩⟩
    · rw [hs, List.append_assoc _ _ t.rest, hsplit]
    · rw [show v = t.digits ++ t.rest from hsplit.symm]
      cases hds : t.digits with
      | nil => exact absurd hds hne
      | cons c ds =>
          rw [hds] at he
          exact he

/-- A number found in base 16 is a hexadecimal number. -/
theorem scanNumeral_hexWritten (h : scanNumeral 16 s = some t) :
    Written HexMagnitude s t.negative (digitsValue t.base t.digits) t.rest := by
  obtain ⟨sp, sign, v, hs, hsp, hsign, hbase, hdigits, hrest, hne⟩ := scanNumeral_some h
  have hsplit : t.digits ++ t.rest = (takePrefix 16 v).2 := by
    rw [hdigits, hrest, List.takeWhile_append_dropWhile]
  have hd : Digits t.base t.digits := by
    rw [hdigits] at hne ⊢
    exact digits_takeWhile hne
  -- in base 16 a leading zero is a digit like the others
  have hplain : takePrefix 16 v = (16, v) →
      Written HexMagnitude s t.negative (digitsValue t.base t.digits) t.rest := by
    intro hp
    rw [hp] at hsplit hbase
    rw [hbase] at hd ⊢
    refine ⟨⟨sp, sign, t.digits, ?_, hsp, hsign, .plain hd⟩⟩
    rw [hs, List.append_assoc _ _ t.rest, hsplit]
  rcases takePrefix_cases (.inr rfl) v with ⟨x, d, u, hv, hx, -, hp⟩ | ⟨u, hv, hp⟩ | ⟨hhead, hp⟩
  · rw [hp] at hsplit hbase
    rw [hbase] at hd ⊢
    refine ⟨⟨sp, sign, '0' :: x :: t.digits, ?_, hsp, hsign, .marked hx hd⟩⟩
    rw [hs, hv, List.append_assoc _ _ t.rest, List.cons_append, List.cons_append, hsplit]
  · exact hplain hp
  · exact hplain hp

/-! ## What is written is found -/

/-- A text that does not continue a number. -/
def Stops (rest : List Char) : Prop :=
  ∀ c, rest.head? = some c → isDigitIn 16 c = false ∧ isHexMark c = false

/-- The number that a scan finds. -/
structure Finds (o : Option Numeral) (negative : Bool) (n : Nat) (rest : List Char) : Prop where
  intro ::
  exists_numeral : ∃ t, o = some t ∧ t.negative = negative ∧ digitsValue t.base t.digits = n ∧
    t.rest = rest

/-- A scan of white space, a sign and a text that starts with a digit. -/
theorem scanNumeral_skip {base b : Nat} {sp sign w ds : List Char} {c : Char} {u : List Char}
    (hsp : ∀ c ∈ sp, isSpace c = true) (hsign : SignText sign neg) (hv : v = c :: u)
    (hc : isDigitIn 16 c = true) (hp : takePrefix base v = (b, w)) (hw : w = ds ++ rest)
    (hd : Digits b ds) (hr : ∀ c, rest.head? = some c → isDigitIn b c = false) :
    Finds (scanNumeral base (sp ++ sign ++ v)) neg (digitsValue b ds) rest := by
  -- the first digit ends the white space, and is no sign
  have hnosp : isSpace c = false := isSpace_of_isDigitIn (by omega) hc
  have hsignsp : (sign ++ v).dropWhile isSpace = sign ++ v := by
    subst hv
    cases hsign with
    | none => exact List.dropWhile_cons_of_neg (by rw [hnosp]; exact Bool.false_ne_true)
    | plus => rfl
    | minus => rfl
  have hdrop : (sp ++ sign ++ v).dropWhile isSpace = sign ++ v := by
    rw [List.append_assoc, List.dropWhile_append_of_pos hsp, hsignsp]
  have htake : takeSign (sign ++ v) = (neg, v) := by
    subst hv
    cases hsign with
    | none => exact takeSign_digit (by omega) hc
    | plus => rfl
    | minus => rfl
  obtain ⟨h1, h2⟩ := takeWhile_digits hd.digit hr
  refine ⟨⟨⟨neg, b, ds, rest⟩, ?_, rfl, rfl, rfl⟩⟩
  unfold scanNumeral
  dsimp only
  rw [hdrop, htake]
  dsimp only
  rw [hp]
  dsimp only
  rw [hw, h1, h2, if_neg hd.nonempty]

/-- The base that a text with a leading zero is read in, if it has no prefix. -/
theorem takePrefix_zero {base : Nat} {ds : List Char} (hd : ∀ c ∈ ds, isDigitIn 16 c = true)
    (hr : Stops rest) :
    takePrefix base ('0' :: ds ++ rest) = (if base = 0 then 8 else base, '0' :: ds ++ rest) := by
  -- the next character is a digit or ends the number, so it is not the letter of a prefix
  have hmark : ∀ x u, ds ++ rest = x :: u → isHexMark x = false := by
    intro x u he
    cases ds with
    | nil => exact (hr x (by rw [List.nil_append] at he; rw [he]; rfl)).2
    | cons d ds =>
        have hx : d = x := (List.cons.inj he).1
        rw [← Bool.not_eq_true, ← hx]
        intro hm
        have hno := isDigitIn_hexMark (Nat.le_refl 16) hm
        rw [hd d List.mem_cons_self] at hno
        cases hno
  unfold takePrefix
  split
  · rename_i x d t he
    have hx := hmark x (d :: t) (List.cons.inj he).2
    rw [hx]
    rfl
  · rfl
  · rename_i h1 h2
    exact absurd rfl (h2 (ds ++ rest))

theorem Written.scan (h : Written Magnitude s neg n rest) (hr : Stops rest) :
    Finds (scanNumeral 0 s) neg n rest := by
  obtain ⟨sp, sign, m, rfl, hsp, hsign, hm⟩ := h.exists_parts
  rw [List.append_assoc _ m rest]
  cases hm with
  | decimal hd hhead =>
      obtain ⟨c, u, rfl⟩ := List.exists_cons_of_ne_nil hd.nonempty
      refine scanNumeral_skip hsp hsign rfl (isDigitIn_mono (by omega) (hd.digit c List.mem_cons_self))
        (takePrefix_plain hhead) rfl hd fun c hc => ?_
      -- a decimal digit behind the number would be a hexadecimal one as well
      rw [← Bool.not_eq_true]
      intro h10
      have hno := (hr c hc).1
      rw [isDigitIn_mono (by omega) h10] at hno
      cases hno
  | @octal ds hd =>
      refine scanNumeral_skip hsp hsign rfl (by decide)
        (takePrefix_zero (fun c hc => isDigitIn_mono (by omega) (hd c hc)) hr) rfl
        ⟨List.cons_ne_nil _ _, fun c hc => ?_⟩ fun c hc => ?_
      · rcases List.mem_cons.mp hc with rfl | hc
        · decide
        · exact hd c hc
      · show isDigitIn 8 c = false
        rw [← Bool.not_eq_true]
        intro h8
        have hno := (hr c hc).1
        rw [isDigitIn_mono (by omega) h8] at hno
        cases hno
  | @hex x ds hx hd =>
      obtain ⟨d, u, rfl⟩ := List.exists_cons_of_ne_nil hd.nonempty
      refine scanNumeral_skip (w := d :: u ++ rest) hsp hsign rfl (by decide) ?_ rfl hd
        fun c hc => (hr c hc).1
      exact takePrefix_marked (.inl rfl) hx (hd.digit d List.mem_cons_self)

theorem Written.hexScan (h : Written HexMagnitude s neg n rest) (hr : Stops rest) :
    Finds (scanNumeral 16 s) neg n rest := by
  obtain ⟨sp, sign, m, rfl, hsp, hsign, hm⟩ := h.exists_parts
  rw [List.append_assoc _ m rest]
  cases hm with
  | plain hd =>
      obtain ⟨c, u, rfl⟩ := List.exists_cons_of_ne_nil hd.nonempty
      have hc := hd.digit c List.mem_cons_self
      have hp : takePrefix 16 (c :: u ++ rest) = (16, c :: u ++ rest) := by
        -- a leading zero starts no prefix here
        by_cases h0 : c = '0'
        · subst h0
          exact takePrefix_zero (fun d hd' => hd.digit d (List.mem_cons_of_mem _ hd')) hr
        · exact takePrefix_plain fun he => h0 (Option.some.inj he)
      exact scanNumeral_skip hsp hsign rfl hc hp rfl hd fun c hc => (hr c hc).1
  | @marked x ds hx hd =>
      obtain ⟨d, u, rfl⟩ := List.exists_cons_of_ne_nil hd.nonempty
      refine scanNumeral_skip (w := d :: u ++ rest) hsp hsign rfl (by decide) ?_ rfl hd
        fun c hc => (hr c hc).1
      exact takePrefix_marked (.inr rfl) hx (hd.digit d List.mem_cons_self)

end Scan

end RvO3
