import RvO3.Lib.Numerals
import RvO3.Sim.Knobs
import Mathlib.Data.List.Forall2

/-!
# Hex images

`loadHexFile` of `sim/loader.cpp`: 32-bit hexadecimal words, separated by white space, with
comments to the end of the line. The model follows the streams of the source, `hexTokens` says
which words a text has, and the two agree (`loadHexFile_eq`).

Whether a word is one is left to `strtoul`, which takes more than hexadecimal digits:
`HexSlips` describes the tokens that pass although they are no words.
-/

set_option autoImplicit false

namespace RvO3

/-! ## The streams -/

/-- The characters of a `std::string` that its `c_str` shows to C. -/
def cString (s : List Char) : CString := s.takeWhile fun c => c != '\x00'

/-- `std::string::find("//")`, as the part in front of it. -/
def cutSlashes : List Char → List Char
  | [] => []
  | [c] => [c]
  | c :: d :: s => if c = '/' ∧ d = '/' then [] else c :: cutSlashes (d :: s)

/-- The two comment forms are cut off one after the other. -/
def stripComments (line : List Char) : List Char := cutSlashes (line.takeWhile fun c => c != '#')

/-- `while (ss >> tok)`: white space is skipped, and the token is what precedes the next one. -/
def readTokens (ss : List Char) : List (List Char) :=
  match _h : ss.dropWhile isSpace with
  | [] => []
  | c :: s => (c :: s).takeWhile (fun c => !isSpace c) :: readTokens ((c :: s).dropWhile fun c => !isSpace c)
  termination_by ss.length
  decreasing_by
    -- the first character of a token is no white space, so the token is not empty
    have hc : isSpace c = false := by
      have hhead := List.head?_dropWhile_not isSpace ss
      rw [_h] at hhead
      exact hhead
    have hsub := (List.dropWhile_sublist (l := ss) isSpace).length_le
    have hrest := (List.dropWhile_sublist (l := s) fun c => !isSpace c).length_le
    rw [_h, List.length_cons] at hsub
    rw [List.dropWhile_cons, hc]
    simp only [Bool.not_false, if_true]
    omega

/-- One word: `strtoul` in base 16 up to the end of the token, within 32 bits. -/
def hexWord (tok : List Char) : Option Nat :=
  match strtoul 64 16 (cString tok) with
  | none => none
  | some (v, e) => if e ≠ [] ∨ v > 0xFFFFFFFF then none else some v

/-- The words of one line are pushed until a bad one, which is fatal. -/
def pushWords (words : List Nat) : List (List Char) → Except CString (List Nat)
  | [] => .ok words
  | tok :: toks =>
      match hexWord tok with
      | none => .error (cString tok)
      | some v => pushWords (words ++ [v]) toks

/-- The loop over `std::getline`, with the rest of the file. -/
def loadHexLoop (words : List Nat) (f : List Char) : Except CString (List Nat) :=
  match f with
  | [] => .ok words
  | c :: f =>
      let line := (c :: f).takeWhile fun c => c != '\n'
      match pushWords words (readTokens (stripComments line)) with
      | .error tok => .error tok
      | .ok words => loadHexLoop words (((c :: f).dropWhile fun c => c != '\n').drop 1)
  termination_by f.length
  decreasing_by
    have hsub := (List.dropWhile_sublist (l := c :: f) fun c => c != '\n').length_le
    rw [List.length_drop]
    rw [List.length_cons] at hsub ⊢
    omega

/-- `loadHexFile`: the words in order, or the token that was refused. -/
def loadHexFile (text : List Char) : Except CString (List Nat) := loadHexLoop [] text

/-! ## The words of a text -/

/-- A line without its comment: up to the first `#` or `//`. -/
def uncommented : List Char → List Char
  | [] => []
  | c :: s => if c = '#' ∨ (c = '/' ∧ s.head? = some '/') then [] else c :: uncommented s

/-- The tokens of a text, line by line. -/
def hexTokens (text : List Char) : List (List Char) :=
  (text.splitOn '\n').flatMap fun line => ((uncommented line).splitOnP isSpace).filter fun tok => tok ≠ []

/-- A token is a 32-bit hexadecimal word. -/
structure HexToken (tok : List Char) (v : Nat) : Prop where
  magnitude : HexMagnitude tok v
  small : v < 2 ^ 32

/-- A sign, or a NUL that hides what follows it. -/
def Malformed (tok : List Char) : Prop :=
  tok.head? = some '+' ∨ tok.head? = some '-' ∨ '\x00' ∈ tok

/-- The token is malformed, but up to a NUL it is a number that comes out within 32 bits. -/
def HexSlips (tok : List Char) : Prop :=
  Malformed tok ∧ ∃ negative n, Written HexMagnitude (cString tok) negative n [] ∧ toUnsigned 64 negative n < 2 ^ 32

/-- The words of the text in order, if all its tokens are words, and a fatal error otherwise. -/
def HexExact (text : List Char) : Prop :=
  ∀ words, loadHexFile text = .ok words ↔ List.Forall₂ HexToken (hexTokens text) words

/-! ### Comments and tokens -/

section Streams

variable {s line : List Char}

theorem stripComments_eq (line : List Char) : stripComments line = uncommented line := by
  induction line with
  | nil => rfl
  | cons c line ih =>
      unfold stripComments at ih ⊢
      rw [uncommented, List.takeWhile_cons]
      by_cases hc : c = '#'
      · -- a `#` ends the line
        rw [if_pos (Or.inl hc), hc]
        rfl
      · rw [if_pos (bne_iff_ne.mpr hc), ← ih]
        -- whether a second slash follows shows in the cut line as well
        cases line with
        | nil =>
            rw [if_neg fun h => h.elim hc fun h => nomatch h.2]
            rfl
        | cons d s =>
            by_cases hd : d = '#'
            · subst hd
              rw [if_neg fun h => h.elim hc fun h => absurd (Option.some.inj h.2) (by decide)]
              rfl
            · rw [List.takeWhile_cons, if_pos (bne_iff_ne.mpr hd), cutSlashes]
              by_cases hslash : c = '/' ∧ d = '/'
              · rw [if_pos hslash, if_pos (.inr ⟨hslash.1, by rw [hslash.2]; rfl⟩)]
              · rw [if_neg hslash, if_neg fun h => h.elim hc fun h => hslash ⟨h.1, Option.some.inj h.2⟩]

theorem readTokens_nil (h : s.dropWhile isSpace = []) : readTokens s = [] := by
  rw [readTokens]
  split
  · rfl
  · rename_i he
    rw [h] at he
    cases he

theorem readTokens_cons {c : Char} {t : List Char} (h : s.dropWhile isSpace = c :: t) :
    readTokens s = (c :: t).takeWhile (fun c => !isSpace c) ::
      readTokens ((c :: t).dropWhile fun c => !isSpace c) := by
  rw [readTokens]
  split
  · rename_i he
    rw [h] at he
    cases he
  · rename_i he
    rw [h] at he
    cases he
    rfl

/-- A run without white space, before the white space that ends it. -/
theorem filter_splitOnP_run {w r : List Char} (hw : ∀ c ∈ w, isSpace c = false) (hne : w ≠ [])
    (hr : ∀ c, r.head? = some c → isSpace c = true) :
    ((w ++ r).splitOnP isSpace).filter (fun tok => tok ≠ []) =
      w :: (r.splitOnP isSpace).filter fun tok => tok ≠ [] := by
  cases r with
  | nil =>
      -- the run is the last one
      rw [List.append_nil, List.splitOnP_eq_singleton hw]
      simp [hne]
  | cons c r =>
      have hc := hr c rfl
      rw [List.splitOnP_append_cons_of_forall_mem hw c hc, List.splitOnP_cons_eq_if_modifyHead, if_pos hc]
      simp [hne]

/-- The tokens are what stands between white space. -/
theorem readTokens_eq (s : List Char) : readTokens s = (s.splitOnP isSpace).filter fun tok => tok ≠ [] := by
  -- over the length of what is left of the line
  induction hn : s.length using Nat.strong_induction_on generalizing s with
  | _ n ih =>
      cases s with
      | nil => exact readTokens_nil rfl
      | cons c t =>
          by_cases hc : isSpace c = true
          · -- white space in front only separates
            have hskip : readTokens (c :: t) = readTokens t := by
              have hdrop : (c :: t).dropWhile isSpace = t.dropWhile isSpace := List.dropWhile_cons_of_pos hc
              cases ht : t.dropWhile isSpace with
              | nil => rw [readTokens_nil (hdrop.trans ht), readTokens_nil ht]
              | cons d u => rw [readTokens_cons (hdrop.trans ht), readTokens_cons ht]
            rw [hskip, ih t.length (hn ▸ Nat.lt_succ_self _) t rfl, List.splitOnP_cons_eq_if_modifyHead, if_pos hc]
            rfl
          · -- a token runs up to the next white space
            have hnot : (!isSpace c) = true := by simpa using hc
            have hw : ∀ d ∈ (c :: t).takeWhile (fun c => !isSpace c), isSpace d = false := by
              intro d hd
              simpa using List.mem_takeWhile_imp hd
            have hne : (c :: t).takeWhile (fun c => !isSpace c) ≠ [] := by
              rw [List.takeWhile_cons_of_pos (p := fun c => !isSpace c) hnot]
              exact List.cons_ne_nil _ _
            have hr : ∀ d, ((c :: t).dropWhile fun c => !isSpace c).head? = some d → isSpace d = true := by
              intro d hd
              have h := List.head?_dropWhile_not (fun c => !isSpace c) (c :: t)
              rw [hd] at h
              simpa using h
            have hshort : ((c :: t).dropWhile fun c => !isSpace c).length < n := by
              rw [List.dropWhile_cons_of_pos (p := fun c => !isSpace c) hnot, ← hn]
              exact Nat.lt_succ_of_le (List.dropWhile_sublist _).length_le
            have hsplit := List.takeWhile_append_dropWhile (p := fun c => !isSpace c) (l := c :: t)
            rw [readTokens_cons (List.dropWhile_cons_of_neg hc), ih _ hshort _ rfl,
              ← filter_splitOnP_run hw hne hr, hsplit]

theorem pushWords_append (words : List Nat) (toks toks' : List (List Char)) :
    pushWords words (toks ++ toks') = match pushWords words toks with
      | .error tok => .error tok
      | .ok words => pushWords words toks' := by
  induction toks generalizing words with
  | nil => rfl
  | cons tok toks ih =>
      rw [List.cons_append, pushWords, pushWords]
      cases hexWord tok with
      | none => rfl
      | some v => exact ih _

/-- The words of a file are those of its tokens, line by line. -/
theorem loadHexLoop_eq (words : List Nat) (f : List Char) : loadHexLoop words f = pushWords words (hexTokens f) := by
  induction hn : f.length using Nat.strong_induction_on generalizing words f with
  | _ n ih =>
      by_cases hf : f = []
      · subst hf
        rw [loadHexLoop]
        rfl
      · obtain ⟨c, t, rfl⟩ := List.exists_cons_of_ne_nil hf
        rw [loadHexLoop]
        rw [stripComments_eq, readTokens_eq]
        by_cases hmem : '\n' ∈ c :: t
        · -- a line with its newline, and the rest of the file
          obtain ⟨l, r, hlr, hl⟩ := List.eq_append_cons_of_mem hmem
          have hpos : ∀ d ∈ l, (d != '\n') = true := by
            intro d hd
            rw [bne_iff_ne]
            rintro rfl
            exact hl hd
          have hshort : r.length < n := by
            rw [← hn, hlr, List.length_append, List.length_cons]
            omega
          rw [hlr, List.takeWhile_append_of_pos hpos, List.dropWhile_append_of_pos hpos]
          rw [List.takeWhile_cons_of_neg (by decide), List.dropWhile_cons_of_neg (by decide), List.append_nil]
          rw [hexTokens, List.splitOn_append_cons_self_of_not_mem hl, List.flatMap_cons, pushWords_append]
          cases pushWords words (((uncommented l).splitOnP isSpace).filter fun tok => tok ≠ []) with
          | error tok => rfl
          | ok words' => exact ih _ hshort _ _ rfl
        · -- the last line has no newline
          have hpos : ∀ d ∈ c :: t, (d != '\n') = true := by
            intro d hd
            rw [bne_iff_ne]
            rintro rfl
            exact hmem hd
          have htake := List.takeWhile_eq_self_iff.mpr hpos
          have hdrop := List.dropWhile_eq_nil_iff.mpr hpos
          rw [htake, hdrop, hexTokens, List.splitOn_eq_singleton hmem, List.flatMap_singleton]
          cases pushWords words (((uncommented (c :: t)).splitOnP isSpace).filter fun tok => tok ≠ []) with
          | error tok => rfl
          | ok words' =>
              show loadHexLoop words' [] = _
              rw [loadHexLoop]

theorem loadHexFile_eq (text : List Char) : loadHexFile text = pushWords [] (hexTokens text) := loadHexLoop_eq [] text

end Streams

/-! ### One token -/

section Token

variable {tok : List Char} {v : Nat}

/-- What `strtoul` accepts, up to a NUL. -/
theorem hexWord_iff : hexWord tok = some v ↔
    ∃ negative n, Written HexMagnitude (cString tok) negative n [] ∧ v = toUnsigned 64 negative n ∧ v < 2 ^ 32 := by
  constructor
  · -- the scan found a number, and nothing was left of the token
    intro h
    unfold hexWord strtoul at h
    cases ht : scanNumeral 16 (cString tok) with
    | none =>
        rw [ht] at h
        cases h
    | some t =>
        rw [ht] at h
        dsimp only [Option.map_some] at h
        split at h
        · cases h
        · rename_i hok
          rw [not_or] at hok
          have hrest : t.rest = [] := Decidable.not_not.mp hok.1
          have hw := scanNumeral_hexWritten ht
          rw [hrest] at hw
          refine ⟨_, _, hw, (Option.some.inj h).symm, ?_⟩
          rw [← Option.some.inj h]
          omega
  · rintro ⟨negative, n, hw, rfl, hlt⟩
    obtain ⟨t, ht, h1, h2, h3⟩ := (hw.hexScan nofun).exists_numeral
    unfold hexWord strtoul
    rw [ht]
    dsimp only [Option.map_some]
    rw [h1, h2, h3]
    exact if_neg fun h => h.elim (fun h => h rfl) fun h => by omega

theorem HexMagnitude.chars {m : List Char} {n : Nat} (h : HexMagnitude m n) :
    ∀ c ∈ m, isDigitIn 16 c = true ∨ isHexMark c = true := by
  intro c hc
  cases h with
  | plain hd => exact .inl (hd.digit c hc)
  | marked hx hd =>
      rcases List.mem_cons.mp hc with rfl | hc
      · exact .inl (by decide)
      · rcases List.mem_cons.mp hc with rfl | hc
        · exact .inr hx
        · exact .inl (hd.digit c hc)

/-- A hexadecimal number has no sign and no NUL. -/
theorem HexMagnitude.not_malformed {n : Nat} (h : HexMagnitude tok n) : ¬ Malformed tok := by
  have hno : ∀ c ∈ tok, c ≠ '+' ∧ c ≠ '-' ∧ c ≠ '\x00' := by
    intro c hc
    refine ⟨?_, ?_, ?_⟩ <;>
    · rintro rfl
      have hdigit := h.chars _ hc
      revert hdigit
      decide
  have hmem : ∀ c, tok.head? = some c → c ∈ tok := fun c hc => List.mem_of_head? hc
  rintro (h | h | h)
  · exact (hno _ (hmem _ h)).1 rfl
  · exact (hno _ (hmem _ h)).2.1 rfl
  · exact (hno _ h).2.2 rfl

theorem cString_eq (h : '\x00' ∉ tok) : cString tok = tok := by
  rw [cString, List.takeWhile_eq_self_iff]
  intro c hc
  rw [bne_iff_ne]
  rintro rfl
  exact h hc

/-- Every word is accepted with its value. -/
theorem HexToken.hexWord (h : HexToken tok v) : hexWord tok = some v := by
  have hnul : '\x00' ∉ tok := fun hmem => h.magnitude.not_malformed (.inr (.inr hmem))
  have hsmall := h.small
  rw [hexWord_iff]
  refine ⟨false, v, ?_, ?_, hsmall⟩
  · rw [cString_eq hnul]
    exact ⟨[], [], tok, by simp, nofun, .none, h.magnitude⟩
  · rw [toUnsigned, if_pos (by omega), if_neg Bool.false_ne_true]

/-- A token that is accepted is a word, or it slips. -/
theorem hexWord_cases (hsp : ∀ c ∈ tok, isSpace c = false) (h : hexWord tok = some v) :
    HexToken tok v ∨ HexSlips tok := by
  obtain ⟨negative, n, hw, rfl, hlt⟩ := hexWord_iff.mp h
  by_cases hm : Malformed tok
  · exact .inr ⟨hm, negative, n, hw, hlt⟩
  · have hnul : '\x00' ∉ tok := fun hmem => hm (.inr (.inr hmem))
    rw [cString_eq hnul] at hw
    obtain ⟨sp, sign, m, htok, hspace, hsign, hmag⟩ := hw.exists_parts
    -- a token holds no white space, so the scan skips none
    have hspnil : sp = [] := by
      cases sp with
      | nil => rfl
      | cons c sp =>
          have hno := hsp c (by rw [htok]; simp)
          rw [hspace c List.mem_cons_self] at hno
          cases hno
    subst hspnil
    rw [List.nil_append, List.append_nil] at htok
    -- without a sign, the number is the token
    cases hsign with
    | none =>
        rw [List.nil_append] at htok
        subst htok
        have hn : toUnsigned 64 false n = n := by
          unfold toUnsigned at hlt ⊢
          split
          · rfl
          · rename_i hbig
            rw [if_neg hbig] at hlt
            omega
        rw [hn] at hlt ⊢
        exact .inl ⟨hmag, hlt⟩
    | plus => exact absurd (.inl (by rw [htok]; rfl)) hm
    | minus => exact absurd (.inr (.inl (by rw [htok]; rfl))) hm

theorem HexSlips.hexWord (h : HexSlips tok) : ∃ v, hexWord tok = some v := by
  obtain ⟨-, negative, n, hw, hlt⟩ := h
  exact ⟨_, hexWord_iff.mpr ⟨negative, n, hw, rfl, hlt⟩⟩

end Token

/-! ### The whole file -/

section File

variable {text : List Char}

theorem mem_splitOnP {p : Char → Bool} {s l : List Char} (hl : l ∈ s.splitOnP p) : ∀ c ∈ l, p c = false := by
  induction s generalizing l with
  | nil =>
      rw [List.splitOnP_nil, List.mem_singleton] at hl
      subst hl
      nofun
  | cons d s ih =>
      rw [List.splitOnP_cons_eq_if_modifyHead] at hl
      split at hl
      · rcases List.mem_cons.mp hl with rfl | hl
        · nofun
        · exact ih hl
      · rename_i hd
        obtain ⟨w, ws, hws⟩ := List.exists_cons_of_ne_nil (List.splitOnP_ne_nil p s)
        rw [hws, List.modifyHead_cons] at hl
        rcases List.mem_cons.mp hl with rfl | hl
        · intro c hc
          rcases List.mem_cons.mp hc with rfl | hc
          · simpa using hd
          · exact ih (hws ▸ List.mem_cons_self) c hc
        · exact ih (hws ▸ List.mem_cons_of_mem _ hl)

theorem hexTokens_noSpace {tok : List Char} (h : tok ∈ hexTokens text) : ∀ c ∈ tok, isSpace c = false := by
  obtain ⟨line, -, hmem⟩ := List.mem_flatMap.mp h
  exact mem_splitOnP (List.mem_of_mem_filter hmem)

theorem forall₂_mem_left {α β : Type} {R : α → β → Prop} {l : List α} {vs : List β} (h : List.Forall₂ R l vs)
    {a : α} (ha : a ∈ l) : ∃ v, R a v := by
  induction h with
  | nil => cases ha
  | cons hr _ ih =>
      rcases List.mem_cons.mp ha with rfl | ha
      · exact ⟨_, hr⟩
      · exact ih ha

theorem pushWords_iff {toks : List (List Char)} {words ws : List Nat} :
    pushWords words toks = .ok ws ↔
      ∃ vs, ws = words ++ vs ∧ List.Forall₂ (fun tok v => hexWord tok = some v) toks vs := by
  induction toks generalizing words with
  | nil =>
      constructor
      · intro h
        exact ⟨[], by rw [List.append_nil]; exact (Except.ok.inj h).symm, .nil⟩
      · rintro ⟨vs, rfl, hall⟩
        cases hall
        rw [List.append_nil]
        rfl
  | cons tok toks ih =>
      rw [pushWords]
      cases hv : hexWord tok with
      | none =>
          constructor
          · nofun
          · rintro ⟨vs, -, hall⟩
            cases hall with
            | cons h _ =>
                rw [hv] at h
                cases h
      | some v =>
          rw [ih]
          constructor
          · rintro ⟨vs, rfl, hall⟩
            exact ⟨v :: vs, by rw [List.append_assoc]; rfl, .cons hv hall⟩
          · rintro ⟨vs, rfl, hall⟩
            cases hall with
            | @cons _ v' _ vs h hall =>
                rw [hv] at h
                obtain rfl := Option.some.inj h
                exact ⟨vs, by rw [List.append_assoc]; rfl, hall⟩

theorem loadHexFile_ok {words : List Nat} :
    loadHexFile text = .ok words ↔ List.Forall₂ (fun tok v => hexWord tok = some v) (hexTokens text) words := by
  rw [loadHexFile_eq, pushWords_iff]
  constructor
  · rintro ⟨vs, rfl, hall⟩
    exact hall
  · exact fun hall => ⟨words, rfl, hall⟩

/-- A file is loaded exactly or refused, unless it has a token that slips and no other token that is
refused. A token slips by a sign, or by a NUL that hides what follows it. -/
theorem loadHexFile_exact (text : List Char) :
    HexExact text ↔ ((∃ tok ∈ hexTokens text, HexSlips tok) →
      ∃ tok ∈ hexTokens text, (∀ v, ¬ HexToken tok v) ∧ ¬ HexSlips tok) := by
  constructor
  · rintro h ⟨tok, htok, hslip⟩
    by_contra hno
    -- every token is accepted, so the file loads
    have hall : ∀ toks : List (List Char), (∀ t ∈ toks, t ∈ hexTokens text) →
        ∃ vs, List.Forall₂ (fun t v => hexWord t = some v) toks vs := by
      intro toks htoks
      induction toks with
      | nil => exact ⟨[], .nil⟩
      | cons t toks ih =>
          obtain ⟨vs, hvs⟩ := ih fun t' h' => htoks t' (List.mem_cons_of_mem _ h')
          have haccept : ∃ v, hexWord t = some v := by
            by_cases hs : HexSlips t
            · exact hs.hexWord
            · by_contra hnone
              exact hno ⟨t, htoks t List.mem_cons_self, fun v hv => hnone ⟨v, hv.hexWord⟩, hs⟩
          obtain ⟨v, hv⟩ := haccept
          exact ⟨v :: vs, .cons hv hvs⟩
    obtain ⟨vs, hvs⟩ := hall (hexTokens text) fun t h => h
    -- exactness would make the token that slips a word
    have hwords := (h vs).mp (loadHexFile_ok.mpr hvs)
    obtain ⟨v, hv⟩ := forall₂_mem_left hwords htok
    exact hv.magnitude.not_malformed hslip.1
  · intro h words
    rw [loadHexFile_ok]
    constructor
    · intro hall
      -- a file that loads has no token that is refused, so none that slips
      have hnoslip : ∀ tok ∈ hexTokens text, ¬ HexSlips tok := by
        intro tok htok hslip
        obtain ⟨t, ht, hbad, hns⟩ := h ⟨tok, htok, hslip⟩
        obtain ⟨v, hv⟩ := forall₂_mem_left hall ht
        rcases hexWord_cases (hexTokens_noSpace ht) hv with hword | hs
        · exact hbad v hword
        · exact hns hs
      have hsub : ∀ tok ∈ hexTokens text, ∀ v, hexWord tok = some v → HexToken tok v := by
        intro tok htok v hv
        exact (hexWord_cases (hexTokens_noSpace htok) hv).resolve_right (hnoslip tok htok)
      exact ((List.forall₂_and_left _ _).mpr ⟨hsub, hall⟩).imp fun _ _ h => h.1 _ h.2
    · exact fun hall => hall.imp fun _ _ hv => hv.hexWord

/-- A minus sign is accepted: the word is negated in 64 bits, which gives 1, where the file has no
hexadecimal word. -/
theorem loadHexFile_signed : ¬ (∀ text, HexExact text) := by
  intro h
  have htokens : hexTokens "-FFFFFFFFFFFFFFFF".toList = ["-FFFFFFFFFFFFFFFF".toList] := by decide
  have hload : loadHexFile "-FFFFFFFFFFFFFFFF".toList = .ok [1] := by
    rw [loadHexFile_ok, htokens]
    exact .cons (by decide) .nil
  have hword := (h _ _).mp hload
  rw [htokens] at hword
  cases hword with
  | cons hv _ => exact hv.magnitude.not_malformed (.inr (.inl rfl))

end File

end RvO3
