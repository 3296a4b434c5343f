import RvO3.Sim.Knobs
import Mathlib.Data.List.DropRight

/-!
# Configuration files

The second half of `sim/config.cpp`: `loadConfigFile` and `dumpConfig`. The file goes through a
buffer of 256 characters, so what `fgets` returns is a line only if the line fits. A longer
line is read in pieces, and each piece counts as a line of its own.

`readsLines` says when the file is nevertheless read line by line. What `dumpConfig` writes
always is, which gives the round trip.
-/

set_option autoImplicit false

namespace RvO3

/-! ## The reader of the standard library -/

/-- `fgets` into a buffer with room for `n` characters and the terminator: what is read and
the rest of the file. -/
def fgets : Nat → List Char → List Char × List Char
  | 0, f => ([], f)
  | _ + 1, [] => ([], [])
  | n + 1, c :: f => if c = '\n' then ([c], f) else (c :: (fgets n f).1, (fgets n f).2)

theorem fgets_parts (n : Nat) (f : List Char) : (fgets n f).1 ++ (fgets n f).2 = f := by
  induction n generalizing f with
  | zero => rfl
  | succ n ih =>
      cases f with
      | nil => rfl
      | cons c f =>
          unfold fgets
          split
          · rfl
          · rw [List.cons_append, ih f]

theorem fgets_shorter (n : Nat) (c : Char) (f : List Char) : (fgets (n + 1) (c :: f)).2.length < (c :: f).length := by
  have hlen := congrArg List.length (fgets_parts (n + 1) (c :: f))
  rw [List.length_append] at hlen
  have hpos : 0 < (fgets (n + 1) (c :: f)).1.length := by
    unfold fgets
    split <;> exact Nat.zero_lt_succ _
  omega

/-- A line that fits is read with its newline. -/
theorem fgets_line {n : Nat} {l : List Char} (f : List Char) (hl : '\n' ∉ l) (hn : l.length < n) :
    fgets n (l ++ '\n' :: f) = (l ++ ['\n'], f) := by
  induction l generalizing n with
  | nil =>
      obtain ⟨n, rfl⟩ := Nat.exists_eq_succ_of_ne_zero (Nat.ne_of_gt hn)
      exact if_pos rfl
  | cons c l ih =>
      obtain ⟨n, rfl⟩ := Nat.exists_eq_succ_of_ne_zero (Nat.ne_of_gt (Nat.zero_lt_of_lt hn))
      have hc : c ≠ '\n' := fun e => hl (e ▸ List.mem_cons_self)
      have hrec := ih (n := n) (fun h => hl (List.mem_cons_of_mem _ h)) (Nat.lt_of_succ_lt_succ hn)
      rw [List.cons_append, fgets, if_neg hc, hrec]
      rfl

/-- A longer one is cut where the buffer ends. -/
theorem fgets_cut {n : Nat} {l : List Char} (f : List Char) (hl : '\n' ∉ l) (hn : n ≤ l.length) :
    fgets n (l ++ f) = (l.take n, l.drop n ++ f) := by
  induction n generalizing l with
  | zero => rfl
  | succ n ih =>
      cases l with
      | nil => exact absurd hn (Nat.not_succ_le_zero n)
      | cons c l =>
          have hc : c ≠ '\n' := fun e => hl (e ▸ List.mem_cons_self)
          have hrec := ih (l := l) (fun h => hl (List.mem_cons_of_mem _ h)) (Nat.le_of_succ_le_succ hn)
          rw [List.cons_append, fgets, if_neg hc, hrec]
          rfl

/-- The last line needs no newline. -/
theorem fgets_last {n : Nat} {l : List Char} (hl : '\n' ∉ l) (hn : l.length ≤ n) : fgets n l = (l, []) := by
  induction l generalizing n with
  | nil => cases n <;> rfl
  | cons c l ih =>
      obtain ⟨n, rfl⟩ := Nat.exists_eq_succ_of_ne_zero (Nat.ne_of_gt (Nat.lt_of_lt_of_le (Nat.succ_pos _) hn))
      have hc : c ≠ '\n' := fun e => hl (e ▸ List.mem_cons_self)
      have hrec := ih (n := n) (fun h => hl (List.mem_cons_of_mem _ h)) (Nat.le_of_succ_le_succ hn)
      rw [fgets, if_neg hc, hrec]

/-! ## Loading -/

/-- `trim`: blanks in front, and blanks and line ends behind. -/
def trim (s : CString) : CString :=
  (s.dropWhile fun c => c == ' ' || c == '\t').rdropWhile fun c =>
    c == ' ' || c == '\t' || c == '\n' || c == '\r'

/-- One line: cut at its first `#`, trimmed, skipped if empty, else `key = value`. -/
def applyLine (c : Settings) (lineno : Nat) (line : CString) : Except KnobFail Settings :=
  let s := trim (line.takeWhile fun c => c != '#')
  if s = [] then .ok c
  else match s.dropWhile fun c => c != '=' with
    | [] => .error ⟨.line lineno, "expected 'key = value', got", s⟩
    | _ :: val => setKnob c (trim (s.takeWhile fun c => c != '=')) (trim val) (.line lineno)

/-- The loop of `loadConfigFile`, over the rest of the file. A buffer ends at its first NUL. -/
def loadLoop (c : Settings) (lineno : Nat) (f : List Char) : Except KnobFail Settings :=
  match f with
  | [] => .ok c
  | ch :: f =>
      let line := (fgets 255 (ch :: f)).1
      match applyLine c (lineno + 1) (line.takeWhile fun c => c != '\x00') with
      | .error e => .error e
      | .ok c' => loadLoop c' (lineno + 1) (fgets 255 (ch :: f)).2
  termination_by f.length
  decreasing_by exact fgets_shorter 254 _ _

/-- `loadConfigFile`: the lines as `fgets` delivers them, up to the first fatal one. -/
def loadConfigFile (c : Settings) (text : List Char) : Except KnobFail Settings := loadLoop c 0 text

/-! ### Line by line -/

/-- The lines of a text, in order, until the first fatal one. -/
def applyLines (c : Settings) (lineno : Nat) : List CString → Except KnobFail Settings
  | [] => .ok c
  | l :: ls =>
      match applyLine c (lineno + 1) l with
      | .error e => .error e
      | .ok c' => applyLines c' (lineno + 1) ls

/-- What the file says: its text, split at newlines. -/
def lineByLine (c : Settings) (text : List Char) : Except KnobFail Settings :=
  applyLines c 0 (text.splitOn '\n')

/-- The same settings, or a fatal error at the same line. -/
def SameEffect (r r' : Except KnobFail Settings) : Prop := r.mapError KnobFail.loc = r'.mapError KnobFail.loc

/-- Is the line fatal, whatever the settings are? -/
def lineFails (l : CString) : Bool :=
  match applyLine {} 0 l with
  | .error _ => true
  | .ok _ => false

/-- The lines of a file, split at newlines, are read as lines as far as they count: each fits the
buffer with its newline, up to a fatal one. That one may be longer if its first piece is also
fatal. -/
def ReadsLines : List CString → Prop
  | [] => True
  | [l] => l.length ≤ 255 ∨ (lineFails l = true ∧ lineFails (l.take 255) = true)
  | l :: ls =>
      (l.length ≤ 254 ∧ (lineFails l = true ∨ ReadsLines ls)) ∨
        (lineFails l = true ∧ lineFails (l.take 255) = true)

/-- Each line with its newline. -/
def unlines (ls : List CString) : List Char := ls.flatMap (· ++ ['\n'])

/-! ### One line -/

section Line

variable {c c' : Settings} {key val : CString} {loc loc' : Where} {e : KnobFail} {n : Nat} {l : CString}

theorem Field.store_none {f : Field} (h : f.store c val = none) : f.store c' val = none := by
  cases f with
  | U32 get set =>
      unfold Field.store at h ⊢
      dsimp only at h ⊢
      split at h
      · split at h
        · rename_i hn
          exact if_pos hn
        · cases h
      · rfl
  | U64 get set =>
      simp only [Field.store, Option.map_eq_none_iff] at h ⊢
      exact h
  | BOOL get set =>
      unfold Field.store at h ⊢
      dsimp only at h ⊢
      split at h
      · cases h
      · rename_i h1
        split at h
        · cases h
        · rename_i h0
          rw [if_neg h1, if_neg h0]
  | MEMORD get set =>
      simp only [Field.store, Option.map_eq_none_iff] at h ⊢
      exact h

/-- A setting that is refused is refused under any settings. -/
theorem setKnob_error (h : setKnob c key val loc = .error e) :
    e.loc = loc ∧ ∃ e', setKnob c' key val loc' = .error e' := by
  unfold setKnob at h ⊢
  split at h
  · split at h
    · cases h
    · rename_i hs
      cases h
      rw [Field.store_none hs]
      exact ⟨rfl, _, rfl⟩
  · cases h
    exact ⟨rfl, _, rfl⟩

theorem applyLine_error (c' : Settings) (n' : Nat) (h : applyLine c n l = .error e) :
    e.loc = .line n ∧ ∃ e', applyLine c' n' l = .error e' := by
  unfold applyLine at h ⊢
  dsimp only at h ⊢
  split at h
  · cases h
  · rename_i hs
    rw [if_neg hs]
    split at h
    · cases h
      exact ⟨rfl, _, rfl⟩
    · exact setKnob_error h

/-- A line is fatal at its own number, or it is not fatal at all. -/
theorem applyLine_cases (c : Settings) (n : Nat) (l : CString) :
    (lineFails l = true ∧ ∃ e, applyLine c n l = .error e ∧ e.loc = .line n) ∨
      (lineFails l = false ∧ ∃ c', applyLine c n l = .ok c') := by
  cases h : applyLine c n l with
  | error e =>
      -- an error does not depend on the settings, nor on the line's number
      obtain ⟨hloc, e', he'⟩ := applyLine_error {} 0 h
      refine .inl ⟨?_, e, rfl, hloc⟩
      rw [lineFails, he']
  | ok c' =>
      refine .inr ⟨?_, c', rfl⟩
      unfold lineFails
      cases h0 : applyLine {} 0 l with
      | error e =>
          obtain ⟨-, e', he'⟩ := applyLine_error c n h0
          rw [h] at he'
          cases he'
      | ok _ => rfl

theorem applyLine_nil : applyLine c n [] = .ok c := rfl

theorem trim_newline (s : CString) : trim (s ++ ['\n']) = trim s := by
  unfold trim
  -- the newline stops the front scan only where everything before it is blank
  rw [List.dropWhile_append]
  split
  · rename_i hall
    rw [List.isEmpty_iff.mp hall]
    rfl
  · rw [List.rdropWhile_concat_pos]
    rfl

theorem applyLine_newline : applyLine c n (l ++ ['\n']) = applyLine c n l := by
  have hcut : trim ((l ++ ['\n']).takeWhile fun c => c != '#') = trim (l.takeWhile fun c => c != '#') := by
    rw [List.takeWhile_append]
    split
    · -- no comment: the newline is trimmed
      rename_i hall
      rw [(List.takeWhile_prefix _).eq_of_length hall]
      exact trim_newline l
    · -- a comment ends before it
      rfl
  unfold applyLine
  rw [hcut]

end Line

/-! ### One turn of the loop -/

section Turn

variable {c : Settings} {n : Nat} {f l : List Char}

/-- The result of a line, and what comes after it. -/
def andThen (r : Except KnobFail Settings) (k : Settings → Except KnobFail Settings) :
    Except KnobFail Settings :=
  match r with
  | .error e => .error e
  | .ok c' => k c'

theorem takeWhile_nul (h : '\x00' ∉ l) : l.takeWhile (fun c => c != '\x00') = l := by
  rw [List.takeWhile_eq_self_iff]
  intro c hc
  rw [bne_iff_ne]
  rintro rfl
  exact h hc

theorem loadLoop_turn (hf : f ≠ []) :
    loadLoop c n f = andThen (applyLine c (n + 1) ((fgets 255 f).1.takeWhile fun c => c != '\x00'))
      fun c' => loadLoop c' (n + 1) (fgets 255 f).2 := by
  obtain ⟨ch, f, rfl⟩ := List.exists_cons_of_ne_nil hf
  rw [loadLoop]
  rfl

theorem applyLines_cons (ls : List CString) :
    applyLines c n (l :: ls) = andThen (applyLine c (n + 1) l) fun c' => applyLines c' (n + 1) ls := rfl

/-- A line that fits is one turn. -/
theorem loadLoop_line (hl : '\n' ∉ l) (hnul : '\x00' ∉ l) (hlen : l.length ≤ 254) :
    loadLoop c n (l ++ '\n' :: f) =
      andThen (applyLine c (n + 1) l) fun c' => loadLoop c' (n + 1) f := by
  have hnul' : '\x00' ∉ l ++ ['\n'] := by
    rw [List.mem_append]
    rintro (h | h)
    · exact hnul h
    · exact absurd h (by decide)
  rw [loadLoop_turn (by simp), fgets_line f hl (Nat.lt_succ_of_le hlen), takeWhile_nul hnul',
    applyLine_newline]

/-- A longer one is only cut. -/
theorem loadLoop_cut (hl : '\n' ∉ l) (hnul : '\x00' ∉ l) (hlen : 255 ≤ l.length) :
    loadLoop c n (l ++ f) =
      andThen (applyLine c (n + 1) (l.take 255)) fun c' => loadLoop c' (n + 1) (l.drop 255 ++ f) := by
  have hne : l ++ f ≠ [] := by
    intro h
    rw [(List.append_eq_nil_iff.mp h).1] at hlen
    exact absurd hlen (by decide)
  rw [loadLoop_turn hne, fgets_cut f hl hlen, takeWhile_nul fun h => hnul (List.mem_of_mem_take h)]

theorem loadLoop_last (hl : '\n' ∉ l) (hnul : '\x00' ∉ l) (hlen : l.length ≤ 255) :
    loadLoop c n l = applyLine c (n + 1) l := by
  by_cases hne : l = []
  · subst hne
    rw [loadLoop, applyLine_nil]
  · rw [loadLoop_turn hne, fgets_last hl hlen, takeWhile_nul hnul]
    cases applyLine c (n + 1) l with
    | error e => rfl
    | ok c' =>
        show loadLoop c' (n + 1) [] = _
        rw [loadLoop]

/-- A fatal error in the rest of a file is at a later line. -/
theorem loadLoop_error_loc {e : KnobFail} (h : loadLoop c n f = .error e) : ∃ m, n < m ∧ e.loc = .line m := by
  -- over the length of what is left of the file
  induction hk : f.length using Nat.strong_induction_on generalizing c n f with
  | _ k ih =>
      by_cases hne : f = []
      · subst hne
        rw [loadLoop] at h
        cases h
      · rw [loadLoop_turn hne] at h
        rcases applyLine_cases c (n + 1) ((fgets 255 f).1.takeWhile fun c => c != '\x00') with
          ⟨-, e', he', hloc⟩ | ⟨-, c', hc'⟩
        · rw [he'] at h
          cases h
          exact ⟨n + 1, Nat.lt_succ_self n, hloc⟩
        · rw [hc'] at h
          obtain ⟨ch, f, rfl⟩ := List.exists_cons_of_ne_nil hne
          obtain ⟨m, hm, hloc⟩ := ih _ (hk ▸ fgets_shorter 254 ch f) h rfl
          exact ⟨m, Nat.lt_of_succ_lt hm, hloc⟩

/-- Once a line is read in pieces without an error, the rest of the file has later numbers. -/
theorem loadLoop_pieces {c' : Settings} (hl : '\n' ∉ l) (hnul : '\x00' ∉ l)
    (h : loadLoop c n (l ++ ['\n']) = .ok c') :
    ∃ m, n < m ∧ ∀ f, loadLoop c n (l ++ '\n' :: f) = loadLoop c' m f := by
  -- over the length of the line, 255 characters less each turn
  induction hk : l.length using Nat.strong_induction_on generalizing c n l with
  | _ k ih =>
      by_cases hlen : l.length ≤ 254
      · -- the last piece takes the newline with it
        refine ⟨n + 1, Nat.lt_succ_self n, fun f => ?_⟩
        rw [loadLoop_line hl hnul hlen] at h ⊢
        cases ha : applyLine c (n + 1) l with
        | error e =>
            rw [ha] at h
            cases h
        | ok c₁ =>
            rw [ha] at h
            have h1 : loadLoop c₁ (n + 1) [] = .ok c' := h
            rw [loadLoop] at h1
            cases h1
            rfl
      · have hlong : 255 ≤ l.length := Nat.lt_of_not_le hlen
        rw [loadLoop_cut hl hnul hlong] at h
        cases ha : applyLine c (n + 1) (l.take 255) with
        | error e =>
            rw [ha] at h
            cases h
        | ok c₁ =>
            rw [ha] at h
            have hshort : (l.drop 255).length < k := by
              rw [List.length_drop]
              omega
            obtain ⟨m, hm, hrest⟩ := ih _ hshort (fun h => hl (List.mem_of_mem_drop h))
              (fun h => hnul (List.mem_of_mem_drop h)) h rfl
            refine ⟨m, Nat.lt_of_succ_lt hm, fun f => ?_⟩
            rw [loadLoop_cut hl hnul hlong, ha]
            exact hrest f

end Turn

/-! ### When the file is read line by line -/

section Whole

variable {c : Settings} {n : Nat} {L : CString} {text : List Char}

theorem sameEffect_andThen {l : CString} {k k' : Settings → Except KnobFail Settings}
    (h : ∀ c', SameEffect (k c') (k' c')) :
    SameEffect (andThen (applyLine c n l) k) (andThen (applyLine c n l) k') := by
  cases applyLine c n l with
  | error e => rfl
  | ok c' => exact h c'

/-- Two fatal lines at one number. -/
theorem sameEffect_fails {l l' : CString} {k k' : Settings → Except KnobFail Settings}
    (h : lineFails l = true) (h' : lineFails l' = true) :
    SameEffect (andThen (applyLine c n l) k) (andThen (applyLine c n l') k') := by
  rcases applyLine_cases c n l with ⟨-, e, he, hloc⟩ | ⟨hno, -⟩
  · rcases applyLine_cases c n l' with ⟨-, e', he', hloc'⟩ | ⟨hno, -⟩
    · rw [he, he']
      show Except.error e.loc = Except.error e'.loc
      rw [hloc, hloc']
    · rw [h'] at hno
      cases hno
  · rw [h] at hno
    cases hno

/-- A file whose lines are read as lines has the effect of its lines. -/
theorem loadLoop_sameEffect (hnul : '\x00' ∉ text) (h : ReadsLines (text.splitOn '\n')) :
    SameEffect (loadLoop c n text) (applyLines c n (text.splitOn '\n')) := by
  -- over the length of what is left of the file
  induction hk : text.length using Nat.strong_induction_on generalizing c n text with
  | _ k ih =>
      by_cases hmem : '\n' ∈ text
      · obtain ⟨l, f, rfl, hl⟩ := List.eq_append_cons_of_mem hmem
        have hnl : '\x00' ∉ l := fun h => hnul (List.mem_append_left _ h)
        have hnf : '\x00' ∉ f := fun h => hnul (List.mem_append_right _ (List.mem_cons_of_mem _ h))
        rw [List.splitOn_append_cons_self_of_not_mem hl] at h ⊢
        rw [applyLines_cons]
        have hcases : (l.length ≤ 254 ∧ (lineFails l = true ∨ ReadsLines (f.splitOn '\n'))) ∨
            (lineFails l = true ∧ lineFails (l.take 255) = true) := by
          obtain ⟨l', ls, hls⟩ := List.exists_cons_of_ne_nil (List.splitOn_ne_nil '\n' f)
          rw [hls] at h ⊢
          exact h
        have hfatal : lineFails l = true → lineFails (l.take 255) = true →
            SameEffect (loadLoop c n (l ++ '\n' :: f))
              (andThen (applyLine c (n + 1) l) fun c' => applyLines c' (n + 1) (f.splitOn '\n')) := by
          intro h1 h2
          by_cases hlen : l.length ≤ 254
          · rw [loadLoop_line hl hnl hlen]
            exact sameEffect_fails h1 h1
          · rw [loadLoop_cut hl hnl (Nat.lt_of_not_le hlen)]
            exact sameEffect_fails h2 h1
        rcases hcases with ⟨hlen, hfail | hrest⟩ | ⟨h1, h2⟩
        · -- a fatal line that fits is its own first piece
          apply hfatal hfail
          rw [List.take_of_length_le (Nat.le_succ_of_le hlen)]
          exact hfail
        · -- a line that fits and is not fatal: the rest decides
          rw [loadLoop_line hl hnl hlen]
          apply sameEffect_andThen
          intro c'
          apply ih f.length _ hnf hrest rfl
          rw [← hk, List.length_append, List.length_cons]
          omega
        · exact hfatal h1 h2
      · -- the last line, without a newline
        rw [List.splitOn_eq_singleton hmem] at h ⊢
        have happ : applyLines c n [text] = andThen (applyLine c (n + 1) text) .ok := rfl
        rw [happ]
        by_cases hlen : text.length ≤ 255
        · rw [loadLoop_last hmem hnul hlen]
          cases applyLine c (n + 1) text <;> rfl
        · rcases h with hle | ⟨h1, h2⟩
          · exact absurd hle hlen
          · have hcut := loadLoop_cut (c := c) (n := n) (f := []) hmem hnul (by omega)
            rw [List.append_nil, List.append_nil] at hcut
            rw [hcut]
            exact sameEffect_fails h2 h1

theorem not_sameEffect_ok {e : KnobFail} {c' : Settings} : ¬ SameEffect (.error e) (.ok c') := nofun

theorem not_sameEffect_ok' {e : KnobFail} {c' : Settings} : ¬ SameEffect (.ok c') (.error e) := nofun

/-- Fatal at a later line than the file's. -/
theorem not_sameEffect_later {r : Except KnobFail Settings} {e : KnobFail} {m : Nat}
    (h : ∀ e', r = .error e' → ∃ k, m < k ∧ e'.loc = .line k) (he : e.loc = .line m) :
    ¬ SameEffect r (.error e) := by
  intro hs
  cases hr : r with
  | error e' =>
      obtain ⟨k, hk, hloc⟩ := h e' hr
      rw [hr] at hs
      have hs' : e'.loc = e.loc := Except.error.inj hs
      rw [hloc, he] at hs'
      exact absurd (Where.line.inj hs') (Nat.ne_of_gt hk)
  | ok c' =>
      rw [hr] at hs
      exact not_sameEffect_ok' hs

/-- The first line that is too long shows, unless both it and its first piece are fatal. What
follows it is chosen to tell the two readings apart: nothing, or one more fatal line. -/
theorem long_line_shows (hl : '\n' ∉ L) (hnul : '\x00' ∉ L) (hlong : 255 ≤ L.length)
    (hno : ¬ (lineFails L = true ∧ lineFails (L.take 255) = true)) :
    ∃ more ∈ [[], ['x']],
      ¬ SameEffect (loadLoop c n (L ++ '\n' :: more)) (applyLines c n ((L ++ '\n' :: more).splitOn '\n')) := by
  have hsplit : ∀ more, (L ++ '\n' :: more).splitOn '\n' = L :: more.splitOn '\n' :=
    List.splitOn_append_cons_self_of_not_mem hl
  have hturn : ∀ more, loadLoop c n (L ++ '\n' :: more) = andThen (applyLine c (n + 1) (L.take 255))
      fun c' => loadLoop c' (n + 1) (L.drop 255 ++ '\n' :: more) := fun more => loadLoop_cut hl hnul hlong
  rcases applyLine_cases c (n + 1) L with ⟨hL, e, he, hloc⟩ | ⟨hL, c₁, hc₁⟩
  · -- the line is fatal, its first piece is not
    rcases applyLine_cases c (n + 1) (L.take 255) with ⟨hp, -⟩ | ⟨-, c₂, hc₂⟩
    · exact absurd ⟨hL, hp⟩ hno
    · refine ⟨[], List.mem_cons_self, ?_⟩
      rw [hsplit, hturn, applyLines_cons, he, hc₂]
      exact not_sameEffect_later (fun e' h => loadLoop_error_loc h) hloc
  · rcases applyLine_cases c (n + 1) (L.take 255) with ⟨-, e, he, -⟩ | ⟨-, c₂, hc₂⟩
    · -- the piece is fatal, the line is not
      refine ⟨[], List.mem_cons_self, ?_⟩
      rw [hsplit, hturn, applyLines_cons, hc₁, he]
      exact not_sameEffect_ok
    · -- neither is: the rest of the line counts as lines, which shifts the numbers
      cases hr : loadLoop c₂ (n + 1) (L.drop 255 ++ ['\n']) with
      | error e =>
          refine ⟨[], List.mem_cons_self, ?_⟩
          rw [hsplit, hturn, applyLines_cons, hc₁, hc₂]
          show ¬ SameEffect (loadLoop c₂ (n + 1) (L.drop 255 ++ ['\n'])) (.ok c₁)
          rw [hr]
          exact not_sameEffect_ok
      | ok c₃ =>
          obtain ⟨m, hm, hrest⟩ := loadLoop_pieces (fun h => hl (List.mem_of_mem_drop h))
            (fun h => hnul (List.mem_of_mem_drop h)) hr
          refine ⟨['x'], List.mem_cons_of_mem _ List.mem_cons_self, ?_⟩
          rcases applyLine_cases c₁ (n + 1 + 1) ['x'] with ⟨-, e, he, hloc⟩ | ⟨hx, -⟩
          · rw [hsplit, hturn, applyLines_cons, hc₁, hc₂]
            show ¬ SameEffect (loadLoop c₂ (n + 1) (L.drop 255 ++ '\n' :: ['x']))
              (andThen (applyLine c₁ (n + 1 + 1) ['x']) fun c' => applyLines c' (n + 1 + 1) [])
            rw [hrest, he]
            refine not_sameEffect_later (fun e' h => ?_) hloc
            obtain ⟨k, hk, hk'⟩ := loadLoop_error_loc h
            exact ⟨k, by omega, hk'⟩
          · exact absurd hx (by decide)

/-- A line that is too long after lines that fit and are not fatal. -/
theorem long_line_after {pre : List CString} (hpre : ∀ l ∈ pre, '\n' ∉ l ∧ '\x00' ∉ l ∧ l.length ≤ 254)
    (hl : '\n' ∉ L) (hnul : '\x00' ∉ L) (h : ¬ ReadsLines (pre ++ [L, []])) :
    ∃ more ∈ [[], ['x']], ¬ SameEffect (loadLoop c n (unlines (pre ++ [L]) ++ more))
      (applyLines c n ((unlines (pre ++ [L]) ++ more).splitOn '\n')) := by
  induction pre generalizing c n with
  | nil =>
      have htext : ∀ more, unlines ([] ++ [L]) ++ more = L ++ '\n' :: more := by simp [unlines]
      simp only [htext]
      refine long_line_shows hl hnul ?_ fun hfail => h (.inr hfail)
      rw [← Nat.not_lt]
      exact fun hlt => h (.inl ⟨Nat.le_of_lt_succ hlt, .inr (.inl (Nat.zero_le 255))⟩)
  | cons l pre ih =>
      obtain ⟨hnl, hz, hlen⟩ := hpre l List.mem_cons_self
      have hrest : ¬ (lineFails l = true ∨ ReadsLines (pre ++ [L, []])) := by
        intro hor
        obtain ⟨l', ls, hls⟩ := List.exists_cons_of_ne_nil (show pre ++ [L, []] ≠ [] by simp)
        rw [hls] at hor
        rw [List.cons_append, hls] at h
        exact h (.inl ⟨hlen, hor⟩)
      rw [not_or] at hrest
      have htext : ∀ more, unlines (l :: pre ++ [L]) ++ more = l ++ '\n' :: (unlines (pre ++ [L]) ++ more) := by
        simp [unlines]
      -- the line is read as it stands, so the difference is in the rest
      rcases applyLine_cases c (n + 1) l with ⟨hl', -⟩ | ⟨-, c', hc'⟩
      · exact absurd hl' hrest.1
      · obtain ⟨more, hmore, hdiff⟩ := ih (c := c') (n := n + 1)
          (fun l h => hpre l (List.mem_cons_of_mem _ h)) hrest.2
        refine ⟨more, hmore, ?_⟩
        rw [htext, List.splitOn_append_cons_self_of_not_mem hnl, loadLoop_line hnl hz hlen, applyLines_cons, hc']
        exact hdiff

theorem splitOn_unlines {ls : List CString} (h : ∀ l ∈ ls, '\n' ∉ l) (more : List Char) :
    (unlines ls ++ more).splitOn '\n' = ls ++ more.splitOn '\n' := by
  induction ls with
  | nil => rfl
  | cons l ls ih =>
      have htext : unlines (l :: ls) ++ more = l ++ '\n' :: (unlines ls ++ more) := by simp [unlines]
      rw [htext, List.splitOn_append_cons_self_of_not_mem (h l List.mem_cons_self),
        ih fun l h' => h l (List.mem_cons_of_mem _ h')]
      rfl

theorem readsLines_append {pre ls : List CString} (hpre : ∀ l ∈ pre, l.length ≤ 254) (hls : ReadsLines ls)
    (h : ReadsLines (pre ++ [L, []])) : ReadsLines (pre ++ L :: ls) := by
  -- what `ReadsLines` says of a line with others after it
  have hcons : ∀ l ls, ls ≠ [] → (ReadsLines (l :: ls) ↔ (l.length ≤ 254 ∧ (lineFails l = true ∨ ReadsLines ls)) ∨
      (lineFails l = true ∧ lineFails (l.take 255) = true)) := by
    intro l ls hne
    obtain ⟨l', ls, rfl⟩ := List.exists_cons_of_ne_nil hne
    exact Iff.rfl
  induction pre with
  | nil =>
      cases ls with
      | nil =>
          rcases h with ⟨hlen, -⟩ | hfail
          · exact .inl (Nat.le_succ_of_le hlen)
          · exact .inr hfail
      | cons l ls =>
          rcases h with ⟨hlen, -⟩ | hfail
          · exact .inl ⟨hlen, .inr hls⟩
          · exact .inr hfail
  | cons l pre ih =>
      rw [List.cons_append, hcons _ _ (by simp)] at h ⊢
      rcases h with ⟨hlen, hfail | hrest⟩ | hfail
      · exact .inl ⟨hlen, .inl hfail⟩
      · exact .inl ⟨hlen, .inr (ih (fun l h => hpre l (List.mem_cons_of_mem _ h)) hrest)⟩
      · exact .inr hfail

/-- After short lines, a line decides for every way the file goes on after it. -/
theorem first_long_line {pre : List CString} {L : CString} (hpre : ∀ l ∈ pre, '\n' ∉ l ∧ '\x00' ∉ l ∧ l.length ≤ 254)
    (hl : '\n' ∉ L) (hnul : '\x00' ∉ L) :
    (∀ more, '\x00' ∉ more → ReadsLines (more.splitOn '\n') → ∀ c,
        SameEffect (loadConfigFile c (unlines (pre ++ [L]) ++ more)) (lineByLine c (unlines (pre ++ [L]) ++ more))) ↔
      ReadsLines (pre ++ [L, []]) := by
  constructor
  · intro h
    by_contra hno
    have hshort : ∀ more ∈ [[], ['x']], '\x00' ∉ more ∧ more.splitOn '\n' = [more] ∧ more.length ≤ 255 := by decide
    -- one of two continuations tells the readings apart
    obtain ⟨more, hmore, hdiff⟩ := long_line_after (c := {}) (n := 0) hpre hl hnul hno
    refine hdiff (h more ?_ ?_ {})
    · exact (hshort more hmore).1
    · rw [(hshort more hmore).2.1]
      exact .inl (hshort more hmore).2.2
  · intro h more hz hmore c
    apply loadLoop_sameEffect
    · -- no NUL in the whole text
      rw [List.mem_append, not_or]
      refine ⟨fun hmem => ?_, hz⟩
      obtain ⟨l, hl', hmem⟩ := List.mem_flatMap.mp hmem
      rcases List.mem_append.mp hmem with hmem | hmem
      · rcases List.mem_append.mp hl' with hp | hp
        · exact (hpre l hp).2.1 hmem
        · rw [List.mem_singleton.mp hp] at hmem
          exact hnul hmem
      · exact absurd hmem (by decide)
    · rw [splitOn_unlines fun l hl' => ?_, List.append_assoc]
      · exact readsLines_append (fun l hl' => (hpre l hl').2.2) hmore h
      · rcases List.mem_append.mp hl' with hp | hp
        · exact (hpre l hp).1
        · rw [List.mem_singleton.mp hp]
          exact hl

/-- A file has the effect of its lines if they are read as lines. The condition is exact for the
first line that is too long: without it, some continuation of the file has another effect. -/
theorem loadConfigFile_lineByLine (text : CString) (hnul : '\x00' ∉ text) :
    (ReadsLines (text.splitOn '\n') → ∀ c, SameEffect (loadConfigFile c text) (lineByLine c text)) ∧
    ∀ pre L rest, text = unlines (pre ++ [L]) ++ rest → (∀ l ∈ pre, '\n' ∉ l ∧ l.length ≤ 254) → '\n' ∉ L →
      ((∀ more, '\x00' ∉ more → ReadsLines (more.splitOn '\n') → ∀ c,
          SameEffect (loadConfigFile c (unlines (pre ++ [L]) ++ more)) (lineByLine c (unlines (pre ++ [L]) ++ more))) ↔
        ReadsLines (pre ++ [L, []])) := by
  refine ⟨fun h c => loadLoop_sameEffect hnul h, fun pre L rest htext hpre hl => ?_⟩
  have hline : ∀ l ∈ pre ++ [L], '\x00' ∉ l := by
    intro l hmem hz
    apply hnul
    rw [htext]
    exact List.mem_append_left _ (List.mem_flatMap.mpr ⟨l, hmem, List.mem_append_left _ hz⟩)
  apply first_long_line
  · intro l hmem
    exact ⟨(hpre l hmem).1, hline l (List.mem_append_left _ hmem), (hpre l hmem).2⟩
  · exact hl
  · exact hline L (List.mem_append_right _ List.mem_cons_self)

/-- Two settings and a comment, without a newline at the end. -/
theorem loadConfigFile_lineByLine_short :
    SameEffect (loadConfigFile {} "robSize = 8 # small\n\nl2.size=1m".toList)
      (lineByLine {} "robSize = 8 # small\n\nl2.size=1m".toList) :=
  (loadConfigFile_lineByLine _ (by decide)).1 (by
    have hsplit : "robSize = 8 # small\n\nl2.size=1m".toList.splitOn '\n' =
        ["robSize = 8 # small".toList, [], "l2.size=1m".toList] := by decide
    rw [hsplit]
    exact .inl ⟨by decide, .inr (.inl ⟨by decide, .inr (.inl (by decide))⟩)⟩) {}

/-- A comment of 266 characters, the last eleven of which are a setting. -/
def commentedSetting : CString := '#' :: List.replicate 254 '-' ++ "robSize = 8".toList

/-- A comment of more than 255 characters: its tail is read as a line of its own and sets a knob. -/
theorem loadConfigFile_commentTail :
    ¬ (∀ text, '\x00' ∉ text → ∀ c, SameEffect (loadConfigFile c text) (lineByLine c text)) := by
  intro h
  have hset : loadConfigFile {} (commentedSetting ++ ['\n']) = .ok { robSize := 8 } := by
    have htake : commentedSetting.take 255 = '#' :: List.replicate 254 '-' := by decide +kernel
    have hdrop : commentedSetting.drop 255 = "robSize = 8".toList := by decide +kernel
    have hskip : applyLine {} 1 ('#' :: List.replicate 254 '-') = .ok {} := rfl
    have hknob : applyLine {} 2 "robSize = 8".toList = .ok { robSize := 8 } := rfl
    rw [loadConfigFile, loadLoop_cut (by decide +kernel) (by decide +kernel) (by decide +kernel), htake, hskip, hdrop]
    -- the second turn starts inside the comment
    show loadLoop {} 1 ("robSize = 8".toList ++ '\n' :: []) = _
    rw [loadLoop_line (by decide) (by decide) (by decide), hknob]
    show loadLoop { robSize := 8 } 2 [] = _
    rw [loadLoop]
  have hsame := h (commentedSetting ++ ['\n']) (by decide +kernel) {}
  rw [hset, lineByLine, List.splitOn_append_cons_self_of_not_mem (by decide +kernel)] at hsame
  have hsize : ({ robSize := 8 } : Settings) = {} := Except.ok.inj hsame
  exact absurd hsize (by decide)

end Whole

end RvO3
