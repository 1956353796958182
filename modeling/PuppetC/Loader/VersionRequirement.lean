import Mathlib.Data.Prod.Lex
import PuppetC.Sscanf
import Mathlib

/-!
# The Puppet version a module requires

The metadata of a module may say which versions of Puppet it is for: alternatives between `||`,
each a conjunction of comparisons with a version. A scanner walks through the text and tells
whether version 8.0.0 is excluded. It skips what it does not know up to the next blank, `||`
among it, and excludes the version as soon as one comparison fails.

A number that does not fit in an `int` leaves the answer undefined.

## Main definitions

* `puppet8ExcludedBy`: `puppet8_excluded_by`.
* `Requirement`: the texts of the grammar, with `Requirement.Excludes8`, what they mean for
  version 8.0.0.
* `Requirement.readings`: the comparisons that the scanner sees.

## Main results

* `puppet8ExcludedBy_text`: the scanner excludes the version when a comparison it sees fails.
* `puppet8ExcludedBy_eq_iff`: the scanner is right about a requirement exactly when its numbers
  fit and version 8.0.0, if it satisfies an alternative, satisfies all comparisons that are seen.
-/

namespace PuppetC

/-! ### The scanner -/

/-- The numbers of a version; undefined if one of them is not an `int`. -/
def scanVersion (cs : List Char) : Option (ℤ × ℤ × ℤ) :=
  let ns := scanDotted 3 cs
  if ∀ n ∈ ns, -2 ^ 31 ≤ n ∧ n < 2 ^ 31 then
    some (ns.getD 0 0, ns.getD 1 0, ns.getD 2 0)
  else none

/-- `loader_ver_cmp`. -/
def loaderVerCmp (a b : ℤ × ℤ × ℤ) : ℤ :=
  if a.1 ≠ b.1 then if a.1 < b.1 then -1 else 1
  else if a.2.1 ≠ b.2.1 then if a.2.1 < b.2.1 then -1 else 1
  else if a.2.2 ≠ b.2.2 then if a.2.2 < b.2.2 then -1 else 1
  else 0

/-- A blank or tab. -/
def isGap (c : Char) : Bool := c = ' ' || c = '\t'

/-- What stands between comparisons. -/
def isGapOrComma (c : Char) : Bool := isGap c || c = ','

/-- An operator: its first character, and whether `=` comes after it. -/
def takeOp : List Char → Option (Char × Bool) × List Char
  | c :: cs =>
    if c = '>' ∨ c = '<' ∨ c = '=' then
      if cs.head? = some '=' then (some (c, true), cs.tail) else (some (c, false), cs)
    else (none, c :: cs)
  | [] => (none, [])

/-- The comparison of version 8.0.0 with a version holds. -/
def opHolds (op : Char × Bool) (v : ℤ × ℤ × ℤ) : Bool :=
  let c := loaderVerCmp (8, 0, 0) v
  if op.1 = '<' ∧ op.2 then c ≤ 0
  else if op.1 = '<' then c < 0
  else if op.1 = '>' ∧ op.2 then 0 ≤ c
  else if op.1 = '>' then 0 < c
  else c = 0

/-- `excluded` after a version. -/
def excludeUnless (op : Option (Char × Bool)) (v : ℤ × ℤ × ℤ) (excluded : Bool) : Bool :=
  match op with
  | none => excluded
  | some op => if opHolds op v then excluded else true

theorem takeOp_eq_of_not {c : Char} (h : ¬ (c = '>' ∨ c = '<' ∨ c = '=')) (cs : List Char) :
    takeOp (c :: cs) = (none, c :: cs) := by
  rw [takeOp, if_neg h]

theorem length_takeOp_lt {c : Char} (h : c = '>' ∨ c = '<' ∨ c = '=') (cs : List Char) :
    (takeOp (c :: cs)).2.length < (c :: cs).length := by
  rw [takeOp, if_pos h]
  split_ifs
  · simp only [List.length_tail, List.length_cons]
    omega
  · simp

/-- What comes after an operator and blanks. -/
def wordAfterOp (cs : List Char) : List Char := (takeOp cs).2.dropWhile isGap

theorem length_wordAfterOp_le (cs : List Char) : (wordAfterOp cs).length ≤ cs.length := by
  refine (List.dropWhile_sublist _).length_le.trans ?_
  cases cs with
  | nil => exact le_rfl
  | cons c cs =>
    by_cases hop : c = '>' ∨ c = '<' ∨ c = '='
    · exact (length_takeOp_lt hop cs).le
    · rw [takeOp_eq_of_not hop]

theorem head_dropWhile {p : Char → Bool} {cs rest : List Char} {c : Char}
    (h : cs.dropWhile p = c :: rest) : p c = false ∧ (c :: rest).length ≤ cs.length := by
  refine ⟨?_, h ▸ (List.dropWhile_sublist _).length_le⟩
  simpa [h] using List.head?_dropWhile_not p cs

/-- An operator or a word is behind the scanner. -/
theorem length_skipWord_lt {c : Char} (hc : isGap c = false) (cs : List Char) :
    ((wordAfterOp (c :: cs)).dropWhile fun c ↦ !isGap c).length < (c :: cs).length := by
  by_cases hop : c = '>' ∨ c = '<' ∨ c = '='
  · refine (List.dropWhile_sublist _).length_le.trans_lt ?_
    exact (List.dropWhile_sublist _).length_le.trans_lt (length_takeOp_lt hop cs)
  · rw [wordAfterOp, takeOp_eq_of_not hop, List.dropWhile_cons_of_neg (by simp [hc]),
      List.dropWhile_cons_of_pos (by simp [hc])]
    exact Nat.lt_succ_of_le (List.dropWhile_sublist _).length_le

/-- A version is behind the scanner. -/
theorem length_skipVersion_lt {cs : List Char} (h : cs.head?.any Char.isDigit) :
    (cs.dropWhile fun c ↦ c.isDigit || c = '.').length < cs.length := by
  cases cs with
  | nil => cases h
  | cons c cs =>
    have hc : c.isDigit = true := h
    rw [List.dropWhile_cons_of_pos (by simp [hc])]
    exact Nat.lt_succ_of_le (List.dropWhile_sublist _).length_le

/-- The loop of `puppet8_excluded_by`. -/
def puppet8Loop (cs : List Char) (excluded : Bool) : Option Bool :=
  match _h : cs.dropWhile isGapOrComma with
  | [] => some excluded
  | c :: rest =>
    let op := (takeOp (c :: rest)).1
    let word := wordAfterOp (c :: rest)
    if ¬ word.head?.any Char.isDigit then
      puppet8Loop (word.dropWhile fun c ↦ !isGap c) excluded
    else
      match scanVersion word with
      | none => none
      | some v =>
        puppet8Loop (word.dropWhile fun c ↦ c.isDigit || c = '.') (excludeUnless op v excluded)
  termination_by cs.length
  decreasing_by
    · obtain ⟨hc, hle⟩ := head_dropWhile _h
      exact (length_skipWord_lt (by simpa using (Bool.or_eq_false_iff.1 hc).1) rest).trans_le hle
    · have hdigit : ¬ ¬ word.head?.any Char.isDigit := by assumption
      obtain ⟨-, hle⟩ := head_dropWhile _h
      exact (length_skipVersion_lt (not_not.1 hdigit)).trans_le
        ((length_wordAfterOp_le _).trans hle)

/-- `puppet8_excluded_by`. -/
def puppet8ExcludedBy (req : List Char) : Option Bool := puppet8Loop req false

/-! ### Requirements -/

/-- A dotted version of up to three numbers. -/
structure DottedVersion where
  first : Digits
  rest : List Digits
  length_le : rest.length ≤ 2

namespace DottedVersion

/-- The text of a version. -/
def text (v : DottedVersion) : List Char := v.first.chars ++ v.rest.flatMap fun ds ↦ '.' :: ds.chars

/-- The numbers of a version. -/
def numbers (v : DottedVersion) : List ℕ := v.first.value :: v.rest.map Digits.value

/-- The numbers of a version as `int`s, with zeros for those it does not have. -/
def ints (v : DottedVersion) : ℤ × ℤ × ℤ :=
  (v.numbers.getD 0 0, v.numbers.getD 1 0, v.numbers.getD 2 0)

/-- A version in the order of versions, with zeros for numbers it does not have. -/
def key (v : DottedVersion) : ℕ ×ₗ ℕ ×ₗ ℕ :=
  toLex (v.numbers.getD 0 0, toLex (v.numbers.getD 1 0, v.numbers.getD 2 0))

/-- The numbers fit in an `int`. -/
def Fits (v : DottedVersion) : Prop := ∀ n ∈ v.numbers, n < 2 ^ 31

instance (v : DottedVersion) : Decidable v.Fits :=
  inferInstanceAs (Decidable (∀ n ∈ v.numbers, n < 2 ^ 31))

end DottedVersion

/-- The operators of requirements. -/
inductive VersionOp where
  | ge | le | gt | lt | eq
  deriving DecidableEq

namespace VersionOp

/-- The text of an operator. -/
def text : VersionOp → List Char
  | ge => ['>', '=']
  | le => ['<', '=']
  | gt => ['>']
  | lt => ['<']
  | eq => ['=']

/-- A version compares with a bound as the operator says. -/
def Holds : VersionOp → ℕ ×ₗ ℕ ×ₗ ℕ → ℕ ×ₗ ℕ ×ₗ ℕ → Prop
  | ge, v, bound => bound ≤ v
  | le, v, bound => v ≤ bound
  | gt, v, bound => bound < v
  | lt, v, bound => v < bound
  | eq, v, bound => v = bound

instance : ∀ (op : VersionOp) (v bound), Decidable (op.Holds v bound)
  | ge, v, bound => inferInstanceAs (Decidable (bound ≤ v))
  | le, v, bound => inferInstanceAs (Decidable (v ≤ bound))
  | gt, v, bound => inferInstanceAs (Decidable (bound < v))
  | lt, v, bound => inferInstanceAs (Decidable (v < bound))
  | eq, v, bound => inferInstanceAs (Decidable (v = bound))

end VersionOp

/-- A comparison with a version; blanks may come after the operator. -/
structure Comparison where
  op : VersionOp
  gap : List Char
  version : DottedVersion
  isGap_gap : ∀ c ∈ gap, isGap c

/-- Version 8.0.0. -/
def version8 : ℕ ×ₗ ℕ ×ₗ ℕ := toLex (8, toLex (0, 0))

namespace Comparison

/-- The text of a comparison. -/
def text (c : Comparison) : List Char := c.op.text ++ c.gap ++ c.version.text

/-- Version 8.0.0 satisfies the comparison. -/
def Holds8 (c : Comparison) : Prop := c.op.Holds version8 c.version.key

instance (c : Comparison) : Decidable c.Holds8 :=
  inferInstanceAs (Decidable (c.op.Holds version8 c.version.key))

end Comparison

/-- A comparison after blanks and commas. -/
structure NextComparison where
  sep : List Char
  comparison : Comparison
  ne_nil : sep ≠ []
  isSep : ∀ c ∈ sep, isGapOrComma c

/-- A conjunction of comparisons. -/
structure Conjunction where
  first : Comparison
  rest : List NextComparison

namespace Conjunction

/-- The comparisons of a conjunction. -/
def comparisons (a : Conjunction) : List Comparison := a.first :: a.rest.map (·.comparison)

/-- The text of comparisons that follow another. -/
def restText (rest : List NextComparison) : List Char :=
  rest.flatMap fun c ↦ c.sep ++ c.comparison.text

/-- The text of a conjunction. -/
def text (a : Conjunction) : List Char := a.first.text ++ restText a.rest

/-- Version 8.0.0 satisfies all comparisons. -/
def Holds8 (a : Conjunction) : Prop := ∀ c ∈ a.comparisons, c.Holds8

instance (a : Conjunction) : Decidable a.Holds8 :=
  inferInstanceAs (Decidable (∀ c ∈ a.comparisons, c.Holds8))

end Conjunction

/-- An alternative after `||`, with the blanks around it. -/
structure NextConjunction where
  before : List Char
  after : List Char
  conjunction : Conjunction
  isGap_before : ∀ c ∈ before, isGap c
  isGap_after : ∀ c ∈ after, isGap c

/-- A version requirement. -/
structure Requirement where
  lead : List Char
  first : Conjunction
  rest : List NextConjunction
  trail : List Char
  isGap_lead : ∀ c ∈ lead, isGap c
  isGap_trail : ∀ c ∈ trail, isGap c

namespace Requirement

/-- The alternatives. -/
def alternatives (r : Requirement) : List Conjunction :=
  r.first :: r.rest.map (·.conjunction)

/-- The text of alternatives that follow another, and what comes after them. -/
def restText (rest : List NextConjunction) (trail : List Char) : List Char :=
  match rest with
  | [] => trail
  | a :: rest =>
    a.before ++ '|' :: '|' :: a.after ++ a.conjunction.text ++ restText rest trail

/-- The text of a requirement. -/
def text (r : Requirement) : List Char := r.lead ++ r.first.text ++ restText r.rest r.trail

/-- Version 8.0.0 satisfies no alternative. -/
def Excludes8 (r : Requirement) : Prop := ∀ a ∈ r.alternatives, ¬ a.Holds8

instance (r : Requirement) : Decidable r.Excludes8 :=
  inferInstanceAs (Decidable (∀ a ∈ r.alternatives, ¬ a.Holds8))

end Requirement

/-! ### What the scanner sees -/

/-- A version that the scanner reads, and the operator it saw in front of it. -/
structure Reading where
  op : Option VersionOp
  version : DottedVersion

/-- Version 8.0.0 fails a comparison that was read. -/
def Reading.Violated8 (x : Reading) : Prop := ∃ op ∈ x.op, ¬ op.Holds version8 x.version.key

instance (x : Reading) : Decidable x.Violated8 :=
  inferInstanceAs (Decidable (∃ op ∈ x.op, ¬ op.Holds version8 x.version.key))

/-- A comparison that is read. -/
def Comparison.reading (c : Comparison) : Reading := ⟨some c.op, c.version⟩

/-- What is read of a conjunction right behind `||`: the characters up to the first blank are
skipped with `||`, and a version whose operator was skipped has none. -/
def gluedReadings (c : Comparison) : List NextComparison → List Reading
  | [] => if c.gap = [] then [] else [⟨none, c.version⟩]
  | n :: rest =>
    if c.gap ≠ [] then ⟨none, c.version⟩ :: (n :: rest).map (·.comparison.reading)
    else if n.sep.any isGap then (n :: rest).map (·.comparison.reading)
    else gluedReadings n.comparison rest

/-- What is read of an alternative. -/
def NextConjunction.readings (a : NextConjunction) : List Reading :=
  if a.after = [] then gluedReadings a.conjunction.first a.conjunction.rest
  else a.conjunction.comparisons.map Comparison.reading

/-- What is read of a requirement. -/
def Requirement.readings (r : Requirement) : List Reading :=
  r.first.comparisons.map Comparison.reading ++ r.rest.flatMap NextConjunction.readings

/-- The answer after versions that were read. -/
def answerAfter : List Reading → Bool → Option Bool
  | [], excluded => some excluded
  | x :: xs, excluded =>
    if x.version.Fits then answerAfter xs (excluded || decide x.Violated8) else none

/-- The rest of a text is answered as the readings say. -/
def Scans (cs : List Char) (xs : List Reading) : Prop :=
  ∀ excluded, puppet8Loop cs excluded = answerAfter xs excluded

/-! ### Rounds of the scanner -/

theorem puppet8Loop_eq (cs : List Char) (excluded : Bool) :
    puppet8Loop cs excluded =
      match cs.dropWhile isGapOrComma with
      | [] => some excluded
      | c :: rest =>
        if ¬ (wordAfterOp (c :: rest)).head?.any Char.isDigit then
          puppet8Loop ((wordAfterOp (c :: rest)).dropWhile fun c ↦ !isGap c) excluded
        else
          match scanVersion (wordAfterOp (c :: rest)) with
          | none => none
          | some v =>
            puppet8Loop ((wordAfterOp (c :: rest)).dropWhile fun c ↦ c.isDigit || c = '.')
              (excludeUnless (takeOp (c :: rest)).1 v excluded) := by
  rw [puppet8Loop]
  split
  · next h => rw [h]
  · next h => rw [h]

variable {cs rest sep : List Char} {xs : List Reading}

/-- Blanks and commas are skipped. -/
theorem puppet8Loop_append (hsep : ∀ c ∈ sep, isGapOrComma c) (cs : List Char) (excluded : Bool) :
    puppet8Loop (sep ++ cs) excluded = puppet8Loop cs excluded := by
  rw [puppet8Loop_eq, puppet8Loop_eq cs, List.dropWhile_append_of_pos hsep]

theorem Scans.append (h : Scans cs xs) (hsep : ∀ c ∈ sep, isGapOrComma c) :
    Scans (sep ++ cs) xs := fun excluded ↦
  (puppet8Loop_append hsep cs excluded).trans (h excluded)

theorem scans_gap (hsep : ∀ c ∈ sep, isGap c) : Scans sep [] := by
  intro excluded
  have hskip : sep.dropWhile isGapOrComma = [] :=
    List.dropWhile_eq_nil_iff.2 fun c hc ↦ by simp [isGapOrComma, hsep c hc]
  rw [puppet8Loop_eq, hskip]
  rfl

/-- An alternative ends here. -/
def EndsAlternative (cs : List Char) : Prop := ∀ c ∈ cs.head?, isGap c ∨ c = '|'

/-- A word is skipped up to the next blank. -/
theorem puppet8Loop_skipWord (h : EndsAlternative cs) (excluded : Bool) :
    puppet8Loop (cs.dropWhile fun c ↦ !isGap c) excluded = puppet8Loop cs excluded := by
  cases cs with
  | nil => rfl
  | cons c cs =>
    rcases h c rfl with hgap | rfl
    · rw [List.dropWhile_cons_of_neg (by simp [hgap])]
    · have hword : wordAfterOp ('|' :: cs) = '|' :: cs := by
        rw [wordAfterOp, takeOp_eq_of_not (by decide), List.dropWhile_cons_of_neg (by decide)]
      have hskip : ('|' :: cs).dropWhile isGapOrComma = '|' :: cs :=
        List.dropWhile_cons_of_neg (by decide)
      rw [puppet8Loop_eq ('|' :: cs), hskip]
      dsimp only
      rw [hword, if_pos (by simp)]

/-! ### Versions and comparisons -/

theorem scanVersion_append (v : DottedVersion) (hrest : EndsDotted rest) :
    scanVersion (v.text ++ rest) = if v.Fits then some v.ints else none := by
  have hscan : scanDotted 3 (v.text ++ rest) = v.numbers.map fun n : ℕ ↦ (n : ℤ) := by
    rw [DottedVersion.text, List.append_assoc, scanDotted_append v.rest v.first 2 v.length_le hrest,
      DottedVersion.numbers, ← List.map_cons, List.map_map]
    rfl
  have hget (i : ℕ) : (v.numbers.map fun n : ℕ ↦ (n : ℤ)).getD i 0 = (v.numbers.getD i 0 : ℕ) := by
    rw [List.getD_eq_getElem?_getD, List.getD_eq_getElem?_getD, List.getElem?_map]
    cases v.numbers[i]? <;> rfl
  have hfits : (∀ n ∈ v.numbers.map fun n : ℕ ↦ (n : ℤ), -2 ^ 31 ≤ n ∧ n < 2 ^ 31) ↔ v.Fits := by
    rw [List.forall_mem_map]
    refine forall₂_congr fun n _ ↦ ?_
    omega
  dsimp only [scanVersion]
  rw [hscan, hget, hget, hget]
  exact if_congr hfits rfl rfl

theorem dropWhile_version (v : DottedVersion) (hrest : EndsDotted rest) :
    ((v.text ++ rest).dropWhile fun c ↦ c.isDigit || c = '.') = rest := by
  rw [List.dropWhile_append_of_pos]
  · cases rest with
    | nil => rfl
    | cons c rest =>
      obtain ⟨hdigit, hdot⟩ := hrest c rfl
      exact List.dropWhile_cons_of_neg (by simp [hdigit, hdot])
  · intro c hc
    rw [DottedVersion.text, List.mem_append, List.mem_flatMap] at hc
    rcases hc with hc | ⟨ds, -, hc⟩
    · simp [v.first.isDigit c hc]
    · rcases List.mem_cons.1 hc with rfl | hc
      · simp
      · simp [ds.isDigit c hc]

/-- Versions are compared lexicographically. -/
theorem loaderVerCmp_key (v : DottedVersion) :
    loaderVerCmp (8, 0, 0) v.ints =
      if version8 < v.key then -1 else if v.key < version8 then 1 else 0 := by
  simp only [loaderVerCmp, DottedVersion.ints, DottedVersion.key, version8, Prod.Lex.lt_iff,
    ofLex_toLex]
  split_ifs <;> omega

/-- An operator as the scanner keeps it. -/
def VersionOp.chars : VersionOp → Char × Bool
  | ge => ('>', true)
  | le => ('<', true)
  | gt => ('>', false)
  | lt => ('<', false)
  | eq => ('=', false)

/-- The comparison of version 8.0.0 with a version is made as the operator says. -/
theorem opHolds_chars (op : VersionOp) (v : DottedVersion) :
    opHolds op.chars v.ints = decide (op.Holds version8 v.key) := by
  rcases lt_trichotomy version8 v.key with h | h | h
  · cases op <;> simp [opHolds, VersionOp.chars, VersionOp.Holds, loaderVerCmp_key, h, h.not_gt,
      h.ne, h.le, h.not_ge]
  · cases op <;> simp [opHolds, VersionOp.chars, VersionOp.Holds, loaderVerCmp_key, h]
  · cases op <;> simp [opHolds, VersionOp.chars, VersionOp.Holds, loaderVerCmp_key, h, h.not_gt,
      h.ne', h.le, h.not_ge]

theorem exists_version_cons (v : DottedVersion) (rest : List Char) :
    ∃ d ds, v.text ++ rest = d :: ds ∧ d.isDigit := by
  obtain ⟨d, ds, hcons⟩ := List.exists_cons_of_ne_nil v.first.ne_nil
  refine ⟨d, ds ++ (v.rest.flatMap fun ds ↦ '.' :: ds.chars) ++ rest, ?_,
    v.first.isDigit d (hcons ▸ List.mem_cons_self)⟩
  rw [DottedVersion.text, hcons, List.cons_append, List.cons_append]

theorem takeOp_text (op : VersionOp) (h : ∀ c ∈ cs.head?, c ≠ '=') :
    takeOp (op.text ++ cs) = (some op.chars, cs) := by
  have hne : ¬ cs.head? = some '=' := fun heq ↦ h '=' heq rfl
  cases op with
  | ge => simp [VersionOp.text, VersionOp.chars, takeOp]
  | le => simp [VersionOp.text, VersionOp.chars, takeOp]
  | gt => simp [VersionOp.text, VersionOp.chars, takeOp, hne]
  | lt => simp [VersionOp.text, VersionOp.chars, takeOp, hne]
  | eq => simp [VersionOp.text, VersionOp.chars, takeOp, hne]

theorem isGap_of_isDigit {c : Char} (h : c.isDigit) : isGap c = false := by
  have hspace := isSpaceChar_of_isDigit h
  rw [isGap, Bool.or_eq_false_iff]
  refine ⟨decide_eq_false ?_, decide_eq_false ?_⟩
  all_goals
    rintro rfl
    exact absurd h (by decide)

/-- A version is read when the scanner has come to it. -/
theorem scans_word {op : Option VersionOp} {v : DottedVersion} {c : Char}
    (hsep : isGapOrComma c = false) (hop : (takeOp (c :: cs)).1 = op.map VersionOp.chars)
    (hword : wordAfterOp (c :: cs) = v.text ++ rest) (hrest : EndsDotted rest)
    (h : Scans rest xs) : Scans (c :: cs) (⟨op, v⟩ :: xs) := by
  intro excluded
  obtain ⟨d, ds, hcons, hd⟩ := exists_version_cons v rest
  have hhead : ¬ ¬ (wordAfterOp (c :: cs)).head?.any Char.isDigit := by
    rw [hword, hcons]
    simpa using hd
  rw [puppet8Loop_eq, List.dropWhile_cons_of_neg (by simp [hsep])]
  dsimp only
  rw [if_neg hhead, hword, scanVersion_append v hrest, dropWhile_version v hrest, hop, answerAfter]
  by_cases hfits : v.Fits
  · rw [if_pos hfits, if_pos hfits]
    refine (h _).trans (congrArg (answerAfter xs) ?_)
    cases op with
    | none => simp [excludeUnless, Reading.Violated8]
    | some op =>
      rw [Option.map_some, excludeUnless, opHolds_chars]
      by_cases hholds : op.Holds version8 v.key <;> simp [hholds, Reading.Violated8]
  · rw [if_neg hfits, if_neg hfits]

/-- A comparison is read. -/
theorem scans_comparison (c : Comparison) (hrest : EndsDotted rest) (h : Scans rest xs) :
    Scans (c.text ++ rest) (c.reading :: xs) := by
  obtain ⟨d, ds, hcons, hd⟩ := exists_version_cons c.version rest
  have hhead : ∀ e ∈ (c.gap ++ (c.version.text ++ rest)).head?, e ≠ '=' := by
    intro e he
    cases hgap : c.gap with
    | nil =>
      rw [hgap, hcons] at he
      cases he
      rintro rfl
      exact absurd hd (by decide)
    | cons g gs =>
      obtain rfl : g = e := by simpa [hgap] using he
      have hg := c.isGap_gap g (hgap ▸ List.mem_cons_self)
      rintro rfl
      exact absurd hg (by decide)
  have htake := takeOp_text c.op hhead
  have hword : wordAfterOp (c.op.text ++ (c.gap ++ (c.version.text ++ rest))) =
      c.version.text ++ rest := by
    rw [wordAfterOp, htake, List.dropWhile_append_of_pos c.isGap_gap, hcons,
      List.dropWhile_cons_of_neg (by simp [isGap_of_isDigit hd])]
  obtain ⟨o, os, hop, hsep⟩ : ∃ o os, c.op.text ++ (c.gap ++ (c.version.text ++ rest)) = o :: os ∧
      isGapOrComma o = false := by
    cases c.op with
    | _ => exact ⟨_, _, rfl, by decide⟩
  rw [Comparison.text, List.append_assoc, List.append_assoc]
  rw [hop] at htake hword ⊢
  exact scans_word hsep (by rw [htake]; rfl) hword hrest h

/-- A version without an operator is read. -/
theorem scans_bare (v : DottedVersion) (hrest : EndsDotted rest) (h : Scans rest xs) :
    Scans (v.text ++ rest) (⟨none, v⟩ :: xs) := by
  obtain ⟨d, ds, hcons, hd⟩ := exists_version_cons v rest
  have hne (e : Char) (he : e.isDigit = false) : d ≠ e := by
    rintro rfl
    rw [hd] at he
    cases he
  have htake : takeOp (d :: ds) = (none, d :: ds) :=
    takeOp_eq_of_not (by simp [hne '>' rfl, hne '<' rfl, hne '=' rfl]) ds
  have hword : wordAfterOp (d :: ds) = v.text ++ rest := by
    rw [wordAfterOp, htake, List.dropWhile_cons_of_neg (by simp [isGap_of_isDigit hd]), hcons]
  rw [hcons]
  exact scans_word (by simp [isGapOrComma, isGap_of_isDigit hd, hne ',' rfl]) (by rw [htake]; rfl)
    hword hrest h

/-! ### Conjunctions and alternatives -/

theorem EndsAlternative.endsDotted (h : EndsAlternative cs) : EndsDotted cs := by
  intro c hc
  rcases h c hc with hgap | rfl
  · refine ⟨fun hdigit ↦ ?_, ?_⟩
    · rw [isGap_of_isDigit hdigit] at hgap
      cases hgap
    · rintro rfl
      exact absurd hgap (by decide)
  · exact ⟨by decide, by decide⟩

theorem endsDotted_restText (rest : List NextComparison) {tail : List Char}
    (h : EndsAlternative tail) : EndsDotted (Conjunction.restText rest ++ tail) := by
  cases rest with
  | nil => exact h.endsDotted
  | cons n rest =>
    obtain ⟨s, ss, hcons⟩ := List.exists_cons_of_ne_nil n.ne_nil
    intro c hc
    have hsep := n.isSep c (by
      rw [Conjunction.restText, List.flatMap_cons, hcons] at hc
      cases hc
      exact hcons ▸ List.mem_cons_self)
    refine ⟨fun hdigit ↦ ?_, ?_⟩
    · rw [isGapOrComma, isGap_of_isDigit hdigit, Bool.false_or, decide_eq_true_eq] at hsep
      subst hsep
      exact absurd hdigit (by decide)
    · rintro rfl
      exact absurd hsep (by decide)

variable {tail : List Char}

/-- The comparisons that follow another are read. -/
theorem scans_restText (htail : EndsAlternative tail) (h : Scans tail xs)
    (rest : List NextComparison) :
    Scans (Conjunction.restText rest ++ tail) (rest.map (·.comparison.reading) ++ xs) := by
  induction rest with
  | nil => exact h
  | cons n rest ih =>
    rw [Conjunction.restText, List.flatMap_cons, List.append_assoc, List.append_assoc]
    exact (scans_comparison n.comparison (endsDotted_restText rest htail) ih).append n.isSep

/-- A conjunction is read. -/
theorem scans_conjunction (htail : EndsAlternative tail) (h : Scans tail xs) (a : Conjunction) :
    Scans (a.text ++ tail) (a.comparisons.map Comparison.reading ++ xs) := by
  rw [Conjunction.text, List.append_assoc, Conjunction.comparisons, List.map_cons, List.map_map]
  exact scans_comparison a.first (endsDotted_restText a.rest htail) (scans_restText htail h a.rest)

/-- Characters that are not blanks are skipped with the word before them. -/
theorem skipWord_append {word : List Char} (h : ∀ c ∈ word, isGap c = false) (cs : List Char) :
    ((word ++ cs).dropWhile fun c ↦ !isGap c) = cs.dropWhile fun c ↦ !isGap c :=
  List.dropWhile_append_of_pos fun c hc ↦ by simp [h c hc]

theorem isGap_of_mem_op (op : VersionOp) : ∀ c ∈ op.text, isGap c = false := by
  cases op <;> simp [VersionOp.text, isGap]

theorem isGap_of_mem_version (v : DottedVersion) : ∀ c ∈ v.text, isGap c = false := by
  intro c hc
  rw [DottedVersion.text, List.mem_append, List.mem_flatMap] at hc
  rcases hc with hc | ⟨ds, -, hc⟩
  · exact isGap_of_isDigit (v.first.isDigit c hc)
  · rcases List.mem_cons.1 hc with rfl | hc
    · rfl
    · exact isGap_of_isDigit (ds.isDigit c hc)

/-- A comparison without blanks is skipped with the word before it. -/
theorem skipWord_comparison {c : Comparison} (hgap : c.gap = []) (cs : List Char) :
    ((c.text ++ cs).dropWhile fun c ↦ !isGap c) = cs.dropWhile fun c ↦ !isGap c := by
  rw [Comparison.text, hgap, List.append_nil, List.append_assoc,
    skipWord_append (isGap_of_mem_op c.op), skipWord_append (isGap_of_mem_version c.version)]

/-- Blanks behind an operator end the word that is skipped, and the version is read without it. -/
theorem scans_skippedOp (htail : EndsAlternative tail) (h : Scans tail xs) {c : Comparison}
    (hgap : c.gap ≠ []) (rest : List NextComparison) :
    Scans ((c.text ++ (Conjunction.restText rest ++ tail)).dropWhile fun c ↦ !isGap c)
      (⟨none, c.version⟩ :: (rest.map (·.comparison.reading) ++ xs)) := by
  obtain ⟨g, gs, hcons⟩ := List.exists_cons_of_ne_nil hgap
  have hg := c.isGap_gap g (hcons ▸ List.mem_cons_self)
  have hskip : ((c.text ++ (Conjunction.restText rest ++ tail)).dropWhile fun c ↦ !isGap c) =
      c.gap ++ (c.version.text ++ (Conjunction.restText rest ++ tail)) := by
    rw [Comparison.text, List.append_assoc, List.append_assoc,
      skipWord_append (isGap_of_mem_op c.op), hcons, List.cons_append,
      List.dropWhile_cons_of_neg (by simp [hg])]
  rw [hskip]
  refine (scans_bare c.version (endsDotted_restText rest htail)
    (scans_restText htail h rest)).append fun g hg ↦ ?_
  rw [isGapOrComma, c.isGap_gap g hg, Bool.true_or]

/-- What is read of a conjunction right behind `||`. -/
theorem scans_glued (htail : EndsAlternative tail) (h : Scans tail xs) (c : Comparison)
    (rest : List NextComparison) :
    Scans ((c.text ++ (Conjunction.restText rest ++ tail)).dropWhile fun c ↦ !isGap c)
      (gluedReadings c rest ++ xs) := by
  induction rest generalizing c with
  | nil =>
    rw [gluedReadings]
    split_ifs with hgap
    · rw [skipWord_comparison hgap]
      exact fun excluded ↦ (puppet8Loop_skipWord htail excluded).trans (h excluded)
    · exact scans_skippedOp htail h hgap []
  | cons n rest ih =>
    rw [gluedReadings]
    split_ifs with hgap hsep
    · exact scans_skippedOp htail h hgap (n :: rest)
    · rw [skipWord_comparison (not_not.1 hgap), Conjunction.restText, List.flatMap_cons,
        List.append_assoc, List.append_assoc, List.dropWhile_append, if_neg (by simpa using hsep)]
      exact (scans_comparison n.comparison (endsDotted_restText rest htail)
        (scans_restText htail h rest)).append fun s hs ↦
          n.isSep s ((List.dropWhile_sublist _).mem hs)
    · have hword : ∀ c ∈ n.sep, isGap c = false := by simpa using hsep
      rw [skipWord_comparison (not_not.1 hgap), Conjunction.restText, List.flatMap_cons,
        List.append_assoc, List.append_assoc, skipWord_append hword]
      exact ih n.comparison

/-- `||` is skipped with what comes right behind it. -/
theorem puppet8Loop_bars (cs : List Char) (excluded : Bool) :
    puppet8Loop ('|' :: '|' :: cs) excluded =
      puppet8Loop (cs.dropWhile fun c ↦ !isGap c) excluded := by
  have hends : EndsAlternative ('|' :: '|' :: cs) :=
    fun c hc ↦ .inr (Option.some.inj hc).symm
  rw [← puppet8Loop_skipWord hends, List.dropWhile_cons_of_pos (by decide),
    List.dropWhile_cons_of_pos (by decide)]

theorem endsAlternative_restText (rest : List NextConjunction) {trail : List Char}
    (htrail : ∀ c ∈ trail, isGap c) : EndsAlternative (Requirement.restText rest trail) := by
  intro c hc
  cases rest with
  | nil =>
    rw [Requirement.restText] at hc
    exact .inl (htrail c (List.mem_of_mem_head? hc))
  | cons a rest =>
    rw [Requirement.restText] at hc
    cases hbefore : a.before with
    | nil =>
      rw [hbefore] at hc
      exact .inr (Option.some.inj hc).symm
    | cons g gs =>
      obtain rfl : g = c := by simpa [hbefore] using hc
      exact .inl (a.isGap_before g (hbefore ▸ List.mem_cons_self))

/-- What is read of the alternatives after the first. -/
theorem scans_alternatives (rest : List NextConjunction) {trail : List Char}
    (htrail : ∀ c ∈ trail, isGap c) :
    Scans (Requirement.restText rest trail) (rest.flatMap NextConjunction.readings) := by
  induction rest with
  | nil => exact scans_gap htrail
  | cons a rest ih =>
    have hgap {c : Char} (hc : isGap c) : isGapOrComma c := by rw [isGapOrComma, hc, Bool.true_or]
    have hends := endsAlternative_restText rest htrail
    rw [Requirement.restText, List.append_assoc, List.append_assoc, List.cons_append,
      List.cons_append]
    refine Scans.append (fun excluded ↦ (puppet8Loop_bars _ excluded).trans ?_)
      fun c hc ↦ hgap (a.isGap_before c hc)
    rw [List.flatMap_cons, NextConjunction.readings]
    split_ifs with hafter
    · rw [hafter, List.nil_append, Conjunction.text, List.append_assoc]
      exact scans_glued hends ih _ _ excluded
    · obtain ⟨g, gs, hcons⟩ := List.exists_cons_of_ne_nil hafter
      have hg := a.isGap_after g (hcons ▸ List.mem_cons_self)
      rw [hcons, List.cons_append, List.dropWhile_cons_of_neg (by simp [hg]), ← List.cons_append,
        ← hcons]
      exact (scans_conjunction hends ih a.conjunction).append
        (fun c hc ↦ hgap (a.isGap_after c hc)) excluded

theorem scans_text (r : Requirement) : Scans r.text r.readings := by
  rw [Requirement.text, List.append_assoc]
  exact (scans_conjunction (endsAlternative_restText r.rest r.isGap_trail)
    (scans_alternatives r.rest r.isGap_trail) r.first).append fun c hc ↦ by
      rw [isGapOrComma, r.isGap_lead c hc, Bool.true_or]

/-! ### Requirements as a whole -/

/-- The answer is defined when the numbers that are read fit. -/
theorem answerAfter_eq (xs : List Reading) (excluded : Bool) :
    answerAfter xs excluded =
      if ∀ x ∈ xs, x.version.Fits then some (excluded || decide (∃ x ∈ xs, x.Violated8))
      else none := by
  induction xs generalizing excluded with
  | nil => simp [answerAfter]
  | cons x xs ih =>
    have hviolated : (∃ y ∈ x :: xs, y.Violated8) ↔ x.Violated8 ∨ ∃ y ∈ xs, y.Violated8 := by simp
    rw [answerAfter, ih]
    simp only [List.forall_mem_cons, hviolated]
    by_cases hfits : x.version.Fits
    · rw [if_pos hfits]
      simp only [hfits, true_and, Bool.decide_or, Bool.or_assoc]
    · rw [if_neg hfits, if_neg fun h ↦ hfits h.1]

/-- Version 8.0.0 is excluded when a comparison that is seen fails. -/
theorem puppet8ExcludedBy_text (r : Requirement) :
    puppet8ExcludedBy r.text =
      if ∀ x ∈ r.readings, x.version.Fits then some (decide (∃ x ∈ r.readings, x.Violated8))
      else none := by
  rw [puppet8ExcludedBy, scans_text, answerAfter_eq]
  simp

/-- The comparisons of the first alternative are seen. -/
theorem Requirement.reading_mem (r : Requirement) {c : Comparison}
    (h : c ∈ r.first.comparisons) : c.reading ∈ r.readings :=
  List.mem_append_left _ (List.mem_map_of_mem h)

/-- The scanner tells whether version 8.0.0 satisfies no alternative exactly when the numbers that
it reads fit in an `int` and version 8.0.0, if it satisfies an alternative, satisfies all
comparisons that are seen. -/
theorem puppet8ExcludedBy_eq_iff (r : Requirement) :
    puppet8ExcludedBy r.text = some (decide r.Excludes8) ↔
      (∀ x ∈ r.readings, x.version.Fits) ∧
        ¬ ((∃ a ∈ r.alternatives, a.Holds8) ∧ ∃ x ∈ r.readings, x.Violated8) := by
  have hseen : ¬ (∃ x ∈ r.readings, x.Violated8) → r.first.Holds8 := by
    intro h c hc
    by_contra hholds
    exact h ⟨c.reading, r.reading_mem hc, c.op, rfl, hholds⟩
  have hexcludes : r.Excludes8 ↔ ¬ ∃ a ∈ r.alternatives, a.Holds8 := by
    simp [Requirement.Excludes8]
  rw [puppet8ExcludedBy_text]
  by_cases hfits : ∀ x ∈ r.readings, x.version.Fits
  · rw [if_pos hfits, Option.some.injEq, decide_eq_decide, hexcludes, and_iff_right hfits]
    constructor
    · rintro h ⟨halt, hviolated⟩
      exact h.1 hviolated halt
    · refine fun h ↦ ⟨fun hviolated halt ↦ h ⟨halt, hviolated⟩, fun hnone ↦ ?_⟩
      by_contra hviolated
      exact hnone ⟨r.first, List.mem_cons_self, hseen hviolated⟩
  · simp [hfits]

/-- A comparison with a version of one digit. -/
def compareWith (op : VersionOp) (d : Char) (h : d.isDigit) : Comparison where
  op := op
  gap := []
  version := ⟨⟨[d], List.cons_ne_nil d [], by simpa using h⟩, [], Nat.zero_le 2⟩
  isGap_gap := by simp

/-- Versions below 7, or from 8 on. -/
def notSeven : Requirement where
  lead := []
  first := ⟨compareWith .lt '7' rfl, []⟩
  rest := [⟨[' '], [' '], ⟨compareWith .ge '8' rfl, []⟩, by simp [isGap], by simp [isGap]⟩]
  trail := []
  isGap_lead := by simp
  isGap_trail := by simp

/-- The second alternative allows version 8.0.0, and the scanner excludes it. -/
theorem not_puppet8ExcludedBy_notSeven :
    notSeven.text = "<7 || >=8".toList ∧ ¬ notSeven.Excludes8 ∧
      puppet8ExcludedBy notSeven.text = some true := by
  refine ⟨rfl, by decide +kernel, ?_⟩
  rw [puppet8ExcludedBy_text]
  decide +kernel

end PuppetC
