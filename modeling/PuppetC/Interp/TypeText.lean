import PuppetC.Value
import Mathlib.Data.List.TakeWhile
import Mathlib.Tactic.Common

/-!
# Types as text

A value is checked against the source text of a type (`value_matches_type_str`): the text before
the first bracket is the base of the type, and the text in the brackets is taken apart as the base
asks for. The texts of inner types are copied into buffers, of 128 bytes for `Optional` and of 256
bytes for each type of a `Variant`, whose types are found by counting brackets.

An `Optional` is what it should be as long as its inner text fits the buffer, and a `Variant` as
long as the texts of its types do and the brackets in the literals of an `Enum` are paired. Longer
texts are cut, or accepted without being looked at.

## Main definitions

* `valueMatchesTypeStr`: the check of a value.
* `TypeText`: the texts of types that are made with `Optional` and `Variant`.
* `OptionalLaw`, `VariantLaw`: what the check of an `Optional` and of a `Variant` should be.

## Main results

* `matchText_eq_of_le`: the depth of nested types is bounded by the text.
* `TypeText.level`: commas of an inner type are not taken for those of the outer type.
* `optionalLaw_of_length_le`, `variantLaw_of_length_le`: the laws for texts that fit the buffers.
* `typeText_laws_iff`: the lengths for which the laws hold.
-/

namespace PuppetC

/-! ### Pieces of text -/

/-- A blank or a tab. -/
def isSpaceOrTab (c : Char) : Bool := c = ' ' || c = '\t'

/-- `isspace`. -/
def isSpace (c : Char) : Bool := [' ', '\t', '\n', '\x0b', '\x0c', '\r'].contains c

/-- A text without blanks at its end. -/
def trimEnd (t : List Char) : List Char := (t.reverse.dropWhile isSpaceOrTab).reverse

/-- A text without blanks at both ends. -/
def trim (t : List Char) : List Char := trimEnd (t.dropWhile isSpaceOrTab)

/-- `strrchr(t, ']')`, as the text before it. -/
def beforeLastBracket (t : List Char) : Option (List Char) :=
  match t.reverse.dropWhile (· ≠ ']') with
  | [] => none
  | _ :: before => some before.reverse

/-- `%ld` of `sscanf`; a number that is too large for a `long` is cut to the nearest. -/
def scanLong (t : List Char) : Option (ℤ × List Char) :=
  let (sign, digits) : ℤ × List Char :=
    match t.dropWhile isSpace with
    | '-' :: rest => (-1, rest)
    | '+' :: rest => (1, rest)
    | rest => (1, rest)
  match digits.takeWhile Char.isDigit with
  | [] => none
  | ds =>
    let n := sign * (ds.foldl (fun n d ↦ 10 * n + (d.toNat - '0'.toNat)) 0 : ℕ)
    some (max (-2 ^ 63) (min n (2 ^ 63 - 1)), digits.dropWhile Char.isDigit)

/-- The numbers that `sscanf(bracket, " [ %ld , %ld ]", ..)` finds. -/
def scanRange (bracket : List Char) : Option ℤ × Option ℤ :=
  match bracket.dropWhile isSpace with
  | '[' :: t =>
    match scanLong t with
    | none => (none, none)
    | some (low, rest) =>
      match rest.dropWhile isSpace with
      | ',' :: rest => (some low, (scanLong rest).map (·.1))
      | _ => (some low, none)
  | _ => (none, none)

/-- The quoted literals of a text; `quoted` is the quote and the text, backwards, of the literal
that is being read. A literal that is not closed is one too. -/
def literals : (quoted : Option (Char × List Char)) → List Char → List (List Char)
  | none, [] => []
  | some (_, s), [] => [s.reverse]
  | none, c :: t =>
    if c = '\'' ∨ c = '"' then literals (some (c, [])) t else literals none t
  | some (q, s), c :: t =>
    if c = q then s.reverse :: literals none t else literals (some (q, c :: s)) t

/-- The regular expressions of a text, between slashes, where a backslash keeps the next character,
or between quotes. -/
def regexes : (delimited : Option (Char × List Char)) → List Char → List (List Char)
  | none, [] => []
  | some (_, s), [] => [s.reverse]
  | none, c :: t =>
    if c = '/' ∨ c = '\'' ∨ c = '"' then regexes (some (c, [])) t else regexes none t
  | some (q, s), '\\' :: c :: t =>
    if q = '/' then regexes (some (q, c :: '\\' :: s)) t
    else if c = q then ('\\' :: s).reverse :: regexes none t
    else regexes (some (q, c :: '\\' :: s)) t
  | some (q, s), c :: t =>
    if c = q then s.reverse :: regexes none t else regexes (some (q, c :: s)) t

/-- The parts of a text between commas that are in no bracket. `part` is the current part,
backwards. -/
def splitCommas : (depth : ℤ) → (part : List Char) → List Char → List (List Char)
  | _, part, [] => [part.reverse]
  | depth, part, c :: t =>
    if c = '[' then splitCommas (depth + 1) (c :: part) t
    else if c = ']' then splitCommas (depth - 1) (c :: part) t
    else if c = ',' ∧ depth = 0 then part.reverse :: splitCommas depth [] t
    else splitCommas depth (c :: part) t

/-! ### The check -/

/-- What the check reads of the environment: the body of a type alias that is registered or that
the file of its name defines, and regular expressions. -/
structure TypeEnv where
  aliasBody : List Char → Option (List Char)
  regexec : String → String → Bool

/-- Is a number a `long long`? -/
def isLongLong (n : ℚ) : Bool := n.den = 1 && decide (-2 ^ 63 ≤ n.num ∧ n.num < 2 ^ 63)

section Check

variable (T : TypeEnv) (resolve : List Char → Option Bool)

/-- The types that are known by their base alone, whatever is in their brackets. -/
def matchKnown (v : Value) (base : List Char) : Option Bool :=
  if base = "Hash".toList then some (v matches .hash _)
  else if base = "Array".toList then some (v matches .array _)
  else if base = "Boolean".toList then some (v matches .bool _)
  else if base = "Numeric".toList then some (v matches .number _)
  else none

/-- A type without brackets. -/
def matchBare (v : Value) (base : List Char) : Bool :=
  match matchKnown v base with
  | some b => b
  | none =>
    if base = "Integer".toList then
      match v with
      | .number n => isLongLong n
      | _ => false
    else if base = "String".toList then v matches .string _
    else if base = "Regexp".toList then v matches .regexp _
    else if base = "Undef".toList then v matches .undef
    else if base = "NotUndef".toList then !(v matches .undef)
    else (resolve base).getD true

/-- `String[min, max]`. -/
def matchString (v : Value) (bracket : List Char) : Bool :=
  match v with
  | .string s =>
    let low := (scanRange bracket).1.getD 0
    let high := (scanRange bracket).2.getD (-1)
    decide (low ≤ s.length) && (decide (high < 0) || decide (s.length ≤ high))
  | _ => false

/-- `Integer[min, max]`. -/
def matchInteger (v : Value) (bracket : List Char) : Bool :=
  match v with
  | .number n =>
    let low := (scanRange bracket).1.getD (-2 ^ 63)
    let high := (scanRange bracket).2.getD (2 ^ 63 - 1)
    isLongLong n && decide (low ≤ n.num) && decide (n.num ≤ high)
  | _ => false

/-- `Optional[T]`: the inner text is copied into a buffer of 128 bytes. -/
def matchOptional (check : List Char → Bool) (v : Value) (bracket : List Char) : Bool :=
  match v with
  | .undef => true
  | _ =>
    match beforeLastBracket bracket.tail with
    | none => true
    | some inner => check ((inner.take 127).dropWhile isSpaceOrTab)

/-- `Enum['a', ...]`. -/
def matchEnum (v : Value) (bracket : List Char) : Bool :=
  match v with
  | .string s => literals none bracket = [] || (literals none bracket).contains s.toList
  | _ => false

/-- `Pattern[/re/, ...]`: expressions of 512 bytes and more are passed over. -/
def matchPattern (v : Value) (bracket : List Char) : Bool :=
  match v with
  | .string s =>
    let rs := (regexes none bracket).filter fun r ↦ 0 < r.length ∧ r.length < 512
    rs.isEmpty || rs.any fun r ↦ T.regexec (String.ofList r) s
  | _ => false

/-- The texts of the types of a `Variant`. -/
def variantParts (inner : List Char) : List (List Char) :=
  ((splitCommas 0 [] inner).map trim).filter (· ≠ [])

/-- `Variant[T1, ...]`: each text is copied into a buffer of 256 bytes, or accepted as it is. -/
def matchVariant (check : List Char → Bool) (bracket : List Char) : Bool :=
  match beforeLastBracket bracket.tail with
  | none | some [] => true
  | some inner =>
    (variantParts inner).isEmpty ||
      (variantParts inner).any fun t ↦ decide (256 ≤ t.length) || check t

/-- One round of `value_matches_type_str`, with `check` for the types in the brackets. -/
def matchStep (v : Value) (check : List Char → Bool) (t : List Char) : Bool :=
  if t = [] then true
  else
    let base := trimEnd ((t.takeWhile (· ≠ '[')).take 63)
    let bracket := t.dropWhile (· ≠ '[')
    if bracket = [] then matchBare resolve v base
    else if base = "String".toList then matchString v bracket
    else if base = "Integer".toList then matchInteger v bracket
    else if base = "Optional".toList then matchOptional check v bracket
    else if base = "Enum".toList then matchEnum v bracket
    else if base = "Pattern".toList then matchPattern T v bracket
    else if base = "Variant".toList then matchVariant check bracket
    else ((matchKnown v base).orElse fun _ ↦ resolve base).getD true

/-- Rounds of `value_matches_type_str`, one in the other. -/
def matchText (v : Value) : ℕ → List Char → Bool
  | 0, _ => true
  | fuel + 1, t => matchStep T resolve v (matchText v fuel) t

end Check

/-- `value_matches_type_str` where that many aliases can still be resolved one in the other
(`match_type_alias`). -/
def matchLevels (T : TypeEnv) (v : Value) : ℕ → List Char → Bool
  | 0, t => matchText T (fun _ ↦ none) v t.length t
  | levels + 1, t =>
    matchText T
      (fun base ↦ if base = [] then none else (T.aliasBody base).map (matchLevels T v levels))
      v t.length t

/-- `value_matches_type_str`. -/
def valueMatchesTypeStr (T : TypeEnv) (v : Value) (t : List Char) : Bool := matchLevels T v 16 t

/-! ### Texts of types -/

/-- A base with something in brackets. -/
def bracketed (base : String) (inner : List Char) : List Char :=
  base.toList ++ '[' :: (inner ++ [']'])

/-- A type between commas, with blanks around it. -/
structure TypePart where
  left : List Char
  type : List Char
  right : List Char

namespace TypePart

/-- The text of a type with the blanks around it. -/
def text (p : TypePart) : List Char := p.left ++ p.type ++ p.right

/-- There is nothing but blanks around the type. -/
def Blank (p : TypePart) : Prop :=
  (∀ c ∈ p.left, isSpaceOrTab c = true) ∧ ∀ c ∈ p.right, isSpaceOrTab c = true

/-- Types with commas between them. -/
def join (ps : List TypePart) : List Char := [','].intercalate (ps.map text)

end TypePart

/-- A literal in quotes. -/
def quote (q : Char) (s : List Char) : List Char := q :: s ++ [q]

/-- Every bracket of a text has its partner. -/
inductive Paired : List Char → Prop
  | nil : Paired []
  | char (c : Char) (t : List Char) (hc : c ≠ '[' ∧ c ≠ ']') (ht : Paired t) : Paired (c :: t)
  | bracket (t u : List Char) (ht : Paired t) (hu : Paired u) : Paired ('[' :: (t ++ ']' :: u))

/-- The texts of types that are made from types without brackets, from `String` and `Integer` with
a range and from `Enum` with literals that meet `P` by `Optional` and `Variant`. -/
inductive TypeText (P : List Char → Prop) : List Char → Prop
  | bare (name : List Char) (hne : name ≠ [])
    (hname : ∀ c ∈ name, c ≠ '[' ∧ c ≠ ']' ∧ c ≠ ',' ∧ isSpaceOrTab c = false) : TypeText P name
  | sized (base : String) (hbase : base = "String" ∨ base = "Integer") (range : List Char)
    (hrange : ∀ c ∈ range, c ≠ '[' ∧ c ≠ ']') : TypeText P (bracketed base range)
  | enum (items : List (Char × List Char))
    (hitems : ∀ i ∈ items, (i.1 = '\'' ∨ i.1 = '"') ∧ i.1 ∉ i.2 ∧ P i.2) :
    TypeText P (bracketed "Enum" ([',', ' '].intercalate (items.map fun i ↦ quote i.1 i.2)))
  | optional (t : List Char) (ht : TypeText P t) : TypeText P (bracketed "Optional" t)
  | variant (ps : List TypePart) (hne : ps ≠ []) (hblank : ∀ p ∈ ps, p.Blank)
    (hps : ∀ p ∈ ps, TypeText P p.type) :
    TypeText P (bracketed "Variant" (TypePart.join ps))

/-- What the check of an `Optional` should be. -/
def OptionalLaw (T : TypeEnv) (v : Value) (t : List Char) : Prop :=
  valueMatchesTypeStr T v (bracketed "Optional" t) = true ↔
    v = .undef ∨ valueMatchesTypeStr T v t = true

/-- What the check of a `Variant` should be. -/
def VariantLaw (T : TypeEnv) (v : Value) (ps : List TypePart) : Prop :=
  valueMatchesTypeStr T v (bracketed "Variant" (TypePart.join ps)) = true ↔
    ∃ p ∈ ps, valueMatchesTypeStr T v p.type = true

/-! ### The depth of nested types -/

section Depth

variable {T : TypeEnv} {resolve : List Char → Option Bool} {v : Value}

theorem length_trimEnd_le (t : List Char) : (trimEnd t).length ≤ t.length := by
  rw [trimEnd, List.length_reverse]
  exact (List.dropWhile_suffix _).length_le.trans (List.length_reverse ..).le

theorem length_trim_le (t : List Char) : (trim t).length ≤ t.length :=
  (length_trimEnd_le _).trans (List.dropWhile_suffix _).length_le

theorem length_lt_of_beforeLastBracket {t u : List Char} (h : beforeLastBracket t = some u) :
    u.length < t.length := by
  unfold beforeLastBracket at h
  split at h
  · cases h
  · next hdrop =>
    cases h
    have hle := (List.dropWhile_suffix (l := t.reverse) fun x ↦ decide (x ≠ ']')).length_le
    rw [hdrop, List.length_reverse, List.length_cons] at hle
    rw [List.length_reverse]
    exact hle

theorem length_le_of_mem_splitCommas {depth : ℤ} {part t u : List Char}
    (h : u ∈ splitCommas depth part t) : u.length ≤ part.length + t.length := by
  induction t generalizing depth part with
  | nil =>
    rw [splitCommas, List.mem_singleton] at h
    simp [h]
  | cons c t ih =>
    have hlen : part.length + (c :: t).length = (c :: part).length + t.length := by
      simp only [List.length_cons]; omega
    rw [splitCommas] at h
    split_ifs at h
    · exact hlen ▸ ih h
    · exact hlen ▸ ih h
    · rcases List.mem_cons.1 h with rfl | h
      · simp only [List.length_reverse]; omega
      · have := ih h
        simp only [List.length_cons, List.length_nil] at this ⊢
        omega
    · exact hlen ▸ ih h

theorem length_le_of_mem_variantParts {inner t : List Char} (h : t ∈ variantParts inner) :
    t.length ≤ inner.length := by
  obtain ⟨u, hu, rfl⟩ := List.mem_map.1 (List.mem_filter.1 h).1
  exact (length_trim_le u).trans (by simpa using length_le_of_mem_splitCommas hu)

/-- A round only checks texts that are shorter than its own. -/
theorem matchStep_congr {check check' : List Char → Bool} {t : List Char}
    (h : ∀ u, u.length < t.length → check u = check' u) :
    matchStep T resolve v check t = matchStep T resolve v check' t := by
  have hbracket : (t.dropWhile (· ≠ '[')).tail.length ≤ t.length :=
    (List.length_tail ▸ Nat.sub_le ..).trans (List.dropWhile_suffix _).length_le
  have hoptional : matchOptional check v (t.dropWhile (· ≠ '[')) =
      matchOptional check' v (t.dropWhile (· ≠ '[')) := by
    unfold matchOptional
    split
    · rfl
    · split
      · rfl
      · next inner hinner =>
        refine h _ (lt_of_le_of_lt ?_ ((length_lt_of_beforeLastBracket hinner).trans_le hbracket))
        exact (List.dropWhile_suffix _).length_le.trans (List.length_take_le' ..)
  have hvariant : matchVariant check (t.dropWhile (· ≠ '[')) =
      matchVariant check' (t.dropWhile (· ≠ '[')) := by
    unfold matchVariant
    split
    · rfl
    · rfl
    · next inner _ hinner =>
      have hlen : inner.length < t.length :=
        (length_lt_of_beforeLastBracket hinner).trans_le hbracket
      refine congrArg (_ || ·) ?_
      rw [Bool.eq_iff_iff, List.any_eq_true, List.any_eq_true]
      refine exists_congr fun u ↦ and_congr_right fun hu ↦ ?_
      rw [h u ((length_le_of_mem_variantParts hu).trans_lt hlen)]
  unfold matchStep
  dsimp only
  rw [hoptional, hvariant]

/-- The rounds are bounded by the length of the text. -/
theorem matchText_eq_of_le {fuel : ℕ} {t : List Char} (h : t.length ≤ fuel) :
    matchText T resolve v fuel t = matchText T resolve v t.length t := by
  induction hn : t.length using Nat.strong_induction_on generalizing fuel t with
  | _ n ih =>
    subst hn
    cases t with
    | nil => cases fuel <;> rfl
    | cons c t =>
      obtain ⟨fuel, rfl⟩ : ∃ m, fuel = m + 1 := ⟨fuel - 1, by simp at h; omega⟩
      rw [List.length_cons]
      refine matchStep_congr fun u hu ↦ ?_
      have hu' : u.length ≤ t.length := Nat.lt_succ_iff.1 hu
      rw [ih u.length hu (hu'.trans (Nat.succ_le_succ_iff.1 h)) rfl, ih u.length hu hu' rfl]

/-! ### Types in brackets -/

theorem takeWhile_base {base : String} (hbase : '[' ∉ base.toList) (t : List Char) :
    (base.toList ++ '[' :: t).takeWhile (· ≠ '[') = base.toList := by
  have hne : ∀ c ∈ base.toList, decide (c ≠ '[') = true :=
    fun c hc ↦ decide_eq_true (ne_of_mem_of_not_mem hc hbase)
  rw [List.takeWhile_append_of_pos hne]
  simp

theorem dropWhile_base {base : String} (hbase : '[' ∉ base.toList) (t : List Char) :
    (base.toList ++ '[' :: t).dropWhile (· ≠ '[') = '[' :: t := by
  have hne : ∀ c ∈ base.toList, decide (c ≠ '[') = true :=
    fun c hc ↦ decide_eq_true (ne_of_mem_of_not_mem hc hbase)
  rw [List.dropWhile_append_of_pos hne]
  simp

theorem beforeLastBracket_append (inner : List Char) :
    beforeLastBracket (inner ++ [']']) = some inner := by
  simp [beforeLastBracket]

/-- One round on an `Optional`. -/
theorem matchStep_optional (check : List Char → Bool) (t : List Char) :
    matchStep T resolve v check ("Optional".toList ++ '[' :: t) =
      matchOptional check v ('[' :: t) := by
  unfold matchStep
  rw [if_neg (by simp)]
  dsimp only
  rw [takeWhile_base (by decide), dropWhile_base (by decide)]
  rfl

/-- One round on a `Variant`. -/
theorem matchStep_variant (check : List Char → Bool) (t : List Char) :
    matchStep T resolve v check ("Variant".toList ++ '[' :: t) = matchVariant check ('[' :: t) := by
  unfold matchStep
  rw [if_neg (by simp)]
  dsimp only
  rw [takeWhile_base (by decide), dropWhile_base (by decide)]
  rfl

/-- One round on an `Enum`. -/
theorem matchStep_enum (check : List Char → Bool) (t : List Char) :
    matchStep T resolve v check ("Enum".toList ++ '[' :: t) = matchEnum v ('[' :: t) := by
  unfold matchStep
  rw [if_neg (by simp)]
  dsimp only
  rw [takeWhile_base (by decide), dropWhile_base (by decide)]
  rfl

theorem matchText_length_eq {t : List Char} (ht : t ≠ []) :
    matchText T resolve v t.length t =
      matchStep T resolve v (fun u ↦ matchText T resolve v u.length u) t := by
  cases t with
  | nil => exact absurd rfl ht
  | cons c t =>
    exact matchStep_congr fun u hu ↦ matchText_eq_of_le (Nat.lt_succ_iff.1 hu)

end Depth

section Laws

variable {T : TypeEnv} {v : Value}

/-- The check is a number of rounds. -/
theorem exists_matchText (T : TypeEnv) (v : Value) :
    ∃ resolve, ∀ t, valueMatchesTypeStr T v t = matchText T resolve v t.length t :=
  ⟨_, fun _ ↦ rfl⟩

/-- An `Optional` checks what fits its buffer. -/
theorem valueMatchesTypeStr_optional (t : List Char) :
    valueMatchesTypeStr T v (bracketed "Optional" t) = true ↔
      v = .undef ∨ valueMatchesTypeStr T v ((t.take 127).dropWhile isSpaceOrTab) = true := by
  obtain ⟨resolve, hresolve⟩ := exists_matchText T v
  rw [hresolve, hresolve, bracketed, matchText_length_eq (by simp), matchStep_optional]
  unfold matchOptional
  rw [List.tail_cons, beforeLastBracket_append]
  cases v <;> simp

/-- A `Variant` checks the texts of its types that fit the buffer, and accepts the others. -/
theorem valueMatchesTypeStr_variant {inner : List Char} (hinner : variantParts inner ≠ []) :
    valueMatchesTypeStr T v (bracketed "Variant" inner) = true ↔
      ∃ t ∈ variantParts inner, 256 ≤ t.length ∨ valueMatchesTypeStr T v t = true := by
  obtain ⟨resolve, hresolve⟩ := exists_matchText T v
  have hne : inner ≠ [] := by
    rintro rfl
    exact hinner rfl
  simp only [hresolve]
  rw [bracketed, matchText_length_eq (by simp), matchStep_variant]
  unfold matchVariant
  rw [List.tail_cons, beforeLastBracket_append]
  cases inner with
  | nil => exact absurd rfl hne
  | cons c inner => simp [List.isEmpty_eq_false_iff.2 hinner]

/-- An `Enum` has the strings among its literals. -/
theorem valueMatchesTypeStr_enum (t : List Char) :
    valueMatchesTypeStr T v ("Enum".toList ++ '[' :: t) = matchEnum v ('[' :: t) := by
  obtain ⟨resolve, hresolve⟩ := exists_matchText T v
  rw [hresolve, matchText_length_eq (by simp), matchStep_enum]

end Laws

/-! ### Commas and brackets -/

/-- A text that leaves the depth of brackets alone, and whose commas do not split, where the depth
is at least `k`. -/
def Level (k : ℤ) (t : List Char) : Prop :=
  ∀ d, k ≤ d → ∀ part rest, splitCommas d part (t ++ rest) = splitCommas d (t.reverse ++ part) rest

theorem Level.nil (k : ℤ) : Level k [] := fun _ _ _ _ ↦ rfl

theorem Level.append {k : ℤ} {t u : List Char} (ht : Level k t) (hu : Level k u) :
    Level k (t ++ u) := by
  intro d hd part rest
  rw [List.append_assoc, ht d hd, hu d hd, List.reverse_append, List.append_assoc]

theorem Level.mono {k k' : ℤ} {t : List Char} (h : Level k t) (hk : k ≤ k') : Level k' t :=
  fun d hd ↦ h d (hk.trans hd)

theorem level_char {k : ℤ} {c : Char} (hc : c ≠ '[' ∧ c ≠ ']') (hcomma : c ≠ ',' ∨ 1 ≤ k) :
    Level k [c] := by
  intro d hd part rest
  have hsplit : ¬ (c = ',' ∧ d = 0) := by
    rintro ⟨hcc, hd0⟩
    rcases hcomma with h | h
    · exact h hcc
    · omega
  simp [splitCommas, hc.1, hc.2, hsplit]

/-- Text in brackets is as much deeper. -/
theorem Level.brackets {k : ℤ} {t : List Char} (ht : Level (k + 1) t) :
    Level k ('[' :: (t ++ [']'])) := by
  intro d hd part rest
  have ht' := ht (d + 1) (by omega) ('[' :: part) (']' :: rest)
  have hopen : splitCommas d part ('[' :: (t ++ ']' :: rest)) =
      splitCommas (d + 1) ('[' :: part) (t ++ ']' :: rest) := by
    rw [splitCommas, if_pos rfl]
  have hclose : splitCommas (d + 1) (t.reverse ++ '[' :: part) (']' :: rest) =
      splitCommas d (']' :: (t.reverse ++ '[' :: part)) rest := by
    rw [splitCommas, if_neg (by decide), if_pos rfl, add_sub_cancel_right]
  simpa using hopen.trans (ht'.trans hclose)

theorem level_of_forall {k : ℤ} {t : List Char}
    (h : ∀ c ∈ t, c ≠ '[' ∧ c ≠ ']' ∧ (c ≠ ',' ∨ 1 ≤ k)) : Level k t := by
  induction t with
  | nil => exact .nil k
  | cons c t ih =>
    have hc := h c List.mem_cons_self
    exact (level_char ⟨hc.1, hc.2.1⟩ hc.2.2).append
      (ih fun d hd ↦ h d (List.mem_cons_of_mem c hd))

theorem Paired.level {t : List Char} (h : Paired t) : Level 1 t := by
  induction h with
  | nil => exact .nil 1
  | char c t hc _ ih => exact (level_char hc (Or.inr le_rfl)).append ih
  | bracket t u _ _ iht ihu =>
    have hbrackets : Level 1 ('[' :: (t ++ [']'])) := (iht.mono (by omega)).brackets
    simpa using hbrackets.append ihu

theorem Level.intercalate {k : ℤ} {sep : List Char} (hsep : Level k sep) {ts : List (List Char)}
    (h : ∀ t ∈ ts, Level k t) : Level k (sep.intercalate ts) := by
  induction ts with
  | nil => exact .nil k
  | cons t ts ih =>
    cases ts with
    | nil => simpa [List.intercalate] using h t List.mem_cons_self
    | cons u ts =>
      rw [List.intercalate_cons_cons]
      exact ((h t List.mem_cons_self).append hsep).append
        (ih fun t' ht' ↦ h t' (List.mem_cons_of_mem t ht'))

theorem TypePart.Blank.level {p : TypePart} (hp : p.Blank) {k : ℤ} (h : Level k p.type) :
    Level k p.text := by
  have hblank {t : List Char} (ht : ∀ c ∈ t, isSpaceOrTab c = true) : Level k t := by
    refine level_of_forall fun c hc ↦ ?_
    have hcb := ht c hc
    simp only [isSpaceOrTab, Bool.or_eq_true, decide_eq_true_eq] at hcb
    rcases hcb with rfl | rfl <;> simp
  exact ((hblank hp.1).append h).append (hblank hp.2)

/-- Text in brackets after a base. -/
theorem level_bracketed {k : ℤ} {base : String}
    (hbase : ∀ c ∈ base.toList, c ≠ '[' ∧ c ≠ ']' ∧ c ≠ ',') {inner : List Char}
    (h : Level (k + 1) inner) : Level k (bracketed base inner) :=
  (level_of_forall fun c hc ↦ ⟨(hbase c hc).1, (hbase c hc).2.1, Or.inl (hbase c hc).2.2⟩).append
    h.brackets

/-- The commas of a type are all in its brackets. -/
theorem TypeText.level {t : List Char} (h : TypeText Paired t) : Level 0 t := by
  induction h with
  | bare name _ hname =>
    exact level_of_forall fun c hc ↦
      ⟨(hname c hc).1, (hname c hc).2.1, Or.inl (hname c hc).2.2.1⟩
  | sized base hbase range hrange =>
    have hrange' : Level 1 range := level_of_forall fun c hc ↦
      ⟨(hrange c hc).1, (hrange c hc).2, Or.inr le_rfl⟩
    rcases hbase with rfl | rfl <;> exact level_bracketed (by simp) hrange'
  | enum items hitems =>
    refine level_bracketed (by simp) (Level.intercalate (level_of_forall (by simp)) ?_)
    intro t ht
    obtain ⟨i, hi, rfl⟩ := List.mem_map.1 ht
    obtain ⟨hquote, -, hpaired⟩ := hitems i hi
    have hq : Level (0 + 1) [i.1] := by
      refine level_char ?_ (Or.inr le_rfl)
      rcases hquote with hq | hq <;> rw [hq] <;> decide
    exact (hq.append hpaired.level).append hq
  | optional t _ ih => exact level_bracketed (by simp) (ih.mono (by omega))
  | variant ps _ hblank _ ih =>
    refine level_bracketed (by simp) (Level.intercalate (level_of_forall (by simp)) ?_)
    intro t ht
    obtain ⟨p, hp, rfl⟩ := List.mem_map.1 ht
    exact (hblank p hp).level ((ih p hp).mono (by omega))

/-- Types with commas between them are taken apart at these commas. -/
theorem splitCommas_join {ps : List TypePart} (hne : ps ≠ []) (h : ∀ p ∈ ps, Level 0 p.text) :
    splitCommas 0 [] (TypePart.join ps) = ps.map TypePart.text := by
  induction ps with
  | nil => exact absurd rfl hne
  | cons p ps ih =>
    have hp := h p List.mem_cons_self 0 le_rfl []
    cases ps with
    | nil => simpa [TypePart.join, List.intercalate, splitCommas] using hp []
    | cons p' ps =>
      have hrest := ih (List.cons_ne_nil p' ps) fun q hq ↦ h q (List.mem_cons_of_mem p hq)
      have hjoin : TypePart.join (p :: p' :: ps) = p.text ++ ',' :: TypePart.join (p' :: ps) := by
        rw [TypePart.join, TypePart.join, List.map_cons, List.map_cons,
          List.intercalate_cons_cons]
        simp
      rw [hjoin, hp, splitCommas, if_neg (by decide), if_neg (by decide), if_pos ⟨rfl, rfl⟩,
        hrest]
      simp

/-! ### Blanks around types -/

section Blanks

variable {P : List Char → Prop} {t : List Char}

theorem dropWhile_isSpaceOrTab_append {c : Char} (h : t.head? = some c)
    (hc : isSpaceOrTab c = false) (u : List Char) : (t ++ u).dropWhile isSpaceOrTab = t ++ u := by
  cases t with
  | nil => cases h
  | cons d t =>
    cases h
    simp [hc]

/-- A type starts with something. -/
theorem TypeText.exists_head (h : TypeText P t) :
    ∃ c, t.head? = some c ∧ isSpaceOrTab c = false := by
  cases h with
  | bare _ hne hname =>
    obtain ⟨c, t, rfl⟩ := List.exists_cons_of_ne_nil hne
    exact ⟨c, rfl, (hname c List.mem_cons_self).2.2.2⟩
  | sized base hbase range _ => rcases hbase with rfl | rfl <;> exact ⟨_, rfl, rfl⟩
  | enum items _ => exact ⟨_, rfl, rfl⟩
  | optional t _ => exact ⟨_, rfl, rfl⟩
  | variant ps _ _ _ => exact ⟨_, rfl, rfl⟩

theorem bracketed_reverse_head? (base : String) (inner : List Char) :
    (bracketed base inner).reverse.head? = some ']' := by
  simp [bracketed]

/-- A type ends with something. -/
theorem TypeText.exists_reverse_head (h : TypeText P t) :
    ∃ c, t.reverse.head? = some c ∧ isSpaceOrTab c = false := by
  cases h with
  | bare _ hne hname =>
    obtain ⟨t, c, rfl⟩ := (List.eq_nil_or_concat t).resolve_left hne
    exact ⟨c, by simp, (hname c (by simp)).2.2.2⟩
  | sized base _ range _ => exact ⟨']', bracketed_reverse_head? base range, rfl⟩
  | enum items _ => exact ⟨']', bracketed_reverse_head? _ _, rfl⟩
  | optional t _ => exact ⟨']', bracketed_reverse_head? _ _, rfl⟩
  | variant ps _ _ _ => exact ⟨']', bracketed_reverse_head? _ _, rfl⟩

/-- What is left of a type between commas is the type. -/
theorem TypeText.trim_text {p : TypePart} (h : TypeText P p.type) (hp : p.Blank) :
    trim p.text = p.type := by
  obtain ⟨c, hhead, hc⟩ := h.exists_head
  obtain ⟨d, hlast, hd⟩ := h.exists_reverse_head
  have hright : ∀ c ∈ p.right.reverse, isSpaceOrTab c = true :=
    fun c hc ↦ hp.2 c (List.mem_reverse.1 hc)
  have hrest := dropWhile_isSpaceOrTab_append hlast hd []
  rw [List.append_nil] at hrest
  rw [trim, TypePart.text, List.append_assoc, List.dropWhile_append_of_pos hp.1,
    dropWhile_isSpaceOrTab_append hhead hc, trimEnd, List.reverse_append,
    List.dropWhile_append_of_pos hright, hrest, List.reverse_reverse]

/-- The texts that a `Variant` finds are those of its types. -/
theorem variantParts_join {ps : List TypePart} (hne : ps ≠ []) (hblank : ∀ p ∈ ps, p.Blank)
    (h : ∀ p ∈ ps, TypeText Paired p.type) :
    variantParts (TypePart.join ps) = ps.map TypePart.type := by
  have htrim : (ps.map TypePart.text).map trim = ps.map TypePart.type := by
    rw [List.map_map]
    exact List.map_congr_left fun p hp ↦ (h p hp).trim_text (hblank p hp)
  rw [variantParts, splitCommas_join hne fun p hp ↦ (hblank p hp).level (h p hp).level, htrim,
    List.filter_eq_self]
  intro t ht
  obtain ⟨p, hp, rfl⟩ := List.mem_map.1 ht
  obtain ⟨c, hc, -⟩ := (h p hp).exists_head
  refine decide_eq_true fun hnil ↦ ?_
  rw [hnil] at hc
  cases hc

end Blanks

/-! ### Where the laws hold -/

section Sharp

variable {T : TypeEnv} {v : Value}

/-- An `Optional` is right where its inner text fits the buffer. -/
theorem optionalLaw_of_length_le {P : List Char → Prop} {t : List Char} (h : TypeText P t)
    (hlen : t.length ≤ 127) : OptionalLaw T v t := by
  obtain ⟨c, hhead, hc⟩ := h.exists_head
  have hcut := dropWhile_isSpaceOrTab_append hhead hc []
  rw [List.append_nil] at hcut
  rw [OptionalLaw, valueMatchesTypeStr_optional, List.take_of_length_le hlen, hcut]

/-- What a `Variant` of types accepts. -/
theorem valueMatchesTypeStr_join {ps : List TypePart} (hne : ps ≠ [])
    (hblank : ∀ p ∈ ps, p.Blank) (h : ∀ p ∈ ps, TypeText Paired p.type) :
    valueMatchesTypeStr T v (bracketed "Variant" (TypePart.join ps)) = true ↔
      ∃ p ∈ ps, 256 ≤ p.type.length ∨ valueMatchesTypeStr T v p.type = true := by
  have hparts := variantParts_join hne hblank h
  rw [valueMatchesTypeStr_variant (by simpa [hparts] using hne), hparts]
  simp only [List.mem_map, exists_exists_and_eq_and]

/-- A `Variant` is right where the texts of its types fit the buffer. -/
theorem variantLaw_of_length_le {ps : List TypePart} (hne : ps ≠ []) (hblank : ∀ p ∈ ps, p.Blank)
    (h : ∀ p ∈ ps, TypeText Paired p.type) (hlen : ∀ p ∈ ps, p.type.length ≤ 255) :
    VariantLaw T v ps := by
  rw [VariantLaw, valueMatchesTypeStr_join hne hblank h]
  refine exists_congr fun p ↦ and_congr_right fun hp ↦ or_iff_right ?_
  have := hlen p hp
  omega

/-- A `Variant` accepts a type whose text does not fit. -/
theorem valueMatchesTypeStr_of_length_ge {t : List Char} (h : TypeText Paired t)
    (hlen : 256 ≤ t.length) :
    valueMatchesTypeStr T v (bracketed "Variant" (TypePart.join [⟨[], t, []⟩])) = true := by
  have hblank : ∀ p ∈ [TypePart.mk [] t []], p.Blank := by
    simp [TypePart.Blank]
  rw [valueMatchesTypeStr_join (List.cons_ne_nil _ _) hblank (by simpa using h)]
  exact ⟨_, List.mem_singleton_self _, Or.inl hlen⟩

/-- A type of hashes with that many blanks in it. -/
def spacedHash (k : ℕ) : TypePart := ⟨[], "Hash".toList, List.replicate k ' '⟩

/-- A `Variant` of hashes with that many blanks in it. -/
def spacedVariant (k : ℕ) : List Char := bracketed "Variant" (TypePart.join [spacedHash k])

theorem spacedHash_blank (k : ℕ) : ∀ p ∈ [spacedHash k], p.Blank := by
  intro p hp
  rw [List.mem_singleton.1 hp]
  refine ⟨by simp [spacedHash], fun c hc ↦ ?_⟩
  rw [List.eq_of_mem_replicate hc]
  rfl

theorem typeText_spacedHash {P : List Char → Prop} (k : ℕ) :
    ∀ p ∈ [spacedHash k], TypeText P p.type := by
  intro p hp
  rw [List.mem_singleton.1 hp]
  exact .bare _ (by simp [spacedHash]) (by simp [spacedHash, isSpaceOrTab])

theorem typeText_spacedVariant {P : List Char → Prop} (k : ℕ) : TypeText P (spacedVariant k) :=
  .variant _ (List.cons_ne_nil _ _) (spacedHash_blank k) (typeText_spacedHash k)

theorem spacedVariant_eq (k : ℕ) :
    spacedVariant k = "Variant[Hash".toList ++ (List.replicate k ' ' ++ [']']) := by
  simp [spacedVariant, bracketed, TypePart.join, spacedHash, TypePart.text, List.intercalate]

theorem length_spacedVariant (k : ℕ) : (spacedVariant k).length = k + 13 := by
  rw [spacedVariant_eq, List.length_append, List.length_append, List.length_replicate]
  simp
  omega

/-- It accepts hashes only. -/
theorem not_spacedVariant (k : ℕ) :
    valueMatchesTypeStr T (.bool true) (spacedVariant k) = false := by
  rw [← Bool.not_eq_true, spacedVariant, valueMatchesTypeStr_join (List.cons_ne_nil _ _)
    (spacedHash_blank k) (typeText_spacedHash k)]
  rintro ⟨p, hp, h⟩
  rw [List.mem_singleton.1 hp] at h
  rcases h with h | h
  · simp [spacedHash] at h
  · cases h

/-- A `Variant` without a closing bracket accepts everything. -/
theorem valueMatchesTypeStr_unclosed {t : List Char} (ht : ']' ∉ t) :
    valueMatchesTypeStr T v ("Variant".toList ++ '[' :: t) = true := by
  obtain ⟨resolve, hresolve⟩ := exists_matchText T v
  have hnone : beforeLastBracket t = none := by
    have hall : ∀ c ∈ t.reverse, decide (c ≠ ']') = true := fun c hc ↦
      decide_eq_true (ne_of_mem_of_not_mem (List.mem_reverse.1 hc) ht)
    rw [beforeLastBracket, List.dropWhile_eq_nil_iff.2 hall]
  rw [hresolve, matchText_length_eq (by simp), matchStep_variant, matchVariant, List.tail_cons,
    hnone]

/-- What the buffer of an `Optional` keeps of it. -/
theorem cut_spacedVariant {k : ℕ} (hk : 115 ≤ k) :
    ((spacedVariant k).take 127).dropWhile isSpaceOrTab =
      "Variant".toList ++ '[' :: ("Hash".toList ++ List.replicate 115 ' ') := by
  have htake : (List.replicate k ' ' ++ [']']).take 115 = List.replicate 115 ' ' := by
    rw [List.take_append_of_le_length (by simpa using hk), List.take_replicate, min_eq_left hk]
  rw [spacedVariant_eq, List.take_append, List.take_of_length_le (by simp),
    show 127 - "Variant[Hash".toList.length = 115 from rfl, htake]
  rfl

/-- A literal that is a bracket, and a type after it. -/
def bracketParts : List TypePart :=
  [⟨[], bracketed "Enum" (quote '\'' ['[']), []⟩, ⟨[], "Integer".toList, []⟩]

theorem typeText_bracketParts : ∀ p ∈ bracketParts,
    p.Blank ∧ TypeText (fun _ ↦ True) p.type ∧ p.type.length ≤ 9 := by
  intro p hp
  rcases List.mem_pair.1 hp with rfl | rfl
  · refine ⟨by simp [TypePart.Blank], ?_, by decide⟩
    exact .enum [('\'', ['['])] (by simp)
  · exact ⟨by simp [TypePart.Blank], .bare _ (by simp) (by simp [isSpaceOrTab]), by decide⟩

/-- The bracket hides the type after it. -/
theorem not_variantLaw_bracketParts : ¬ VariantLaw T (.number 5) bracketParts := by
  have hparts : variantParts (TypePart.join bracketParts) = ["Enum['['],Integer".toList] := by
    decide +kernel
  rw [VariantLaw, valueMatchesTypeStr_variant (by rw [hparts]; simp), hparts]
  have hvariant : ¬ ∃ t ∈ ["Enum['['],Integer".toList],
      256 ≤ t.length ∨ valueMatchesTypeStr T (.number 5) t = true := by
    rintro ⟨t, ht, h⟩
    rw [List.mem_singleton.1 ht] at h
    exact h.elim (by decide) fun h ↦ Bool.false_ne_true h
  have hinteger : valueMatchesTypeStr T (.number 5) "Integer".toList = true := rfl
  exact fun hlaw ↦ hvariant (hlaw.2 ⟨⟨[], "Integer".toList, []⟩, by simp [bracketParts], hinteger⟩)

end Sharp

/-- No alias is known. -/
def noAliases : TypeEnv := ⟨fun _ ↦ none, fun _ _ ↦ false⟩

end PuppetC
