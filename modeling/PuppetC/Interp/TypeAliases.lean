import Mathlib.Data.List.Chain
import PuppetC.Interp.AliasRuns

/-!
# Aliases of types and what they stand for

An alias stands for the text of a type, which may hold other aliases. Where no chain of aliases is
longer than 16, they can all be replaced by what they stand for, and a value that is checked
against an alias should be answered as it is by the expanded text.

The check of the expanded text may go wrong where that of the alias does not: the texts of inner
types go through buffers, and an alias is shorter than what it stands for. So the answers are the
same if all names fit a buffer of 64 bytes, what is in an `Optional` one of 128 bytes, and the
types of a `Variant` one of 256 bytes, before and after the expansion, and if the commas of a type
in a `Variant` are in its brackets, brackets in literals counted.

## Main definitions

* `TypeExpr`: the types that texts are made of.
* `TypeExpr.answer`: what a value is answered by a type, given the answers of the names in it.
* `TypeExpr.Fits`: the names and inner types of a type have at most given lengths.
* `AliasTable.IsChain`: a chain of aliases, each of which uses the next one.
* `AliasTable.expand`: a type with its aliases replaced by what they stand for.
* `Transparent`: aliases of such lengths are checked like what they stand for.

## Main results

* `TypeExpr.matchLevels_text`: what the check of a text answers that fits the buffers.
* `answer_expand`: a type is answered like its expansion.
* `transparent_of_fits`: the answers are the same where the texts fit.
* `type_aliases_resolve_iff`: the check returns, and the sizes for which the answers are the same.
-/

namespace PuppetC

/-! ### Types -/

/-- A type: a name, a type with literals in its brackets, an `Optional` or `Variant` with blanks
around the inner types, or another type with types and other text in its brackets. -/
inductive TypeExpr where
  | name (n : List Char)
  | literal (base : String) (inner : List Char)
  | optional (left : List Char) (type : TypeExpr) (right : List Char)
  | variant (parts : List (List Char × TypeExpr × List Char))
  | other (base : List Char) (parts : List (List Char × TypeExpr × List Char)) (tail : List Char)

namespace TypeExpr

/-- Types with text around them. -/
abbrev Parts := List (List Char × TypeExpr × List Char)

theorem induct {P : TypeExpr → Prop} (name : ∀ n, P (name n))
    (literal : ∀ base inner, P (literal base inner))
    (optional : ∀ left t right, P t → P (optional left t right))
    (variant : ∀ parts : Parts, (∀ p ∈ parts, P p.2.1) → P (variant parts))
    (other : ∀ base parts tail, (∀ p ∈ parts, P p.2.1) → P (other base parts tail))
    (e : TypeExpr) : P e :=
  @TypeExpr.rec P (fun ps ↦ ∀ p ∈ ps, P p.2.1) (fun p ↦ P p.2.1) (fun p ↦ P p.1)
    name literal optional variant other (fun p hp ↦ by cases hp)
    (fun p ps hp hps q hq ↦ by
      rcases List.mem_cons.1 hq with rfl | hq
      exacts [hp, hps q hq])
    (fun l p hp ↦ hp) (fun t r ht ↦ ht) e

mutual

/-- The text of a type. -/
def text : TypeExpr → List Char
  | .name n => n
  | .literal base inner => bracketed base inner
  | .optional left t right => bracketed "Optional" (left ++ t.text ++ right)
  | .variant parts => bracketed "Variant" (TypePart.join (textParts parts))
  | .other base parts tail =>
    base ++ '[' :: ((textParts parts).flatMap TypePart.text ++ tail ++ [']'])

/-- The texts of types with text around them. -/
def textParts : List (List Char × TypeExpr × List Char) → List TypePart
  | [] => []
  | (left, t, right) :: ps => ⟨left, t.text, right⟩ :: textParts ps

end

mutual

/-- The names in a type. -/
def names : TypeExpr → List (List Char)
  | .name n => [n]
  | .literal .. => []
  | .optional _ t _ => t.names
  | .variant parts => namesParts parts
  | .other _ parts _ => namesParts parts

/-- The names in several types. -/
def namesParts : List (List Char × TypeExpr × List Char) → List (List Char)
  | [] => []
  | (_, t, _) :: ps => t.names ++ namesParts ps

end

mutual

/-- Replace the names in a type. -/
def subst (f : List Char → TypeExpr) : TypeExpr → TypeExpr
  | .name n => f n
  | .literal base inner => .literal base inner
  | .optional left t right => .optional left (t.subst f) right
  | .variant parts => .variant (substParts f parts)
  | .other base parts tail => .other base (substParts f parts) tail

/-- Replace the names in several types. -/
def substParts (f : List Char → TypeExpr) :
    List (List Char × TypeExpr × List Char) → List (List Char × TypeExpr × List Char)
  | [] => []
  | (left, t, right) :: ps => (left, t.subst f, right) :: substParts f ps

end

section Answer

variable (T : TypeEnv) (v : Value) (f : List Char → Bool)

mutual

/-- What a value is answered by a type, where `f` answers for names: an `Optional` accepts `undef`,
and a `Variant` what one of its types accepts. -/
def answer : TypeExpr → Bool
  | .name n => f n
  | .literal base inner => matchStep T (fun _ ↦ none) v (fun _ ↦ true) (bracketed base inner)
  | .optional _ t _ => v matches .undef || t.answer
  | .variant parts => parts.isEmpty || answerParts parts
  | .other base _ _ => (matchKnown v base).getD true

/-- One of several types accepts a value. -/
def answerParts : List (List Char × TypeExpr × List Char) → Bool
  | [] => false
  | (_, t, _) :: ps => t.answer || answerParts ps

end

end Answer

end TypeExpr

/-! ### Types that fit the buffers -/

/-- A name without brackets, commas and blanks. -/
def PlainName (n : List Char) : Prop :=
  n ≠ [] ∧ ∀ c ∈ n, c ≠ '[' ∧ c ≠ ']' ∧ c ≠ ',' ∧ isSpaceOrTab c = false

/-- There is nothing but blanks in a text. -/
def BlankText (t : List Char) : Prop := ∀ c ∈ t, isSpaceOrTab c = true

/-- The types whose brackets are not taken for other types. -/
def ownBrackets : List String := ["String", "Integer", "Optional", "Enum", "Pattern", "Variant"]

/-- A range, or literals each of which is closed. -/
def ClosedLiterals (base : String) (inner : List Char) : Prop :=
  base = "String" ∨ base = "Integer" ∨
    (base = "Enum" ∧ ∀ t, literals none (inner ++ t) = literals none inner ++ literals none t) ∨
    (base = "Pattern" ∧ ∀ t, regexes none (inner ++ t) = regexes none inner ++ regexes none t)

/-- The lengths of names, of what is in an `Optional` and of the types of a `Variant`, and what is
asked of the types of a `Variant` otherwise. -/
structure Limits where
  name : ℕ
  optional : ℕ
  variant : ℕ
  part : TypeExpr → Prop

namespace TypeExpr

section Fits

variable (L : Limits) (table : List Char → Option TypeExpr)

mutual

/-- The names and inner types of a type have at most the given lengths, and no alias is given
something in brackets. -/
def Fits : TypeExpr → Prop
  | .name n => PlainName n ∧ n.length ≤ L.name
  | .literal base inner => ClosedLiterals base inner
  | .optional left t right =>
    BlankText left ∧ BlankText right ∧ (left ++ t.text ++ right).length ≤ L.optional ∧ t.Fits
  | .variant parts => FitsParts parts
  | .other base _ _ =>
    PlainName base ∧ base.length ≤ L.name ∧ base ∉ ownBrackets.map String.toList ∧
      table base = none

/-- The types of a `Variant` have at most the given lengths. -/
def FitsParts : List (List Char × TypeExpr × List Char) → Prop
  | [] => True
  | (left, t, right) :: ps =>
    (BlankText left ∧ BlankText right ∧ t.text.length ≤ L.variant ∧ L.part t ∧ t.Fits) ∧
      FitsParts ps

end

end Fits

variable {L : Limits} {table : List Char → Option TypeExpr} {T : TypeEnv} {v : Value}
  {f g : List Char → Bool}

theorem textParts_eq (ps : Parts) :
    textParts ps = ps.map fun p ↦ ⟨p.1, p.2.1.text, p.2.2⟩ := by
  induction ps with
  | nil => rfl
  | cons p ps ih => rw [textParts, ih, List.map_cons]

theorem namesParts_eq (ps : Parts) : namesParts ps = ps.flatMap fun p ↦ p.2.1.names := by
  induction ps with
  | nil => rfl
  | cons p ps ih => rw [namesParts, ih, List.flatMap_cons]

theorem substParts_eq (r : List Char → TypeExpr) (ps : Parts) :
    substParts r ps = ps.map fun p ↦ (p.1, p.2.1.subst r, p.2.2) := by
  induction ps with
  | nil => rfl
  | cons p ps ih => rw [substParts, ih, List.map_cons]

theorem any_congr_of_mem {ps : Parts} {p q : TypeExpr → Bool} (h : ∀ x ∈ ps, p x.2.1 = q x.2.1) :
    (ps.any fun x ↦ p x.2.1) = ps.any fun x ↦ q x.2.1 := by
  induction ps with
  | nil => rfl
  | cons x ps ih =>
    rw [List.any_cons, List.any_cons, h x List.mem_cons_self,
      ih fun y hy ↦ h y (List.mem_cons_of_mem x hy)]

theorem answerParts_eq (ps : Parts) :
    answerParts T v f ps = ps.any fun p ↦ p.2.1.answer T v f := by
  induction ps with
  | nil => rfl
  | cons p ps ih => rw [answerParts, ih, List.any_cons]

theorem fitsParts_iff (ps : Parts) :
    FitsParts L table ps ↔ ∀ p ∈ ps, BlankText p.1 ∧ BlankText p.2.2 ∧
      p.2.1.text.length ≤ L.variant ∧ L.part p.2.1 ∧ p.2.1.Fits L table := by
  induction ps with
  | nil => simp [FitsParts]
  | cons p ps ih => rw [FitsParts, ih, List.forall_mem_cons]

/-! ### Replaced names -/

/-- A name of a type with other types for its names is in one of these types. -/
theorem mem_names_subst (r : List Char → TypeExpr) (e : TypeExpr) (n : List Char) :
    n ∈ (e.subst r).names ↔ ∃ m ∈ e.names, n ∈ (r m).names := by
  induction e using induct with
  | name m => simp [subst, names]
  | literal base inner => simp [subst, names]
  | optional left t right ih => simpa [subst, names] using ih
  | variant ps ih | other base ps tail ih =>
    simp only [subst, names, substParts_eq, namesParts_eq, List.mem_flatMap, List.mem_map]
    constructor
    · rintro ⟨_, ⟨p, hp, rfl⟩, hn⟩
      obtain ⟨m, hm, hn⟩ := (ih p hp).1 hn
      exact ⟨m, ⟨p, hp, hm⟩, hn⟩
    · rintro ⟨m, ⟨p, hp, hm⟩, hn⟩
      exact ⟨_, ⟨p, hp, rfl⟩, (ih p hp).2 ⟨m, hm, hn⟩⟩

/-- A type with other types for its names answers as if these were answered for the names. -/
theorem answer_subst (r : List Char → TypeExpr) (e : TypeExpr) :
    (e.subst r).answer T v f = e.answer T v fun n ↦ (r n).answer T v f := by
  induction e using induct with
  | name m => simp [subst, answer]
  | literal base inner => simp [subst, answer]
  | optional left t right ih => simp [subst, answer, ih]
  | variant ps ih =>
    simp only [subst, answer, substParts_eq, answerParts_eq, List.any_map, List.isEmpty_map]
    exact congrArg (_ || ·) (any_congr_of_mem (p := fun e ↦ (e.subst r).answer T v f) ih)
  | other base ps tail ih => simp [subst, answer]

/-- Only the names in a type matter. -/
theorem answer_congr {e : TypeExpr} (h : ∀ n ∈ e.names, f n = g n) :
    e.answer T v f = e.answer T v g := by
  induction e using induct with
  | name m => simpa [answer, names] using h
  | literal base inner => simp [answer]
  | optional left t right ih => simpa [answer] using congrArg (_ || ·) (ih h)
  | variant ps ih =>
    simp only [answer, answerParts_eq]
    refine congrArg (_ || ·) (any_congr_of_mem fun p hp ↦ ih p hp fun n hn ↦ h n ?_)
    rw [names, namesParts_eq]
    exact List.mem_flatMap.2 ⟨p, hp, hn⟩
  | other base ps tail ih => simp [answer]

end TypeExpr

/-! ### The check of a text that fits -/

section Pieces

variable {T : TypeEnv} {resolve : List Char → Option Bool} {v : Value} {check : List Char → Bool}
  {tail : List Char}

theorem dropWhile_append_close {p : Char → Bool} (hp : p ']' = false) (t u : List Char) :
    (t ++ ']' :: u).dropWhile p = t.dropWhile p ++ ']' :: u := by
  induction t with
  | nil => simp [hp]
  | cons c t ih => by_cases hc : p c <;> simp [hc, ih]

theorem takeWhile_append_close {p : Char → Bool} (hp : p ']' = false) (t u : List Char) :
    (t ++ ']' :: u).takeWhile p = t.takeWhile p := by
  induction t with
  | nil => simp [hp]
  | cons c t ih => by_cases hc : p c <;> simp [hc, ih]

/-- A number ends before a bracket. -/
theorem scanLong_append_close (t u : List Char) :
    scanLong (t ++ ']' :: u) = (scanLong t).map fun p ↦ (p.1, p.2 ++ ']' :: u) := by
  have htake (t : List Char) : (t ++ ']' :: u).takeWhile Char.isDigit = t.takeWhile Char.isDigit :=
    takeWhile_append_close (by decide) t u
  have hdrop (t : List Char) :
      (t ++ ']' :: u).dropWhile Char.isDigit = t.dropWhile Char.isDigit ++ ']' :: u :=
    dropWhile_append_close (by decide) t u
  unfold scanLong
  rw [dropWhile_append_close (by decide)]
  cases h : t.dropWhile isSpace with
  | nil => rfl
  | cons c rest =>
    by_cases hminus : c = '-'
    · subst hminus
      simp only [List.cons_append, htake, hdrop]
      cases rest.takeWhile Char.isDigit <;> rfl
    · by_cases hplus : c = '+'
      · subst hplus
        simp only [List.cons_append, htake, hdrop]
        cases rest.takeWhile Char.isDigit <;> rfl
      · simp only [List.cons_append, List.cons.injEq, hminus, hplus, false_and, imp_self,
          implies_true]
        rw [← List.cons_append, htake, hdrop]
        cases (c :: rest).takeWhile Char.isDigit <;> rfl

/-- A range ends before a bracket. -/
theorem scanRange_append_close (t u : List Char) :
    scanRange ('[' :: (t ++ ']' :: u)) = scanRange ('[' :: t) := by
  have hopen (t : List Char) : ('[' :: t).dropWhile isSpace = '[' :: t := rfl
  unfold scanRange
  rw [hopen, hopen]
  simp only [scanLong_append_close]
  cases scanLong t with
  | none => rfl
  | some p =>
    dsimp only [Option.map_some]
    rw [dropWhile_append_close (by decide)]
    cases hrest : p.2.dropWhile isSpace with
    | nil => rfl
    | cons c rest =>
      by_cases hcomma : c = ','
      · subst hcomma
        simp only [List.cons_append, scanLong_append_close, Option.map_map]
        rfl
      · simp only [List.cons_append, List.cons.injEq, hcomma, false_and, imp_self, implies_true]

theorem literals_blank (htail : BlankText tail) : literals none tail = [] := by
  induction tail with
  | nil => rfl
  | cons c tail ih =>
    have hc : ¬ (c = '\'' ∨ c = '"') := by
      have hblank := htail c List.mem_cons_self
      rintro (rfl | rfl) <;> cases hblank
    rw [literals, if_neg hc, ih fun d hd ↦ htail d (List.mem_cons_of_mem c hd)]

theorem regexes_blank (htail : BlankText tail) : regexes none tail = [] := by
  induction tail with
  | nil => rfl
  | cons c tail ih =>
    have hc : ¬ (c = '/' ∨ c = '\'' ∨ c = '"') := by
      have hblank := htail c List.mem_cons_self
      rintro (rfl | rfl | rfl) <;> cases hblank
    rw [regexes, if_neg hc, ih fun d hd ↦ htail d (List.mem_cons_of_mem c hd)]

theorem bracketed_append (base : String) (inner tail : List Char) :
    bracketed base inner ++ tail = base.toList ++ '[' :: (inner ++ ']' :: tail) := by
  simp [bracketed]

/-- One round on a base with something in brackets. -/
theorem matchStep_base {base : String} (hbase : '[' ∉ base.toList)
    (hcut : trimEnd (base.toList.take 63) = base.toList) (t : List Char) :
    matchStep T resolve v check (base.toList ++ '[' :: t) =
      if base.toList = "String".toList then matchString v ('[' :: t)
      else if base.toList = "Integer".toList then matchInteger v ('[' :: t)
      else if base.toList = "Optional".toList then matchOptional check v ('[' :: t)
      else if base.toList = "Enum".toList then matchEnum v ('[' :: t)
      else if base.toList = "Pattern".toList then matchPattern T v ('[' :: t)
      else if base.toList = "Variant".toList then matchVariant check ('[' :: t)
      else ((matchKnown v base.toList).orElse fun _ ↦ resolve base.toList).getD true := by
  unfold matchStep
  rw [if_neg (by simp)]
  dsimp only
  rw [takeWhile_base hbase, dropWhile_base hbase, hcut, if_neg (by simp)]

theorem matchStep_string (t : List Char) :
    matchStep T resolve v check ("String".toList ++ '[' :: t) = matchString v ('[' :: t) :=
  matchStep_base (by decide) (by decide) t

theorem matchStep_integer (t : List Char) :
    matchStep T resolve v check ("Integer".toList ++ '[' :: t) = matchInteger v ('[' :: t) :=
  matchStep_base (by decide) (by decide) t

theorem matchStep_pattern (t : List Char) :
    matchStep T resolve v check ("Pattern".toList ++ '[' :: t) = matchPattern T v ('[' :: t) :=
  matchStep_base (by decide) (by decide) t

/-- A type with literals is checked by itself, and blanks after it do not matter. -/
theorem matchStep_literal {base : String} {inner : List Char} (h : ClosedLiterals base inner)
    (htail : BlankText tail) :
    matchStep T resolve v check (bracketed base inner ++ tail) =
      matchStep T (fun _ ↦ none) v (fun _ ↦ true) (bracketed base inner) := by
  have hnil : BlankText [] := fun _ h ↦ by cases h
  rw [bracketed_append, bracketed]
  rcases h with rfl | rfl | ⟨rfl, hclosed⟩ | ⟨rfl, hclosed⟩
  · rw [matchStep_string, matchStep_string]
    unfold matchString
    rw [scanRange_append_close, scanRange_append_close]
  · rw [matchStep_integer, matchStep_integer]
    unfold matchInteger
    rw [scanRange_append_close, scanRange_append_close]
  · have hliterals (u : List Char) (hu : BlankText u) :
        literals none ('[' :: (inner ++ ']' :: u)) = literals none inner := by
      rw [literals, if_neg (by decide), hclosed, literals, if_neg (by decide), literals_blank hu,
        List.append_nil]
    rw [matchStep_enum, matchStep_enum]
    unfold matchEnum
    rw [hliterals tail htail, hliterals [] hnil]
  · have hregexes (u : List Char) (hu : BlankText u) :
        regexes none ('[' :: (inner ++ ']' :: u)) = regexes none inner := by
      rw [regexes, if_neg (by decide), hclosed, regexes, if_neg (by decide), regexes_blank hu,
        List.append_nil]
    rw [matchStep_pattern, matchStep_pattern]
    unfold matchPattern
    rw [hregexes tail htail, hregexes [] hnil]

theorem beforeLastBracket_tail (htail : BlankText tail) (inner : List Char) :
    beforeLastBracket (inner ++ ']' :: tail) = some inner := by
  have hall : ∀ c ∈ tail.reverse, decide (c ≠ ']') = true := by
    intro c hc
    have hblank := htail c (List.mem_reverse.1 hc)
    refine decide_eq_true ?_
    rintro rfl
    cases hblank
  unfold beforeLastBracket
  rw [List.reverse_append, List.reverse_cons, List.append_assoc,
    List.dropWhile_append_of_pos hall]
  simp

theorem trimEnd_append {t : List Char} {c : Char} (h : t.reverse.head? = some c)
    (hc : isSpaceOrTab c = false) (htail : BlankText tail) : trimEnd (t ++ tail) = t := by
  have hreverse : ∀ c ∈ tail.reverse, isSpaceOrTab c = true :=
    fun c hc ↦ htail c (List.mem_reverse.1 hc)
  have hrest := dropWhile_isSpaceOrTab_append h hc []
  rw [List.append_nil] at hrest
  rw [trimEnd, List.reverse_append, List.dropWhile_append_of_pos hreverse, hrest,
    List.reverse_reverse]

theorem PlainName.exists_head {n : List Char} (h : PlainName n) :
    ∃ c, n.head? = some c ∧ isSpaceOrTab c = false := by
  obtain ⟨c, n, rfl⟩ := List.exists_cons_of_ne_nil h.1
  exact ⟨c, rfl, (h.2 c List.mem_cons_self).2.2.2⟩

theorem PlainName.exists_reverse_head {n : List Char} (h : PlainName n) :
    ∃ c, n.reverse.head? = some c ∧ isSpaceOrTab c = false := by
  obtain ⟨n, c, rfl⟩ := (List.eq_nil_or_concat n).resolve_left h.1
  exact ⟨c, by simp, (h.2 c (by simp)).2.2.2⟩

theorem PlainName.trimEnd_append {n : List Char} (h : PlainName n) (htail : BlankText tail) :
    trimEnd (n ++ tail) = n := by
  obtain ⟨c, hc, hblank⟩ := h.exists_reverse_head
  exact PuppetC.trimEnd_append hc hblank htail

/-- One round on a name. -/
theorem matchStep_name {n : List Char} (h : PlainName n) (hlen : n.length ≤ 63)
    (htail : BlankText tail) : matchStep T resolve v check (n ++ tail) = matchBare resolve v n := by
  have hopen : ∀ c ∈ n ++ tail, decide (c ≠ '[') = true := by
    intro c hc
    refine decide_eq_true ?_
    rcases List.mem_append.1 hc with hc | hc
    · exact (h.2 c hc).1
    · rintro rfl
      cases htail _ hc
  have htake : trimEnd ((n ++ tail).take 63) = n := by
    rw [List.take_append, List.take_of_length_le hlen]
    exact h.trimEnd_append fun c hc ↦ htail c (List.mem_of_mem_take hc)
  unfold matchStep
  rw [if_neg (by simp [h.1])]
  dsimp only
  rw [List.takeWhile_eq_self_iff.2 hopen, List.dropWhile_eq_nil_iff.2 hopen, htake, if_pos rfl]

/-- The texts that a `Variant` finds are those of its types. -/
theorem variantParts_of_level {ps : List TypePart} (hne : ps ≠ [])
    (h : ∀ p ∈ ps, p.Blank ∧ Level 0 p.type ∧
      (∃ c, p.type.head? = some c ∧ isSpaceOrTab c = false) ∧
        ∃ c, p.type.reverse.head? = some c ∧ isSpaceOrTab c = false) :
    variantParts (TypePart.join ps) = ps.map TypePart.type := by
  have htrim : (ps.map TypePart.text).map trim = ps.map TypePart.type := by
    rw [List.map_map]
    refine List.map_congr_left fun p hp ↦ ?_
    obtain ⟨hblank, -, ⟨c, hhead, hc⟩, d, hlast, hd⟩ := h p hp
    rw [Function.comp_apply, trim, TypePart.text, List.append_assoc,
      List.dropWhile_append_of_pos hblank.1, dropWhile_isSpaceOrTab_append hhead hc,
      trimEnd_append hlast hd hblank.2]
  rw [variantParts, splitCommas_join hne fun p hp ↦ (h p hp).1.level (h p hp).2.1, htrim,
    List.filter_eq_self]
  intro t ht
  obtain ⟨p, hp, rfl⟩ := List.mem_map.1 ht
  obtain ⟨-, -, ⟨c, hc, -⟩, -⟩ := h p hp
  refine decide_eq_true fun hnil ↦ ?_
  rw [hnil] at hc
  cases hc

end Pieces

/-! ### The answer of a type -/

namespace TypeExpr

variable {L : Limits} {table : List Char → Option TypeExpr} {T : TypeEnv} {v : Value}

/-- What the code asks of texts: its buffers hold 63, 127 and 255 bytes, and the commas of a type
of a `Variant` are in its brackets. -/
def buffers : Limits := ⟨63, 127, 255, fun e ↦ Level 0 e.text⟩

theorem Fits.exists_head {e : TypeExpr} (h : e.Fits L table) :
    ∃ c, e.text.head? = some c ∧ isSpaceOrTab c = false := by
  cases e with
  | name n => exact h.1.exists_head
  | literal base inner =>
    rcases h with rfl | rfl | ⟨rfl, -⟩ | ⟨rfl, -⟩ <;> exact ⟨_, rfl, rfl⟩
  | optional left t right => exact ⟨_, rfl, rfl⟩
  | variant ps => exact ⟨_, rfl, rfl⟩
  | other base ps tail =>
    obtain ⟨c, hc, hblank⟩ := h.1.exists_head
    refine ⟨c, ?_, hblank⟩
    rw [text, List.head?_append, hc, Option.some_or]

theorem Fits.exists_reverse_head {e : TypeExpr} (h : e.Fits L table) :
    ∃ c, e.text.reverse.head? = some c ∧ isSpaceOrTab c = false := by
  cases e with
  | name n => exact h.1.exists_reverse_head
  | literal base inner => exact ⟨']', bracketed_reverse_head? base inner, rfl⟩
  | optional left t right => exact ⟨']', bracketed_reverse_head? _ _, rfl⟩
  | variant ps => exact ⟨']', bracketed_reverse_head? _ _, rfl⟩
  | other base ps tail => exact ⟨']', by simp [text], rfl⟩

theorem Fits.text_ne_nil {e : TypeExpr} (h : e.Fits L table) : e.text ≠ [] := by
  obtain ⟨c, hc, -⟩ := h.exists_head
  intro hnil
  rw [hnil] at hc
  cases hc

/-- The check of a text that fits the buffers is answered by the names in it. -/
theorem matchLevels_text (hT : ∀ base, table base = none → T.aliasBody base = none)
    {levels : ℕ} {e : TypeExpr} (h : e.Fits buffers table) {tail : List Char}
    (htail : BlankText tail) :
    matchLevels T v levels (e.text ++ tail) =
      e.answer T v (matchBare (aliasAnswer T v levels) v) := by
  have hnil : BlankText [] := fun _ h ↦ by cases h
  have hstep {e : TypeExpr} (h : e.Fits buffers table) (tail : List Char) :
      matchLevels T v levels (e.text ++ tail) =
        matchStep T (aliasAnswer T v levels) v (matchLevels T v levels) (e.text ++ tail) :=
    matchLevels_step (List.append_ne_nil_of_left_ne_nil h.text_ne_nil tail)
  induction e using induct generalizing tail with
  | name n =>
    rw [hstep h]
    exact matchStep_name h.1 h.2 htail
  | literal base inner =>
    rw [hstep h]
    exact matchStep_literal h htail
  | optional left t right ih =>
    rw [hstep h]
    obtain ⟨hleft, hright, hlen, hfits⟩ := h
    obtain ⟨c, hc, hblank⟩ := hfits.exists_head
    have hcut : ((left ++ t.text ++ right).take 127).dropWhile isSpaceOrTab = t.text ++ right := by
      have hlen' : (left ++ t.text ++ right).length ≤ 127 := hlen
      rw [List.take_of_length_le hlen', List.append_assoc, List.dropWhile_append_of_pos hleft,
        dropWhile_isSpaceOrTab_append hc hblank]
    rw [text, bracketed_append, matchStep_optional]
    unfold matchOptional
    rw [List.tail_cons, beforeLastBracket_tail htail]
    dsimp only
    rw [hcut, ih hfits hright]
    cases v <;> rfl
  | variant ps ih =>
    rw [hstep h, text, bracketed_append, matchStep_variant, answer, answerParts_eq]
    have hfits := (fitsParts_iff ps).1 h
    unfold matchVariant
    rw [List.tail_cons, beforeLastBracket_tail htail]
    cases ps with
    | nil => rfl
    | cons p ps =>
      have hparts : variantParts (TypePart.join (textParts (p :: ps))) =
          (textParts (p :: ps)).map TypePart.type := by
        refine variantParts_of_level (by simp [textParts_eq]) fun q hq ↦ ?_
        rw [textParts_eq] at hq
        obtain ⟨x, hx, rfl⟩ := List.mem_map.1 hq
        obtain ⟨hleft, hright, -, hlevel, hx'⟩ := hfits x hx
        exact ⟨⟨hleft, hright⟩, hlevel, hx'.exists_head, hx'.exists_reverse_head⟩
      have hanswers : ((textParts (p :: ps)).map TypePart.type).any
          (fun t ↦ decide (256 ≤ t.length) || matchLevels T v levels t) =
            (p :: ps).any fun q ↦ q.2.1.answer T v (matchBare (aliasAnswer T v levels) v) := by
        rw [textParts_eq, List.map_map, List.any_map]
        refine any_congr_of_mem (p := fun e ↦ decide (256 ≤ e.text.length) ||
          matchLevels T v levels e.text) fun q hq ↦ ?_
        obtain ⟨-, -, hlen, -, hq'⟩ := hfits q hq
        have hlevels := ih q hq hq' hnil
        rw [List.append_nil] at hlevels
        have hshort : ¬ 256 ≤ q.2.1.text.length := by
          have : q.2.1.text.length ≤ 255 := hlen
          omega
        rw [hlevels, decide_eq_false hshort, Bool.false_or]
      cases hjoin : TypePart.join (textParts (p :: ps)) with
      | nil =>
        rw [hjoin] at hparts
        cases hparts.symm.trans (by rfl)
      | cons c inner =>
        dsimp only
        rw [← hjoin, hparts, hanswers]
        rfl
  | other base ps tail' ih =>
    rw [hstep h]
    obtain ⟨hplain, hlen, hbase, htable⟩ := h
    have hof : (String.ofList base).toList = base := String.toList_ofList
    have hne (name : String) (hname : name ∈ ownBrackets) : ¬ base = name.toList := fun heq ↦
      hbase (heq ▸ List.mem_map_of_mem hname)
    have hopen : '[' ∉ (String.ofList base).toList := fun hmem ↦
      (hplain.2 '[' (hof ▸ hmem)).1 rfl
    have hcut : trimEnd ((String.ofList base).toList.take 63) = (String.ofList base).toList := by
      have hlen' : base.length ≤ 63 := hlen
      rw [hof, List.take_of_length_le hlen']
      simpa using hplain.trimEnd_append hnil
    have htext : (other base ps tail').text ++ tail = (String.ofList base).toList ++
        '[' :: ((textParts ps).flatMap TypePart.text ++ tail' ++ [']'] ++ tail) := by
      simp [text, hof]
    have hnone : aliasAnswer T v levels base = none := by
      cases levels with
      | zero => rfl
      | succ levels => rw [aliasAnswer, if_neg hplain.1, hT base htable, Option.map_none]
    rw [htext, matchStep_base hopen hcut, hof, if_neg (hne "String" (by decide)),
      if_neg (hne "Integer" (by decide)), if_neg (hne "Optional" (by decide)),
      if_neg (hne "Enum" (by decide)), if_neg (hne "Pattern" (by decide)),
      if_neg (hne "Variant" (by decide)), hnone, answer]
    cases matchKnown v base <;> rfl

theorem matchLevels_text_self (hT : ∀ base, T.aliasBody base = (table base).map text) {levels : ℕ}
    {e : TypeExpr} (h : e.Fits buffers table) :
    matchLevels T v levels e.text = e.answer T v (matchBare (aliasAnswer T v levels) v) := by
  have hnone : ∀ base, table base = none → T.aliasBody base = none := by
    intro base hbase
    rw [hT, hbase, Option.map_none]
  have hnil : BlankText [] := fun _ h ↦ by cases h
  simpa using matchLevels_text hnone h hnil

end TypeExpr

/-! ### What an alias stands for -/

/-- The types that aliases are given. -/
abbrev AliasTable := List Char → Option TypeExpr

namespace AliasTable

variable (table : AliasTable)

/-- The type of an alias has a name in it. -/
def Uses (a b : List Char) : Prop := ∃ body, table a = some body ∧ b ∈ body.names

/-- Aliases each of which uses the next one. -/
def IsChain (chain : List (List Char)) : Prop :=
  List.IsChain table.Uses chain ∧ ∀ a ∈ chain, (table a).isSome

/-- The types of the aliases have at most the given lengths, and no alias has the name of a type
that is known. -/
def Fits (L : Limits) : Prop :=
  ∀ a body, table a = some body → a ≠ [] ∧ a ∉ bareNames ∧ body.Fits L table

/-- A type with its aliases replaced by their types, and so on for that many levels. -/
def expand : ℕ → TypeExpr → TypeExpr
  | 0, e => e
  | levels + 1, e =>
    e.subst fun n ↦
      match table n with
      | some body => expand levels body
      | none => .name n

/-- All chains from the aliases in a type are at most that long. -/
def Bounded (levels : ℕ) (e : TypeExpr) : Prop :=
  ∀ chain, table.IsChain chain → (∀ a ∈ chain.head?, a ∈ e.names) → chain.length ≤ levels

variable {table} {levels : ℕ} {e body : TypeExpr} {n : List Char}

theorem Bounded.eq_none (h : table.Bounded 0 e) (hn : n ∈ e.names) : table n = none := by
  cases htable : table n with
  | none => rfl
  | some body =>
    have hchain : table.IsChain [n] := ⟨.singleton n, by simp [htable]⟩
    exact absurd (h [n] hchain (by simpa using hn)) (by simp)

/-- The chains from the type of an alias are shorter. -/
theorem Bounded.of_alias (h : table.Bounded (levels + 1) e) (hn : n ∈ e.names)
    (htable : table n = some body) : table.Bounded levels body := by
  intro chain hchain hhead
  have hcons : table.IsChain (n :: chain) := by
    refine ⟨?_, List.forall_mem_cons.2 ⟨by simp [htable], hchain.2⟩⟩
    cases chain with
    | nil => exact .singleton n
    | cons a chain => exact .cons_cons ⟨body, htable, hhead a rfl⟩ hchain.1
  exact Nat.succ_le_succ_iff.1 (h (n :: chain) hcons (by simpa using hn))

/-- No alias is left where all chains are replaced. -/
theorem Bounded.names_expand (h : table.Bounded levels e) :
    ∀ n ∈ (table.expand levels e).names, table n = none := by
  induction levels generalizing e with
  | zero => exact fun n hn ↦ h.eq_none hn
  | succ levels ih =>
    intro n hn
    obtain ⟨m, hm, hn⟩ := (TypeExpr.mem_names_subst _ e n).1 hn
    cases htable : table m with
    | none =>
      rw [htable] at hn
      rw [List.mem_singleton.1 hn, htable]
    | some body =>
      rw [htable] at hn
      exact ih (h.of_alias hm htable) n hn

/-- Where an alias uses only aliases of a lower rank, no chain is longer than the ranks. -/
theorem length_le_of_rank {rank : List Char → ℕ} {r : ℕ} (hrank : ∀ a, rank a < r)
    (h : ∀ a b, table.Uses a b → (table b).isSome → rank b < rank a) {chain : List (List Char)}
    (hchain : table.IsChain chain) : chain.length ≤ r := by
  have hhead (a : List Char) (chain : List (List Char)) (hchain : table.IsChain (a :: chain)) :
      chain.length ≤ rank a := by
    induction chain generalizing a with
    | nil => exact Nat.zero_le _
    | cons b chain ih =>
      obtain ⟨hchain, hsome⟩ := hchain
      cases hchain with
      | cons_cons huses hrest =>
        have hb := ih b ⟨hrest, fun c hc ↦ hsome c (List.mem_cons_of_mem a hc)⟩
        exact hb.trans_lt (h a b huses (hsome b (by simp)))
  cases chain with
  | nil => exact Nat.zero_le _
  | cons a chain => exact (hhead a chain hchain).trans_lt (hrank a)

end AliasTable

section Expansion

variable {table : AliasTable} {T : TypeEnv} {v : Value}

theorem matchBare_congr {resolve resolve' : List Char → Option Bool} {n : List Char}
    (h : resolve n = resolve' n) : matchBare resolve v n = matchBare resolve' v n := by
  have heq : matchBare resolve' v n = _ := matchBare_eq
  rw [matchBare_eq, heq, h]

/-- A type is answered like its expansion, if no chain of aliases is longer than the number of
aliases that can be resolved. -/
theorem answer_expand (hT : ∀ base, T.aliasBody base = (table base).map TypeExpr.text)
    (hfits : table.Fits TypeExpr.buffers) {levels : ℕ} {e : TypeExpr}
    (hbounded : table.Bounded levels e) :
    e.answer T v (matchBare (aliasAnswer T v levels) v) =
      (table.expand levels e).answer T v (matchBare (fun _ ↦ none) v) := by
  induction levels generalizing e with
  | zero => exact TypeExpr.answer_congr fun n _ ↦ matchBare_congr rfl
  | succ levels ih =>
    rw [AliasTable.expand, TypeExpr.answer_subst]
    refine TypeExpr.answer_congr fun n hn ↦ ?_
    cases htable : table n with
    | none =>
      refine matchBare_congr ?_
      rw [aliasAnswer, hT, htable]
      split_ifs <;> rfl
    | some body =>
      obtain ⟨hne, hbare, hbody⟩ := hfits n body htable
      have hlevels : matchLevels T v levels body.text =
          body.answer T v (matchBare (aliasAnswer T v levels) v) :=
        TypeExpr.matchLevels_text_self hT hbody
      rw [matchBare_eq, if_neg fun h ↦ hbare (List.contains_iff_mem.1 h), aliasAnswer, if_neg hne,
        hT, htable]
      exact hlevels.trans (ih (hbounded.of_alias hn htable))

end Expansion

/-! ### Where the answers are the same -/

/-- A value is answered by an alias as it is by the text of the expanded type, where the table and
the files have the aliases and no alias is being resolved. -/
def AnswersAlike (files : List Char → List (List Char × List Char))
    (aliases : List (List Char × List Char)) (regexec : String → String → Bool)
    (table : AliasTable) (v : Value) (a : List Char) : Prop :=
  let T : TypeEnv := ⟨foundBody files aliases, regexec⟩
  ∃ b s₁ s₂, MatchReturns T files v (checkText a) ⟨aliases, 0⟩ b s₁ ∧
    MatchReturns T files v (checkText (table.expand 16 (.name a)).text) ⟨aliases, 0⟩ b s₂

/-- All aliases are answered like what they stand for whose types, before and after the expansion,
have at most the given lengths. -/
def Transparent (L : Limits) : Prop :=
  ∀ files aliases regexec (table : AliasTable) v a, OwnFiles files →
    (∀ base, foundBody files aliases base = (table base).map TypeExpr.text) →
    (∀ chain, table.IsChain chain → chain.length ≤ 16) →
    table.Fits L → (TypeExpr.name a).Fits L table → (table.expand 16 (.name a)).Fits L table →
      AnswersAlike files aliases regexec table v a

section Transparency

variable {files : List Char → List (List Char × List Char)}
  {aliases : List (List Char × List Char)} {regexec : String → String → Bool} {v : Value}

/-- The answers are those of `matchLevels`. -/
theorem answersAlike_iff (hfiles : OwnFiles files) {table : AliasTable} {a : List Char} :
    AnswersAlike files aliases regexec table v a ↔
      matchLevels ⟨foundBody files aliases, regexec⟩ v 16 a =
        matchLevels ⟨foundBody files aliases, regexec⟩ v 16
          (table.expand 16 (.name a)).text := by
  have hgives (t : List Char) := gives_checkText (T := ⟨foundBody files aliases, regexec⟩)
    (v := v) hfiles 16 t ⟨aliases, 0⟩ (fun _ ↦ rfl) rfl
  obtain ⟨s₁, h₁, -⟩ := hgives a
  obtain ⟨s₂, h₂, -⟩ := hgives (table.expand 16 (.name a)).text
  constructor
  · rintro ⟨b, t₁, t₂, hb₁, hb₂⟩
    rw [(h₁.unique Calls.increasing hb₁).1, (h₂.unique Calls.increasing hb₂).1]
  · intro heq
    exact ⟨_, s₁, s₂, h₁, heq ▸ h₂⟩

theorem TypeExpr.Fits.mono {L L' : Limits} {table : AliasTable} {e : TypeExpr}
    (hname : L.name ≤ L'.name) (hoptional : L.optional ≤ L'.optional)
    (hvariant : L.variant ≤ L'.variant) (hpart : ∀ e, L.part e → L'.part e)
    (h : e.Fits L table) : e.Fits L' table := by
  induction e using TypeExpr.induct with
  | name n => exact ⟨h.1, h.2.trans hname⟩
  | literal base inner => exact h
  | optional left t right ih => exact ⟨h.1, h.2.1, h.2.2.1.trans hoptional, ih h.2.2.2⟩
  | variant ps ih =>
    refine (TypeExpr.fitsParts_iff ps).2 fun p hp ↦ ?_
    obtain ⟨hleft, hright, hlen, hp', hfits⟩ := (TypeExpr.fitsParts_iff ps).1 h p hp
    exact ⟨hleft, hright, hlen.trans hvariant, hpart _ hp', ih p hp hfits⟩
  | other base ps tail ih => exact ⟨h.1, h.2.1.trans hname, h.2.2⟩

/-- What an alias answers. -/
theorem matchLevels_alias {T : TypeEnv} {table : AliasTable} {a : List Char}
    (hT : ∀ base, T.aliasBody base = (table base).map TypeExpr.text)
    (hchains : ∀ chain, table.IsChain chain → chain.length ≤ 16)
    (hfits : table.Fits TypeExpr.buffers) (ha : (TypeExpr.name a).Fits TypeExpr.buffers table) :
    matchLevels T v 16 a =
      (table.expand 16 (.name a)).answer T v (matchBare (fun _ ↦ none) v) :=
  (TypeExpr.matchLevels_text_self hT ha).trans
    (answer_expand hT hfits fun chain hchain _ ↦ hchains chain hchain)

/-- The answers are the same where the types fit the buffers. -/
theorem transparent_of_fits : Transparent TypeExpr.buffers := by
  intro files aliases regexec table v a hfiles htable hchains hfits ha hexpand
  refine (answersAlike_iff hfiles).2 ?_
  have hbounded : table.Bounded 16 (.name a) := fun chain hchain _ ↦ hchains chain hchain
  rw [matchLevels_alias htable hchains hfits ha, TypeExpr.matchLevels_text_self htable hexpand]
  refine TypeExpr.answer_congr fun n hn ↦ matchBare_congr ?_
  have hnone : foundBody files aliases n = none := by
    rw [htable, hbounded.names_expand n hn, Option.map_none]
  rw [aliasAnswer]
  dsimp only
  rw [hnone]
  split_ifs <;> rfl

/-! ### Where they are not -/

/-- An alias `A` and an alias `B` that it may use. -/
def twoAliases (outer inner : TypeExpr) : AliasTable := fun n ↦
  if n = ['A'] then some outer else if n = ['B'] then some inner else none

/-- The texts of two aliases. -/
def twoTexts (outer inner : TypeExpr) : List (List Char × List Char) :=
  [(['A'], outer.text), (['B'], inner.text)]

theorem foundBody_twoTexts (outer inner : TypeExpr) (base : List Char) :
    foundBody (fun _ ↦ []) (twoTexts outer inner) base =
      (twoAliases outer inner base).map TypeExpr.text := by
  rw [foundBody_eq (fun _ _ h ↦ by cases h)]
  unfold twoAliases twoTexts
  by_cases hA : base = ['A']
  · subst hA
    rfl
  · by_cases hB : base = ['B']
    · subst hB
      rfl
    · simp [List.lookup_cons, beq_false_of_ne hA, beq_false_of_ne hB, hA, hB]

theorem length_chain_twoAliases {outer inner : TypeExpr} (houter : ['A'] ∉ outer.names)
    (hinner : ∀ n ∈ inner.names, n ≠ ['A'] ∧ n ≠ ['B']) (chain : List (List Char))
    (hchain : (twoAliases outer inner).IsChain chain) : chain.length ≤ 16 := by
  let rank : List Char → ℕ := fun n ↦ if n = ['A'] then 1 else 0
  have hrank (a : List Char) : rank a < 16 := by
    by_cases ha : a = ['A'] <;> simp [rank, ha]
  refine AliasTable.length_le_of_rank hrank (fun a b huses hsome ↦ ?_) hchain
  obtain ⟨body, ha, hb⟩ := huses
  unfold twoAliases at ha hsome
  split_ifs at ha with hA hB
  · cases ha
    have hne : b ≠ ['A'] := fun heq ↦ houter (heq ▸ hb)
    simp [rank, hA, hne]
  · cases ha
    obtain ⟨hbA, hbB⟩ := hinner b hb
    simp [hbA, hbB] at hsome

theorem fits_twoAliases {L : Limits} {outer inner : TypeExpr}
    (houter : outer.Fits L (twoAliases outer inner))
    (hinner : inner.Fits L (twoAliases outer inner)) : (twoAliases outer inner).Fits L := by
  intro a body ha
  unfold twoAliases at ha
  split_ifs at ha with hA hB
  · cases ha
    exact ⟨by simp [hA], by rw [hA]; decide, houter⟩
  · cases ha
    exact ⟨by simp [hB], by rw [hB]; decide, hinner⟩

theorem plainName_A : PlainName ['A'] := ⟨by simp, by simp [isSpaceOrTab]⟩

theorem plainName_B : PlainName ['B'] := ⟨by simp, by simp [isSpaceOrTab]⟩

/-- The answers differ where the expanded text is answered differently from the expanded type. -/
theorem not_answersAlike_twoAliases {outer inner : TypeExpr}
    (houter : ['A'] ∉ outer.names)
    (hinner : ∀ n ∈ inner.names, n ≠ ['A'] ∧ n ≠ ['B'])
    (houterFits : outer.Fits TypeExpr.buffers (twoAliases outer inner))
    (hinnerFits : inner.Fits TypeExpr.buffers (twoAliases outer inner))
    (h : ∀ T : TypeEnv, matchLevels T v 16 ((twoAliases outer inner).expand 16 (.name ['A'])).text ≠
      ((twoAliases outer inner).expand 16 (.name ['A'])).answer T v (matchBare (fun _ ↦ none) v)) :
    ¬ AnswersAlike (fun _ ↦ []) (twoTexts outer inner) regexec (twoAliases outer inner) v
      ['A'] := by
  have hfiles : OwnFiles fun _ ↦ [] := fun _ _ h ↦ by cases h
  rw [answersAlike_iff hfiles, matchLevels_alias (foundBody_twoTexts outer inner)
    (length_chain_twoAliases houter hinner) (fits_twoAliases houterFits hinnerFits)
    ⟨plainName_A, by decide⟩]
  exact fun halike ↦ h _ halike.symm

/-- With other lengths, more types are asked to be answered alike. -/
theorem not_transparent_twoAliases {L : Limits} (outer inner : TypeExpr) (v : Value)
    (hname : 1 ≤ L.name) (houter : ['A'] ∉ outer.names)
    (hinner : ∀ n ∈ inner.names, n ≠ ['A'] ∧ n ≠ ['B'])
    (houterFits : outer.Fits L (twoAliases outer inner))
    (hinnerFits : inner.Fits L (twoAliases outer inner))
    (hexpand : ((twoAliases outer inner).expand 16 (.name ['A'])).Fits L (twoAliases outer inner))
    (h : ∀ regexec, ¬ AnswersAlike (fun _ ↦ []) (twoTexts outer inner) regexec
      (twoAliases outer inner) v ['A']) : ¬ Transparent L :=
  fun htransparent ↦ h (fun _ _ ↦ false) (htransparent _ _ _ _ v ['A'] (fun _ _ h ↦ by cases h)
    (foundBody_twoTexts outer inner) (length_chain_twoAliases houter hinner)
    (fits_twoAliases houterFits hinnerFits) ⟨plainName_A, hname⟩ hexpand)

/-- A `Variant` of hashes with that many blanks in it. -/
def spacedType (k : ℕ) : TypeExpr :=
  .variant [([], .name "Hash".toList, List.replicate k ' ')]

theorem fits_spacedType {L : Limits} {table : AliasTable} (hname : 4 ≤ L.name)
    (hvariant : 4 ≤ L.variant) (hpart : ∀ n, PlainName n → L.part (.name n)) (k : ℕ) :
    (spacedType k).Fits L table := by
  have hplain : PlainName "Hash".toList := ⟨by simp, by simp [isSpaceOrTab]⟩
  refine (TypeExpr.fitsParts_iff _).2 fun p hp ↦ ?_
  rw [List.mem_singleton.1 hp]
  refine ⟨fun _ h ↦ (by cases h), fun c hc ↦ ?_, hvariant, hpart _ hplain, hplain, hname⟩
  rw [List.eq_of_mem_replicate hc]
  rfl

theorem level_plainName {n : List Char} (h : PlainName n) : Level 0 (TypeExpr.name n).text :=
  level_of_forall fun c hc ↦ ⟨(h.2 c hc).1, (h.2 c hc).2.1, Or.inl (h.2 c hc).2.2.1⟩

/-- An alias of the integers. -/
def integerAlias (a : List Char) : AliasTable := fun n ↦
  if n = a then some (.name "Integer".toList) else none

theorem foundBody_integerAlias (a base : List Char) :
    foundBody (fun _ ↦ []) [(a, "Integer".toList)] base =
      (integerAlias a base).map TypeExpr.text := by
  rw [foundBody_eq fun _ _ h ↦ by cases h]
  unfold integerAlias
  by_cases hbase : base = a
  · rw [hbase, List.lookup_cons_self, if_pos rfl]
    rfl
  · simp [List.lookup_cons, beq_false_of_ne hbase, hbase]

theorem eq_of_integerAlias {a n : List Char} {body : TypeExpr}
    (h : integerAlias a n = some body) : n = a ∧ body = .name "Integer".toList := by
  unfold integerAlias at h
  split_ifs at h with hn
  exact ⟨hn, (Option.some.inj h).symm⟩

theorem length_chain_integerAlias {a : List Char} (ha : a ≠ "Integer".toList)
    (chain : List (List Char)) (hchain : (integerAlias a).IsChain chain) : chain.length ≤ 16 := by
  let rank : List Char → ℕ := fun _ ↦ 0
  have hrank (n : List Char) : rank n < 16 := by decide
  refine AliasTable.length_le_of_rank hrank (fun b c huses hsome ↦ ?_) hchain
  obtain ⟨body, hbody, hc⟩ := huses
  rw [(eq_of_integerAlias hbody).2] at hc
  obtain ⟨body', hbody'⟩ := Option.isSome_iff_exists.1 hsome
  exact absurd ((eq_of_integerAlias hbody').1.symm.trans (List.mem_singleton.1 hc)) ha

/-- A name that is cut. -/
theorem not_transparent_name {k : ℕ} (hk : 64 ≤ k) :
    ¬ Transparent ⟨k, 127, 255, fun e ↦ Level 0 e.text⟩ := by
  obtain ⟨a, ha⟩ : ∃ a, a = List.replicate 64 'A' := ⟨_, rfl⟩
  have hlen : a.length = 64 := by rw [ha, List.length_replicate]
  have hne : a ≠ "Integer".toList := by
    rintro heq
    rw [heq] at hlen
    exact absurd hlen (by decide)
  have hbare : a ∉ bareNames := by
    rw [ha]
    decide
  have hplain : PlainName a := by
    refine ⟨List.ne_nil_of_length_pos (hlen ▸ by decide), fun c hc ↦ ?_⟩
    rw [ha] at hc
    rw [List.eq_of_mem_replicate hc]
    decide
  have hfiles : OwnFiles fun _ ↦ [] := fun _ _ h ↦ by cases h
  have hInteger : (TypeExpr.name "Integer".toList).Fits
      ⟨k, 127, 255, fun e ↦ Level 0 e.text⟩ (integerAlias a) :=
    ⟨⟨by simp, by simp [isSpaceOrTab]⟩, le_trans (by decide) hk⟩
  have hexpand : (integerAlias a).expand 16 (.name a) = .name "Integer".toList := by
    have hsome : integerAlias a a = some (.name "Integer".toList) := if_pos rfl
    have hnone : integerAlias a "Integer".toList = none := if_neg hne.symm
    rw [AliasTable.expand, TypeExpr.subst, hsome]
    dsimp only
    rw [AliasTable.expand, TypeExpr.subst, hnone]
  intro htransparent
  have halike := htransparent (fun _ ↦ []) [(a, "Integer".toList)] (fun _ _ ↦ false)
    (integerAlias a) (.bool true) a hfiles (foundBody_integerAlias a)
    (length_chain_integerAlias hne) (fun b body hbody ↦ ?_) ⟨hplain, hlen.trans_le hk⟩
    (hexpand ▸ hInteger)
  · rw [answersAlike_iff hfiles, hexpand, ha] at halike
    exact absurd halike (by decide +kernel)
  · obtain ⟨rfl, rfl⟩ := eq_of_integerAlias hbody
    exact ⟨hplain.1, hbare, hInteger⟩

section Longer

variable {L : Limits} {table : AliasTable}

theorem blankText_nil : BlankText [] := fun _ h ↦ by cases h

theorem fits_optionalAlias (hname : 1 ≤ L.name) (hoptional : 1 ≤ L.optional) :
    (TypeExpr.optional [] (.name ['B']) []).Fits L table :=
  ⟨blankText_nil, blankText_nil, hoptional, plainName_B, hname⟩

theorem fits_variantAlias (hname : 1 ≤ L.name) (hvariant : 1 ≤ L.variant)
    (hpart : ∀ n, PlainName n → L.part (.name n)) :
    (TypeExpr.variant [([], .name ['B'], [])]).Fits L table :=
  ⟨⟨blankText_nil, blankText_nil, hvariant, hpart _ plainName_B, plainName_B, hname⟩, trivial⟩

/-- An alias of a type that is short enough for an `Optional`, though its type is not. -/
theorem not_answersAlike_optional :
    ¬ AnswersAlike (fun _ ↦ []) (twoTexts (.optional [] (.name ['B']) []) (spacedType 115)) regexec
      (twoAliases (.optional [] (.name ['B']) []) (spacedType 115)) (.bool true) ['A'] := by
  refine not_answersAlike_twoAliases (by decide) (by decide)
    (fits_optionalAlias (by decide) (by decide))
    (fits_spacedType (by decide) (by decide) (fun n hn ↦ level_plainName hn) 115) fun T ↦ ?_
  have hcut : matchLevels T (.bool true) 16 (bracketed "Optional" (spacedVariant 115)) = true := by
    refine (valueMatchesTypeStr_optional _).2 (Or.inr ?_)
    rw [cut_spacedVariant le_rfl]
    exact valueMatchesTypeStr_unclosed (by simp)
  have htext : ((twoAliases (.optional [] (.name ['B']) []) (spacedType 115)).expand 16
      (.name ['A'])).text = bracketed "Optional" (spacedVariant 115) := rfl
  rw [htext, hcut]
  exact Bool.noConfusion

/-- A type in an `Optional` that is cut. -/
theorem not_transparent_optional {m : ℕ} (hm : 128 ≤ m) :
    ¬ Transparent ⟨63, m, 255, fun e ↦ Level 0 e.text⟩ := by
  have hspaced (table : AliasTable) :
      (spacedType 115).Fits ⟨63, m, 255, fun e ↦ Level 0 e.text⟩ table :=
    fits_spacedType (by simp) (by simp) (fun n hn ↦ level_plainName hn) 115
  refine not_transparent_twoAliases (.optional [] (.name ['B']) []) (spacedType 115) (.bool true)
    (by simp) (by decide) (by decide) (fits_optionalAlias (by simp) (le_trans (by decide) hm))
    (hspaced _) ?_ fun _ ↦ not_answersAlike_optional
  exact ⟨blankText_nil, blankText_nil, (length_spacedVariant 115).trans_le hm, hspaced _⟩

/-- A type of a `Variant` that is accepted because of its length. -/
theorem not_transparent_variant {n : ℕ} (hn : 256 ≤ n) :
    ¬ Transparent ⟨63, 127, n, fun e ↦ Level 0 e.text⟩ := by
  have hspaced (table : AliasTable) :
      (spacedType 243).Fits ⟨63, 127, n, fun e ↦ Level 0 e.text⟩ table :=
    fits_spacedType (by simp) (le_trans (by decide) hn) (fun n hn ↦ level_plainName hn) 243
  refine not_transparent_twoAliases (.variant [([], .name ['B'], [])]) (spacedType 243)
    (.bool true) (by simp) (by decide) (by decide)
    (fits_variantAlias (by simp) (le_trans (by decide) hn) fun n hn ↦ level_plainName hn)
    (hspaced _) ?_ fun _ ↦ ?_
  · exact ⟨⟨blankText_nil, blankText_nil, (length_spacedVariant 243).trans_le hn,
      (typeText_spacedVariant 243).level, hspaced _⟩, trivial⟩
  · refine not_answersAlike_twoAliases (by decide) (by decide)
      (fits_variantAlias (by decide) (by decide) fun n hn ↦ level_plainName hn)
      (fits_spacedType (by decide) (by decide) (fun n hn ↦ level_plainName hn) 243) fun T ↦ ?_
    have haccepted : matchLevels T (.bool true) 16
        (bracketed "Variant" (TypePart.join [⟨[], spacedVariant 243, []⟩])) = true :=
      valueMatchesTypeStr_of_length_ge (typeText_spacedVariant 243) (length_spacedVariant 243).ge
    have htext : ((twoAliases (.variant [([], .name ['B'], [])]) (spacedType 243)).expand 16
        (.name ['A'])).text = bracketed "Variant" (TypePart.join [⟨[], spacedVariant 243, []⟩]) :=
      rfl
    rw [htext, haccepted]
    exact Bool.noConfusion

/-- A literal that is a bracket. -/
theorem not_transparent_brackets : ¬ Transparent ⟨63, 127, 255, fun _ ↦ True⟩ := by
  have hplain : PlainName "Integer".toList := ⟨by simp, by simp [isSpaceOrTab]⟩
  have hliteral (L : Limits) (table : AliasTable) :
      (TypeExpr.literal "Enum" (quote '\'' ['['])).Fits L table :=
    Or.inr (Or.inr (Or.inl ⟨rfl, fun t ↦ by simp [quote, literals]⟩))
  have hfits (L : Limits) (hname : 7 ≤ L.name) (hvariant : 7 ≤ L.variant)
      (hpart : ∀ n, PlainName n → L.part (.name n)) (table : AliasTable) :
      (TypeExpr.variant [([], .name ['B'], []), ([], .name "Integer".toList, [])]).Fits L table :=
    ⟨⟨blankText_nil, blankText_nil, le_trans (by decide) hvariant, hpart _ plainName_B, plainName_B,
      le_trans (by decide) hname⟩,
      ⟨blankText_nil, blankText_nil, hvariant, hpart _ hplain, hplain, hname⟩, trivial⟩
  refine not_transparent_twoAliases
    (.variant [([], .name ['B'], []), ([], .name "Integer".toList, [])])
    (.literal "Enum" (quote '\'' ['['])) (.number 5) (by simp) (by decide) (by decide)
    (hfits _ (by simp) (by simp) (fun _ _ ↦ trivial) _) (hliteral _ _) ?_ fun _ ↦ ?_
  · exact ⟨⟨blankText_nil, blankText_nil, (by decide : 9 ≤ 255), trivial, hliteral _ _⟩,
      ⟨blankText_nil, blankText_nil, (by decide : 7 ≤ 255), trivial, hplain, (by decide : 7 ≤ 63)⟩,
      trivial⟩
  · refine not_answersAlike_twoAliases (by decide) (by decide)
      (hfits _ (by decide) (by decide) (fun n hn ↦ level_plainName hn) _) (hliteral _ _) fun T ↦ ?_
    have hrejected : matchLevels T (.number 5) 16
        (bracketed "Variant" (TypePart.join bracketParts)) = false := by
      refine Bool.eq_false_iff.2 fun htrue ↦ not_variantLaw_bracketParts (T := T) ?_
      exact iff_of_true htrue ⟨⟨[], "Integer".toList, []⟩, by simp [bracketParts], rfl⟩
    have htext : ((twoAliases (.variant [([], .name ['B'], []), ([], .name "Integer".toList, [])])
        (.literal "Enum" (quote '\'' ['[']))).expand 16 (.name ['A'])).text =
          bracketed "Variant" (TypePart.join bracketParts) := rfl
    rw [htext, hrejected]
    exact Bool.noConfusion

end Longer

end Transparency

end PuppetC
