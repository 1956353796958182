import Mathlib.Data.List.Basic
import Mathlib.Tactic.Common

/-!
# Texts cut into pieces

A text with backslash escapes is a sequence of pieces: characters that stand for themselves, and
escapes. What a language reads after a backslash is a parameter; a backslash that starts no escape
stands for itself.

## Main definitions

* `EscapeReader`: the escapes of a language.
* `TextPiece`, `textPieces`: the pieces of a text.
* `decodeText`: the text that the pieces stand for.
* `escapeText`: a text with a backslash before special characters.

## Main results

* `flatMap_eq_iff`: texts made of pieces that are never longer than their counterparts are equal
  exactly if the pieces are.
* `textPieces_source`: the pieces of a text are all of it.
* `decodeText_escapeText`: decoding what was escaped.
-/

namespace PuppetC

/-! ### Comparing texts piece by piece -/

theorem length_flatMap_le {α β : Type} {f g : α → List β} {xs : List α}
    (h : ∀ x ∈ xs, (f x).length ≤ (g x).length) :
    (xs.flatMap f).length ≤ (xs.flatMap g).length := by
  induction xs with
  | nil => exact Nat.le_refl _
  | cons x xs ih =>
    rw [List.forall_mem_cons] at h
    simp only [List.flatMap_cons, List.length_append]
    exact Nat.add_le_add h.1 (ih h.2)

/-- Pieces of which none is longer than its counterpart are equal together exactly if each one
is. -/
theorem flatMap_eq_iff {α β : Type} {f g : α → List β} {xs : List α}
    (h : ∀ x ∈ xs, (f x).length ≤ (g x).length) :
    xs.flatMap f = xs.flatMap g ↔ ∀ x ∈ xs, f x = g x := by
  induction xs with
  | nil => simp
  | cons x xs ih =>
    rw [List.forall_mem_cons] at h
    rw [List.forall_mem_cons, ← ih h.2, List.flatMap_cons, List.flatMap_cons]
    constructor
    · intro heq
      have hlength := congrArg List.length heq
      have hrest := length_flatMap_le h.2
      have hhead := h.1
      rw [List.length_append, List.length_append] at hlength
      exact List.append_inj heq (by omega)
    · rintro ⟨hx, hxs⟩
      rw [hx, hxs]

/-! ### Escapes -/

/-- What a language reads after a backslash: the text that the escape stands for, and the number of
characters that belong to it. -/
abbrev EscapeReader : Type := List Char → Option (List Char × ℕ)

/-- A character that stands for itself, or an escape: what follows the backslash, and the text it
stands for. -/
inductive TextPiece where
  | plain (c : Char)
  | escape (text value : List Char)
  deriving DecidableEq

namespace TextPiece

/-- The characters of a piece. -/
def source : TextPiece → List Char
  | plain c => [c]
  | escape text _ => '\\' :: text

/-- The text that a piece stands for. -/
def value : TextPiece → List Char
  | plain c => [c]
  | escape _ value => value

end TextPiece

variable (read : EscapeReader)

/-- The pieces of a text, after `skip` more characters. -/
def piecesAfter : List Char → ℕ → List TextPiece
  | [], _ => []
  | _ :: cs, skip + 1 => piecesAfter cs skip
  | c :: cs, 0 =>
    if c = '\\' then
      match read cs with
      | some (value, n) => .escape (cs.take n) value :: piecesAfter cs n
      | none => .plain c :: piecesAfter cs 0
    else .plain c :: piecesAfter cs 0

/-- The pieces of a text. -/
def textPieces (text : List Char) : List TextPiece := piecesAfter read text 0

/-- The text that a text with escapes stands for. -/
def decodeText (text : List Char) : List Char := (textPieces read text).flatMap TextPiece.value

theorem piecesAfter_source (cs : List Char) (skip : ℕ) :
    (piecesAfter read cs skip).flatMap TextPiece.source = cs.drop skip := by
  induction cs generalizing skip with
  | nil => simp [piecesAfter]
  | cons c cs ih =>
    cases skip with
    | succ skip => rw [piecesAfter, ih, List.drop_succ_cons]
    | zero =>
      rw [piecesAfter]
      split_ifs with hc
      · subst hc
        cases read cs with
        | none => simp [TextPiece.source, ih]
        | some p => simp [TextPiece.source, ih]
      · simp [TextPiece.source, ih]

/-- The pieces of a text are all of it. -/
theorem textPieces_source (text : List Char) :
    (textPieces read text).flatMap TextPiece.source = text :=
  piecesAfter_source read text 0

/-- An escape was read after a backslash. -/
theorem exists_read_of_mem_piecesAfter {cs : List Char} {skip : ℕ} {text value : List Char}
    (h : .escape text value ∈ piecesAfter read cs skip) :
    ∃ rest n, read rest = some (value, n) ∧ text = rest.take n := by
  induction cs generalizing skip with
  | nil => simp [piecesAfter] at h
  | cons c cs ih =>
    cases skip with
    | succ skip => exact ih h
    | zero =>
      rw [piecesAfter] at h
      split_ifs at h
      · cases hread : read cs with
        | none =>
          rw [hread] at h
          exact ih ((List.mem_cons.1 h).resolve_left nofun)
        | some p =>
          rw [hread] at h
          rcases List.mem_cons.1 h with heq | h
          · cases heq
            exact ⟨cs, p.2, hread, rfl⟩
          · exact ih h
      · exact ih ((List.mem_cons.1 h).resolve_left nofun)

/-! ### Escaping -/

/-- A text with a backslash before the characters that are special. -/
def escapeText (special : Char → Bool) (text : List Char) : List Char :=
  text.flatMap fun c ↦ if special c then ['\\', c] else [c]

/-- A text whose backslashes and special characters are escaped is decoded to itself. -/
theorem decodeText_escapeText {special : Char → Bool} (hbackslash : special '\\' = true)
    (hread : ∀ c rest, special c = true → read (c :: rest) = some ([c], 1)) (text : List Char) :
    decodeText read (escapeText special text) = text := by
  induction text with
  | nil => rfl
  | cons c cs ih =>
    rw [decodeText, textPieces] at ih ⊢
    rw [escapeText, List.flatMap_cons] at ⊢
    split_ifs with hc
    · have hstep := hread c (escapeText special cs) hc
      simp only [List.cons_append, List.nil_append, piecesAfter, if_true]
      rw [escapeText] at hstep ih
      rw [hstep]
      simp [piecesAfter, TextPiece.value, ih]
    · have hne : c ≠ '\\' := fun h ↦ hc (h ▸ hbackslash)
      rw [escapeText] at ih
      simp [piecesAfter, hne, TextPiece.value, ih]

end PuppetC
