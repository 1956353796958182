import Mathlib.Data.List.Basic
import Mathlib.Tactic.Common

/-!
# The lines of a text

A text is made of lines that end with a newline; the newline of the last one may be missing. Text
files that are edited line by line are compared by their lines.

## Main definitions

* `textLines`, `linePieces`: the lines of a text, without and with their newlines.
* `unlines`: the text with given lines, each ended by a newline.
* `withNewline`: a text that ends with a newline, unless it is empty.
* `fgetsLines`: the pieces of lines that fit a buffer.

## Main results

* `textLines_unlines_append`: lines in front of a text.
* `exists_of_textLines_append`: a text can be cut where its lines are.
* `textLines_withNewline_append`: what is written after the last line of a text.
-/

namespace PuppetC

/-- The lines of a text. -/
def textLines : List Char → List (List Char)
  | [] => []
  | c :: t =>
    if c = '\n' then [] :: textLines t
    else
      match textLines t with
      | [] => [[c]]
      | l :: ls => (c :: l) :: ls

/-- The lines of a text with their newlines. -/
def linePieces : List Char → List (List Char)
  | [] => []
  | c :: t =>
    if c = '\n' then ['\n'] :: linePieces t
    else
      match linePieces t with
      | [] => [[c]]
      | l :: ls => (c :: l) :: ls

/-- The text with given lines. -/
def unlines (ls : List (List Char)) : List Char := ls.flatMap (· ++ ['\n'])

/-- A text with a newline at its end, if it is not empty. -/
def withNewline (t : List Char) : List Char :=
  if t = [] ∨ t.getLast? = some '\n' then t else t ++ ['\n']

/-- The pieces that `fgets` reads, with `room` for the rest of the piece that has begun. -/
def fgetsFrom (size : ℕ) : (room : ℕ) → (piece : List Char) → List Char → List (List Char)
  | _, piece, [] => if piece = [] then [] else [piece]
  | room, piece, c :: t =>
    if c = '\n' ∨ room ≤ 1 then (piece ++ [c]) :: fgetsFrom size size [] t
    else fgetsFrom size (room - 1) (piece ++ [c]) t

/-- The pieces that `fgets` reads into a buffer that has room for `size` characters and a NUL: up
to a newline, and no more than fit. -/
def fgetsLines (size : ℕ) (t : List Char) : List (List Char) := fgetsFrom size size [] t

/-! ### Lines and texts -/

variable {l t u : List Char} {ls ls' : List (List Char)}

theorem textLines_line (hl : '\n' ∉ l) (t : List Char) :
    textLines (l ++ '\n' :: t) = l :: textLines t := by
  induction l with
  | nil => simp [textLines]
  | cons c l ih =>
    rw [List.mem_cons, not_or] at hl
    rw [List.cons_append, textLines, if_neg (Ne.symm hl.1), ih hl.2]

theorem textLines_last (hl : '\n' ∉ l) (hne : l ≠ []) : textLines l = [l] := by
  induction l with
  | nil => exact absurd rfl hne
  | cons c l ih =>
    rw [List.mem_cons, not_or] at hl
    rw [textLines, if_neg (Ne.symm hl.1)]
    cases l with
    | nil => rfl
    | cons d l => rw [ih hl.2 (List.cons_ne_nil d l)]

theorem linePieces_line (hl : '\n' ∉ l) (t : List Char) :
    linePieces (l ++ '\n' :: t) = (l ++ ['\n']) :: linePieces t := by
  induction l with
  | nil => simp [linePieces]
  | cons c l ih =>
    rw [List.mem_cons, not_or] at hl
    rw [List.cons_append, linePieces, if_neg (Ne.symm hl.1), ih hl.2, List.cons_append]

theorem linePieces_last (hl : '\n' ∉ l) (hne : l ≠ []) : linePieces l = [l] := by
  induction l with
  | nil => exact absurd rfl hne
  | cons c l ih =>
    rw [List.mem_cons, not_or] at hl
    rw [linePieces, if_neg (Ne.symm hl.1)]
    cases l with
    | nil => rfl
    | cons d l => rw [ih hl.2 (List.cons_ne_nil d l)]

/-- A text starts with a line, which ends with a newline or with the text. -/
theorem exists_line (t : List Char) :
    ∃ l rest, '\n' ∉ l ∧ t = l ++ rest ∧ (rest = [] ∨ ∃ u, rest = '\n' :: u) := by
  induction t with
  | nil => exact ⟨[], [], List.not_mem_nil, rfl, Or.inl rfl⟩
  | cons c t ih =>
    by_cases hc : c = '\n'
    · exact ⟨[], c :: t, List.not_mem_nil, rfl, Or.inr ⟨t, by rw [hc]⟩⟩
    · obtain ⟨l, rest, hl, rfl, hrest⟩ := ih
      refine ⟨c :: l, rest, ?_, rfl, hrest⟩
      rw [List.mem_cons, not_or]
      exact ⟨Ne.symm hc, hl⟩

/-- The cases of `textLines`. -/
theorem textLines_induct {P : List Char → Prop} (nil : P [])
    (last : ∀ l, '\n' ∉ l → l ≠ [] → P l)
    (line : ∀ l t, '\n' ∉ l → P t → P (l ++ '\n' :: t)) (t : List Char) : P t := by
  induction hn : t.length using Nat.strongRecOn generalizing t with
  | _ n ih =>
    obtain ⟨l, rest, hl, rfl, rfl | ⟨u, rfl⟩⟩ := exists_line t
    · rw [List.append_nil] at hn ⊢
      by_cases hne : l = []
      · exact hne ▸ nil
      · exact last l hl hne
    · refine line l u hl (ih u.length ?_ u rfl)
      rw [← hn, List.length_append, List.length_cons]
      omega

theorem flatten_linePieces (t : List Char) : (linePieces t).flatten = t := by
  induction t using textLines_induct with
  | nil => rfl
  | last l hl hne =>
    rw [linePieces_last hl hne, List.flatten_cons, List.flatten_nil, List.append_nil]
  | line l t hl ih => rw [linePieces_line hl, List.flatten_cons, ih]; simp

theorem newline_notMem_of_mem_textLines (h : l ∈ textLines t) : '\n' ∉ l := by
  induction t using textLines_induct with
  | nil => cases h
  | last l' hl' hne =>
    rw [textLines_last hl' hne] at h
    exact List.mem_singleton.1 h ▸ hl'
  | line l' t hl' ih =>
    rw [textLines_line hl'] at h
    rcases List.mem_cons.1 h with rfl | h
    exacts [hl', ih h]

theorem textLines_eq_nil_iff : textLines t = [] ↔ t = [] := by
  induction t using textLines_induct with
  | nil => simp [textLines]
  | last l hl hne => simp [textLines_last hl hne, hne]
  | line l t hl _ => simp [textLines_line hl]

/-- The first line of a text that has lines. -/
theorem textLines_eq_cons (h : textLines t = l :: ls) :
    (t = l ∧ ls = []) ∨ ∃ u, t = l ++ '\n' :: u ∧ textLines u = ls := by
  induction t using textLines_induct with
  | nil => cases h
  | last l' hl' hne =>
    rw [textLines_last hl' hne] at h
    cases h
    exact Or.inl ⟨rfl, rfl⟩
  | line l' u hl' _ =>
    rw [textLines_line hl'] at h
    cases h
    exact Or.inr ⟨u, rfl, rfl⟩

@[simp] theorem unlines_nil : unlines [] = [] := rfl

@[simp] theorem unlines_cons (l : List Char) (ls : List (List Char)) :
    unlines (l :: ls) = l ++ '\n' :: unlines ls := by
  simp [unlines]

@[simp] theorem unlines_append (ls ls' : List (List Char)) :
    unlines (ls ++ ls') = unlines ls ++ unlines ls' := List.flatMap_append

/-- Lines in front of a text are its first lines. -/
theorem textLines_unlines_append (hls : ∀ l ∈ ls, '\n' ∉ l) (t : List Char) :
    textLines (unlines ls ++ t) = ls ++ textLines t := by
  induction ls with
  | nil => rfl
  | cons l ls ih =>
    rw [List.forall_mem_cons] at hls
    rw [unlines_cons, List.append_assoc, List.cons_append, textLines_line hls.1, ih hls.2,
      List.cons_append]

theorem textLines_unlines (hls : ∀ l ∈ ls, '\n' ∉ l) : textLines (unlines ls) = ls := by
  simpa [textLines] using textLines_unlines_append hls []

theorem getLast?_unlines (ls : List (List Char)) (hne : ls ≠ []) :
    (unlines ls).getLast? = some '\n' := by
  obtain ⟨ls, l, rfl⟩ := (List.eq_nil_or_concat ls).resolve_left hne
  rw [List.concat_eq_append, unlines_append, unlines_cons, unlines_nil,
    List.getLast?_append]
  simp

/-- A text can be cut where its lines are. -/
theorem exists_of_textLines_append (h : textLines t = ls ++ ls') (hne : ls' ≠ []) :
    ∃ u, t = unlines ls ++ u ∧ textLines u = ls' := by
  induction ls generalizing t with
  | nil => exact ⟨t, rfl, h⟩
  | cons l ls ih =>
    rcases textLines_eq_cons h with ⟨-, hnil⟩ | ⟨u, rfl, hu⟩
    · exact absurd (List.append_eq_nil_iff.1 hnil).2 hne
    · obtain ⟨u', rfl, hu'⟩ := ih hu
      exact ⟨u', by simp, hu'⟩

/-- A newline ends a line. -/
theorem textLines_append_newline (t u : List Char) :
    textLines (t ++ '\n' :: u) = textLines (t ++ ['\n']) ++ textLines u := by
  induction t using textLines_induct with
  | nil => simp [textLines]
  | last l hl hne => rw [textLines_line hl, textLines_line hl, textLines, List.singleton_append]
  | line l t hl ih =>
    rw [List.append_assoc, List.append_assoc, List.cons_append, List.cons_append,
      textLines_line hl, textLines_line hl, ih, List.cons_append]

/-- What is written after the last line of a text adds its lines. -/
theorem textLines_withNewline_append (t u : List Char) :
    textLines (withNewline t ++ u) = textLines t ++ textLines u := by
  induction t using textLines_induct with
  | nil => simp [withNewline, textLines]
  | last l hl hne =>
    have hnewline : ¬ (l = [] ∨ l.getLast? = some '\n') := by
      rintro (hnil | hlast)
      · exact hne hnil
      · exact hl (List.mem_of_getLast? hlast)
    rw [withNewline, if_neg hnewline, List.append_assoc, textLines_last hl hne]
    exact textLines_line hl u
  | line l t hl ih =>
    have hwith : withNewline (l ++ '\n' :: t) = l ++ '\n' :: withNewline t := by
      unfold withNewline
      cases t with
      | nil => simp
      | cons c t =>
        have hlast : (l ++ '\n' :: c :: t).getLast? = (c :: t).getLast? := by
          rw [List.getLast?_append_of_ne_nil _ (by simp), List.getLast?_cons_cons]
        rw [hlast]
        split_ifs <;> simp_all
    rw [hwith, List.append_assoc, List.cons_append, textLines_line hl, textLines_line hl, ih,
      List.cons_append]

/-- What stands in front of a text belongs to its first line. -/
theorem textLines_append_of_notMem (hl : '\n' ∉ l) (t : List Char) :
    textLines (l ++ t) = match textLines t with
      | [] => if l = [] then [] else [l]
      | m :: ms => (l ++ m) :: ms := by
  cases h : textLines t with
  | nil =>
    rw [textLines_eq_nil_iff.1 h, List.append_nil]
    dsimp only
    split_ifs with hnil
    · rw [hnil]
      rfl
    · exact textLines_last hl hnil
  | cons m ms =>
    have hm : '\n' ∉ l ++ m := by
      rw [List.mem_append, not_or]
      exact ⟨hl, newline_notMem_of_mem_textLines (h ▸ List.mem_cons_self)⟩
    rcases textLines_eq_cons h with ⟨rfl, rfl⟩ | ⟨u, rfl, rfl⟩
    · have hne : t ≠ [] := fun hnil ↦ by
        rw [hnil] at h
        cases h
      exact textLines_last hm (by simp [hne])
    · rw [← List.append_assoc]
      exact textLines_line hm u

/-- After a newline a new line begins. -/
theorem textLines_append_of_getLast? (h : t.getLast? = some '\n') (u : List Char) :
    textLines (t ++ u) = textLines t ++ textLines u := by
  simpa [withNewline, h] using textLines_withNewline_append t u

/-! ### Pieces that fit a buffer -/

section Fgets

variable {size room : ℕ} {piece : List Char}

theorem fgetsFrom_line (hl : '\n' ∉ l) (hroom : l.length < room) (t : List Char) :
    fgetsFrom size room piece (l ++ '\n' :: t) = (piece ++ l ++ ['\n']) :: fgetsLines size t := by
  induction l generalizing room piece with
  | nil => rw [List.nil_append, fgetsFrom, if_pos (Or.inl rfl), List.append_nil, fgetsLines]
  | cons c l ih =>
    rw [List.mem_cons, not_or] at hl
    rw [List.length_cons] at hroom
    rw [List.cons_append, fgetsFrom, if_neg (not_or.2 ⟨Ne.symm hl.1, by omega⟩),
      ih hl.2 (by omega)]
    simp

theorem fgetsFrom_last (hl : '\n' ∉ l) (hroom : l.length < room) :
    fgetsFrom size room piece l = if piece ++ l = [] then [] else [piece ++ l] := by
  induction l generalizing room piece with
  | nil => rw [fgetsFrom, List.append_nil]
  | cons c l ih =>
    rw [List.mem_cons, not_or] at hl
    rw [List.length_cons] at hroom
    rw [fgetsFrom, if_neg (not_or.2 ⟨Ne.symm hl.1, by omega⟩), ih hl.2 (by omega)]
    simp

theorem fgetsFrom_full (hl : '\n' ∉ l) (hroom : l.length = room) (hpos : 0 < room)
    (t : List Char) : fgetsFrom size room piece (l ++ t) = (piece ++ l) :: fgetsLines size t := by
  induction l generalizing room piece with
  | nil =>
    rw [List.length_nil] at hroom
    omega
  | cons c l ih =>
    rw [List.mem_cons, not_or] at hl
    rw [List.length_cons] at hroom
    by_cases hnil : l = []
    · subst hnil
      rw [List.length_nil] at hroom
      rw [List.singleton_append, fgetsFrom, if_pos (Or.inr (by omega)), fgetsLines]
    · have hlength := List.length_pos_iff.2 hnil
      rw [List.cons_append, fgetsFrom, if_neg (not_or.2 ⟨Ne.symm hl.1, by omega⟩),
        ih hl.2 (by omega) (by omega)]
      simp

/-- A line that fits is read whole. -/
theorem fgetsLines_line (hl : '\n' ∉ l) (hsize : l.length < size) (t : List Char) :
    fgetsLines size (l ++ '\n' :: t) = (l ++ ['\n']) :: fgetsLines size t :=
  fgetsFrom_line hl hsize t

/-- A last line without a newline. -/
theorem fgetsLines_last (hl : '\n' ∉ l) (hsize : l.length < size) (hne : l ≠ []) :
    fgetsLines size l = [l] := by
  rw [fgetsLines, fgetsFrom_last hl hsize, List.nil_append, if_neg hne]

/-- A line that fills the buffer is read up to there. -/
theorem fgetsLines_full (hl : '\n' ∉ l) (hsize : l.length = size) (hpos : 0 < size)
    (t : List Char) : fgetsLines size (l ++ t) = l :: fgetsLines size t :=
  fgetsFrom_full hl hsize hpos t

end Fgets

end PuppetC
