import Mathlib.Data.List.Basic
import Mathlib.Data.List.Infix
import Mathlib.Data.List.TakeWhile
import Mathlib.Order.Basic

/-!
# Writing parts to a buffer of limited size

A text is written part by part to a buffer, at a cursor that starts at 0. A part that does not fit
the room between the cursor and the size is written in one of three ways: it is cut to the room
(`Portion.cut`), left out (`Portion.whole`), or cut to the room with a terminator in last place,
while the cursor advances by its full length (`Portion.counted`). Once there is no room nothing more
is written. The result is read up to the first terminator.

So the cursor stays within the size, and the result is the beginning of the whole text, exactly if
of the parts the first that does not fit is cut, or is left out with nothing in its place that
differs from it; a part that is counted must not be the first, nor any later one (`Fits`).

## Main definitions

* `Portion`: a part and the way it is written.
* `Writer`, `Writer.put`: what has been written, the cursor, and one more part.
* `emit`, `Within`: what parts write to a room, and whether they stay within it.
* `Fits`: the condition on the parts.

## Main results

* `pos_foldl_put_le_iff`, `text_foldl_put`: the cursor and the text after some parts.
* `within_and_prefix_iff`: when the cursor stays within the size and the result is a beginning.
-/

namespace PuppetC

namespace BoundedWriter

variable {α : Type}

/-- A part of a text, and the way it is written. -/
inductive Portion (α : Type) where
  | cut (s : List α)
  | whole (s : List α)
  | counted (s : List α)

/-- The text of a part. -/
def Portion.text : Portion α → List α
  | .cut s | .whole s | .counted s => s

/-- The text of some parts. -/
def fullText (ps : List (Portion α)) : List α := ps.flatMap Portion.text

@[simp] theorem fullText_nil : fullText ([] : List (Portion α)) = [] := rfl

@[simp] theorem fullText_cons (p : Portion α) (ps : List (Portion α)) :
    fullText (p :: ps) = p.text ++ fullText ps := List.flatMap_cons

@[simp] theorem fullText_append (ps qs : List (Portion α)) :
    fullText (ps ++ qs) = fullText ps ++ fullText qs := List.flatMap_append

section Terminator

variable (nul : α)

/-- What a part writes to some room. -/
def Portion.written (r : ℕ) : Portion α → List α
  | .cut s => s.take r
  | .whole s => if s.length ≤ r then s else []
  | .counted s => if s.length < r then s else if r = 0 then [] else s.take (r - 1) ++ [nul]

/-- By how much a part advances the cursor. -/
def Portion.advance (r : ℕ) : Portion α → ℕ
  | .cut s => min s.length r
  | .whole s => if s.length ≤ r then s.length else 0
  | .counted s => if r = 0 then 0 else s.length

/-- What has been written, and the cursor. -/
structure Writer (α : Type) where
  text : List α
  pos : ℕ

/-- Write one more part to a buffer of a size. -/
def Writer.put (size : ℕ) (w : Writer α) (p : Portion α) : Writer α where
  text := w.text ++ p.written nul (size - w.pos)
  pos := w.pos + p.advance (size - w.pos)

/-- What some parts write to some room. -/
def emit : ℕ → List (Portion α) → List α
  | _, [] => []
  | r, p :: ps => p.written nul r ++ emit (r - p.advance r) ps

/-- Do some parts stay within some room? -/
def Within : ℕ → List (Portion α) → Prop
  | _, [] => True
  | r, p :: ps => p.advance r ≤ r ∧ Within (r - p.advance r) ps

variable [DecidableEq α]

/-- A text up to its first terminator. -/
def upTo (s : List α) : List α := s.takeWhile (· ≠ nul)

/-- Some parts, written to some room, stay within it, and up to a terminator they spell the
beginning of a text. -/
def Continues : ℕ → List α → List (Portion α) → Prop
  | _, _, [] => True
  | r, s, p :: ps =>
    p.advance r ≤ r ∧ upTo nul (p.written nul r) <+: s ∧
      if nul ∈ p.written nul r then Within (r - p.advance r) ps
      else Continues (r - p.advance r) (s.drop (p.written nul r).length) ps

/-- A part that does not fit the room is cut, or it is left out and what the later parts write
spells its beginning; a counted one needs that there is no room at all. -/
def Portion.BreaksOff (r : ℕ) (ps : List (Portion α)) : Portion α → Prop
  | .cut _ => True
  | .whole s => Continues nul r s ps
  | .counted _ => r = 0

/-- Of the parts before a terminator, the first that does not fit the room that is left breaks off;
and the parts after a terminator stay within the room. -/
def Fits : ℕ → List (Portion α) → Prop
  | _, [] => True
  | r, p :: ps =>
    if p.text.length ≤ r then
      if nul ∈ p.text then Within (r - p.text.length) ps else Fits (r - p.text.length) ps
    else p.BreaksOff nul r ps

end Terminator

variable {nul : α} {size : ℕ} {w : Writer α}

/-! ### The cursor and the text -/

theorem put_of_le (h : size ≤ w.pos) (p : Portion α) : w.put nul size p = w := by
  have hroom : size - w.pos = 0 := Nat.sub_eq_zero_of_le h
  rw [Writer.put, hroom]
  cases p with
  | cut s => simp [Portion.written, Portion.advance]
  | whole s => cases s <;> simp [Portion.written, Portion.advance]
  | counted s => simp [Portion.written, Portion.advance]

/-- Where there is no room, nothing is written. -/
theorem foldl_put_of_le (h : size ≤ w.pos) (ps : List (Portion α)) :
    ps.foldl (Writer.put nul size) w = w := by
  induction ps with
  | nil => rfl
  | cons p ps ih => rw [List.foldl_cons, put_of_le h, ih]

theorem text_foldl_put (ps : List (Portion α)) :
    (ps.foldl (Writer.put nul size) w).text = w.text ++ emit nul (size - w.pos) ps := by
  induction ps generalizing w with
  | nil => rw [List.foldl_nil, emit, List.append_nil]
  | cons p ps ih =>
    rw [List.foldl_cons, ih, emit, Writer.put, List.append_assoc, Nat.sub_add_eq]

theorem pos_le_foldl_put (ps : List (Portion α)) :
    w.pos ≤ (ps.foldl (Writer.put nul size) w).pos := by
  induction ps generalizing w with
  | nil => exact le_rfl
  | cons p ps ih => exact (Nat.le_add_right _ _).trans (ih (w := w.put nul size p))

theorem pos_foldl_put_le_iff (h : w.pos ≤ size) (ps : List (Portion α)) :
    (ps.foldl (Writer.put nul size) w).pos ≤ size ↔ Within (size - w.pos) ps := by
  induction ps generalizing w with
  | nil => exact iff_of_true h trivial
  | cons p ps ih =>
    rw [List.foldl_cons, Within]
    by_cases hadvance : p.advance (size - w.pos) ≤ size - w.pos
    · have hpos : (w.put nul size p).pos ≤ size := by
        change w.pos + p.advance (size - w.pos) ≤ size
        omega
      rw [ih hpos, Writer.put, Nat.sub_add_eq]
      exact (and_iff_right hadvance).symm
    · refine iff_of_false (fun hle ↦ ?_) fun hwithin ↦ hadvance hwithin.1
      have hpos : w.pos + p.advance (size - w.pos) ≤ size := (pos_le_foldl_put ps).trans hle
      omega

/-! ### Rooms -/

theorem emit_zero (ps : List (Portion α)) : emit nul 0 ps = [] := by
  induction ps with
  | nil => rfl
  | cons p ps ih =>
    rw [emit, Nat.zero_sub, ih, List.append_nil]
    cases p with
    | cut s => rfl
    | whole s => cases s <;> simp [Portion.written]
    | counted s => simp [Portion.written]

theorem within_zero (ps : List (Portion α)) : Within 0 ps := by
  induction ps with
  | nil => trivial
  | cons p ps ih =>
    rw [Within, Nat.zero_sub]
    refine ⟨?_, ih⟩
    cases p with
    | cut s => simp [Portion.advance]
    | whole s => simp only [Portion.advance]; split_ifs <;> omega
    | counted s => simp [Portion.advance]

theorem length_emit_le (r : ℕ) (ps : List (Portion α)) : (emit nul r ps).length ≤ r := by
  induction ps generalizing r with
  | nil => exact Nat.zero_le r
  | cons p ps ih =>
    have hrest := ih (r - p.advance r)
    rw [emit, List.length_append]
    cases p with
    | cut s =>
      simp only [Portion.written, Portion.advance, List.length_take] at hrest ⊢
      omega
    | whole s =>
      by_cases hfit : s.length ≤ r
      · simp only [Portion.written, Portion.advance, if_pos hfit] at hrest ⊢
        omega
      · simp only [Portion.written, Portion.advance, if_neg hfit, List.length_nil] at hrest ⊢
        omega
    | counted s =>
      by_cases hroom : r = 0
      · subst hroom
        have hrest : emit nul (0 - (Portion.counted s).advance 0) ps = [] := emit_zero ps
        rw [hrest]
        simp [Portion.written]
      · by_cases hfit : s.length < r
        · simp only [Portion.written, Portion.advance, if_pos hfit, if_neg hroom] at hrest ⊢
          omega
        · simp only [Portion.written, Portion.advance, if_neg hfit, if_neg hroom,
            List.length_append, List.length_take, List.length_singleton] at hrest ⊢
          omega

/-- With more room than their text needs, parts are written as they are. -/
theorem emit_eq_fullText {r : ℕ} {ps : List (Portion α)} (h : (fullText ps).length < r) :
    emit nul r ps = fullText ps := by
  induction ps generalizing r with
  | nil => rfl
  | cons p ps ih =>
    rw [fullText_cons, List.length_append] at h
    have hwritten : p.written nul r = p.text ∧ p.advance r = p.text.length := by
      cases p with
      | cut s => exact ⟨List.take_of_length_le (by simp only [Portion.text] at h; omega),
          min_eq_left (by simp only [Portion.text] at h; omega)⟩
      | whole s => exact ⟨if_pos (by simp only [Portion.text] at h; omega),
          if_pos (by simp only [Portion.text] at h; omega)⟩
      | counted s => exact ⟨if_pos (by simp only [Portion.text] at h; omega),
          if_neg (by simp only [Portion.text] at h; omega)⟩
    rw [emit, hwritten.1, hwritten.2, ih (by omega), fullText_cons]

theorem append_prefix_iff {s t u : List α} :
    s ++ t <+: u ↔ s <+: u ∧ t <+: u.drop s.length := by
  constructor
  · rintro ⟨v, rfl⟩
    exact ⟨⟨t ++ v, by simp⟩, ⟨v, by simp⟩⟩
  · rintro ⟨⟨v, rfl⟩, h⟩
    rw [List.drop_left] at h
    exact (List.prefix_append_right_inj s).2 h

/-! ### Terminators -/

variable [DecidableEq α]

theorem upTo_prefix_self (s : List α) : upTo nul s <+: s := List.takeWhile_prefix _

theorem upTo_append_of_mem {s : List α} (h : nul ∈ s) (t : List α) :
    upTo nul (s ++ t) = upTo nul s := by
  induction s with
  | nil => cases h
  | cons a s ih =>
    by_cases ha : a = nul
    · simp [upTo, ha]
    · have hs : nul ∈ s := (List.mem_cons.1 h).resolve_left fun heq ↦ ha heq.symm
      simpa [upTo, ha] using ih hs

theorem upTo_append_of_notMem {s : List α} (h : nul ∉ s) (t : List α) :
    upTo nul (s ++ t) = s ++ upTo nul t := by
  refine List.takeWhile_append_of_pos fun a ha ↦ decide_eq_true ?_
  rintro rfl
  exact h ha

theorem upTo_eq_self {s : List α} (h : nul ∉ s) : upTo nul s = s := by
  have hnil : upTo nul [] = [] := rfl
  have happend := upTo_append_of_notMem h []
  rwa [List.append_nil, hnil, List.append_nil] at happend

/-- Parts spell the beginning of a text if what they write does. -/
theorem continues_iff (r : ℕ) (s : List α) (ps : List (Portion α)) :
    Continues nul r s ps ↔ Within r ps ∧ upTo nul (emit nul r ps) <+: s := by
  induction ps generalizing r s with
  | nil => exact iff_of_true trivial ⟨trivial, List.nil_prefix⟩
  | cons p ps ih =>
    rw [Continues, Within, emit, and_assoc]
    refine and_congr_right' ?_
    split_ifs with hnul
    · rw [upTo_append_of_mem hnul]
      exact and_comm
    · rw [ih, upTo_eq_self hnul, upTo_append_of_notMem hnul, append_prefix_iff, and_left_comm]

theorem fits_zero (ps : List (Portion α)) : Fits nul 0 ps := by
  induction ps with
  | nil => trivial
  | cons p ps ih =>
    rw [Fits]
    rw [Nat.zero_sub]
    split_ifs
    · exact within_zero ps
    · exact ih
    · cases p with
      | cut s => trivial
      | whole s =>
        refine (continues_iff 0 s ps).2 ⟨within_zero ps, ?_⟩
        rw [emit_zero]
        exact List.nil_prefix
      | counted s => rfl

/-- A part that fits is written as it is, unless the terminator takes its last place. -/
theorem written_of_le (nul : α) {r : ℕ} {p : Portion α} (h : p.text.length ≤ r) :
    p.advance r = p.text.length ∧
      (p.written nul r = p.text ∨ p.text.length = r ∧ upTo nul (p.written nul r) <+: p.text ∧
        nul ∈ p.written nul r) := by
  cases p with
  | cut s => exact ⟨min_eq_left h, .inl (List.take_of_length_le h)⟩
  | whole s => exact ⟨if_pos h, .inl (if_pos h)⟩
  | counted s =>
    change s.length ≤ r at h
    by_cases hroom : r = 0
    · obtain rfl : s = [] := List.length_eq_zero_iff.1 (by omega)
      exact ⟨by simp [Portion.advance, Portion.text],
        .inl (by simp [Portion.written, Portion.text, hroom])⟩
    · refine ⟨if_neg hroom, ?_⟩
      by_cases hlt : s.length < r
      · exact .inl (if_pos hlt)
      · have hwritten : (Portion.counted s).written nul r = s.take (r - 1) ++ [nul] := by
          rw [Portion.written, if_neg hlt, if_neg hroom]
        refine .inr ⟨le_antisymm h (not_lt.1 hlt), ?_, by simp [hwritten]⟩
        rw [hwritten]
        by_cases hmem : nul ∈ s.take (r - 1)
        · rw [upTo_append_of_mem hmem]
          exact (upTo_prefix_self _).trans (List.take_prefix _ _)
        · rw [upTo_append_of_notMem hmem]
          simpa [upTo, Portion.text] using List.take_prefix (r - 1) s

/-- The parts stay within the room, and what is written up to the first terminator is a beginning
of their text, exactly if they fit. -/
theorem within_and_prefix_iff (r : ℕ) (ps : List (Portion α)) :
    (Within r ps ∧ upTo nul (emit nul r ps) <+: fullText ps) ↔ Fits nul r ps := by
  induction ps generalizing r with
  | nil => exact iff_of_true ⟨trivial, List.nil_prefix⟩ trivial
  | cons p ps ih =>
    rw [Within, emit, fullText_cons, Fits]
    by_cases hfit : p.text.length ≤ r
    · rw [if_pos hfit]
      obtain ⟨hadvance, hwritten | ⟨hlength, hprefix, hmem⟩⟩ := written_of_le nul hfit
      · rw [hadvance, hwritten]
        split_ifs with hnul
        · rw [upTo_append_of_mem hnul]
          have hprefix : upTo nul p.text <+: p.text ++ fullText ps :=
            (upTo_prefix_self p.text).trans (List.prefix_append _ _)
          exact ⟨fun h ↦ h.1.2, fun h ↦ ⟨⟨hfit, h⟩, hprefix⟩⟩
        · rw [upTo_append_of_notMem hnul, List.prefix_append_right_inj, ← ih]
          exact and_congr_left' (and_iff_right hfit)
      · rw [hadvance, hlength, Nat.sub_self, upTo_append_of_mem hmem]
        refine iff_of_true ⟨⟨le_rfl, within_zero ps⟩, hprefix.trans (List.prefix_append _ _)⟩ ?_
        split_ifs
        · exact within_zero ps
        · exact fits_zero ps
    · rw [if_neg hfit]
      cases p with
      | cut s =>
        change ¬ s.length ≤ r at hfit
        have hadvance : min s.length r = r := min_eq_right (by omega)
        simp only [Portion.written, Portion.advance, Portion.text, hadvance, Nat.sub_self,
          emit_zero, List.append_nil]
        exact iff_of_true ⟨⟨le_rfl, within_zero ps⟩, (upTo_prefix_self _).trans
          ((List.take_prefix r s).trans (List.prefix_append _ _))⟩ trivial
      | whole s =>
        change ¬ s.length ≤ r at hfit
        simp only [Portion.written, Portion.advance, Portion.text, Portion.BreaksOff, if_neg hfit,
          Nat.sub_zero, List.nil_append, continues_iff]
        refine and_congr (and_iff_right (Nat.zero_le r)) ⟨fun h ↦ ?_, fun h ↦ ?_⟩
        · refine List.prefix_of_prefix_length_le h (List.prefix_append s _) ?_
          have hlength : (upTo nul (emit nul r ps)).length ≤ (emit nul r ps).length :=
            (upTo_prefix_self _).length_le
          have hemit : (emit nul r ps).length ≤ r := length_emit_le r ps
          omega
        · exact h.trans (List.prefix_append _ _)
      | counted s =>
        change ¬ s.length ≤ r at hfit
        by_cases hroom : r = 0
        · refine iff_of_true ?_ hroom
          subst hroom
          have hwritten : (Portion.counted s).written nul 0 = [] := by simp [Portion.written]
          have hadvance : (Portion.counted s).advance 0 = 0 := rfl
          rw [hwritten, hadvance, Nat.sub_self, emit_zero]
          exact ⟨⟨le_rfl, within_zero ps⟩, List.nil_prefix⟩
        · refine iff_of_false (fun h ↦ ?_) hroom
          have hadvance := h.1.1
          simp only [Portion.advance, if_neg hroom] at hadvance
          exact hfit hadvance

end BoundedWriter

end PuppetC
