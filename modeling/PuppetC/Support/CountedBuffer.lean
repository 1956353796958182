import Mathlib.Algebra.Order.Ring.Nat
import Mathlib.Tactic.Common

/-!
# Buffers that are written by counting

A text is written part by part to a buffer at a position that advances by the length of each part,
whether the part found room or not. Before each part the buffer is doubled once if there is not
much more room than a reserve. What does not fit is cut, and nothing behind the place of the cut is
read any more.

So the position stays within the buffer exactly if each part fits at its turn, and the whole text is
read if there is a place to spare behind each part but the last.

## Main definitions

* `CountedBuffer`, `CountedBuffer.grow`, `CountedBuffer.put`: the buffer, and what is done to it.
* `CountedBuffer.Fits`: each part fits.
* `CountedBuffer.visibleCount`: how many parts are read.

## Main results

* `CountedBuffer.inBounds_iff`: when the position stays within the buffer.
* `CountedBuffer.text_puts`: what is read.
-/

namespace PuppetC

/-- A buffer: what is read of it, the position of the writer, and its size. -/
structure CountedBuffer (α : Type) where
  text : List α
  pos : ℕ
  size : ℕ

namespace CountedBuffer

variable {α : Type}

/-- The size after it was doubled, if no more than the reserve is left. -/
def grown (reserve pos size : ℕ) : ℕ := if size ≤ pos + reserve then 2 * size else size

/-- Double the buffer, if no more than the reserve is left. -/
def grow (reserve : ℕ) (b : CountedBuffer α) : CountedBuffer α :=
  { b with size := grown reserve b.pos b.size }

/-- Write a part, of which one place less than there is room is kept. -/
def put (b : CountedBuffer α) (s : List α) : CountedBuffer α where
  text := if b.text.length = b.pos then b.text ++ s.take (b.size - b.pos - 1) else b.text
  pos := b.pos + s.length
  size := b.size

/-- Write some parts. -/
def puts (reserve : ℕ) (b : CountedBuffer α) (parts : List (List α)) : CountedBuffer α :=
  parts.foldl (fun b s ↦ (b.grow reserve).put s) b

/-- The position is within the buffer. -/
def InBounds (b : CountedBuffer α) : Prop := b.pos ≤ b.size

/-- Each part fits at its turn. -/
def Fits (reserve : ℕ) : ℕ → ℕ → List (List α) → Prop
  | _, _, [] => True
  | pos, size, s :: parts =>
    pos + s.length ≤ grown reserve pos size ∧
      Fits reserve (pos + s.length) (grown reserve pos size) parts

/-- The number of the parts up to the first that leaves no place to spare. -/
def visibleCount (reserve : ℕ) : ℕ → ℕ → List (List α) → ℕ
  | _, _, [] => 0
  | pos, size, s :: parts =>
    if pos + s.length < grown reserve pos size then
      visibleCount reserve (pos + s.length) (grown reserve pos size) parts + 1
    else 1

variable {reserve : ℕ} {b : CountedBuffer α}

theorem puts_cons (reserve : ℕ) (b : CountedBuffer α) (s : List α) (parts : List (List α)) :
    b.puts reserve (s :: parts) = ((b.grow reserve).put s).puts reserve parts := rfl

/-- The position stays within the buffer exactly if each part fits at its turn. -/
theorem inBounds_iff (parts : List (List α)) :
    (∀ n, (b.puts reserve (parts.take n)).InBounds) ↔
      b.InBounds ∧ Fits reserve b.pos b.size parts := by
  induction parts generalizing b with
  | nil => simp [puts, Fits]
  | cons s parts ih =>
    have hnext := @ih ((b.grow reserve).put s)
    constructor
    · intro h
      obtain ⟨hfits, hrest⟩ := hnext.1 fun n ↦ h (n + 1)
      exact ⟨h 0, hfits, hrest⟩
    · rintro ⟨hb, hfits, hrest⟩ n
      cases n with
      | zero => exact hb
      | succ n => exact hnext.2 ⟨hfits, hrest⟩ n

theorem visibleCount_le (pos size : ℕ) (parts : List (List α)) :
    visibleCount reserve pos size parts ≤ parts.length := by
  induction parts generalizing pos size with
  | nil => exact le_rfl
  | cons s parts ih =>
    rw [visibleCount, List.length_cons]
    split_ifs
    · exact Nat.succ_le_succ (ih _ _)
    · exact Nat.succ_le_succ (Nat.zero_le _)

/-- Where the text was cut, nothing more is read. -/
theorem text_puts_of_lt (h : b.text.length < b.pos) (parts : List (List α)) :
    (b.puts reserve parts).text = b.text := by
  induction parts generalizing b with
  | nil => rfl
  | cons s parts ih =>
    have htext : ((b.grow reserve).put s).text = b.text := if_neg h.ne
    rw [puts_cons, ih, htext]
    rw [htext]
    exact h.trans_le (Nat.le_add_right _ _)

/-- What is read: the parts that are visible, and of these, if there are more or there is no place
to spare behind the last one, the last place is cut. -/
theorem text_puts (h : b.text.length = b.pos) {parts : List (List α)}
    (hfits : Fits reserve b.pos b.size parts) (hne : ∀ s ∈ parts, s ≠ []) :
    let visible := (parts.take (visibleCount reserve b.pos b.size parts)).flatten
    (b.puts reserve parts).text = b.text ++ visible ∨
      visible ≠ [] ∧ (b.puts reserve parts).text = b.text ++ visible.dropLast := by
  induction parts generalizing b with
  | nil => exact .inl (List.append_nil _).symm
  | cons s parts ih =>
    obtain ⟨hs, hparts⟩ := hfits
    have hne' : s ≠ [] := hne s List.mem_cons_self
    rw [visibleCount, puts_cons]
    by_cases hlt : b.pos + s.length < grown reserve b.pos b.size
    · have htext : ((b.grow reserve).put s).text = b.text ++ s :=
        (if_pos h).trans (congrArg _ (List.take_of_length_le (by
          change s.length ≤ grown reserve b.pos b.size - b.pos - 1
          omega)))
      have hpos : ((b.grow reserve).put s).text.length = ((b.grow reserve).put s).pos := by
        rw [htext, List.length_append, h]
        rfl
      have hrest := ih hpos hparts fun u hu ↦ hne u (List.mem_cons_of_mem s hu)
      dsimp only at hrest ⊢
      rw [if_pos hlt, List.take_succ_cons, List.flatten_cons]
      rw [htext] at hrest
      rcases hrest with hrest | ⟨hvisible, hrest⟩
      · exact .inl (hrest.trans (List.append_assoc ..))
      · refine .inr ⟨by simp [hne'], hrest.trans ?_⟩
        rw [List.append_assoc]
        exact congrArg _ (List.dropLast_append_of_ne_nil hvisible).symm
    · have heq : b.pos + s.length = grown reserve b.pos b.size := le_antisymm hs (not_lt.1 hlt)
      have htext : ((b.grow reserve).put s).text = b.text ++ s.dropLast := by
        refine (if_pos h).trans (congrArg _ ?_)
        rw [List.dropLast_eq_take]
        congr 1
        change grown reserve b.pos b.size - b.pos - 1 = s.length - 1
        omega
      have hlength := List.length_pos_iff.2 hne'
      have hcut : ((b.grow reserve).put s).text.length < ((b.grow reserve).put s).pos := by
        rw [htext, List.length_append, List.length_dropLast, h]
        change b.pos + (s.length - 1) < b.pos + s.length
        omega
      dsimp only
      rw [if_neg hlt, List.take_succ_cons, List.take_zero, List.flatten_cons, List.flatten_nil,
        List.append_nil, text_puts_of_lt hcut, htext]
      exact .inr ⟨hne', rfl⟩

end CountedBuffer

end PuppetC
