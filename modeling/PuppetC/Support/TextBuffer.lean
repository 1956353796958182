import Mathlib.Algebra.Order.Ring.Nat
import Mathlib.Tactic.Common

/-!
# Buffers that texts are written to

A buffer has a size, which a program may double before it writes. Writing past the end has no
meaning: it answers nothing.

## Main definitions

* `TextBuffer`: what has been written to a buffer, and its size.
* `TextBuffer.put`, `TextBuffer.finish`, `TextBuffer.reserve`.

## Main results

* `TextBuffer.put_eq_some`: what is written if there is room.
* `TextBuffer.lt_size_reserve`: there is room for what has been reserved.
-/

namespace PuppetC

/-- A buffer of `size` bytes that starts with a text. -/
structure TextBuffer where
  text : List Char
  size : ℕ
  size_pos : 0 < size
  fits : text.length ≤ size

namespace TextBuffer

/-- An empty buffer. -/
def empty (size : ℕ) (h : 0 < size) : TextBuffer := ⟨[], size, h, Nat.zero_le size⟩

/-- Write a text at the end. -/
def put (b : TextBuffer) (s : List Char) : Option TextBuffer :=
  if h : b.text.length + s.length ≤ b.size then
    some { b with text := b.text ++ s, fits := by rwa [List.length_append] }
  else none

/-- Write the NUL at the end, and take the text. -/
def finish (b : TextBuffer) : Option (List Char) :=
  if b.text.length < b.size then some b.text else none

/-- The size after it was doubled until it is above a number, `fuel` times at most. -/
def doubled (n : ℕ) : ℕ → ℕ → ℕ
  | 0, size => size
  | fuel + 1, size => if n < size then size else doubled n fuel (2 * size)

theorem le_doubled (n fuel size : ℕ) : size ≤ doubled n fuel size := by
  induction fuel generalizing size with
  | zero => exact le_rfl
  | succ fuel ih =>
    rw [doubled]
    split_ifs
    · exact le_rfl
    · exact (Nat.le_mul_of_pos_left size Nat.two_pos).trans (ih (2 * size))

theorem lt_doubled (n fuel : ℕ) {size : ℕ} (hsize : 0 < size) (hfuel : n < size + fuel) :
    n < doubled n fuel size := by
  induction fuel generalizing size with
  | zero => exact hfuel
  | succ fuel ih =>
    rw [doubled]
    split_ifs with h
    · exact h
    · exact ih (by omega) (by omega)

/-- Double the size until there is room for more than `n` bytes. -/
def reserve (b : TextBuffer) (n : ℕ) : TextBuffer where
  text := b.text
  size := doubled (b.text.length + n) (b.text.length + n) b.size
  size_pos := b.size_pos.trans_le (le_doubled ..)
  fits := b.fits.trans (le_doubled ..)

variable {b : TextBuffer}

theorem put_eq_some {s : List Char} (h : b.text.length + s.length ≤ b.size) :
    ∃ b', b.put s = some b' ∧ b'.text = b.text ++ s ∧ b'.size = b.size :=
  ⟨_, dif_pos h, rfl, rfl⟩

theorem lt_size_reserve (b : TextBuffer) (n : ℕ) : b.text.length + n < (b.reserve n).size :=
  lt_doubled _ _ b.size_pos (Nat.lt_add_of_pos_left b.size_pos)

end TextBuffer

end PuppetC
