import Mathlib.Data.List.Basic
import Mathlib.Data.List.TakeWhile
import Mathlib.Tactic.Common

/-!
# Strings that end at a NUL byte

A C function that is given a buffer sees the bytes before the first NUL. `CString` is the type of
such strings, and `CString.ofBuffer` what is seen of a buffer.

## Main definitions

* `CString`, `CString.ofBuffer`, `CString.ofString`.
* `CString.truncate`: what `snprintf` keeps of a text in a buffer of a given size.
* `CString.chars`: a string as a list of characters.

## Main results

* `CString.ofBuffer_take_eq_iff`: when a text that is cut to the size of a buffer is seen whole.
-/

namespace PuppetC

/-- A string of bytes other than NUL. -/
@[ext]
structure CString where
  bytes : List UInt8
  noNul : 0 ∉ bytes
  deriving DecidableEq

namespace CString

/-- What a C function sees of a buffer. -/
def ofBuffer (buffer : List UInt8) : CString where
  bytes := buffer.takeWhile (· ≠ 0)
  noNul h := by simpa using List.mem_takeWhile_imp h

/-- A literal of ASCII characters. -/
def ofString (s : String) : CString :=
  ofBuffer (s.toList.map fun c ↦ UInt8.ofNat c.toNat)

instance : Append CString where
  append s t := ⟨s.bytes ++ t.bytes, by simp [s.noNul, t.noNul]⟩

@[simp] theorem append_bytes (s t : CString) : (s ++ t).bytes = s.bytes ++ t.bytes := rfl

/-- The part of a text that `snprintf` leaves in a buffer of `size` bytes. -/
def truncate (size : ℕ) (s : CString) : CString where
  bytes := s.bytes.take (size - 1)
  noNul h := s.noNul (List.mem_of_mem_take h)

@[simp] theorem truncate_bytes (size : ℕ) (s : CString) :
    (s.truncate size).bytes = s.bytes.take (size - 1) := rfl

variable {buffer : List UInt8}

theorem ofBuffer_of_noNul (h : 0 ∉ buffer) : (ofBuffer buffer).bytes = buffer := by
  refine List.takeWhile_eq_self_iff.2 fun b hb ↦ decide_eq_true fun hzero ↦ ?_
  exact h (hzero ▸ hb)

@[simp] theorem ofBuffer_bytes (s : CString) : ofBuffer s.bytes = s :=
  CString.ext (ofBuffer_of_noNul s.noNul)

theorem length_ofBuffer_le (buffer : List UInt8) :
    (ofBuffer buffer).bytes.length ≤ buffer.length :=
  (List.takeWhile_sublist _).length_le

/-- The first `n` bytes of a buffer are seen as the whole buffer exactly when it has no more than
`n` bytes and no NUL. -/
theorem ofBuffer_take_eq_iff {n : ℕ} :
    (ofBuffer (buffer.take n)).bytes = buffer ↔ buffer.length ≤ n ∧ 0 ∉ buffer := by
  constructor
  · intro h
    refine ⟨?_, fun hzero ↦ (ofBuffer (buffer.take n)).noNul (h.symm ▸ hzero)⟩
    calc buffer.length = (ofBuffer (buffer.take n)).bytes.length := by rw [h]
      _ ≤ (buffer.take n).length := length_ofBuffer_le _
      _ ≤ n := List.length_take_le n buffer
  · rintro ⟨hlen, hzero⟩
    rw [List.take_of_length_le hlen, ofBuffer_of_noNul hzero]

/-! ### Characters -/

/-- The characters whose codes are the bytes of a string. -/
def chars (s : CString) : List Char := s.bytes.map fun b ↦ Char.ofNat b.toNat

theorem toNat_ofNat_toNat (b : UInt8) : (Char.ofNat b.toNat).toNat = b.toNat := by
  have hlt := b.toNat_lt
  have hvalid : b.toNat.isValidChar := .inl (by omega)
  rw [Char.ofNat, dif_pos hvalid]
  rfl

theorem ofNat_toNat_injective : Function.Injective fun b : UInt8 ↦ Char.ofNat b.toNat := by
  intro b b' h
  have hnat := congrArg Char.toNat h
  rw [toNat_ofNat_toNat, toNat_ofNat_toNat] at hnat
  exact UInt8.toNat_inj.1 hnat

theorem chars_injective : Function.Injective chars := fun _ _ h ↦
  CString.ext (List.map_injective_iff.2 ofNat_toNat_injective h)

@[simp] theorem chars_append (s t : CString) : (s ++ t).chars = s.chars ++ t.chars :=
  List.map_append

@[simp] theorem chars_truncate (size : ℕ) (s : CString) :
    (s.truncate size).chars = s.chars.take (size - 1) :=
  List.map_take

@[simp] theorem length_chars (s : CString) : s.chars.length = s.bytes.length :=
  List.length_map _

end CString

end PuppetC
