import Mathlib.Data.List.Basic
import Mathlib.Data.Nat.Notation
import Mathlib.Tactic.Common

/-!
# States that are kept as bytes

Words of a fixed number of bytes are written one after the other, with a byte in front that counts
them. The count is taken modulo 256, so the words are read back if there are fewer than that.

A party whose state is saved after each of its steps, and restored before the next one, goes
through the states that it would go through in memory exactly when each of these survives its
being saved.

## Main definitions

* `WordCodec`: words and their bytes.
* `WordCodec.pack`, `WordCodec.unpack`: several words.
* `WordCodec.packCounted`, `WordCodec.unpackCounted`: several words with their number.
* `littleEndian`: words of 32 bits.
* `SavedState.kept`, `SavedState.inMemory`: the states of a run, saved in between or not.

## Main results

* `WordCodec.unpackCounted_packCounted`: words are read back, whatever follows.
* `SavedState.kept_eq_some_inMemory_iff`: when saving is not noticed.
-/

namespace PuppetC

/-- Words that are written in a fixed number of bytes. -/
structure WordCodec (B W : Type*) where
  width : ℕ
  encode : W → List B
  decode : List B → W
  length_encode : ∀ w, (encode w).length = width
  decode_encode : ∀ w, decode (encode w) = w

namespace WordCodec

section Words

variable {B W : Type*} (C : WordCodec B W)

/-- The bytes of some words. -/
def pack (ws : List W) : List B := ws.flatMap C.encode

/-- Read a number of words; what is left is the second component. -/
def unpack : ℕ → List B → Option (List W × List B)
  | 0, bs => some ([], bs)
  | n + 1, bs =>
    if bs.length < C.width then none
    else (unpack n (bs.drop C.width)).map fun x ↦ (C.decode (bs.take C.width) :: x.1, x.2)

@[simp]
theorem length_pack (ws : List W) : (C.pack ws).length = ws.length * C.width := by
  induction ws with
  | nil => rw [pack, List.flatMap_nil, List.length_nil, List.length_nil, Nat.zero_mul]
  | cons w ws ih =>
    rw [pack, List.flatMap_cons, List.length_append, C.length_encode, ← pack, ih, List.length_cons,
      Nat.succ_mul, Nat.add_comm]

theorem unpack_pack (ws : List W) (rest : List B) :
    C.unpack ws.length (C.pack ws ++ rest) = some (ws, rest) := by
  induction ws with
  | nil => rfl
  | cons w ws ih =>
    have hword : C.pack (w :: ws) ++ rest = C.encode w ++ (C.pack ws ++ rest) := by
      rw [pack, List.flatMap_cons, ← pack, List.append_assoc]
    have hlong : ¬ (C.encode w ++ (C.pack ws ++ rest)).length < C.width := by
      rw [List.length_append, C.length_encode]
      omega
    rw [List.length_cons, hword, unpack, if_neg hlong, List.drop_left' (C.length_encode w),
      List.take_left' (C.length_encode w), ih, Option.map_some, C.decode_encode]

end Words

section Counted

variable {W : Type*} (C : WordCodec UInt8 W)

/-- The number of some words, in one byte, and their bytes. -/
def packCounted (ws : List W) : List UInt8 := UInt8.ofNat ws.length :: C.pack ws

/-- Read as many words as the first byte says. -/
def unpackCounted : List UInt8 → Option (List W × List UInt8)
  | [] => none
  | n :: bs => C.unpack n.toNat bs

@[simp]
theorem length_packCounted (ws : List W) :
    (C.packCounted ws).length = ws.length * C.width + 1 := by
  rw [packCounted, List.length_cons, length_pack]

/-- Counted words are read back, if one byte can hold their number. -/
theorem unpackCounted_packCounted {ws : List W} (h : ws.length < 256) (rest : List UInt8) :
    C.unpackCounted (C.packCounted ws ++ rest) = some (ws, rest) := by
  have hcount : (UInt8.ofNat ws.length).toNat = ws.length := by
    rw [UInt8.toNat_ofNat', Nat.mod_eq_of_lt h]
  rw [packCounted, List.cons_append, unpackCounted, hcount, unpack_pack]

end Counted

end WordCodec

/-- The number that some bytes stand for, the lowest one first. -/
def littleEndianValue (bs : List UInt8) : ℕ := bs.foldr (fun b n ↦ b.toNat + 256 * n) 0

/-- The bytes of a word of 32 bits, the lowest one first. -/
def littleEndianBytes (w : UInt32) : List UInt8 :=
  [UInt8.ofNat w.toNat, UInt8.ofNat (w.toNat / 256), UInt8.ofNat (w.toNat / 65536),
    UInt8.ofNat (w.toNat / 16777216)]

/-- Words of 32 bits in the byte order of the machine. -/
def littleEndian : WordCodec UInt8 UInt32 where
  width := 4
  encode := littleEndianBytes
  decode bs := UInt32.ofNat (littleEndianValue bs)
  length_encode _ := rfl
  decode_encode w := by
    have hlt := w.toNat_lt
    have hvalue : littleEndianValue (littleEndianBytes w) = w.toNat := by
      simp only [littleEndianValue, littleEndianBytes, List.foldr_cons, List.foldr_nil,
        UInt8.toNat_ofNat']
      omega
    rw [hvalue, UInt32.ofNat_toNat]

/-! ### Runs with a saved state -/

namespace SavedState

variable {S I : Type*} (settle : S → Option S) (move : S → I → Option S)

/-- The states after each call of `move`; a call that answers `none` leaves the state. -/
def inMemory : S → List I → List S
  | _, [] => []
  | s, i :: is => (move s i).getD s :: inMemory ((move s i).getD s) is

/-- The states after each call of `move` when each new state is saved and restored; `none` if it
cannot be. -/
def kept : S → List I → Option (List S)
  | _, [] => some []
  | s, i :: is => ((move s i).elim (some s) settle).bind fun t ↦ (kept t is).map (t :: ·)

variable {settle move} {s : S}

/-- Saving is not noticed exactly when it keeps each state of the run in memory. -/
theorem kept_eq_some_inMemory_iff (hs : settle s = some s) (is : List I) :
    kept settle move s is = some (inMemory move s is) ↔
      ∀ t ∈ inMemory move s is, settle t = some t := by
  induction is generalizing s with
  | nil => simp [kept, inMemory]
  | cons i is ih =>
    have hnew : (move s i).elim (some s) settle = some ((move s i).getD s) ↔
        settle ((move s i).getD s) = some ((move s i).getD s) := by
      cases move s i with
      | none => simp [hs]
      | some t => rfl
    rw [kept, inMemory, List.forall_mem_cons]
    constructor
    · intro h
      obtain ⟨t, ht, hrest⟩ := Option.bind_eq_some_iff.1 h
      obtain ⟨ts, hts, hcons⟩ := Option.map_eq_some_iff.1 hrest
      obtain ⟨rfl, rfl⟩ := List.cons.inj hcons
      exact ⟨hnew.1 ht, (ih (hnew.1 ht)).1 hts⟩
    · rintro ⟨hhead, hrest⟩
      rw [hnew.2 hhead, Option.bind_some, (ih hhead).2 hrest, Option.map_some]

end SavedState

end PuppetC
