import Mathlib.Algebra.BigOperators.Group.List.Basic
import Mathlib.Algebra.GroupWithZero.Nat
import PuppetC.Support.SavedState

/-!
# The heredocs that the scanner remembers

The scanner of the grammar keeps the heredocs that are open: their tag, their indent and the
escapes that they allow. The parser keeps this state as bytes, in a buffer of 1024, and hands it
back before each scan. A character takes four bytes there, but the test for room counts it as one,
so a state that does not fit is either forgotten or written past the end of the buffer.

## Main definitions

* `Heredoc`, `ScannerState`: `Heredoc`, `ScannerState`.
* `ScannerState.serialize`, `deserialize`: `tree_sitter_puppet_external_scanner_serialize` and
  `tree_sitter_puppet_external_scanner_deserialize`.
* `ScannerState.settle`: a state that is saved and restored.

## Main results

* `settle_of_fits`, `settle_of_not_fits`: what a state is after that, for every state.
* `scanner_state_survives_iff`: the scans of a text that see the state they left.
-/

namespace PuppetC

/-- A heredoc that is open. -/
structure Heredoc where
  word : List UInt32
  indent : List UInt32
  escapes : List UInt32
  allowsInterpolation : Bool
  started : Bool
  endValid : Bool
deriving DecidableEq, Repr

/-- What the scanner remembers between two tokens. -/
structure ScannerState where
  insideInterpolationVariable : Bool
  checkSelbrace : Bool
  openHeredocs : List Heredoc
deriving DecidableEq, Repr

/-- `TREE_SITTER_SERIALIZATION_BUFFER_SIZE`. -/
def serializationBufferSize : ℕ := 1024

/-- A flag as a byte. -/
def flagByte (b : Bool) : UInt8 := if b then 1 else 0

/-- A byte as a flag. -/
def byteFlag (c : UInt8) : Bool := c != 0

/-! ### Saving -/

/-- The bytes of a heredoc. -/
def Heredoc.bytes (h : Heredoc) : List UInt8 :=
  flagByte h.allowsInterpolation :: flagByte h.started :: flagByte h.endValid ::
    (littleEndian.packCounted h.word ++ littleEndian.packCounted h.indent ++
      littleEndian.packCounted h.escapes)

/-- The characters of a heredoc. -/
def Heredoc.chars (h : Heredoc) : ℕ := h.word.length + h.indent.length + h.escapes.length

/-- The loop of `tree_sitter_puppet_external_scanner_serialize`: what is in the buffer, and
whether the loop came to its end. -/
def serializeHeredocs (bs : List UInt8) : List Heredoc → List UInt8 × Bool
  | [] => (bs, true)
  | h :: hs =>
    if serializationBufferSize ≤ bs.length + 2 + h.word.length + h.indent.length + h.escapes.length
    then (bs, false)
    else serializeHeredocs (bs ++ h.bytes) hs

namespace ScannerState

/-- The bytes in front of the heredocs. -/
def header (s : ScannerState) : List UInt8 :=
  [flagByte s.insideInterpolationVariable, flagByte s.checkSelbrace,
    UInt8.ofNat s.openHeredocs.length]

/-- `tree_sitter_puppet_external_scanner_serialize`: what is written, wherever it lands, and the
length that is answered. -/
def serialize (s : ScannerState) : List UInt8 × ℕ :=
  let r := serializeHeredocs s.header s.openHeredocs
  (r.1, if r.2 then r.1.length else 0)

end ScannerState

/-! ### Restoring -/

/-- The body of the loop of `tree_sitter_puppet_external_scanner_deserialize`; `none` reads behind
the bytes that were saved. -/
def deserializeHeredoc : List UInt8 → Option (Heredoc × List UInt8)
  | allows :: started :: endValid :: bs => do
    let word ← littleEndian.unpackCounted bs
    let indent ← littleEndian.unpackCounted word.2
    let escapes ← littleEndian.unpackCounted indent.2
    return (⟨word.1, indent.1, escapes.1, byteFlag allows, byteFlag started, byteFlag endValid⟩,
      escapes.2)
  | _ => none

/-- The loop. -/
def deserializeHeredocs : ℕ → List UInt8 → Option (List Heredoc × List UInt8)
  | 0, bs => some ([], bs)
  | n + 1, bs => do
    let heredoc ← deserializeHeredoc bs
    let heredocs ← deserializeHeredocs n heredoc.2
    return (heredoc.1 :: heredocs.1, heredocs.2)

/-- The state before the first token. -/
def ScannerState.fresh : ScannerState := ⟨false, false, []⟩

/-- `tree_sitter_puppet_external_scanner_deserialize`, with its assertion. -/
def deserialize : List UInt8 → Option ScannerState
  | [] => some .fresh
  | inside :: check :: count :: bs => do
    let heredocs ← deserializeHeredocs count.toNat bs
    if heredocs.2 = [] then some ⟨byteFlag inside, byteFlag check, heredocs.1⟩ else none
  | _ => none

/-- A state that is saved and restored; `none` if it is written past the end of the buffer. -/
def ScannerState.settle (s : ScannerState) : Option ScannerState :=
  if s.serialize.1.length ≤ serializationBufferSize then
    deserialize (s.serialize.1.take s.serialize.2)
  else none

/-! ### How much room a state takes -/

/-- The bytes that some heredocs take. -/
def heredocsSize (hs : List Heredoc) : ℕ := (hs.map fun h ↦ 6 + 4 * h.chars).sum

/-- The bytes that a state takes. -/
def ScannerState.size (s : ScannerState) : ℕ := 3 + heredocsSize s.openHeredocs

/-- The loop gives up before it writes past the end of the buffer: there is a heredoc for which
there is no room by the test of the loop, and those before it fit. -/
def ScannerState.GivesUpInTime (s : ScannerState) : Prop :=
  ∃ hs h hs', s.openHeredocs = hs ++ h :: hs' ∧ 3 + heredocsSize hs ≤ serializationBufferSize ∧
    serializationBufferSize ≤ 3 + heredocsSize hs + 2 + h.chars

@[simp]
theorem byteFlag_flagByte (b : Bool) : byteFlag (flagByte b) = b := by
  cases b <;> rfl

theorem Heredoc.length_bytes (h : Heredoc) : h.bytes.length = 6 + 4 * h.chars := by
  simp only [Heredoc.bytes, Heredoc.chars, List.length_cons, List.length_append,
    WordCodec.length_packCounted, littleEndian]
  omega

@[simp]
theorem heredocsSize_cons (h : Heredoc) (hs : List Heredoc) :
    heredocsSize (h :: hs) = 6 + 4 * h.chars + heredocsSize hs := rfl

theorem length_flatMap_bytes (hs : List Heredoc) :
    (hs.flatMap Heredoc.bytes).length = heredocsSize hs := by
  simp only [List.length_flatMap, heredocsSize, Heredoc.length_bytes]

theorem six_mul_length_le (hs : List Heredoc) : 6 * hs.length ≤ heredocsSize hs := by
  induction hs with
  | nil => exact Nat.le_refl 0
  | cons h hs ih =>
    rw [List.length_cons, heredocsSize_cons]
    omega

/-! ### The loop of serialising -/

section Loop

variable {bs : List UInt8} {hs : List Heredoc}

theorem serializeHeredocs_cons_of_room {h : Heredoc}
    (hroom : bs.length + 2 + h.chars < serializationBufferSize) :
    serializeHeredocs bs (h :: hs) = serializeHeredocs (bs ++ h.bytes) hs := by
  rw [serializeHeredocs, if_neg]
  simp only [Heredoc.chars] at hroom
  omega

theorem serializeHeredocs_cons_of_not_room {h : Heredoc}
    (hroom : serializationBufferSize ≤ bs.length + 2 + h.chars) :
    serializeHeredocs bs (h :: hs) = (bs, false) := by
  rw [serializeHeredocs, if_pos]
  simp only [Heredoc.chars] at hroom
  omega

/-- Heredocs that fit pass every test of the loop. -/
theorem serializeHeredocs_append (hs' : List Heredoc)
    (h : bs.length + heredocsSize hs ≤ serializationBufferSize) :
    serializeHeredocs bs (hs ++ hs') = serializeHeredocs (bs ++ hs.flatMap Heredoc.bytes) hs' := by
  induction hs generalizing bs with
  | nil => simp
  | cons g hs ih =>
    rw [heredocsSize_cons] at h
    rw [List.cons_append, serializeHeredocs_cons_of_room (by omega), ih, List.flatMap_cons,
      List.append_assoc]
    rw [List.length_append, Heredoc.length_bytes]
    omega

theorem serializeHeredocs_of_fits (h : bs.length + heredocsSize hs ≤ serializationBufferSize) :
    serializeHeredocs bs hs = (bs ++ hs.flatMap Heredoc.bytes, true) := by
  simpa [serializeHeredocs] using serializeHeredocs_append [] h

/-- Heredocs that do not fit are not all written within the buffer. -/
theorem serializeHeredocs_of_not_fits
    (h : serializationBufferSize < bs.length + heredocsSize hs) :
    serializationBufferSize < (serializeHeredocs bs hs).1.length ∨
      (serializeHeredocs bs hs).2 = false := by
  induction hs generalizing bs with
  | nil => exact .inl h
  | cons g hs ih =>
    rcases Nat.lt_or_ge (bs.length + 2 + g.chars) serializationBufferSize with hroom | hroom
    · rw [serializeHeredocs_cons_of_room hroom]
      refine ih ?_
      rw [heredocsSize_cons] at h
      rw [List.length_append, Heredoc.length_bytes]
      omega
    · exact .inr (congrArg Prod.snd (serializeHeredocs_cons_of_not_room hroom))

/-- The loop stays within the buffer and gives up exactly at a heredoc without room that comes
after heredocs that fit. -/
theorem serializeHeredocs_gives_up_iff (bs : List UInt8) (hs : List Heredoc) :
    ((serializeHeredocs bs hs).1.length ≤ serializationBufferSize ∧
        (serializeHeredocs bs hs).2 = false) ↔
      ∃ before g after, hs = before ++ g :: after ∧
        bs.length + heredocsSize before ≤ serializationBufferSize ∧
        serializationBufferSize ≤ bs.length + heredocsSize before + 2 + g.chars := by
  constructor
  · intro ⟨hlen, hup⟩
    induction hs generalizing bs with
    | nil => exact absurd hup (by simp [serializeHeredocs])
    | cons g hs ih =>
      rcases Nat.lt_or_ge (bs.length + 2 + g.chars) serializationBufferSize with hroom | hroom
      · rw [serializeHeredocs_cons_of_room hroom] at hlen hup
        obtain ⟨before, g', after, rfl, hfits, hno⟩ := ih _ hlen hup
        rw [List.length_append, Heredoc.length_bytes] at hfits hno
        refine ⟨g :: before, g', after, rfl, ?_, ?_⟩ <;> rw [heredocsSize_cons] <;> omega
      · rw [serializeHeredocs_cons_of_not_room hroom] at hlen
        exact ⟨[], g, hs, rfl, hlen, hroom⟩
  · rintro ⟨before, g, after, rfl, hfits, hno⟩
    have hlength : (bs ++ before.flatMap Heredoc.bytes).length = bs.length + heredocsSize before :=
      by rw [List.length_append, length_flatMap_bytes]
    rw [serializeHeredocs_append _ hfits,
      serializeHeredocs_cons_of_not_room (by rw [hlength]; exact hno)]
    exact ⟨hlength ▸ hfits, rfl⟩

end Loop

/-! ### The loop of deserialising -/

theorem deserializeHeredoc_bytes {h : Heredoc} (hword : h.word.length < 256)
    (hindent : h.indent.length < 256) (hescapes : h.escapes.length < 256) (rest : List UInt8) :
    deserializeHeredoc (h.bytes ++ rest) = some (h, rest) := by
  simp only [Heredoc.bytes, List.cons_append, List.append_assoc, deserializeHeredoc,
    WordCodec.unpackCounted_packCounted littleEndian hword,
    WordCodec.unpackCounted_packCounted littleEndian hindent,
    WordCodec.unpackCounted_packCounted littleEndian hescapes, byteFlag_flagByte,
    Option.bind_eq_bind, Option.bind_some, Option.pure_def]

/-- Heredocs that fit in the buffer have few characters each, so they are read back. -/
theorem deserializeHeredocs_flatMap {hs : List Heredoc}
    (h : heredocsSize hs ≤ serializationBufferSize) :
    deserializeHeredocs hs.length (hs.flatMap Heredoc.bytes) = some (hs, []) := by
  induction hs with
  | nil => rfl
  | cons g hs ih =>
    have hsize : 6 + 4 * g.chars + heredocsSize hs ≤ 1024 := h
    have hchars : g.chars < 256 := by omega
    have hrest : heredocsSize hs ≤ serializationBufferSize :=
      Nat.le_trans (Nat.le_add_left _ _) hsize
    simp only [Heredoc.chars] at hchars
    rw [List.flatMap_cons, List.length_cons, deserializeHeredocs,
      deserializeHeredoc_bytes (by omega) (by omega) (by omega)]
    simp only [Option.bind_eq_bind, Option.bind_some, ih hrest, Option.pure_def]

/-! ### States that are saved and restored -/

section Settle

variable {s : ScannerState}

/-- A state that fits is restored as it was. -/
theorem settle_of_fits (h : s.size ≤ serializationBufferSize) : s.settle = some s := by
  have hloop : serializeHeredocs s.header s.openHeredocs =
      (s.header ++ s.openHeredocs.flatMap Heredoc.bytes, true) := serializeHeredocs_of_fits h
  have hlength : (s.header ++ s.openHeredocs.flatMap Heredoc.bytes).length = s.size := by
    rw [List.length_append, length_flatMap_bytes]
    rfl
  have hcount : (UInt8.ofNat s.openHeredocs.length).toNat = s.openHeredocs.length := by
    have hmany := six_mul_length_le s.openHeredocs
    have hsize : 3 + heredocsSize s.openHeredocs ≤ 1024 := h
    rw [UInt8.toNat_ofNat', Nat.mod_eq_of_lt]
    omega
  simp only [ScannerState.settle, ScannerState.serialize, hloop, hlength, if_pos h, if_true]
  rw [← hlength, List.take_length]
  simp only [ScannerState.header, List.cons_append, List.nil_append, deserialize, hcount,
    byteFlag_flagByte]
  rw [deserializeHeredocs_flatMap (Nat.le_trans (Nat.le_add_left _ 3) h), Option.bind_eq_bind,
    Option.bind_some, if_pos rfl]

/-- A state that does not fit is forgotten if the loop gives up in time, and else is written past
the end of the buffer. -/
theorem settle_of_not_fits (h : serializationBufferSize < s.size) :
    (s.settle = some .fresh ↔ s.GivesUpInTime) ∧ (s.settle = none ↔ ¬ s.GivesUpInTime) := by
  have hup := serializeHeredocs_gives_up_iff s.header s.openHeredocs
  have hloop : serializationBufferSize < (serializeHeredocs s.header s.openHeredocs).1.length ∨
      (serializeHeredocs s.header s.openHeredocs).2 = false := serializeHeredocs_of_not_fits h
  have hsettle : s.settle = if (serializeHeredocs s.header s.openHeredocs).1.length ≤
      serializationBufferSize then some .fresh else none := by
    by_cases hlen : (serializeHeredocs s.header s.openHeredocs).1.length ≤ serializationBufferSize
    · have hfalse := hloop.resolve_left (Nat.not_lt.2 hlen)
      rw [if_pos hlen, ScannerState.settle, ScannerState.serialize, if_pos hlen, hfalse]
      rfl
    · rw [if_neg hlen, ScannerState.settle, ScannerState.serialize, if_neg hlen]
  have hiff : s.GivesUpInTime ↔
      (serializeHeredocs s.header s.openHeredocs).1.length ≤ serializationBufferSize := by
    refine hup.symm.trans ⟨fun hboth ↦ hboth.1, fun hlen ↦ ⟨hlen, ?_⟩⟩
    exact hloop.resolve_left (Nat.not_lt.2 hlen)
  rw [hsettle, hiff]
  split_ifs with hlen <;> simp [hlen]

/-- A state is restored as it was exactly when it fits. -/
theorem settle_eq_some_self_iff : s.settle = some s ↔ s.size ≤ serializationBufferSize := by
  refine ⟨fun h ↦ ?_, settle_of_fits⟩
  by_contra hsize
  have hnot := settle_of_not_fits (Nat.not_le.1 hsize)
  by_cases hup : s.GivesUpInTime
  · have hfresh : s = .fresh := Option.some.inj (h.symm.trans (hnot.1.2 hup))
    rw [hfresh] at hsize
    exact hsize (by decide)
  · rw [hnot.2.2 hup] at h
    exact absurd h (by simp)

end Settle

/-- A text is scanned from the states that the scans before left exactly when each of these states
fits in the buffer: its three bytes, and for each open heredoc six bytes and four for each character
of its tag, its indent and its escapes. A scan is any function of the state, and answers `none` if
it finds no token. -/
theorem scanner_state_survives_iff {I : Type*} (scan : ScannerState → I → Option ScannerState)
    (is : List I) :
    SavedState.kept ScannerState.settle scan .fresh is =
        some (SavedState.inMemory scan .fresh is) ↔
      ∀ s ∈ SavedState.inMemory scan .fresh is,
        3 + (s.openHeredocs.map fun h ↦
          6 + 4 * (h.word.length + h.indent.length + h.escapes.length)).sum ≤ 1024 := by
  have hfresh : ScannerState.fresh.settle = some .fresh := settle_of_fits (by decide)
  rw [SavedState.kept_eq_some_inMemory_iff hfresh]
  exact forall₂_congr fun s _ ↦ settle_eq_some_self_iff

end PuppetC
