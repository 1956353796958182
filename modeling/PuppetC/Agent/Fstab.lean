import PuppetC.Agent.Hosts
import PuppetC.Sscanf

/-!
# The table of file systems

The agent reads the entries of the table with `getmntent`, which decodes octal escapes, and writes
the file anew from its own pieces: comments and blank lines are copied, and entries are written, as
they are, in the places of the other lines. The file is read for this in pieces of a buffer of 1024
bytes.

## Main definitions

* `readFstab`, `readEntryLine`: `read_fstab` and the line that `getmntent` reads.
* `originalLines`, `writeFstab`: `write_fstab`.
* `FstabUpdate.apply`: `fstab_add_or_update` and `fstab_remove`.

## Main results

* `readEntryLine_fstabLine`: an entry whose texts fit comes back from its line.
-/

namespace PuppetC

/-! ### Reading -/

/-- `fstab_entry_t`. -/
structure FstabEntry where
  device : Bytes
  mountpoint : Bytes
  fstype : Bytes
  options : Bytes
  dump : Int32
  pass : Int32
  deriving DecidableEq

/-- The escapes that `getmntent` decodes. -/
def decodeName : Bytes → Bytes
  | '\x5c' :: '0' :: '4' :: '0' :: t => ' ' :: decodeName t
  | '\x5c' :: '0' :: '1' :: '1' :: t => '\t' :: decodeName t
  | '\x5c' :: '0' :: '1' :: '2' :: t => '\n' :: decodeName t
  | '\x5c' :: '\x5c' :: t => '\x5c' :: decodeName t
  | '\x5c' :: '1' :: '3' :: '4' :: t => '\x5c' :: decodeName t
  | c :: t => c :: decodeName t
  | [] => []

/-- `sscanf(t, " %d %d ", ..)`; numbers that are missing are zero. -/
def scanNumbers (t : Bytes) : Int32 × Int32 :=
  match scanInt t with
  | none => (0, 0)
  | some (dump, rest) => (Int32.ofInt dump, Int32.ofInt ((scanInt rest).elim 0 (·.1)))

/-- The entry that `getmntent` reads from a line: its words, and two numbers behind them. Lines that
are blank or start with a comment have none; words that are missing are empty. -/
def readEntryLine (l : Bytes) : Option FstabEntry :=
  match wordsOf isHostBlank l with
  | [] => none
  | device :: fields =>
    if device.head? = some '#' then none
    else
      let numbers := scanNumbers ([' '].intercalate (fields.drop 3))
      some ⟨decodeName device, decodeName (fields.getD 0 []), decodeName (fields.getD 1 []),
        decodeName (fields.getD 2 []), numbers.1, numbers.2⟩

/-- `read_fstab`. -/
def readFstab (t : Bytes) : List FstabEntry := (textLines t).filterMap readEntryLine

/-! ### Writing -/

/-- The line of an entry. -/
def fstabLine (e : FstabEntry) : Bytes :=
  e.device ++ '\t' :: e.mountpoint ++ '\t' :: e.fstype ++ '\t' :: e.options ++
    '\t' :: formatLong e.dump.toInt ++ '\t' :: formatLong e.pass.toInt ++ ['\n']

/-- The pieces that are copied: what is behind their blanks is a comment or nothing. -/
def isCopied (line : Bytes) : Bool :=
  (line.dropWhile isHostBlank).head?.all fun c ↦ c = '#' || c = '\n'

/-- A piece of the file if it is copied; `none` stands for a place of an entry. -/
def originalLine (piece : Bytes) : Option Bytes :=
  let line := piece.takeWhile (· ≠ '\x00')
  if isCopied line then some line else none

/-- The pieces of the file. -/
def originalLines (t : Bytes) : List (Option Bytes) := (fgetsLines 1023 t).map originalLine

/-- The header of a new file. -/
def fstabHeader : Bytes :=
  "# /etc/fstab - filesystem table\n".toList ++
    "# <device>  <mountpoint>  <fstype>  <options>  <dump>  <pass>\n\n".toList

/-- Pieces that are copied and entries in their places; the remaining entries follow. -/
def writeLines : List (Option Bytes) → List FstabEntry → Bytes
  | [], es => es.flatMap fstabLine
  | some line :: rest, es => line ++ writeLines rest es
  | none :: rest, [] => writeLines rest []
  | none :: rest, e :: es => fstabLine e ++ writeLines rest es

/-- `write_fstab`, as the new text of the file. -/
def writeFstab (es : List FstabEntry) (t : Bytes) : Bytes :=
  (if originalLines t = [] then fstabHeader else []) ++ writeLines (originalLines t) es

/-! ### Entries that come back -/

/-- What separates words and lines. -/
def isFstabSeparator (c : Char) : Bool := isHostBlank c || c = '\n'

/-- A text that comes back as it is written. -/
structure IsFstabText (t : Bytes) : Prop where
  word : ∀ c ∈ t, isFstabSeparator c = false
  decoded : decodeName t = t

/-- The texts of an entry. -/
def FstabEntry.names (e : FstabEntry) : List Bytes := [e.device, e.mountpoint, e.fstype, e.options]

/-- An entry that comes back from its line: its texts are words, which getmntent does not change,
and its device does not start like a comment. -/
structure FstabEntry.Fits (e : FstabEntry) : Prop where
  names : ∀ t ∈ e.names, t ≠ [] ∧ IsFstabText t
  device : e.device.head? ≠ some '#'

section Numbers

theorem decodeName_char {c : Char} (hc : c ≠ '\x5c') (t : Bytes) :
    decodeName (c :: t) = c :: decodeName t := by
  rw [decodeName] <;> rintro _ rfl <;> exact absurd rfl hc

/-- Texts without backslashes are not decoded. -/
theorem decodeName_eq {t : Bytes} (ht : '\x5c' ∉ t) : decodeName t = t := by
  induction t with
  | nil => rfl
  | cons c t ih =>
    rw [List.mem_cons, not_or] at ht
    rw [decodeName_char (Ne.symm ht.1), ih ht.2]

theorem isFstabText_formatLong (n : ℤ) : IsFstabText (formatLong n) where
  word c hc := by
    have hother {d : Char} (hd : d ≠ '-' ∧ d.isDigit = false) : c ≠ d := by
      rintro rfl
      rcases mem_formatLong hc with h | h
      · exact hd.1 h
      · rw [hd.2] at h
        cases h
    simp [isFstabSeparator, isHostBlank, hother (d := ' ') (by decide),
      hother (d := '\t') (by decide), hother (d := '\n') (by decide)]
  decoded := by
    refine decodeName_eq fun hc ↦ ?_
    rcases mem_formatLong hc with h | h
    · cases h
    · revert h
      decide

/-- A number is read as it was written. -/
theorem scanInt_formatLong (n : ℤ) (rest : Bytes) (hrest : ∀ c ∈ rest.head?, ¬ c.isDigit) :
    scanInt (formatLong n ++ rest) = some (n, rest) := by
  set ds : Digits := ⟨Nat.toDigits 10 n.natAbs, toDigits_ne_nil _, toDigits_digits _⟩ with hds
  have hvalue : ds.value = n.natAbs := Nat.ofDigitChars_ten_toDigits
  unfold formatLong
  split_ifs with hneg
  · obtain ⟨htake, hdrop⟩ := span_digits ds.isDigit hrest
    have hminus : ∀ t : Bytes, ('-' :: t).dropWhile isSpaceChar = '-' :: t := fun t ↦ rfl
    rw [List.cons_append, scanInt, hminus]
    change scanDigits (-1) (ds.chars ++ rest) = some (n, rest)
    rw [scanDigits, htake, hdrop, if_neg ds.ne_nil]
    change some (-1 * (ds.value : ℤ), rest) = some (n, rest)
    rw [hvalue]
    congr 2
    omega
  · have hscan := scanInt_append ds hrest
    rw [hvalue, Int.natAbs_of_nonneg (by omega)] at hscan
    exact hscan

/-- The numbers of an entry. -/
theorem scanNumbers_formatLong (dump pass : Int32) :
    scanNumbers ([' '].intercalate [formatLong dump.toInt, formatLong pass.toInt]) =
      (dump, pass) := by
  have hdump := scanInt_formatLong dump.toInt (' ' :: formatLong pass.toInt)
    (fun c hc ↦ by cases hc; decide)
  have hpass := scanInt_formatLong pass.toInt [] (fun c hc ↦ by cases hc)
  have hspace : scanInt (' ' :: formatLong pass.toInt) = scanInt (formatLong pass.toInt) := rfl
  rw [List.append_nil] at hpass
  rw [List.intercalate_cons_cons, List.intercalate_singleton, List.append_assoc,
    List.singleton_append, scanNumbers, hdump]
  dsimp only
  rw [hspace, hpass, Option.elim_some, Int32.ofInt_toInt, Int32.ofInt_toInt]

end Numbers

section Lines

variable {e : FstabEntry}

/-- The texts of a line. -/
def FstabEntry.texts (e : FstabEntry) : List Bytes :=
  e.names ++ [formatLong e.dump.toInt, formatLong e.pass.toInt]

theorem fstabLine_eq (e : FstabEntry) : fstabLine e = ['\t'].intercalate e.texts ++ ['\n'] := by
  simp [fstabLine, FstabEntry.texts, FstabEntry.names, List.intercalate_cons_cons]

theorem FstabEntry.mem_texts {t : Bytes} (h : t ∈ e.texts) :
    t ∈ e.names ∨ ∃ n, t = formatLong n := by
  rcases List.mem_append.1 h with h | h
  · exact Or.inl h
  · rcases List.mem_pair.1 h with rfl | rfl
    exacts [Or.inr ⟨_, rfl⟩, Or.inr ⟨_, rfl⟩]

/-- The texts of an entry that fits are words. -/
theorem FstabEntry.Fits.isFstabText (h : e.Fits) : ∀ t ∈ e.texts, t ≠ [] ∧ IsFstabText t := by
  intro t ht
  rcases FstabEntry.mem_texts ht with ht | ⟨n, rfl⟩
  · exact h.names t ht
  · exact ⟨formatLong_ne_nil n, isFstabText_formatLong n⟩

/-- A word of the table. -/
theorem IsFstabText.wordsOf_eq {t : Bytes} (h : IsFstabText t) :
    wordsOf isHostBlank t = if t = [] then [] else [t] := by
  split_ifs with hnil
  · rw [hnil, wordsOf_nil]
  · exact wordsOf_word (fun c hc ↦ (Bool.or_eq_false_iff.1 (h.word c hc)).1) hnil

theorem FstabEntry.Fits.wordsOf_texts (h : e.Fits) :
    e.texts.flatMap (wordsOf isHostBlank) = e.texts := by
  have hwords : ∀ ts : List Bytes, (∀ t ∈ ts, t ≠ [] ∧ IsFstabText t) →
      ts.flatMap (wordsOf isHostBlank) = ts := by
    intro ts hts
    induction ts with
    | nil => rfl
    | cons t ts ih =>
      rw [List.forall_mem_cons] at hts
      rw [List.flatMap_cons, ih hts.2, hts.1.2.wordsOf_eq, if_neg hts.1.1, List.singleton_append]
  exact hwords _ h.isFstabText

/-- An entry that fits comes back from its line. -/
theorem readEntryLine_fstabLine (h : e.Fits) :
    readEntryLine (['\t'].intercalate e.texts) = some e := by
  have hnumbers := scanNumbers_formatLong e.dump e.pass
  obtain ⟨hdevice, hmountpoint, hfstype, hoptions⟩ : decodeName e.device = e.device ∧
      decodeName e.mountpoint = e.mountpoint ∧ decodeName e.fstype = e.fstype ∧
        decodeName e.options = e.options := by
    have htexts := h.names
    simp only [FstabEntry.names, List.forall_mem_cons] at htexts
    exact ⟨htexts.1.2.decoded, htexts.2.1.2.decoded, htexts.2.2.1.2.decoded, htexts.2.2.2.1.2.decoded⟩
  rw [readEntryLine, wordsOf_intercalate rfl, h.wordsOf_texts, FstabEntry.texts, FstabEntry.names]
  dsimp only [List.cons_append, List.nil_append]
  rw [if_neg h.device]
  simp only [List.getD_cons_zero, List.getD_cons_succ, List.drop_succ_cons, List.drop_zero, hdevice,
    hmountpoint, hfstype, hoptions, hnumbers]

end Lines

/-! ### Updates -/

/-- `find_fstab_entry`. -/
def findFstabEntry (es : List FstabEntry) (mountpoint : Bytes) : Option FstabEntry :=
  es.find? fun e ↦ e.mountpoint = mountpoint

/-- The arguments of `fstab_add_or_update` or of `fstab_remove`. -/
inductive FstabUpdate where
  | addOrUpdate (mountpoint device fstype : Bytes) (options : Option Bytes) (dump pass : Int32)
  | remove (mountpoint : Bytes)

/-- The first entry for a mount point is replaced, or an entry is added. -/
def fstabAddOrUpdate (new : FstabEntry) : List FstabEntry → List FstabEntry
  | [] => [new]
  | e :: es => if e.mountpoint = new.mountpoint then new :: es else e :: fstabAddOrUpdate new es

/-- The first entry for a mount point is removed. -/
def fstabRemove (mountpoint : Bytes) (es : List FstabEntry) : List FstabEntry :=
  es.eraseP fun e ↦ e.mountpoint = mountpoint

namespace FstabUpdate

/-- The mount point of an update. -/
def mountpoint : FstabUpdate → Bytes
  | addOrUpdate mountpoint .. => mountpoint
  | remove mountpoint => mountpoint

/-- What an update makes of the entries. -/
def apply : FstabUpdate → List FstabEntry → List FstabEntry
  | addOrUpdate mountpoint device fstype options dump pass, es =>
    fstabAddOrUpdate
      ⟨device, mountpoint, fstype, options.getD "defaults".toList, dump, pass⟩ es
  | remove mountpoint, es => fstabRemove mountpoint es

/-- An update adds an entry. -/
def Adds : FstabUpdate → List FstabEntry → Prop
  | addOrUpdate mountpoint .., es => findFstabEntry es mountpoint = none
  | remove _, _ => False

variable {new : FstabEntry} {es : List FstabEntry} {u : FstabUpdate}

theorem fstabAddOrUpdate_others (new : FstabEntry) (es : List FstabEntry) :
    ((fstabAddOrUpdate new es).filter fun e ↦ e.mountpoint ≠ new.mountpoint) =
      es.filter fun e ↦ e.mountpoint ≠ new.mountpoint := by
  induction es with
  | nil => simp [fstabAddOrUpdate]
  | cons e es ih =>
    rw [fstabAddOrUpdate]
    split_ifs with he
    · rw [List.filter_cons_of_neg (by simp), List.filter_cons_of_neg (by simp [he])]
    · rw [List.filter_cons_of_pos (by simp [he]), List.filter_cons_of_pos (by simp [he]), ih]

theorem fstabRemove_others (mountpoint : Bytes) (es : List FstabEntry) :
    ((fstabRemove mountpoint es).filter fun e ↦ e.mountpoint ≠ mountpoint) =
      es.filter fun e ↦ e.mountpoint ≠ mountpoint := by
  induction es with
  | nil => rfl
  | cons e es ih =>
    rw [fstabRemove] at ih ⊢
    rw [List.eraseP_cons]
    by_cases he : e.mountpoint = mountpoint
    · rw [decide_eq_true he, cond_true, List.filter_cons_of_neg (by simp [he])]
    · rw [decide_eq_false he, cond_false, List.filter_cons_of_pos (by simp [he]),
        List.filter_cons_of_pos (by simp [he]), ih]

/-- Entries for other mount points stay. -/
theorem apply_others (u : FstabUpdate) (es : List FstabEntry) :
    ((u.apply es).filter fun e ↦ e.mountpoint ≠ u.mountpoint) =
      es.filter fun e ↦ e.mountpoint ≠ u.mountpoint := by
  cases u with
  | addOrUpdate mountpoint device fstype options dump pass =>
    exact fstabAddOrUpdate_others
      ⟨device, mountpoint, fstype, options.getD "defaults".toList, dump, pass⟩ es
  | remove mountpoint => exact fstabRemove_others mountpoint es

theorem length_fstabAddOrUpdate (new : FstabEntry) (es : List FstabEntry) :
    (fstabAddOrUpdate new es).length =
      es.length + if findFstabEntry es new.mountpoint = none then 1 else 0 := by
  induction es with
  | nil => rfl
  | cons e es ih =>
    rw [fstabAddOrUpdate, findFstabEntry, List.find?_cons]
    by_cases he : e.mountpoint = new.mountpoint
    · rw [if_pos he, decide_eq_true he]
      simp
    · rw [if_neg he, decide_eq_false he, List.length_cons, ih, findFstabEntry]
      simp only [List.length_cons]
      omega

/-- There are more entries than before only if one is added. -/
theorem length_lt_apply_iff : es.length < (u.apply es).length ↔ u.Adds es := by
  cases u with
  | addOrUpdate mountpoint device fstype options dump pass =>
    rw [apply, length_fstabAddOrUpdate, Adds]
    split_ifs with h
    · exact iff_of_true (by omega) h
    · exact iff_of_false (by omega) h
  | remove mountpoint =>
    refine iff_of_false ?_ not_false
    rw [apply, fstabRemove, not_lt]
    exact List.length_eraseP_le

end FstabUpdate

end PuppetC
