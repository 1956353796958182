import Mathlib.Data.List.GetD
import PuppetC.Agent.Fstab
import PuppetC.Agent.HostEntries

/-!
# Updates of the table of file systems

The file that the agent writes should read back as the entries that the update makes of those
before, and comments should stay. Entries are decoded when they are read, but written without
escapes, so they come back only if there is nothing to escape; the last line, if it is a comment
without a newline, takes in an entry that is added; and lines that do not fit the buffer are taken
for several.

## Main definitions

* `FstabKeeps`: what an update should do.
* `FstabCareful`: the condition.
* `Rewritten`: what is written over a text whose lines fit the buffer.

## Main results

* `Rewritten.fits_of_readFstab`: entries that come back have nothing to escape.
* `fstab_update_iff`: an update does what it should exactly if the condition holds.
-/

namespace PuppetC

/-! ### What an update should do -/

/-- A comment, which may be indented. -/
def isComment (l : Bytes) : Bool := (l.dropWhile isHostBlank).head? = some '#'

/-- The comments of a text. -/
def commentLines (t : Bytes) : List Bytes := (textLines t).filter isComment

/-- The entries of the file that is written are the updated ones, so those for other mount points
are kept, and comments stay. -/
structure FstabKeeps (u : FstabUpdate) (t : Bytes) : Prop where
  entries : readFstab (writeFstab (u.apply (readFstab t)) t) = u.apply (readFstab t)
  others : ((readFstab (writeFstab (u.apply (readFstab t)) t)).filter
      fun e ↦ e.mountpoint ≠ u.mountpoint) =
    (readFstab t).filter fun e ↦ e.mountpoint ≠ u.mountpoint
  comments : (commentLines t).Sublist (commentLines (writeFstab (u.apply (readFstab t)) t))

/-- The last line is a comment without a newline. -/
def EndsInComment (t : Bytes) : Prop :=
  ∃ l ∈ (textLines t).getLast?, isComment l = true ∧ t.getLast? ≠ some '\n'

/-- The condition: the entries have nothing to escape, and an entry is not added behind a comment
without a newline. -/
structure FstabCareful (u : FstabUpdate) (t : Bytes) : Prop where
  fits : ∀ e ∈ u.apply (readFstab t), e.Fits
  ends : ¬ (EndsInComment t ∧ u.Adds (readFstab t))

/-! ### Decoding -/

section Decoding

variable {t : Bytes}

/-- Decoding makes a text shorter or leaves it. -/
theorem length_decodeName_lt_or_eq (t : Bytes) :
    (decodeName t).length < t.length ∨ decodeName t = t := by
  fun_induction decodeName t with
  | case1 t ih | case2 t ih | case3 t ih | case4 t ih | case5 t ih =>
    left
    rcases ih with ih | ih
    · simp only [List.length_cons]
      omega
    · simp only [List.length_cons, ih]
      omega
  | case6 c t _ _ _ _ _ ih =>
    rcases ih with ih | ih
    · left
      simpa using ih
    · right
      rw [ih]
  | case7 => exact Or.inr rfl

theorem decodeName_ne_nil (ht : t ≠ []) : decodeName t ≠ [] := by
  fun_cases decodeName t with
  | case7 => exact absurd rfl ht
  | _ => exact List.cons_ne_nil _ _

/-- A text that is decoded to a comment is one. -/
theorem head?_of_decodeName (h : (decodeName t).head? = some '#') : t.head? = some '#' := by
  revert h
  fun_cases decodeName t with
  | case6 c t => exact id
  | case7 => exact id
  | _ => exact fun h ↦ by cases h

end Decoding

/-! ### Lines and words -/

section Lines

variable {l m : Bytes} {e : FstabEntry}

theorem wordsOf_dropWhile (l : Bytes) :
    wordsOf isHostBlank (l.dropWhile isHostBlank) = wordsOf isHostBlank l := by
  have hsplit := List.takeWhile_append_dropWhile (p := isHostBlank) (l := l)
  conv_rhs => rw [← hsplit, wordsOf_seps_append fun c hc ↦ List.mem_takeWhile_imp hc]

/-- The first word of a line that does not start with a blank. -/
theorem wordsOf_cons {c : Char} (hc : isHostBlank c = false) (t : Bytes) :
    ∃ w ws, wordsOf isHostBlank (c :: t) = (c :: w) :: ws := by
  have hsplit := List.takeWhile_append_dropWhile (p := fun c ↦ !isHostBlank c) (l := t)
  have hword : ∀ d ∈ c :: t.takeWhile (fun c ↦ !isHostBlank c), isHostBlank d = false :=
    List.forall_mem_cons.2 ⟨hc, fun d hd ↦ by simpa using List.mem_takeWhile_imp hd⟩
  cases hrest : t.dropWhile fun c ↦ !isHostBlank c with
  | nil =>
    rw [hrest, List.append_nil] at hsplit
    rw [hsplit] at hword
    exact ⟨t, [], wordsOf_word hword (List.cons_ne_nil _ _)⟩
  | cons d u =>
    have hd : isHostBlank d = true := by
      have hnot := List.head?_dropWhile_not (fun c ↦ !isHostBlank c) t
      rw [hrest] at hnot
      simpa using hnot
    rw [hrest] at hsplit
    rw [← hsplit, ← List.cons_append]
    exact ⟨_, _, wordsOf_word_append hword (List.cons_ne_nil _ _) hd u⟩

/-- The lines that getmntent skips are blank or comments. -/
theorem readEntryLine_eq_none_iff :
    readEntryLine l = none ↔ (∀ c ∈ l, isHostBlank c = true) ∨ isComment l = true := by
  rw [readEntryLine, ← wordsOf_dropWhile, ← List.dropWhile_eq_nil_iff, isComment]
  cases h : l.dropWhile isHostBlank with
  | nil => exact iff_of_true (by rw [wordsOf_nil]) (Or.inl rfl)
  | cons c t =>
    have hc : isHostBlank c = false := by
      have hnot := List.head?_dropWhile_not isHostBlank l
      rwa [h] at hnot
    obtain ⟨w, ws, hwords⟩ := wordsOf_cons hc t
    rw [hwords]
    dsimp only
    rw [List.head?_cons, List.head?_cons]
    split_ifs with hhash
    · exact iff_of_true rfl (Or.inr (decide_eq_true hhash))
    · exact iff_of_false (fun h ↦ by cases h)
        (by simpa using hhash)

/-- The pieces that are copied are the lines that getmntent skips. -/
theorem isCopied_iff (hl : '\n' ∉ l) : isCopied l = true ↔ readEntryLine l = none := by
  rw [readEntryLine_eq_none_iff, ← List.dropWhile_eq_nil_iff, isCopied, isComment]
  have hmem : ∀ c ∈ l.dropWhile isHostBlank, c ≠ '\n' :=
    fun c hc ↦ ne_of_mem_of_not_mem ((List.dropWhile_sublist _).subset hc) hl
  cases h : l.dropWhile isHostBlank with
  | nil => simp
  | cons c t =>
    rw [h] at hmem
    have hc := hmem c List.mem_cons_self
    simp [hc]

theorem isCopied_newline (hl : '\n' ∉ l) : isCopied (l ++ ['\n']) = isCopied l := by
  induction l with
  | nil => rfl
  | cons c l ih =>
    rw [List.mem_cons, not_or] at hl
    rw [List.cons_append]
    by_cases hc : isHostBlank c = true
    · have htail := ih hl.2
      rw [isCopied] at htail ⊢
      rw [isCopied, List.dropWhile_cons_of_pos hc, List.dropWhile_cons_of_pos hc]
      exact htail
    · rw [isCopied, isCopied, List.dropWhile_cons_of_neg hc, List.dropWhile_cons_of_neg hc]
      rfl

/-- Comments stay comments with text behind them. -/
theorem isComment_append (h : isComment l = true) (m : Bytes) : isComment (l ++ m) = true := by
  rw [isComment, decide_eq_true_eq] at h ⊢
  obtain ⟨t, ht⟩ := List.head?_eq_some_iff.1 h
  rw [List.dropWhile_append, ht]
  rfl

/-- Blanks in front of a line do not matter. -/
theorem isComment_blanks (hl : ∀ c ∈ l, isHostBlank c = true) (m : Bytes) :
    isComment (l ++ m) = isComment m := by
  rw [isComment, List.dropWhile_append_of_pos hl, ← isComment]

theorem readEntryLine_blanks (hl : ∀ c ∈ l, isHostBlank c = true) (m : Bytes) :
    readEntryLine (l ++ m) = readEntryLine m := by
  rw [readEntryLine, wordsOf_seps_append hl, ← readEntryLine]

end Lines

/-! ### What is written -/

/-- What is written over a text whose lines fit the buffer: lines that `getmntent` skips are copied,
and entries are written in the places of the other lines; a line that fills the buffer leaves its
newline behind the entry. -/
inductive Rewritten : Bytes → List FstabEntry → Bytes → Prop where
  | nil (es : List FstabEntry) : Rewritten [] es (es.flatMap fstabLine)
  | lastCopied {l : Bytes} (es : List FstabEntry) (hl : '\n' ∉ l) (hne : l ≠ [])
      (hread : readEntryLine l = none) : Rewritten l es (l ++ es.flatMap fstabLine)
  | lastEntry {l : Bytes} (es : List FstabEntry) (hl : '\n' ∉ l) (hne : l ≠ [])
      (hread : readEntryLine l ≠ none) : Rewritten l es (es.flatMap fstabLine)
  | copied {l t s : Bytes} {es : List FstabEntry} (hl : '\n' ∉ l)
      (hread : readEntryLine l = none) (h : Rewritten t es s) :
      Rewritten (l ++ '\n' :: t) es (l ++ '\n' :: s)
  | entry {l t s newline : Bytes} {es : List FstabEntry} (hl : '\n' ∉ l)
      (hread : readEntryLine l ≠ none) (hnewline : newline = [] ∨ newline = ['\n'])
      (h : Rewritten t (es.drop 1) s) :
      Rewritten (l ++ '\n' :: t) es ((es.take 1).flatMap fstabLine ++ (newline ++ s))

/-- A piece without NUL. -/
theorem originalLine_eq {l : Bytes} (hnul : '\x00' ∉ l) :
    originalLine l = if isCopied l then some l else none := by
  have htake : l.takeWhile (fun c ↦ decide (c ≠ '\x00')) = l :=
    List.takeWhile_eq_self_iff.2 fun c hc ↦ decide_eq_true (ne_of_mem_of_not_mem hc hnul)
  rw [originalLine, htake]

/-- The pieces of a line that fits the buffer. -/
theorem originalLines_line {l : Bytes} (hl : '\n' ∉ l) (hnul : '\x00' ∉ l) (hlength : l.length ≤ 1023)
    (t : Bytes) : originalLines (l ++ '\n' :: t) =
      if l.length < 1023 then
        (if isCopied l then some (l ++ ['\n']) else none) :: originalLines t
      else (if isCopied l then some l else none) :: some ['\n'] :: originalLines t := by
  by_cases hlt : l.length < 1023
  · have hnul' : '\x00' ∉ l ++ ['\n'] := by simpa using hnul
    rw [if_pos hlt, originalLines, fgetsLines_line hl hlt, List.map_cons, originalLine_eq hnul',
      isCopied_newline hl, ← originalLines]
  · have hrest : fgetsLines 1023 ('\n' :: t) = ['\n'] :: fgetsLines 1023 t :=
      fgetsLines_line (l := []) List.not_mem_nil (by simp) t
    rw [if_neg hlt, originalLines, fgetsLines_full hl (by omega) (by omega), List.map_cons,
      originalLine_eq hnul, hrest]
    rfl

theorem originalLines_last {l : Bytes} (hl : '\n' ∉ l) (hnul : '\x00' ∉ l)
    (hlength : l.length ≤ 1023) (hne : l ≠ []) :
    originalLines l = [if isCopied l then some l else none] := by
  have hpieces : fgetsLines 1023 l = [l] := by
    by_cases hlt : l.length < 1023
    · exact fgetsLines_last hl hlt hne
    · have hsize : l.length = 1023 := by omega
      have hfull := fgetsLines_full hl hsize (by omega) []
      rw [List.append_nil] at hfull
      exact hfull
  rw [originalLines, hpieces, List.map_singleton, originalLine_eq hnul]

theorem writeLines_none (os : List (Option Bytes)) (es : List FstabEntry) :
    writeLines (none :: os) es = (es.take 1).flatMap fstabLine ++ writeLines os (es.drop 1) := by
  cases es with
  | nil => rfl
  | cons e es => simp [writeLines]

/-- The file that is written over a text whose lines fit the buffer. -/
theorem rewritten_writeLines {t : Bytes} (hnul : '\x00' ∉ t)
    (hlength : ∀ l ∈ textLines t, l.length ≤ 1023) (es : List FstabEntry) :
    Rewritten t es (writeLines (originalLines t) es) := by
  induction t using textLines_induct generalizing es with
  | nil => exact Rewritten.nil es
  | last l hl hne =>
    rw [textLines_last hl hne, List.forall_mem_singleton] at hlength
    rw [originalLines_last hl hnul hlength hne]
    by_cases hread : readEntryLine l = none
    · rw [if_pos ((isCopied_iff hl).2 hread)]
      exact Rewritten.lastCopied es hl hne hread
    · rw [if_neg (mt (isCopied_iff hl).1 hread), writeLines_none]
      have hlast := Rewritten.lastEntry es hl hne hread
      rw [← List.take_append_drop 1 es, List.flatMap_append, List.take_append_drop] at hlast
      exact hlast
  | line l t hl ih =>
    rw [textLines_line hl, List.forall_mem_cons] at hlength
    rw [List.mem_append, List.mem_cons, not_or, not_or] at hnul
    have hrest (es : List FstabEntry) := ih hnul.2.2 hlength.2 es
    rw [originalLines_line hl hnul.1 hlength.1]
    by_cases hread : readEntryLine l = none
    · have hcopied := Rewritten.copied hl hread (hrest es)
      rw [if_pos ((isCopied_iff hl).2 hread), if_pos ((isCopied_iff hl).2 hread)]
      split_ifs
      · rw [writeLines, List.append_assoc]
        exact hcopied
      · rw [writeLines, writeLines]
        exact hcopied
    · rw [if_neg (mt (isCopied_iff hl).1 hread), if_neg (mt (isCopied_iff hl).1 hread)]
      split_ifs
      · rw [writeLines_none]
        exact Rewritten.entry hl hread (Or.inl rfl) (hrest (es.drop 1))
      · rw [writeLines_none, writeLines]
        exact Rewritten.entry hl hread (Or.inr rfl) (hrest (es.drop 1))

/-! ### The lines of what is written -/

section Written

variable {l m t s x : Bytes} {e : FstabEntry} {es : List FstabEntry}

/-- A line of an entry without its newline. -/
def fstabBody (e : FstabEntry) : Bytes := ['\t'].intercalate e.texts

theorem textLines_fstabLine_append (e : FstabEntry) (u : Bytes) :
    textLines (fstabLine e ++ u) = textLines (fstabLine e) ++ textLines u := by
  rw [fstabLine_eq, List.append_assoc, List.singleton_append, textLines_append_newline]

theorem textLines_fstabLines_append (es : List FstabEntry) (u : Bytes) :
    textLines (es.flatMap fstabLine ++ u) =
      (es.flatMap fun e ↦ textLines (fstabLine e)) ++ textLines u := by
  induction es with
  | nil => rfl
  | cons e es ih =>
    rw [List.flatMap_cons, List.flatMap_cons, List.append_assoc, List.append_assoc,
      textLines_fstabLine_append, ih]

theorem textLines_newline_append {newline : Bytes} (h : newline = [] ∨ newline = ['\n'])
    (u : Bytes) : textLines (newline ++ u) = newline.map (fun _ ↦ []) ++ textLines u := by
  rcases h with rfl | rfl
  · rfl
  · exact textLines_line (l := []) List.not_mem_nil u

/-- The lines of a text behind something without newlines. -/
theorem mem_textLines_append (hl : '\n' ∉ l) (h : x ∈ textLines (l ++ t)) :
    x = l ∨ x ∈ textLines t ∨ ∃ m ∈ textLines t, x = l ++ m := by
  rw [textLines_append_of_notMem hl] at h
  cases ht : textLines t with
  | nil =>
    rw [ht] at h
    dsimp only at h
    split_ifs at h
    · cases h
    · exact Or.inl (List.mem_singleton.1 h)
  | cons m ms =>
    rw [ht] at h
    rcases List.mem_cons.1 h with rfl | h
    · exact Or.inr (Or.inr ⟨m, List.mem_cons_self, rfl⟩)
    · exact Or.inr (Or.inl (List.mem_cons_of_mem _ h))

/-- The lines that are read as entries are those that were written for entries, but for blanks. -/
theorem Rewritten.exists_of_mem (h : Rewritten t es s) (hx : x ∈ textLines s)
    (hread : readEntryLine x ≠ none) :
    ∃ e ∈ es, ∃ m ∈ textLines (fstabLine e), wordsOf isHostBlank x = wordsOf isHostBlank m := by
  have hlines {es : List FstabEntry} {x : Bytes} (hx : x ∈ textLines (es.flatMap fstabLine)) :
      ∃ e ∈ es, x ∈ textLines (fstabLine e) := by
    have happend := textLines_fstabLines_append es []
    rw [List.append_nil] at happend
    rw [happend, List.mem_append, List.mem_flatMap] at hx
    exact hx.resolve_right fun h ↦ by cases h
  induction h with
  | nil es =>
    obtain ⟨e, he, hm⟩ := hlines hx
    exact ⟨e, he, x, hm, rfl⟩
  | lastEntry es =>
    obtain ⟨e, he, hm⟩ := hlines hx
    exact ⟨e, he, x, hm, rfl⟩
  | @lastCopied l es hl hne hl' =>
    rcases mem_textLines_append hl hx with rfl | hx | ⟨m, hm, rfl⟩
    · exact absurd hl' hread
    · obtain ⟨e, he, hm⟩ := hlines hx
      exact ⟨e, he, x, hm, rfl⟩
    · obtain ⟨e, he, hm⟩ := hlines hm
      rcases readEntryLine_eq_none_iff.1 hl' with hblank | hcomment
      · exact ⟨e, he, m, hm, wordsOf_seps_append hblank m⟩
      · exact absurd (readEntryLine_eq_none_iff.2 (Or.inr (isComment_append hcomment m))) hread
  | @copied l t s es hl hl' h ih =>
    rw [textLines_line hl, List.mem_cons] at hx
    rcases hx with rfl | hx
    · exact absurd hl' hread
    · exact ih hx
  | @entry l t s newline es hl hl' hnewline h ih =>
    rw [textLines_fstabLines_append, textLines_newline_append hnewline, List.mem_append,
      List.mem_append, List.mem_flatMap, List.mem_map] at hx
    rcases hx with ⟨e, he, hm⟩ | ⟨c, -, rfl⟩ | hx
    · exact ⟨e, List.mem_of_mem_take he, x, hm, rfl⟩
    · exact absurd rfl hread
    · obtain ⟨e, he, hm⟩ := ih hx
      exact ⟨e, List.mem_of_mem_drop he, hm⟩

end Written

/-! ### Entries that come back -/

section ComeBack

variable {l t s x w : Bytes} {e : FstabEntry} {es : List FstabEntry}

/-- The texts of an entry are decoded words of its line. -/
theorem names_of_readEntryLine (h : readEntryLine x = some e) :
    ∀ f ∈ e.names, ∃ w, (w = [] ∨ w ∈ wordsOf isHostBlank x) ∧ f = decodeName w := by
  have hget {ws : List Bytes} (i : ℕ) : ws.getD i [] = [] ∨ ws.getD i [] ∈ ws := by
    by_cases hi : i < ws.length
    · rw [List.getD_eq_getElem _ _ hi]
      exact Or.inr (List.getElem_mem hi)
    · exact Or.inl (List.getD_eq_default _ _ (not_lt.1 hi))
  rw [readEntryLine] at h
  cases hwords : wordsOf isHostBlank x with
  | nil =>
    rw [hwords] at h
    cases h
  | cons device fields =>
    rw [hwords] at h
    dsimp only at h
    split_ifs at h
    cases h
    simp only [FstabEntry.names, List.forall_mem_cons]
    refine ⟨⟨device, Or.inr List.mem_cons_self, rfl⟩, ⟨_, (hget 0).imp_right ?_, rfl⟩,
      ⟨_, (hget 1).imp_right ?_, rfl⟩, ⟨_, (hget 2).imp_right ?_, rfl⟩, fun f hf ↦ by cases hf⟩ <;>
      exact List.mem_cons_of_mem _

/-- The device of an entry that is read is no comment. -/
theorem device_of_readEntryLine (h : readEntryLine x = some e) :
    e.device ≠ [] ∧ e.device.head? ≠ some '#' := by
  rw [readEntryLine] at h
  cases hwords : wordsOf isHostBlank x with
  | nil =>
    rw [hwords] at h
    cases h
  | cons device fields =>
    have hne : device ≠ [] := (mem_of_mem_wordsOf (hwords ▸ List.mem_cons_self)).1
    rw [hwords] at h
    dsimp only at h
    split_ifs at h with hhash
    cases h
    exact ⟨decodeName_ne_nil hne, fun h ↦ hhash (head?_of_decodeName h)⟩

/-- The other texts are not empty if there are enough words. -/
theorem ne_nil_of_readEntryLine (h : readEntryLine x = some e) :
    (3 ≤ (wordsOf isHostBlank x).length → e.mountpoint ≠ [] ∧ e.fstype ≠ []) ∧
      (4 ≤ (wordsOf isHostBlank x).length → e.options ≠ []) := by
  rw [readEntryLine] at h
  cases hwords : wordsOf isHostBlank x with
  | nil =>
    rw [hwords] at h
    cases h
  | cons device fields =>
    have hget {i : ℕ} (hi : i < fields.length) : decodeName (fields.getD i []) ≠ [] := by
      rw [List.getD_eq_getElem _ _ hi]
      have hmem : fields[i] ∈ wordsOf isHostBlank x := by
        rw [hwords]
        exact List.mem_cons_of_mem _ (List.getElem_mem hi)
      exact decodeName_ne_nil (mem_of_mem_wordsOf hmem).1
    rw [hwords] at h
    dsimp only at h
    split_ifs at h with hhash
    cases h
    rw [List.length_cons]
    exact ⟨fun hlength ↦ ⟨hget (by omega), hget (by omega)⟩, fun hlength ↦ hget (by omega)⟩

/-- The words of a text are those of its lines. -/
theorem wordsOf_textLines (t : Bytes) :
    wordsOf isFstabSeparator t = (textLines t).flatMap (wordsOf isHostBlank) := by
  have hline {l : Bytes} (hl : '\n' ∉ l) : wordsOf isFstabSeparator l = wordsOf isHostBlank l := by
    refine wordsOf_congr fun c hc ↦ ?_
    have hne : c ≠ '\n' := ne_of_mem_of_not_mem hc hl
    rw [isFstabSeparator, decide_eq_false hne, Bool.or_false]
  induction t using textLines_induct with
  | nil => rw [wordsOf_nil]; rfl
  | last l hl hne =>
    rw [textLines_last hl hne, hline hl, List.flatMap_cons, List.flatMap_nil, List.append_nil]
  | line l t hl ih =>
    rw [textLines_line hl, wordsOf_append_cons rfl, hline hl, ih, List.flatMap_cons]

/-- The words of an entry's lines are those of its texts. -/
theorem mem_texts_of_mem_wordsOf {m : Bytes} (hm : m ∈ textLines (fstabLine e))
    (hw : w ∈ wordsOf isHostBlank m) : ∃ y ∈ e.texts, w ∈ wordsOf isFstabSeparator y := by
  have hmem : w ∈ wordsOf isFstabSeparator (fstabLine e) := by
    rw [wordsOf_textLines]
    exact List.mem_flatMap.2 ⟨m, hm, hw⟩
  rw [fstabLine_eq, wordsOf_append_cons rfl, wordsOf_nil, List.append_nil,
    wordsOf_intercalate rfl, List.mem_flatMap] at hmem
  exact hmem

/-- If each text that does not come back needs a longer one, then all come back. -/
theorem forall_of_longer {p : Bytes → Prop} {ts : List Bytes}
    (h : ∀ f ∈ ts, ¬ p f → ∃ g ∈ ts, ¬ p g ∧ f.length < g.length) : ∀ f ∈ ts, p f := by
  obtain ⟨n, hn⟩ : ∃ n, ∀ f ∈ ts, f.length ≤ n :=
    ⟨ts.flatten.length, fun f hf ↦ (List.sublist_flatten_of_mem hf).length_le⟩
  intro f hf
  by_contra hp
  induction hk : n - f.length using Nat.strongRecOn generalizing f with
  | _ k ih =>
    obtain ⟨g, hg, hpg, hlt⟩ := h f hf hp
    have hfn := hn f hf
    have hgn := hn g hg
    exact ih (n - g.length) (by omega) g hg hpg rfl

/-- Entries that come back have texts with nothing to escape: a text that is read from a longer word
needs a text with this word. -/
theorem Rewritten.isFstabText_of_readFstab (h : Rewritten t es s) (hread : readFstab s = es) :
    ∀ e ∈ es, ∀ f ∈ e.names, IsFstabText f := by
  have hall : ∀ f ∈ es.flatMap FstabEntry.names, IsFstabText f := by
    refine forall_of_longer fun f hf hbad ↦ ?_
    obtain ⟨e, he, hf⟩ := List.mem_flatMap.1 hf
    rw [← hread, readFstab, List.mem_filterMap] at he
    obtain ⟨x, hx, hxe⟩ := he
    obtain ⟨w, rfl | hw, rfl⟩ := names_of_readEntryLine hxe f hf
    · exact absurd ⟨fun c hc ↦ (by cases hc), rfl⟩ hbad
    obtain ⟨e', he', m, hm, hwords⟩ := h.exists_of_mem hx (by simp [hxe])
    obtain ⟨y, hy, hwy⟩ := mem_texts_of_mem_wordsOf hm (hwords ▸ hw)
    have hword := (mem_of_mem_wordsOf hwy).2
    have hdecoded : decodeName w ≠ w := fun heq ↦ hbad <| by
      rw [heq]
      exact ⟨fun c hc ↦ (hword c hc).1, heq⟩
    have hlt := (length_decodeName_lt_or_eq w).resolve_right hdecoded
    have hbad' : ¬ IsFstabText y := by
      intro hy'
      have hne : y ≠ [] := by
        rintro rfl
        rw [wordsOf_nil] at hwy
        cases hwy
      rw [wordsOf_word hy'.word hne, List.mem_singleton] at hwy
      exact hdecoded (hwy ▸ hy'.decoded)
    refine ⟨y, List.mem_flatMap.2 ⟨e', he', ?_⟩, hbad', hlt.trans_le (length_le_of_mem_wordsOf hwy)⟩
    rcases FstabEntry.mem_texts hy with hy | ⟨n, rfl⟩
    · exact hy
    · exact absurd (isFstabText_formatLong n) hbad'
  exact fun e he f hf ↦ hall f (List.mem_flatMap.2 ⟨e, he, hf⟩)

theorem isFstabText_of_mem_texts (he : ∀ f ∈ e.names, IsFstabText f) :
    ∀ y ∈ e.texts, IsFstabText y := by
  intro y hy
  rcases FstabEntry.mem_texts hy with hy | ⟨n, rfl⟩
  · exact he y hy
  · exact isFstabText_formatLong n

/-- Texts with nothing to escape stand on one line. -/
theorem textLines_fstabLine (he : ∀ f ∈ e.names, IsFstabText f) :
    '\n' ∉ fstabBody e ∧ textLines (fstabLine e) = [fstabBody e] := by
  have htexts := isFstabText_of_mem_texts he
  have hbody : '\n' ∉ fstabBody e := by
    refine notMem_intercalate (by decide) fun y hy hc ↦ ?_
    have hsep := (htexts y hy).word _ hc
    cases hsep
  refine ⟨hbody, ?_⟩
  rw [fstabLine_eq]
  exact textLines_line hbody []

/-- The words of an entry with nothing to escape are its texts that are not empty. -/
theorem wordsOf_fstabBody (he : ∀ f ∈ e.names, IsFstabText f) :
    wordsOf isHostBlank (fstabBody e) = e.texts.filter fun y ↦ y ≠ [] := by
  have hwords : ∀ ys : List Bytes, (∀ y ∈ ys, IsFstabText y) →
      ys.flatMap (wordsOf isHostBlank) = ys.filter fun y ↦ y ≠ [] := by
    intro ys hys
    induction ys with
    | nil => rfl
    | cons y ys ih =>
      rw [List.forall_mem_cons] at hys
      rw [List.flatMap_cons, ih hys.2, hys.1.wordsOf_eq]
      by_cases hnil : y = []
      · rw [if_pos hnil, List.filter_cons_of_neg (by simpa using hnil), List.nil_append]
      · rw [if_neg hnil, List.filter_cons_of_pos (by simpa using hnil), List.singleton_append]
  rw [fstabBody, wordsOf_intercalate rfl, hwords _ (isFstabText_of_mem_texts he)]

/-- Entries that come back have nothing to escape. -/
theorem Rewritten.fits_of_readFstab (h : Rewritten t es s) (hread : readFstab s = es) :
    ∀ e ∈ es, e.Fits := by
  have htexts := h.isFstabText_of_readFstab hread
  have hline : ∀ e ∈ es, ∃ x e', readEntryLine x = some e ∧ e' ∈ es ∧
      wordsOf isHostBlank x = e'.texts.filter fun y ↦ y ≠ [] := by
    intro e he
    rw [← hread, readFstab, List.mem_filterMap] at he
    obtain ⟨x, hx, hxe⟩ := he
    obtain ⟨e', he', m, hm, hwords⟩ := h.exists_of_mem hx (by simp [hxe])
    rw [(textLines_fstabLine (htexts e' he')).2, List.mem_singleton] at hm
    rw [hm, wordsOf_fstabBody (htexts e' he')] at hwords
    exact ⟨x, e', hxe, he', hwords⟩
  have hdevice : ∀ e ∈ es, e.device ≠ [] ∧ e.device.head? ≠ some '#' := by
    intro e he
    obtain ⟨x, -, hxe, -⟩ := hline e he
    exact device_of_readEntryLine hxe
  -- The device and the numbers are words, so there are at least three.
  have hmiddle : ∀ e ∈ es, e.mountpoint ≠ [] ∧ e.fstype ≠ [] := by
    intro e he
    obtain ⟨x, e', hxe, he', hwords⟩ := hline e he
    refine (ne_nil_of_readEntryLine hxe).1 ?_
    rw [hwords]
    have hd := (hdevice e' he').1
    simp only [FstabEntry.texts, FstabEntry.names, List.cons_append, List.nil_append,
      List.filter_cons, List.filter_nil, hd, formatLong_ne_nil, ne_eq, not_false_eq_true,
      decide_true, if_true]
    split_ifs <;> simp
  have hoptions : ∀ e ∈ es, e.options ≠ [] := by
    intro e he
    obtain ⟨x, e', hxe, he', hwords⟩ := hline e he
    refine (ne_nil_of_readEntryLine hxe).2 ?_
    rw [hwords]
    have hd := (hdevice e' he').1
    obtain ⟨hm, hf⟩ := hmiddle e' he'
    simp only [FstabEntry.texts, FstabEntry.names, List.cons_append, List.nil_append,
      List.filter_cons, List.filter_nil, hd, hm, hf, formatLong_ne_nil, ne_eq, not_false_eq_true,
      decide_true, if_true]
    split_ifs <;> simp
  intro e he
  refine ⟨fun f hf ↦ ⟨?_, htexts e he f hf⟩, (hdevice e he).2⟩
  simp only [FstabEntry.names, List.mem_cons, List.not_mem_nil, or_false] at hf
  rcases hf with rfl | rfl | rfl | rfl
  exacts [(hdevice e he).1, (hmiddle e he).1, (hmiddle e he).2, hoptions e he]

end ComeBack

/-! ### Tables that come back -/

section Tables

variable {l m t s u : Bytes} {e : FstabEntry} {es : List FstabEntry}

theorem readFstab_line (hl : '\n' ∉ l) (t : Bytes) :
    readFstab (l ++ '\n' :: t) = (readEntryLine l).toList ++ readFstab t := by
  rw [readFstab, textLines_line hl, List.filterMap_cons, ← readFstab]
  cases readEntryLine l with
  | none => rfl
  | some e => rfl

theorem commentLines_line (hl : '\n' ∉ l) (t : Bytes) :
    commentLines (l ++ '\n' :: t) = (if isComment l then [l] else []) ++ commentLines t := by
  rw [commentLines, textLines_line hl, List.filter_cons, ← commentLines]
  split_ifs <;> rfl

/-- The lines of entries that fit. -/
theorem textLines_fstabLines (hfits : ∀ e ∈ es, e.Fits) :
    textLines (es.flatMap fstabLine) = es.map fstabBody := by
  have happend := textLines_fstabLines_append es []
  rw [List.append_nil] at happend
  rw [happend]
  induction es with
  | nil => rfl
  | cons e es ih =>
    rw [List.forall_mem_cons] at hfits
    have htail := textLines_fstabLines_append es []
    rw [List.append_nil] at htail
    rw [List.flatMap_cons, List.map_cons,
      (textLines_fstabLine fun f hf ↦ (hfits.1.names f hf).2).2, List.append_assoc, ih hfits.2 htail]
    rfl

theorem isComment_fstabBody (he : e.Fits) : isComment (fstabBody e) = false := by
  by_contra hcomment
  have hnone := readEntryLine_eq_none_iff.2 (Or.inr (by simpa using hcomment))
  rw [fstabBody, readEntryLine_fstabLine he] at hnone
  cases hnone

/-- Entries that fit come back from their lines. -/
theorem filterMap_fstabBody (hfits : ∀ e ∈ es, e.Fits) :
    (es.map fstabBody).filterMap readEntryLine = es := by
  induction es with
  | nil => rfl
  | cons e es ih =>
    rw [List.forall_mem_cons] at hfits
    rw [List.map_cons, List.filterMap_cons, fstabBody, readEntryLine_fstabLine hfits.1, ih hfits.2]

theorem filter_fstabBody (hfits : ∀ e ∈ es, e.Fits) :
    (es.map fstabBody).filter isComment = [] := by
  rw [List.filter_eq_nil_iff]
  intro l hl
  obtain ⟨e, he, rfl⟩ := List.mem_map.1 hl
  simp [isComment_fstabBody (hfits e he)]

theorem readFstab_fstabLines (hfits : ∀ e ∈ es, e.Fits) :
    readFstab (es.flatMap fstabLine) = es := by
  rw [readFstab, textLines_fstabLines hfits, filterMap_fstabBody hfits]

theorem commentLines_fstabLines (hfits : ∀ e ∈ es, e.Fits) :
    commentLines (es.flatMap fstabLine) = [] := by
  rw [commentLines, textLines_fstabLines hfits, filter_fstabBody hfits]

/-- Entries behind a line that is copied without a newline: blanks do not matter, and a comment
takes in the first. -/
theorem textLines_lastCopied (hl : '\n' ∉ l) (hne : l ≠ []) (hfits : ∀ e ∈ es, e.Fits) :
    textLines (l ++ es.flatMap fstabLine) = match es with
      | [] => [l]
      | e :: es => (l ++ fstabBody e) :: es.map fstabBody := by
  rw [textLines_append_of_notMem hl, textLines_fstabLines hfits]
  cases es with
  | nil => exact if_neg hne
  | cons e es => rfl

theorem endsInComment_nil : ¬ EndsInComment [] := by
  rintro ⟨l, hl, -⟩
  cases hl

theorem endsInComment_last (hl : '\n' ∉ l) (hne : l ≠ []) :
    EndsInComment l ↔ isComment l = true := by
  have hlast : l.getLast? ≠ some '\n' := fun h ↦ hl (List.mem_of_getLast? h)
  rw [EndsInComment, textLines_last hl hne]
  constructor
  · rintro ⟨x, hx, hcomment, -⟩
    cases hx
    exact hcomment
  · exact fun hcomment ↦ ⟨l, rfl, hcomment, hlast⟩

theorem endsInComment_line (hl : '\n' ∉ l) : EndsInComment (l ++ '\n' :: t) ↔ EndsInComment t := by
  rw [EndsInComment, EndsInComment, textLines_line hl]
  by_cases ht : t = []
  · subst ht
    refine iff_of_false (fun ⟨x, _, _, hlast⟩ ↦ hlast ?_) fun ⟨x, hx, _⟩ ↦ by cases hx
    exact List.getLast?_concat
  · obtain ⟨x, xs, hlines⟩ := List.exists_cons_of_ne_nil (mt textLines_eq_nil_iff.1 ht)
    obtain ⟨c, cs, rfl⟩ := List.exists_cons_of_ne_nil ht
    rw [hlines, List.getLast?_cons_cons, List.getLast?_append, List.getLast?_cons_cons]
    simp

/-- Entries that fit come back unless one of them is written behind a comment without a newline. -/
theorem Rewritten.readFstab_eq_iff (h : Rewritten t es s) (hfits : ∀ e ∈ es, e.Fits) :
    readFstab s = es ↔ ¬ (EndsInComment t ∧ (readFstab t).length < es.length) := by
  induction h with
  | nil es => exact iff_of_true (readFstab_fstabLines hfits) fun h ↦ endsInComment_nil h.1
  | @lastEntry l es hl hne hread =>
    refine iff_of_true (readFstab_fstabLines hfits) fun h ↦ hread ?_
    exact readEntryLine_eq_none_iff.2 (Or.inr ((endsInComment_last hl hne).1 h.1))
  | @lastCopied l es hl hne hread =>
    have hnone : readFstab l = [] := by
      rw [readFstab, textLines_last hl hne, List.filterMap_cons, hread, List.filterMap_nil]
    rw [endsInComment_last hl hne, hnone, readFstab, textLines_lastCopied hl hne hfits]
    cases es with
    | nil => exact iff_of_true (by rw [List.filterMap_cons, hread]; rfl) fun h ↦ by cases h.2
    | cons e es =>
      rw [List.forall_mem_cons] at hfits
      dsimp only
      rw [List.filterMap_cons, filterMap_fstabBody hfits.2]
      by_cases hcomment : isComment l = true
      · have hskip := readEntryLine_eq_none_iff.2
          (Or.inr (isComment_append hcomment (fstabBody e)))
        rw [hskip]
        refine iff_of_false (List.cons_ne_self e es).symm fun h ↦ h ⟨hcomment, ?_⟩
        exact Nat.succ_pos _
      · have hblank := (readEntryLine_eq_none_iff.1 hread).resolve_right hcomment
        rw [readEntryLine_blanks hblank, fstabBody, readEntryLine_fstabLine hfits.1]
        exact iff_of_true rfl fun h ↦ hcomment h.1
  | @copied l t s es hl hread h ih =>
    rw [readFstab_line hl, readFstab_line hl, hread, endsInComment_line hl]
    exact ih hfits
  | @entry l t s newline es hl hread hnewline h ih =>
    have htake : ∀ e ∈ es.take 1, e.Fits := fun e he ↦ hfits e (List.mem_of_mem_take he)
    have hdrop : ∀ e ∈ es.drop 1, e.Fits := fun e he ↦ hfits e (List.mem_of_mem_drop he)
    have hrest : readFstab (newline ++ s) = readFstab s := by
      rcases hnewline with rfl | rfl
      · rfl
      · exact readFstab_line (l := []) List.not_mem_nil s
    have hread' : readFstab ((es.take 1).flatMap fstabLine ++ (newline ++ s)) =
        es.take 1 ++ readFstab s := by
      have hlines := textLines_fstabLines_append (es.take 1) (newline ++ s)
      have hself := textLines_fstabLines_append (es.take 1) []
      rw [List.append_nil] at hself
      have htable := readFstab_fstabLines htake
      rw [readFstab, hself, List.filterMap_append] at htable
      rw [readFstab, hlines, List.filterMap_append, ← readFstab, hrest]
      simpa [textLines] using htable
    have hcount : (readFstab (l ++ '\n' :: t)).length = (readFstab t).length + 1 := by
      obtain ⟨e, he⟩ := Option.ne_none_iff_exists'.1 hread
      rw [readFstab_line hl, he]
      simp [Nat.add_comm]
    have hcancel : es.take 1 ++ readFstab s = es ↔ readFstab s = es.drop 1 := by
      conv_lhs => rhs; rw [← List.take_append_drop 1 es]
      exact List.append_right_inj _
    rw [hread', hcancel, ih hdrop, endsInComment_line hl, hcount, List.length_drop]
    constructor
    · exact fun h h' ↦ h ⟨h'.1, by omega⟩
    · exact fun h h' ↦ h ⟨h'.1, by omega⟩

/-- Comments stay where entries come back. -/
theorem Rewritten.commentLines_eq (h : Rewritten t es s) (hfits : ∀ e ∈ es, e.Fits)
    (hends : ¬ (EndsInComment t ∧ (readFstab t).length < es.length)) :
    commentLines s = commentLines t := by
  induction h with
  | nil es => exact commentLines_fstabLines hfits
  | @lastEntry l es hl hne hread =>
    have hcomment : isComment l = false := by
      by_contra hcomment
      exact hread (readEntryLine_eq_none_iff.2 (Or.inr (by simpa using hcomment)))
    rw [commentLines_fstabLines hfits, commentLines, textLines_last hl hne,
      List.filter_cons_of_neg (by simp [hcomment]), List.filter_nil]
  | @lastCopied l es hl hne hread =>
    have hnone : readFstab l = [] := by
      rw [readFstab, textLines_last hl hne, List.filterMap_cons, hread, List.filterMap_nil]
    rw [commentLines, commentLines, textLines_lastCopied hl hne hfits, textLines_last hl hne]
    rw [endsInComment_last hl hne, hnone] at hends
    cases es with
    | nil => rfl
    | cons e es =>
      rw [List.forall_mem_cons] at hfits
      have hcomment : ¬ isComment l = true := fun hcomment ↦ hends ⟨hcomment, Nat.succ_pos _⟩
      have hblank := (readEntryLine_eq_none_iff.1 hread).resolve_right hcomment
      dsimp only
      rw [List.filter_cons_of_neg (by simp [isComment_blanks hblank, isComment_fstabBody hfits.1]),
        filter_fstabBody hfits.2, List.filter_cons_of_neg hcomment, List.filter_nil]
  | @copied l t s es hl hread h ih =>
    rw [readFstab_line hl, hread, endsInComment_line hl] at hends
    rw [commentLines_line hl, commentLines_line hl, ih hfits hends]
  | @entry l t s newline es hl hread hnewline h ih =>
    have htake : ∀ e ∈ es.take 1, e.Fits := fun e he ↦ hfits e (List.mem_of_mem_take he)
    have hdrop : ∀ e ∈ es.drop 1, e.Fits := fun e he ↦ hfits e (List.mem_of_mem_drop he)
    have hcomment : isComment l = false := by
      by_contra hcomment
      exact hread (readEntryLine_eq_none_iff.2 (Or.inr (by simpa using hcomment)))
    have hrest : commentLines (newline ++ s) = commentLines s := by
      rcases hnewline with rfl | rfl
      · rfl
      · exact commentLines_line (l := []) List.not_mem_nil s
    have htable := commentLines_fstabLines htake
    have hself := textLines_fstabLines_append (es.take 1) []
    rw [List.append_nil] at hself
    rw [commentLines, hself, List.filter_append] at htable
    have hends' : ¬ (EndsInComment t ∧ (readFstab t).length < (es.drop 1).length) := by
      obtain ⟨e, he⟩ := Option.ne_none_iff_exists'.1 hread
      rw [readFstab_line hl, he, endsInComment_line hl, Option.toList_some, List.singleton_append,
        List.length_cons] at hends
      rw [List.length_drop]
      exact fun h ↦ hends ⟨h.1, by omega⟩
    rw [commentLines_line hl, if_neg (by simp [hcomment]), List.nil_append, ← ih hdrop hends',
      ← hrest, commentLines, textLines_fstabLines_append, List.filter_append,
      (List.append_eq_nil_iff.1 htable).1, List.nil_append, commentLines]

end Tables

/-! ### Updates -/

section Updates

variable {t : Bytes} {u : FstabUpdate} {es : List FstabEntry}

theorem readFstab_header (s : Bytes) : readFstab (fstabHeader ++ s) = readFstab s := by
  have hheader : readFstab fstabHeader = [] := by decide +kernel
  rw [readFstab] at hheader
  rw [readFstab, textLines_append_of_getLast? (by decide +kernel), List.filterMap_append, hheader,
    List.nil_append, ← readFstab]

/-- A file is written from its pieces; only an empty one gets a header. -/
theorem exists_rewritten (hnul : '\x00' ∉ t) (hlength : ∀ l ∈ textLines t, l.length ≤ 1023)
    (es : List FstabEntry) : ∃ s, Rewritten t es s ∧
      readFstab (writeFstab es t) = readFstab s ∧
      (commentLines s = commentLines t →
        (commentLines t).Sublist (commentLines (writeFstab es t))) := by
  refine ⟨_, rewritten_writeLines hnul hlength es, ?_, fun hcomments ↦ ?_⟩
  · rw [writeFstab]
    split_ifs
    · exact readFstab_header _
    · rfl
  · rw [writeFstab]
    split_ifs with hnil
    · rw [← hcomments, commentLines, commentLines, textLines_append_of_getLast? (by decide +kernel),
        List.filter_append]
      exact List.sublist_append_right _ _
    · rw [List.nil_append, hcomments]

/-- Updates of files whose lines fit the buffer. -/
theorem fstabKeeps_iff (hnul : '\x00' ∉ t) (hlength : ∀ l ∈ textLines t, l.length ≤ 1023) :
    FstabKeeps u t ↔ FstabCareful u t := by
  obtain ⟨s, hs, hread, hcomments⟩ := exists_rewritten hnul hlength (u.apply (readFstab t))
  constructor
  · intro h
    have hback := hread.symm.trans h.entries
    have hfits := hs.fits_of_readFstab hback
    have hends := (hs.readFstab_eq_iff hfits).1 hback
    rw [FstabUpdate.length_lt_apply_iff] at hends
    exact ⟨hfits, hends⟩
  · intro h
    have hends := h.ends
    rw [← FstabUpdate.length_lt_apply_iff] at hends
    have hentries := hread.trans ((hs.readFstab_eq_iff h.fits).2 hends)
    refine ⟨hentries, ?_, hcomments (hs.commentLines_eq h.fits hends)⟩
    rw [hentries, FstabUpdate.apply_others]

/-! ### Long lines -/

/-- An update that adds an entry. -/
def addRoot : FstabUpdate :=
  .addOrUpdate "/".toList "/dev/sda1".toList "ext4".toList none 0 1

/-- A comment of 1024 characters, whose last one does not fit the buffer. -/
def cutComment : Bytes := hugeComment 1022 ++ ['y']

theorem fits_addRoot : ∀ e ∈ addRoot.apply [], e.Fits := by
  intro e he
  obtain rfl := List.mem_singleton.1 he
  refine ⟨fun t ht ↦ ?_, by decide⟩
  simp only [FstabEntry.names, List.mem_cons, List.not_mem_nil, or_false] at ht
  have hword {t : Bytes} (ht : (t.all fun c ↦ !isFstabSeparator c) = true) :
      ∀ c ∈ t, isFstabSeparator c = false := fun c hc ↦ by simpa using List.all_eq_true.1 ht c hc
  rcases ht with rfl | rfl | rfl | rfl
  all_goals exact ⟨by decide, hword (by decide +kernel), by decide +kernel⟩

theorem mem_cutComment {c : Char} (h : c ∈ cutComment) : c = '#' ∨ c = 'x' ∨ c = 'y' := by
  rcases List.mem_append.1 h with h | h
  · exact (mem_hugeComment h).imp_right Or.inl
  · exact Or.inr (Or.inr (List.mem_singleton.1 h))

theorem newline_notMem_cutComment : '\n' ∉ cutComment := by
  intro h
  rcases mem_cutComment h with h | h | h <;> cases h

/-- The end of a comment that does not fit the buffer is taken for the place of an entry, which is
then a part of the comment. -/
theorem not_fstabKeeps_cutComment :
    FstabCareful addRoot (cutComment ++ ['\n']) ∧
      ¬ FstabKeeps addRoot (cutComment ++ ['\n']) := by
  have hcomment : isComment (hugeComment 1022) = true := rfl
  have hnewline : '\n' ∉ hugeComment 1022 := fun h ↦ by
    rcases mem_hugeComment h with h | h <;> cases h
  have hskip : readEntryLine (hugeComment 1022) = none :=
    readEntryLine_eq_none_iff.2 (Or.inr hcomment)
  have hskip' : readEntryLine cutComment = none :=
    readEntryLine_eq_none_iff.2 (Or.inr (isComment_append hcomment ['y']))
  have hnone : readFstab (cutComment ++ ['\n']) = [] := by
    rw [readFstab_line newline_notMem_cutComment, hskip']
    rfl
  have hpieces : originalLines (cutComment ++ ['\n']) = [some (hugeComment 1022), none] := by
    have hlength : (hugeComment 1022).length = 1023 := by
      rw [hugeComment, List.length_cons, List.length_replicate]
    have hnul : '\x00' ∉ hugeComment 1022 := fun h ↦ by
      rcases mem_hugeComment h with h | h <;> cases h
    have hcopied : isCopied (hugeComment 1022) = true := (isCopied_iff hnewline).2 hskip
    rw [originalLines, cutComment, List.append_assoc, List.singleton_append,
      fgetsLines_full hnewline hlength (by omega), List.map_cons, originalLine_eq hnul,
      if_pos hcopied]
    rfl
  refine ⟨⟨?_, ?_⟩, fun h ↦ ?_⟩
  · rw [hnone]
    exact fits_addRoot
  · rintro ⟨⟨l, -, -, hlast⟩, -⟩
    exact hlast List.getLast?_concat
  · -- The entry stands behind the part of the comment that fits.
    have hentries := h.entries
    rw [hnone, writeFstab, hpieces, if_neg (List.cons_ne_nil _ _), List.nil_append] at hentries
    have hwritten := Rewritten.lastCopied (addRoot.apply []) hnewline (List.cons_ne_nil _ _) hskip
    refine (hwritten.readFstab_eq_iff fits_addRoot).1 hentries ⟨?_, ?_⟩
    · exact (endsInComment_last hnewline (List.cons_ne_nil _ _)).2 hcomment
    · rw [readFstab, textLines_last hnewline (List.cons_ne_nil _ _), List.filterMap_cons, hskip]
      exact Nat.succ_pos _

/-- The condition is that for lines of a length if and only if they fit the buffer. -/
theorem fstab_update_iff (n : ℕ) :
    (∀ t : Bytes, '\x00' ∉ t → (∀ l ∈ textLines t, l.length ≤ n) →
      ∀ u : FstabUpdate, FstabKeeps u t ↔ FstabCareful u t) ↔ n ≤ 1023 := by
  constructor
  · intro h
    by_contra hn
    obtain ⟨hcareful, hkeeps⟩ := not_fstabKeeps_cutComment
    refine hkeeps ((h _ ?_ ?_ addRoot).2 hcareful)
    · rw [List.mem_append, List.mem_singleton]
      rintro (hc | hc)
      · rcases mem_cutComment hc with hc | hc | hc <;> cases hc
      · cases hc
    · rw [textLines_line newline_notMem_cutComment]
      intro l hl
      have hlength : cutComment.length = 1024 := by
        rw [cutComment, hugeComment, List.length_append, List.length_cons, List.length_replicate]
        rfl
      rw [List.mem_singleton.1 hl, hlength]
      omega
  · exact fun hn t hnul hlength u ↦ fstabKeeps_iff hnul fun l hl ↦ (hlength l hl).trans hn

end Updates

/-- A blank in a mount point is written without its escape. -/
theorem not_fstabKeeps_blank :
    let t := "/dev/sdb1 /mnt/my\\040disk ext4 defaults 0 2\n".toList
    (readFstab t).map FstabEntry.mountpoint = ["/mnt/my disk".toList] ∧
      (readFstab (writeFstab (addRoot.apply (readFstab t)) t)).map FstabEntry.mountpoint =
        ["/mnt/my".toList, "/".toList] ∧
      ¬ FstabKeeps addRoot t := by
  intro t
  have hread : (readFstab t).map FstabEntry.mountpoint = ["/mnt/my disk".toList] := by
    decide +kernel
  have hwritten : (readFstab (writeFstab (addRoot.apply (readFstab t)) t)).map
      FstabEntry.mountpoint = ["/mnt/my".toList, "/".toList] := by
    decide +kernel
  refine ⟨hread, hwritten, fun h ↦ ?_⟩
  have hboth := hwritten
  rw [h.entries] at hboth
  revert hboth
  decide +kernel

end PuppetC
