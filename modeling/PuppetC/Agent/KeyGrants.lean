import PuppetC.Agent.KeyLines

/-!
# Keys that are granted and revoked

The call for a resource with a key should leave one line with the key, with what the resource asks
for, or none, and the lines with other keys as they are. A resource without a key should remove
lines with its title as their comment only.

The agent edits the first line that its search finds, so this depends on that line and on what else
has the key; blanks in front of a line that is removed stay in front of the next one. Files of more
than the buffer holds are cut.

## Main definitions

* `KeyKeeps`: what a call should do.
* `KeyCareful`: the condition.

## Main results

* `findLine_eq_some`: the line that a search finds.
* `key_apply_iff`: a call does what it should exactly if the condition holds.
-/

namespace PuppetC

/-! ### What a call should do -/

/-- A line has a key. -/
def hasKey (key l : Bytes) : Bool := (readKeyLine l).any fun k ↦ k.key = key

/-- A line has a key, but another one. -/
def hasOtherKey (key l : Bytes) : Bool := (readKeyLine l).any fun k ↦ k.key ≠ key

/-- The comment of a line is a title. -/
def isTitled (title l : Bytes) : Bool := (readKeyLine l).any fun k ↦ k.comment = title

/-- What should be kept from some lines to others. -/
def KeyKeeps (r : AgentResource) (ls ls' : List Bytes) : Prop :=
  match r.param? "key" with
  | some key =>
    (ls'.filter (hasKey key)).map readKeyLine =
        (if r.WantsPresent then [some r.wantedKey] else []) ∧
      ls'.filter (hasOtherKey key) = ls.filter (hasOtherKey key)
  | none => (ls'.filter fun l ↦ !isTitled r.title l) = ls.filter fun l ↦ !isTitled r.title l

/-- The condition for an entry that is put in the place of some lines, while others stay: it fits, no
other line has the key, and what is replaced has no other key. An entry that does not fit is
harmless only if the key is right elsewhere already and the entry is not a new line with a key. -/
structure EntryCareful (r : AgentResource) (key : Bytes) (kept old : List Bytes) : Prop where
  fits : EntryFits r →
    (∀ l ∈ kept, hasKey key l = false) ∧ ∀ l ∈ old, hasOtherKey key l = false
  misfits : ¬ EntryFits r →
    (kept.filter (hasKey key)).map readKeyLine = [some r.wantedKey] ∧
      hasKey key r.keyLine = false ∧
      old.filter (hasOtherKey key) = [r.keyLine].filter (hasOtherKey key)

/-- Nothing is in front of what follows on its line. -/
def EndsLine (before : Bytes) : Prop := ∀ c ∈ before.getLast?, c = '\n'

/-- The condition, in terms of the line that the search finds: no other line has the key, the line
has no other key, and what is written fits; if the line is removed and starts with blanks, then the
next line has no other key. Without a key, the line has the title as its comment, and so has the next
one if the line starts with blanks. -/
def KeyCareful (r : AgentResource) (text : Bytes) : Prop :=
  match r.param? "key", r.findKey text with
  | some key, none =>
    if r.WantsPresent then EntryCareful r key (textLines text) []
    else ∀ l ∈ textLines text, hasKey key l = false
  | some key, some (before, entry, after) =>
    if r.WantsPresent then
      EntryCareful r key (textLines before ++ textLines after) (textLines entry)
    else
      (∀ l ∈ textLines before ++ textLines after, hasKey key l = false) ∧
        (∀ l ∈ textLines entry, hasOtherKey key l = false) ∧
        (EndsLine before ∨ ∀ l ∈ (textLines after).head?, hasOtherKey key l = false)
  | none, none => True
  | none, some (before, entry, after) =>
    (∀ l ∈ textLines entry, isTitled r.title l = true) ∧
      (EndsLine before ∨ ∃ l ∈ (textLines after).head?, isTitled r.title l = true)

/-! ### The search -/

section Search

variable {found : Bytes → Bytes → Bool} {acc before entry after text : Bytes}

/-- The line that a search finds: what is before it are lines and blanks, and it ends with its
newline or with the text. -/
structure FoundLine (text before entry after : Bytes) (pre : List Bytes) (blanks l newline : Bytes) :
    Prop where
  text_eq : text = before ++ entry ++ after
  before_eq : before = unlines pre ++ blanks
  entry_eq : entry = l ++ newline
  pre : ∀ x ∈ pre, '\n' ∉ x
  blanks : ∀ c ∈ blanks, isHostBlank c = true
  line : '\n' ∉ l ∧ l ≠ []
  newline : newline = ['\n'] ∨ newline = [] ∧ after = []

theorem findLine_eq_some (hnil : ∀ rest, found [] rest = false)
    (h : findLine found [] (linePieces text) = some (before, entry, after)) :
    ∃ pre blanks l newline, FoundLine text before entry after pre blanks l newline := by
  have hacc : ∀ acc, findLine found acc (linePieces text) = some (before, entry, after) →
      ∃ before' pre blanks l newline, before = acc ++ before' ∧
        FoundLine text before' entry after pre blanks l newline := by
    clear h
    induction text using textLines_induct with
    | nil => exact fun acc h ↦ by cases h
    | last l hl hne =>
      intro acc h
      rw [linePieces_last hl hne, findLine] at h
      split_ifs at h with hfound
      · obtain ⟨rfl, rfl, rfl⟩ : acc ++ l.takeWhile isHostBlank = before ∧
            l.dropWhile isHostBlank = entry ∧ ([] : List Bytes).flatten = after := by
          simpa using h
        have hdrop : '\n' ∉ l.dropWhile isHostBlank :=
          fun hc ↦ hl ((List.dropWhile_sublist _).subset hc)
        refine ⟨l.takeWhile isHostBlank, [], l.takeWhile isHostBlank, l.dropWhile isHostBlank, [],
          rfl, ⟨?_, rfl, (List.append_nil _).symm, fun x hx ↦ (by cases hx),
            fun c hc ↦ List.mem_takeWhile_imp hc, ⟨hdrop, fun h ↦ ?_⟩, Or.inr ⟨rfl, rfl⟩⟩⟩
        · rw [List.takeWhile_append_dropWhile, List.flatten_nil, List.append_nil]
        · rw [h, hnil] at hfound
          cases hfound.2.2
      · cases h
    | line l t hl ih =>
      intro acc h
      rw [linePieces_line hl, findLine, dropWhile_isHostBlank_newline,
        takeWhile_isHostBlank_newline, flatten_linePieces] at h
      split_ifs at h with hfound
      · obtain ⟨rfl, rfl, rfl⟩ : acc ++ l.takeWhile isHostBlank = before ∧
            l.dropWhile isHostBlank ++ ['\n'] = entry ∧ t = after := by
          simpa using h
        have hdrop : '\n' ∉ l.dropWhile isHostBlank :=
          fun hc ↦ hl ((List.dropWhile_sublist _).subset hc)
        refine ⟨l.takeWhile isHostBlank, [], l.takeWhile isHostBlank, l.dropWhile isHostBlank,
          ['\n'], rfl, ⟨?_, rfl, rfl, fun x hx ↦ (by cases hx),
            fun c hc ↦ List.mem_takeWhile_imp hc, ⟨hdrop, fun h ↦ ?_⟩, Or.inl rfl⟩⟩
        · rw [← List.append_assoc, List.takeWhile_append_dropWhile, List.append_assoc,
            List.singleton_append]
        · rw [h] at hfound
          exact hfound.2.1 rfl
      · obtain ⟨before', pre, blanks, m, newline, rfl, hline⟩ := ih _ h
        refine ⟨l ++ '\n' :: before', l :: pre, blanks, m, newline, by simp,
          ⟨?_, ?_, hline.entry_eq, List.forall_mem_cons.2 ⟨hl, hline.pre⟩, hline.blanks,
            hline.line, hline.newline⟩⟩
        · rw [hline.text_eq]
          simp
        · rw [hline.before_eq, unlines_cons]
          simp
  obtain ⟨before', pre, blanks, l, newline, rfl, hfound⟩ := hacc [] h
  exact ⟨pre, blanks, l, newline, hfound⟩

variable {pre : List Bytes} {blanks l newline : Bytes}

namespace FoundLine

theorem notMem_blanks (h : FoundLine text before entry after pre blanks l newline) :
    '\n' ∉ blanks := fun hc ↦ by cases h.blanks _ hc

theorem textLines_entry (h : FoundLine text before entry after pre blanks l newline) :
    textLines entry = [l] := by
  rw [h.entry_eq]
  rcases h.newline with rfl | ⟨rfl, -⟩
  · exact textLines_line h.line.1 []
  · rw [List.append_nil, textLines_last h.line.1 h.line.2]

theorem textLines_before (h : FoundLine text before entry after pre blanks l newline) :
    textLines before = pre ++ if blanks = [] then [] else [blanks] := by
  rw [h.before_eq, textLines_unlines_append h.pre]
  split_ifs with hnil
  · rw [hnil]
    rfl
  · rw [textLines_last h.notMem_blanks hnil]

theorem textLines_text (h : FoundLine text before entry after pre blanks l newline) :
    textLines text = pre ++ (blanks ++ l) :: textLines after := by
  have hl : '\n' ∉ blanks ++ l := by
    rw [List.mem_append, not_or]
    exact ⟨h.notMem_blanks, h.line.1⟩
  rw [h.text_eq, h.before_eq, h.entry_eq, List.append_assoc, List.append_assoc,
    textLines_unlines_append h.pre, ← List.append_assoc, ← List.append_assoc]
  rcases h.newline with rfl | ⟨rfl, rfl⟩
  · rw [List.append_assoc, List.singleton_append, textLines_line hl]
  · rw [List.append_nil, List.append_nil, textLines_last hl (by simp [h.line.2])]
    rfl

theorem endsLine_iff (h : FoundLine text before entry after pre blanks l newline) :
    EndsLine before ↔ blanks = [] := by
  rw [h.before_eq, EndsLine]
  constructor
  · intro hlast
    by_contra hnil
    obtain ⟨blanks, c, rfl⟩ := (List.eq_nil_or_concat blanks).resolve_left hnil
    rw [List.concat_eq_append, ← List.append_assoc, List.getLast?_concat] at hlast
    have hc := h.blanks c (by simp)
    rw [hlast c rfl] at hc
    cases hc
  · rintro rfl c hc
    rw [List.append_nil] at hc
    by_cases hpre : pre = []
    · rw [hpre] at hc
      cases hc
    · rw [getLast?_unlines pre hpre] at hc
      exact (Option.some.inj hc).symm

/-- What is written in the place of the line. -/
theorem textLines_put (h : FoundLine text before entry after pre blanks l newline) (s : Bytes) :
    textLines (before ++ (s ++ ['\n']) ++ after) =
      pre ++ textLines (blanks ++ (s ++ ['\n'])) ++ textLines after := by
  rw [h.before_eq, List.append_assoc, List.append_assoc, textLines_unlines_append h.pre,
    List.append_assoc, List.singleton_append, ← List.append_assoc, textLines_append_newline,
    ← List.append_assoc, List.append_assoc blanks]

/-- What is left without the line. -/
theorem textLines_drop (h : FoundLine text before entry after pre blanks l newline) :
    textLines (before ++ after) = pre ++ textLines (blanks ++ after) := by
  rw [h.before_eq, List.append_assoc, textLines_unlines_append h.pre]

end FoundLine

end Search

/-- A property of lines that does not look at blanks in front of them: a line that is removed with
its newline, but not with the blanks in front of it, leaves the lines with the property as they are
only if it does not have it, nor the line behind blanks that are left. -/
theorem filter_drop_eq_iff {p : Bytes → Bool} {blanks l : Bytes} (after : Bytes)
    (hblanks : '\n' ∉ blanks) (hp : ∀ x, p (blanks ++ x) = p x) (hl : l ≠ []) :
    (textLines (blanks ++ after)).filter p = ((blanks ++ l) :: textLines after).filter p ↔
      p l = false ∧ (blanks = [] ∨ if textLines after = [] then p [] = false else
        ∀ m ∈ (textLines after).head?, p m = false) := by
  by_cases hnil : blanks = []
  · subst hnil
    rw [List.nil_append, List.nil_append, List.filter_cons]
    cases hpl : p l with
    | true =>
      rw [if_pos rfl]
      exact iff_of_false (List.cons_ne_self _ _).symm (fun h ↦ by cases h.1)
    | false => exact iff_of_true rfl ⟨rfl, Or.inl rfl⟩
  rw [textLines_append_of_notMem hblanks]
  cases hafter : textLines after with
  | nil =>
    have hp' : p blanks = p [] := by rw [← hp [], List.append_nil]
    dsimp only
    rw [if_neg hnil]
    simp only [List.filter_cons, List.filter_nil, hp, hp', hnil, false_or, if_true]
    cases hpl : p l <;> cases hpn : p [] <;> simp [hl]
  | cons m ms =>
    simp only [List.filter_cons, hp, hnil, false_or, List.head?_cons, Option.mem_def,
      Option.some.injEq, forall_eq', reduceCtorEq, if_false]
    cases hpl : p l <;> cases hpm : p m <;> simp [hnil]

/-! ### Entries among lines -/

section Lines

variable {r : AgentResource} {key blanks l : Bytes} {pre post old : List Bytes}

@[simp] theorem hasKey_nil (key : Bytes) : hasKey key [] = false := rfl

@[simp] theorem hasOtherKey_nil (key : Bytes) : hasOtherKey key [] = false := rfl

@[simp] theorem isTitled_nil (title : Bytes) : isTitled title [] = false := rfl

theorem hasKey_blanks (hblanks : ∀ c ∈ blanks, isHostBlank c = true) (key l : Bytes) :
    hasKey key (blanks ++ l) = hasKey key l := by
  rw [hasKey, readKeyLine_blanks hblanks, ← hasKey]

theorem hasOtherKey_blanks (hblanks : ∀ c ∈ blanks, isHostBlank c = true) (key l : Bytes) :
    hasOtherKey key (blanks ++ l) = hasOtherKey key l := by
  rw [hasOtherKey, readKeyLine_blanks hblanks, ← hasOtherKey]

theorem isTitled_blanks (hblanks : ∀ c ∈ blanks, isHostBlank c = true) (title l : Bytes) :
    isTitled title (blanks ++ l) = isTitled title l := by
  rw [isTitled, readKeyLine_blanks hblanks, ← isTitled]

theorem newline_notMem_blanks (hblanks : ∀ c ∈ blanks, isHostBlank c = true) : '\n' ∉ blanks :=
  fun hc ↦ by cases hblanks _ hc

theorem blanks_nil : ∀ c ∈ ([] : Bytes), isHostBlank c = true := fun c hc ↦ by cases hc

/-- A line without newlines that says what a resource asks for. -/
theorem newline_notMem_keyLine (hl : '\n' ∉ l) (h : readKeyLine l = some r.wantedKey) :
    '\n' ∉ r.keyLine := by
  obtain ⟨htype, hkey, htitle, hoptions⟩ := fields_of_readKeyLine hl h
  have hnewline : '\n' ∉ r.keyOptions := fun hc ↦ hoptions (mem_unspaced hc rfl)
  have htype' : '\n' ∉ r.text "type" := fun hc ↦ ((isWord_of_mem_keyTypes htype).2.1 _ hc).2 rfl
  have hkey' : '\n' ∉ r.text "key" := fun hc ↦ (hkey.2 _ hc).2 rfl
  have htitle' : '\n' ∉ r.title := htitle.1
  have hfields : '\n' ∉ r.text "type" ++ ' ' :: r.text "key" ++ ' ' :: r.title := by
    simpa [htype', hkey'] using htitle'
  rw [AgentResource.keyLine, List.mem_append, not_or]
  refine ⟨fun hc ↦ ?_, hfields⟩
  split_ifs at hc
  · cases hc
  · rw [List.mem_append, List.mem_singleton] at hc
    rcases hc with hc | hc
    · exact hnewline hc
    · cases hc

theorem EntryFits.notMem_keyLine (h : EntryFits r) : '\n' ∉ r.keyLine := by
  obtain ⟨left, f, right, ho, hblanks, hf⟩ := h.options
  have hnewline : '\n' ∉ r.keyOptions := by
    have hside := newline_notMem_blanks hblanks
    rw [List.mem_append, not_or] at hside
    rw [ho]
    simp [hside.1, hside.2, hf.newline]
  have htype : '\n' ∉ r.text "type" := fun hc ↦ ((isWord_of_mem_keyTypes h.type).2.1 _ hc).2 rfl
  have hkey : '\n' ∉ r.text "key" := fun hc ↦ (h.key.2 _ hc).2 rfl
  rw [AgentResource.keyLine]
  split_ifs
  · simpa [htype, hkey] using h.title.1
  · simpa [hnewline, htype, hkey] using h.title.1

/-- An entry without newlines is a line. -/
theorem textLines_blanks_keyEntry (hblanks : ∀ c ∈ blanks, isHostBlank c = true)
    (hline : '\n' ∉ r.keyLine) :
    textLines (blanks ++ r.keyEntry) = [blanks ++ r.keyLine] := by
  have hl : '\n' ∉ blanks ++ r.keyLine := by
    rw [List.mem_append, not_or]
    exact ⟨newline_notMem_blanks hblanks, hline⟩
  rw [r.keyEntry_eq, ← List.append_assoc]
  exact textLines_line hl []

theorem text_eq_of_param? (hkey : r.param? "key" = some key) : r.text "key" = key := by
  rw [AgentResource.text, hkey, Option.getD_some]

/-- A call for a wanted key. -/
theorem keyKeeps_present (hkey : r.param? "key" = some key) (hwants : r.WantsPresent)
    {ls ls' : List Bytes} : KeyKeeps r ls ls' ↔
      (ls'.filter (hasKey key)).map readKeyLine = [some r.wantedKey] ∧
        ls'.filter (hasOtherKey key) = ls.filter (hasOtherKey key) := by
  rw [KeyKeeps, hkey]
  dsimp only
  rw [if_pos hwants]

/-- A call for a key that is not wanted. -/
theorem keyKeeps_absent (hkey : r.param? "key" = some key) (hwants : ¬ r.WantsPresent)
    {ls ls' : List Bytes} : KeyKeeps r ls ls' ↔ (∀ l ∈ ls', hasKey key l = false) ∧
      ls'.filter (hasOtherKey key) = ls.filter (hasOtherKey key) := by
  rw [KeyKeeps, hkey]
  dsimp only
  rw [if_neg hwants, List.map_eq_nil_iff, List.filter_eq_nil_iff]
  simp only [Bool.not_eq_true]

theorem filter_hasOtherKey_blanks (hblanks : ∀ c ∈ blanks, isHostBlank c = true) (key : Bytes)
    (ls : List Bytes) : (ls.map (blanks ++ ·)).filter (hasOtherKey key) =
      (ls.filter (hasOtherKey key)).map (blanks ++ ·) := by
  rw [List.filter_map]
  exact congrArg _ (List.filter_congr fun l _ ↦ hasOtherKey_blanks hblanks key l)

/-- An entry that fits is the only line with the key if no other line has it. -/
theorem put_iff_of_fits (hkey : r.param? "key" = some key) (hfits : EntryFits r)
    (hblanks : ∀ c ∈ blanks, isHostBlank c = true) :
    ((pre ++ textLines (blanks ++ r.keyEntry) ++ post).filter (hasKey key)).map readKeyLine =
          [some r.wantedKey] ∧
        (textLines (blanks ++ r.keyEntry)).filter (hasOtherKey key) =
          (old.filter (hasOtherKey key)).map (blanks ++ ·) ↔
      (∀ l ∈ pre ++ post, hasKey key l = false) ∧ ∀ l ∈ old, hasOtherKey key l = false := by
  have hread := hfits.readKeyLine_eq
  have hhas : hasKey key (blanks ++ r.keyLine) = true := by
    rw [hasKey_blanks hblanks, hasKey, hread]
    exact decide_eq_true (text_eq_of_param? hkey)
  have hother : hasOtherKey key (blanks ++ r.keyLine) = false := by
    rw [hasOtherKey_blanks hblanks, hasOtherKey, hread]
    exact decide_eq_false (not_not_intro (text_eq_of_param? hkey))
  rw [textLines_blanks_keyEntry hblanks hfits.notMem_keyLine, List.filter_append,
    List.filter_append, List.filter_cons_of_pos hhas, List.filter_cons_of_neg (by simp [hother]),
    List.filter_nil, List.filter_nil, List.append_assoc, List.singleton_append,
    map_append_cons_eq_singleton_iff, readKeyLine_blanks hblanks, List.filter_eq_nil_iff,
    List.filter_eq_nil_iff, eq_comm (a := []), List.map_eq_nil_iff, List.filter_eq_nil_iff,
    List.forall_mem_append]
  simp only [Bool.not_eq_true, hread, and_true]

/-- No line can say what the resource asks for if its entry has newlines. -/
theorem newline_notMem_keyLine_of_filter {ls : List Bytes} (hls : ∀ l ∈ ls, '\n' ∉ l)
    (h : (ls.filter (hasKey key)).map readKeyLine = [some r.wantedKey]) : '\n' ∉ r.keyLine := by
  have hmem : some r.wantedKey ∈ (ls.filter (hasKey key)).map readKeyLine := by
    rw [h]
    exact List.mem_singleton_self _
  obtain ⟨l, hl, hread⟩ := List.mem_map.1 hmem
  exact newline_notMem_keyLine (hls l (List.mem_of_mem_filter hl)) hread

/-- An entry that does not fit has to leave things as they are, and they have to be right. -/
theorem put_iff_of_misfits (hfits : ¬ EntryFits r)
    (hblanks : ∀ c ∈ blanks, isHostBlank c = true) (hlines : ∀ l ∈ pre ++ post, '\n' ∉ l) :
    ((pre ++ textLines (blanks ++ r.keyEntry) ++ post).filter (hasKey key)).map readKeyLine =
          [some r.wantedKey] ∧
        (textLines (blanks ++ r.keyEntry)).filter (hasOtherKey key) =
          (old.filter (hasOtherKey key)).map (blanks ++ ·) ↔
      ((pre ++ post).filter (hasKey key)).map readKeyLine = [some r.wantedKey] ∧
        hasKey key r.keyLine = false ∧
        old.filter (hasOtherKey key) = [r.keyLine].filter (hasOtherKey key) := by
  by_cases hline : '\n' ∈ r.keyLine
  · refine iff_of_false
      (fun h ↦ newline_notMem_keyLine_of_filter (fun l hl ↦ ?_) h.1 hline)
      fun h ↦ newline_notMem_keyLine_of_filter hlines h.1 hline
    rw [List.mem_append, List.mem_append] at hl
    rcases hl with (hl | hl) | hl
    · exact hlines l (List.mem_append_left _ hl)
    · exact newline_notMem_of_mem_textLines hl
    · exact hlines l (List.mem_append_right _ hl)
  have hread : readKeyLine r.keyLine ≠ some r.wantedKey :=
    fun h ↦ hfits (entryFits_of_readKeyLine hline h)
  have hold : ([blanks ++ r.keyLine].filter (hasOtherKey key) =
      (old.filter (hasOtherKey key)).map (blanks ++ ·)) ↔
        old.filter (hasOtherKey key) = [r.keyLine].filter (hasOtherKey key) := by
    have hone := filter_hasOtherKey_blanks hblanks key [r.keyLine]
    rw [List.map_singleton] at hone
    rw [hone, (List.map_injective_iff.2 (List.append_right_injective blanks)).eq_iff, eq_comm]
  rw [textLines_blanks_keyEntry hblanks hline, hold, List.filter_append, List.filter_append,
    List.filter_append]
  cases hhas : hasKey key r.keyLine with
  | true =>
    -- The entry would be the line with the key, but says something else.
    have hhas' := (hasKey_blanks hblanks key r.keyLine).trans hhas
    rw [List.filter_cons_of_pos hhas', List.append_assoc, List.filter_nil, List.singleton_append,
      map_append_cons_eq_singleton_iff, readKeyLine_blanks hblanks]
    exact iff_of_false (fun h ↦ hread h.1.2.2) (fun h ↦ by cases h.2.1)
  | false =>
    have hhas' := (hasKey_blanks hblanks key r.keyLine).trans hhas
    rw [List.filter_cons_of_neg (by simp [hhas']), List.filter_nil, List.append_nil]
    exact and_congr_right fun _ ↦ (and_iff_right rfl).symm

/-- The entry of a resource takes the place of lines. -/
theorem keyKeeps_put_iff (old : List Bytes) (hkey : r.param? "key" = some key)
    (hwants : r.WantsPresent)
    (hblanks : ∀ c ∈ blanks, isHostBlank c = true) (hlines : ∀ l ∈ pre ++ post, '\n' ∉ l) :
    KeyKeeps r (pre ++ old.map (blanks ++ ·) ++ post)
        (pre ++ textLines (blanks ++ r.keyEntry) ++ post) ↔
      EntryCareful r key (pre ++ post) old := by
  have hsame : (pre ++ textLines (blanks ++ r.keyEntry) ++ post).filter (hasOtherKey key) =
      (pre ++ old.map (blanks ++ ·) ++ post).filter (hasOtherKey key) ↔
        (textLines (blanks ++ r.keyEntry)).filter (hasOtherKey key) =
          (old.filter (hasOtherKey key)).map (blanks ++ ·) := by
    simp only [List.filter_append]
    rw [List.append_left_inj, List.append_right_inj, filter_hasOtherKey_blanks hblanks]
  rw [keyKeeps_present hkey hwants, hsame]
  by_cases hfits : EntryFits r
  · rw [put_iff_of_fits hkey hfits hblanks]
    exact ⟨fun h ↦ ⟨fun _ ↦ h, fun h' ↦ absurd hfits h'⟩, fun h ↦ h.fits hfits⟩
  · rw [put_iff_of_misfits hfits hblanks hlines]
    exact ⟨fun h ↦ ⟨fun h' ↦ absurd h' hfits, fun _ ↦ h⟩, fun h ↦ h.misfits hfits⟩

end Lines

/-! ### Calls -/

section Calls

variable {r : AgentResource} {key text before entry after : Bytes} {pre : List Bytes}
  {blanks l newline : Bytes}

theorem keyFound_nil (key following : Bytes) : keyFound key [] following = false := by
  rw [keyFound]
  cases cutAt key ([] ++ following) with
  | none => rfl
  | some p => simp

theorem nameFound_nil (name following : Bytes) : nameFound name [] following = false := by
  simp [nameFound]

/-- The line that a call edits. -/
theorem findKey_eq_some (h : r.findKey text = some (before, entry, after)) :
    ∃ pre blanks l newline, FoundLine text before entry after pre blanks l newline := by
  rw [AgentResource.findKey] at h
  split_ifs at h
  · exact findLine_eq_some (nameFound_nil r.title) h
  · obtain ⟨key, -, hkey⟩ := Option.bind_eq_some_iff.1 h
    exact findLine_eq_some (keyFound_nil key) hkey

/-- Blanks that are left before the line have no key. -/
theorem FoundLine.filter_hasKey (h : FoundLine text before entry after pre blanks l newline)
    (key : Bytes) (ls : List Bytes) :
    (textLines before ++ ls).filter (hasKey key) = (pre ++ ls).filter (hasKey key) := by
  have hnone : hasKey key blanks = false := by
    rw [← List.append_nil blanks, hasKey_blanks h.blanks, hasKey_nil]
  rw [h.textLines_before]
  split_ifs
  · rw [List.append_nil]
  · rw [List.append_assoc, List.filter_append, List.filter_append, List.filter_append,
      List.filter_cons_of_neg (by simp [hnone]), List.filter_nil, List.nil_append]

theorem FoundLine.forall_hasKey_iff (h : FoundLine text before entry after pre blanks l newline)
    (key : Bytes) (ls : List Bytes) : (∀ x ∈ textLines before ++ ls, hasKey key x = false) ↔
      ∀ x ∈ pre ++ ls, hasKey key x = false := by
  have hfilter := h.filter_hasKey key ls
  simp only [← Bool.not_eq_true]
  rw [← List.filter_eq_nil_iff, ← List.filter_eq_nil_iff, hfilter]

theorem FoundLine.entryCareful_iff (h : FoundLine text before entry after pre blanks l newline)
    (key : Bytes) (ls old : List Bytes) :
    EntryCareful r key (textLines before ++ ls) old ↔ EntryCareful r key (pre ++ ls) old := by
  constructor
  · intro hcareful
    refine ⟨fun hfits ↦ ?_, fun hfits ↦ ?_⟩
    · rw [← h.forall_hasKey_iff]
      exact hcareful.fits hfits
    · rw [← h.filter_hasKey]
      exact hcareful.misfits hfits
  · intro hcareful
    refine ⟨fun hfits ↦ ?_, fun hfits ↦ ?_⟩
    · rw [h.forall_hasKey_iff]
      exact hcareful.fits hfits
    · rw [h.filter_hasKey]
      exact hcareful.misfits hfits

/-- What a call leaves that puts the entry in the place of the line, which may be there already. -/
theorem keyResult_put (hread : readKeys text = text) (hwants : r.WantsPresent)
    (hfind : r.findKey text = some (before, entry, after)) :
    keyResult r text = before ++ r.keyEntry ++ after := by
  obtain ⟨pre, blanks, l, newline, hfound⟩ := findKey_eq_some hfind
  rw [keyResult, hread, hfind]
  dsimp only
  rw [if_neg (not_not_intro hwants)]
  split_ifs with hentry
  · rw [← hentry]
    exact hfound.text_eq
  · rfl

/-- A call for a wanted key. -/
theorem keyKeeps_result_present (hread : readKeys text = text) (hkey : r.param? "key" = some key)
    (hwants : r.WantsPresent) :
    KeyKeeps r (textLines text) (textLines (keyResult r text)) ↔ KeyCareful r text := by
  rw [KeyCareful, hkey]
  cases hfind : r.findKey text with
  | none =>
    dsimp only
    rw [if_pos hwants, keyResult, hread, hfind]
    dsimp only
    rw [if_pos hwants, textLines_withNewline_append]
    have hlines : ∀ l ∈ textLines text ++ [], '\n' ∉ l :=
      fun l hl ↦ newline_notMem_of_mem_textLines (List.append_nil (textLines text) ▸ hl)
    have hput := keyKeeps_put_iff [] hkey hwants blanks_nil hlines
    rw [List.map_nil, List.append_nil, List.append_nil, List.append_nil, List.nil_append] at hput
    exact hput
  | some found =>
    obtain ⟨before, entry, after⟩ := found
    dsimp only
    obtain ⟨pre, blanks, l, newline, hfound⟩ := findKey_eq_some hfind
    have hlines : ∀ x ∈ pre ++ textLines after, '\n' ∉ x :=
      List.forall_mem_append.2 ⟨hfound.pre, fun x hx ↦ newline_notMem_of_mem_textLines hx⟩
    have hput := keyKeeps_put_iff [l] hkey hwants hfound.blanks hlines
    rw [List.map_singleton, List.append_assoc, List.singleton_append, ← hfound.textLines_text,
      r.keyEntry_eq, ← hfound.textLines_put, ← r.keyEntry_eq] at hput
    rw [if_pos hwants, keyResult_put hread hwants hfind, hfound.entryCareful_iff,
      hfound.textLines_entry]
    exact hput

/-- What a call leaves that removes the line. -/
theorem keyResult_drop (hread : readKeys text = text) (hwants : ¬ r.WantsPresent) :
    keyResult r text = match r.findKey text with
      | none => text
      | some (before, _, after) => before ++ after := by
  rw [keyResult, hread]
  cases r.findKey text with
  | none => exact if_neg hwants
  | some found => exact if_pos hwants

/-- A call for a key that is not wanted. -/
theorem keyKeeps_result_absent (hread : readKeys text = text) (hkey : r.param? "key" = some key)
    (hwants : ¬ r.WantsPresent) :
    KeyKeeps r (textLines text) (textLines (keyResult r text)) ↔ KeyCareful r text := by
  rw [KeyCareful, hkey, keyKeeps_absent hkey hwants, keyResult_drop hread hwants]
  cases hfind : r.findKey text with
  | none =>
    dsimp only
    rw [if_neg hwants]
    exact and_iff_left rfl
  | some found =>
    obtain ⟨before, entry, after⟩ := found
    obtain ⟨pre, blanks, l, newline, hfound⟩ := findKey_eq_some hfind
    dsimp only
    have hdrop := filter_drop_eq_iff after hfound.notMem_blanks
      (hasOtherKey_blanks hfound.blanks key) hfound.line.2
    have hhas : (∀ x ∈ textLines (blanks ++ after), hasKey key x = false) ↔
        ∀ x ∈ textLines after, hasKey key x = false := by
      rw [textLines_append_of_notMem hfound.notMem_blanks]
      cases textLines after with
      | nil =>
        refine iff_of_true (fun x hx ↦ ?_) fun x hx ↦ by cases hx
        dsimp only at hx
        split_ifs at hx
        · cases hx
        · rw [List.mem_singleton.1 hx, ← List.append_nil blanks, hasKey_blanks hfound.blanks,
            hasKey_nil]
      | cons m ms =>
        dsimp only
        rw [List.forall_mem_cons, List.forall_mem_cons, hasKey_blanks hfound.blanks]
    have hhead : (if textLines after = [] then hasOtherKey key [] = false else
        ∀ m ∈ (textLines after).head?, hasOtherKey key m = false) ↔
          ∀ m ∈ (textLines after).head?, hasOtherKey key m = false := by
      split_ifs with hnil
      · rw [hnil]
        exact iff_of_true rfl fun m hm ↦ by cases hm
      · rfl
    rw [if_neg hwants, hfound.textLines_drop, hfound.forall_hasKey_iff, hfound.textLines_text,
      List.filter_append, List.filter_append, List.append_right_inj, hdrop, hhead,
      hfound.textLines_entry, hfound.endsLine_iff, List.forall_mem_append, hhas,
      ← List.forall_mem_append, List.forall_mem_singleton]

/-- A call without a key. -/
theorem keyKeeps_result_title (hread : readKeys text = text) (hkey : r.param? "key" = none)
    (hwants : ¬ r.WantsPresent) :
    KeyKeeps r (textLines text) (textLines (keyResult r text)) ↔ KeyCareful r text := by
  rw [KeyCareful, KeyKeeps, hkey, keyResult_drop hread hwants]
  cases hfind : r.findKey text with
  | none => exact iff_of_true rfl trivial
  | some found =>
    obtain ⟨before, entry, after⟩ := found
    obtain ⟨pre, blanks, l, newline, hfound⟩ := findKey_eq_some hfind
    dsimp only
    have hdrop := filter_drop_eq_iff (p := fun x ↦ !isTitled r.title x) after
      hfound.notMem_blanks
      (fun x ↦ congrArg not (isTitled_blanks hfound.blanks r.title x)) hfound.line.2
    have hhead : (if textLines after = [] then (!isTitled r.title []) = false else
        ∀ m ∈ (textLines after).head?, (!isTitled r.title m) = false) ↔
          ∃ m ∈ (textLines after).head?, isTitled r.title m = true := by
      cases textLines after with
      | nil => simp
      | cons m ms => simp
    rw [hfound.textLines_drop, hfound.textLines_text, List.filter_append, List.filter_append,
      List.append_right_inj, hdrop, hhead, hfound.textLines_entry, hfound.endsLine_iff,
      List.forall_mem_singleton, Bool.not_eq_false']

theorem wantsKey_of_successful {sys : KeySystem} {noop : Bool} {stored : Bytes}
    (h : (keyApply sys r noop stored).Successful) (hwants : r.WantsPresent) :
    ∃ key, r.param? "key" = some key := by
  by_contra hkey
  have hnone : r.param? "key" = none := Option.eq_none_iff_forall_ne_some.2 fun key h ↦ hkey ⟨key, h⟩
  have htext : r.text "key" = [] := by rw [AgentResource.text, hnone, Option.getD_none]
  unfold keyApply at h
  dsimp only at h
  by_cases huser : r.text "user" = []
  · rw [if_pos huser] at h
    rcases h with h | h <;> cases h
  · rw [if_neg huser, if_pos ⟨hwants, htext⟩] at h
    rcases h with h | h <;> cases h

/-- A successful call on a text that is read whole. -/
theorem keyKeeps_apply_iff {sys : KeySystem} {noop : Bool} (hread : readKeys text = text)
    (h : (keyApply sys r noop text).Successful) :
    KeyKeeps r (textLines text) (textLines (keyApply sys r noop text).text) ↔
      KeyCareful r text := by
  rw [keyApply_text h]
  by_cases hwants : r.WantsPresent
  · obtain ⟨key, hkey⟩ := wantsKey_of_successful h hwants
    exact keyKeeps_result_present hread hkey hwants
  · cases hkey : r.param? "key" with
    | none => exact keyKeeps_result_title hread hkey hwants
    | some key => exact keyKeeps_result_absent hread hkey hwants

end Calls

/-! ### Long files -/

/-- A resource with a key. -/
def authorizedKey (ensure key title : String) : AgentResource :=
  ⟨"ssh_authorized_key".toList, title.toList, [("ensure".toList, ensure.toList),
    ("user".toList, "root".toList), ("type".toList, "ssh-rsa".toList), ("key".toList, key.toList)]⟩

/-- A system where every user has a home and every file can be written. -/
def easyKeys : KeySystem := ⟨fun _ ↦ some "/root".toList, fun _ ↦ true, fun _ _ ↦ none⟩

/-- A line with a long comment. -/
def longKey (n : ℕ) : Bytes :=
  "ssh-rsa".toList ++ ' ' :: "A".toList ++ ' ' :: List.replicate n 'x'

theorem longKey_eq (n : ℕ) : longKey n = "ssh-rsa A ".toList ++ List.replicate n 'x' := rfl

theorem mem_longKey {n : ℕ} {c : Char} (h : c ∈ longKey n) : c ∈ "ssh-rsa A x".toList := by
  rw [longKey_eq, List.mem_append] at h
  rcases h with h | h
  · exact List.mem_append_left ['x'] h
  · exact List.mem_append_right "ssh-rsa A ".toList
      (List.mem_singleton.2 (List.eq_of_mem_replicate h))

theorem textLines_longKey (n : ℕ) : textLines (longKey n) = [longKey n] := by
  refine textLines_last (fun h ↦ ?_) (by simp [longKey_eq])
  have hmem := mem_longKey h
  revert hmem
  decide

theorem readKeyLine_longKey (n : ℕ) : readKeyLine (longKey n) =
    some ⟨[], "ssh-rsa".toList, "A".toList, List.replicate n 'x'⟩ :=
  readKeyLine_plain (by decide +kernel) (List.cons_ne_nil _ _)
    (fun c hc ↦ List.mem_singleton.1 hc ▸ rfl)
    fun c hc ↦ List.eq_of_mem_replicate (List.mem_of_head? hc) ▸ rfl

theorem take_longKey {k n : ℕ} (hk : 10 ≤ k) (hkn : k ≤ n + 10) :
    (longKey n).take k = longKey (k - 10) := by
  have hlength : "ssh-rsa A ".toList.length = 10 := rfl
  rw [longKey_eq, longKey_eq, List.take_append, List.take_of_length_le (hlength ▸ hk), hlength,
    List.take_replicate, Nat.min_eq_left (by omega)]

/-- A line that does not fit the buffer is cut. -/
theorem readKeys_longKey {n : ℕ} (hn : 256 * 1024 ≤ n + 10) :
    readKeys (longKey n) = longKey (256 * 1024 - 1 - 10) := by
  rw [readKeys, take_longKey (by omega) (by omega), List.takeWhile_eq_self_iff]
  have hall : "ssh-rsa A x".toList.all (fun c ↦ decide (c ≠ '\x00')) = true := rfl
  exact fun c hc ↦ List.all_eq_true.1 hall c (mem_longKey hc)

theorem findKey_longKey (n : ℕ) : (authorizedKey "present" "K" "t").findKey (longKey n) = none := by
  have hkey : (authorizedKey "present" "K" "t").param? "key" = some "K".toList := by decide
  have hwants : (authorizedKey "present" "K" "t").WantsPresent := by decide
  have hcut : cutAt "K".toList ((longKey n).dropWhile isHostBlank ++ []) = none := by
    rw [cutAt_eq_none_iff]
    intro h
    have hmem := h.subset (List.mem_singleton_self 'K')
    rw [List.append_nil] at hmem
    have hmem' := mem_longKey ((List.dropWhile_sublist _).subset hmem)
    revert hmem'
    decide
  have hpieces : linePieces (longKey n) = [longKey n] := by
    refine linePieces_last (fun h ↦ ?_) (by simp [longKey_eq])
    have hmem := mem_longKey h
    revert hmem
    decide
  have hfound : findKeyEntry (longKey n) "K".toList = none := by
    rw [findKeyEntry, hpieces, findLine, findLine, List.flatten_nil, keyFound, hcut]
    exact if_neg fun h ↦ by cases h.2.2
  rw [AgentResource.findKey, hkey, Option.bind_some, hfound]
  exact if_neg fun h ↦ h.2 hwants

/-- Long lines are cut by a call that meets the rest of the condition. -/
theorem not_keyKeeps_longKey {n : ℕ} (hn : 256 * 1024 ≤ n + 10) :
    let r := authorizedKey "present" "K" "t"
    (keyApply easyKeys r false (longKey n)).Successful ∧ KeyCareful r (longKey n) ∧
      ¬ KeyKeeps r (textLines (longKey n))
        (textLines (keyApply easyKeys r false (longKey n)).text) := by
  intro r
  have hkey : r.param? "key" = some "K".toList := by decide
  have hwants : r.WantsPresent := by decide
  have hfind : r.findKey (readKeys (longKey n)) = none := by
    rw [readKeys_longKey hn]
    exact findKey_longKey _
  have hsuccessful : (keyApply easyKeys r false (longKey n)).Successful := by
    have huser : r.text "user" = "root".toList := by decide
    have hdir : ¬ (r.WantsPresent ∧ r.param? "target" = none ∧
        easyKeys.sshDir (r.text "user") = false ∧ false = false) := fun h ↦ by cases h.2.2.1
    unfold keyApply
    dsimp only
    rw [if_neg (by decide), if_neg (by decide), if_neg (by decide)]
    change TextApplied.Successful (if _ then _ else _)
    rw [if_neg hdir, if_neg (not_not_intro hwants), hfind]
    exact Or.inr rfl
  have hother (k : ℕ) : hasOtherKey "K".toList (longKey k) = true := by
    rw [hasOtherKey, readKeyLine_longKey]
    rfl
  have hhas (k : ℕ) : hasKey "K".toList (longKey k) = false := by
    rw [hasKey, readKeyLine_longKey]
    rfl
  have hfits : EntryFits r := by
    refine entryFits_of_readKeyLine (by decide) ?_
    decide +kernel
  refine ⟨hsuccessful, ?_, fun h ↦ ?_⟩
  · rw [KeyCareful, hkey, findKey_longKey, textLines_longKey]
    dsimp only
    rw [if_pos hwants]
    refine ⟨fun _ ↦ ⟨List.forall_mem_singleton.2 (hhas n), fun l hl ↦ by cases hl⟩,
      fun hmisfits ↦ absurd hfits hmisfits⟩
  · have hentry : [r.keyLine].filter (hasOtherKey "K".toList) = [] := by decide +kernel
    have hself (k : ℕ) : [longKey k].filter (hasOtherKey "K".toList) = [longKey k] :=
      List.filter_cons_of_pos (hother k)
    have hlines := ((keyKeeps_present hkey hwants).1 h).2
    rw [keyApply_text hsuccessful, keyResult, hfind] at hlines
    dsimp only at hlines
    have hblanks := textLines_blanks_keyEntry blanks_nil hfits.notMem_keyLine
    rw [if_pos hwants, textLines_withNewline_append, readKeys_longKey hn, textLines_longKey,
      textLines_longKey, ← List.nil_append r.keyEntry, hblanks, List.filter_append, List.nil_append,
      hentry, hself, hself, List.append_nil] at hlines
    have hlength := congrArg List.length (List.cons.inj hlines).1
    rw [longKey_eq, longKey_eq, List.length_append, List.length_append, List.length_replicate,
      List.length_replicate] at hlength
    omega

/-- The condition is that for texts of a length if and only if they fit the buffer. -/
theorem key_apply_iff (n : ℕ) :
    (∀ stored : Bytes, stored.length = n → '\x00' ∉ stored →
      ∀ (sys : KeySystem) (r : AgentResource) (noop : Bool),
        (keyApply sys r noop stored).Successful →
          (KeyKeeps r (textLines stored) (textLines (keyApply sys r noop stored).text) ↔
            KeyCareful r stored)) ↔
      n < 256 * 1024 := by
  constructor
  · intro h
    by_contra hn
    obtain ⟨m, rfl⟩ : ∃ m, n = m + 10 := ⟨n - 10, by omega⟩
    obtain ⟨hsuccessful, hcareful, hkeeps⟩ := not_keyKeeps_longKey (n := m) (by omega)
    refine hkeeps ((h (longKey m) ?_ (fun hmem ↦ ?_) _ _ _ hsuccessful).2 hcareful)
    · rw [longKey_eq, List.length_append, List.length_replicate, Nat.add_comm]
      rfl
    · have hmem' := mem_longKey hmem
      revert hmem'
      decide
  · intro hn stored hlength hnul sys r noop hsuccessful
    exact keyKeeps_apply_iff (readKeys_eq (by omega) hnul) hsuccessful

/-- The second line with a key that is revoked stays. -/
theorem not_keyKeeps_twice :
    let r := authorizedKey "absent" "A" "alice"
    let stored := "ssh-rsa A alice\nssh-rsa A bob\n".toList
    keyApply easyKeys r false stored = ⟨.changed, none, "ssh-rsa A bob\n".toList⟩ ∧
      ¬ KeyKeeps r (textLines stored) (textLines "ssh-rsa A bob\n".toList) := by
  intro r stored
  have hkey : r.param? "key" = some "A".toList := by decide
  have hwants : ¬ r.WantsPresent := by decide
  refine ⟨by decide +kernel, fun h ↦ ?_⟩
  have hnone := ((keyKeeps_absent hkey hwants).1 h).1 "ssh-rsa A bob".toList (by decide +kernel)
  revert hnone
  decide +kernel

end PuppetC
