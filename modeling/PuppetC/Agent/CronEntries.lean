import PuppetC.Agent.Cron
import PuppetC.Support.StepSystem

/-!
# Entries of a crontab

A crontab is made of lines that nobody marked and of entries, each of which has its mark, the lines
of an environment and the line of a job. The call for a resource should replace the entry of its
title, or add it, or remove it, and leave everything else alone.

The agent finds the end of an entry by counting two newlines. So this is what happens along every
run in which the entries that are replaced or removed have no environment, all texts fit their
buffers, and the lines that are written are lines and no marks. An entry with an environment is
removed without the line of its job.

## Main definitions

* `CronEntry`, `CronItem`: entries, and what a crontab is made of.
* `MarksOne`: the mark of a title is that of one entry, and nothing else.
* `cronSystem`: successful calls, and the items that they should lead to.
* `CronCareful`: the condition on a call; `CronKeeps`: what it should do.

## Main results

* `findMarked_eq_none`, `findMarked_unlines`: the search finds the first line that is the mark.
* `cronKeeps_step`: one call.
* `cron_entries_along`: what happens along every run.
-/

namespace PuppetC

/-! ### What a crontab is made of -/

/-- An entry. -/
structure CronEntry where
  title : Bytes
  environment : List Bytes
  job : Bytes

/-- The lines of an entry after its mark. -/
def CronEntry.body (e : CronEntry) : List Bytes := e.environment ++ [e.job]

/-- The lines of an entry. -/
def CronEntry.lines (e : CronEntry) : List Bytes := (cronMarker ++ e.title) :: e.body

/-- A line or an entry. -/
inductive CronItem where
  | line (l : Bytes)
  | entry (e : CronEntry)

namespace CronItem

/-- The lines of an item. -/
def lines : CronItem → List Bytes
  | line l => [l]
  | entry e => e.lines

/-- The lines of an item that are not marks. -/
def unmarked : CronItem → List Bytes
  | line l => [l]
  | entry e => e.body

/-- The title of an entry. -/
def title? : CronItem → Option Bytes
  | line _ => none
  | entry e => some e.title

end CronItem

/-- The lines of items. -/
def itemLines (items : List CronItem) : List Bytes := items.flatMap CronItem.lines

/-- The items without the entries of a title. -/
def removeEntry (title : Bytes) (items : List CronItem) : List CronItem :=
  items.filter fun i ↦ i.title? ≠ some title

/-- The items with an entry in the place of those of its title, or behind them. -/
def putEntry (e : CronEntry) (items : List CronItem) : List CronItem :=
  if some e.title ∈ items.map CronItem.title? then
    items.map fun i ↦ if i.title? = some e.title then .entry e else i
  else items ++ [.entry e]

/-- The items have one entry of a title at most, and no other line is its mark. -/
structure MarksOne (title : Bytes) (items : List CronItem) : Prop where
  single : (items.filter fun i ↦ i.title? = some title).length ≤ 1
  unmarked : ∀ i ∈ items, cronMarker ++ title ∉ i.unmarked

/-! ### The search -/

section Search

variable {m l t before : Bytes} {ls : List Bytes}

/-- A search passes what is not the start of a line. -/
theorem findMarked_skip (hl : '\n' ∉ l) (hne : before ≠ []) (hbefore : before.getLast? ≠ some '\n')
    (t : Bytes) :
    findMarked m before (l ++ '\n' :: t) = findMarked m (before ++ l ++ ['\n']) t := by
  have hstart {before : Bytes} (hne : before ≠ []) (hbefore : before.getLast? ≠ some '\n') :
      ¬ (before = [] ∨ before.getLast? = some '\n') := not_or.2 ⟨hne, hbefore⟩
  induction l generalizing before with
  | nil =>
    rw [List.nil_append, findMarked, if_neg fun h ↦ hstart hne hbefore h.2.1, List.append_nil]
  | cons c l ih =>
    rw [List.mem_cons, not_or] at hl
    rw [List.cons_append, findMarked, if_neg fun h ↦ hstart hne hbefore h.2.1,
      ih hl.2 (by simp) (by simpa using Ne.symm hl.1)]
    simp

theorem findMarked_skip_last (hl : '\n' ∉ l) (hne : before ≠ [])
    (hbefore : before.getLast? ≠ some '\n') : findMarked m before l = none := by
  induction l generalizing before with
  | nil => rfl
  | cons c l ih =>
    rw [List.mem_cons, not_or] at hl
    rw [findMarked, if_neg fun h ↦ (not_or.2 ⟨hne, hbefore⟩) h.2.1]
    exact ih hl.2 (by simp) (by simpa using Ne.symm hl.1)

/-- A line that is not the mark does not start with it and end behind it. -/
theorem not_marked (hm : '\n' ∉ m) (hl : '\n' ∉ l) (hne : l ≠ m)
    (ht : t = [] ∨ ∃ u, t = '\n' :: u) :
    ¬ (m <+: l ++ t ∧ (((l ++ t).drop m.length).head? = none ∨
      ((l ++ t).drop m.length).head? = some '\n')) := by
  rintro ⟨hstarts, hend⟩
  have hml : m <+: l := by
    rcases List.prefix_or_prefix_of_prefix hstarts (List.prefix_append l t) with h | ⟨u, rfl⟩
    · exact h
    · have hu : u <+: t := (List.prefix_append_right_inj l).1 hstarts
      rcases ht with rfl | ⟨v, rfl⟩
      · rw [List.prefix_nil.1 hu, List.append_nil]
      · cases u with
        | nil => rw [List.append_nil]
        | cons c u =>
          have hc : c = '\n' := (List.cons_prefix_cons.1 hu).1
          exact absurd (List.mem_append_right l (hc ▸ List.mem_cons_self)) hm
  obtain ⟨u, rfl⟩ := hml
  cases u with
  | nil => exact hne (List.append_nil m)
  | cons c u =>
    rw [List.append_assoc, List.drop_left] at hend
    rcases hend with hend | hend
    · cases hend
    · have hc : c = '\n' := Option.some.inj hend
      exact hl (List.mem_append_right m (hc ▸ List.mem_cons_self))

/-- A search passes a line that is not the mark. -/
theorem findMarked_line (hm : '\n' ∉ m) (hl : '\n' ∉ l) (hlm : l ≠ m) (t : Bytes) :
    findMarked m before (l ++ '\n' :: t) = findMarked m (before ++ l ++ ['\n']) t := by
  have hnot := not_marked hm hl hlm (Or.inr ⟨t, rfl⟩)
  cases l with
  | nil =>
    rw [List.nil_append, findMarked, if_neg fun h ↦ hnot ⟨h.1, h.2.2⟩, List.append_nil]
  | cons c l =>
    rw [List.mem_cons, not_or] at hl
    rw [List.cons_append, findMarked, if_neg fun h ↦ hnot ⟨h.1, h.2.2⟩,
      findMarked_skip hl.2 (by simp) (by simpa using Ne.symm hl.1)]
    simp

/-- Nothing is found where no line is the mark. -/
theorem findMarked_eq_none (hm : '\n' ∉ m) (h : m ∉ textLines t) :
    findMarked m before t = none := by
  induction t using textLines_induct generalizing before with
  | nil => rfl
  | last l hl hne =>
    rw [textLines_last hl hne, List.mem_singleton] at h
    have hnot := not_marked hm hl (Ne.symm h) (Or.inl rfl)
    rw [List.append_nil] at hnot
    cases l with
    | nil => rfl
    | cons c l =>
      rw [List.mem_cons, not_or] at hl
      rw [findMarked, if_neg fun h ↦ hnot ⟨h.1, h.2.2⟩]
      exact findMarked_skip_last hl.2 (by simp) (by simpa using Ne.symm hl.1)
  | line l t hl ih =>
    rw [textLines_line hl, List.mem_cons, not_or] at h
    rw [findMarked_line hm hl (Ne.symm h.1)]
    exact ih h.2

/-- A mark that is a line is found. -/
theorem findMarked_unlines (hm : '\n' ∉ m) (hls : ∀ l ∈ ls, '\n' ∉ l ∧ l ≠ m)
    (hne : m ≠ []) (ht : t = [] ∨ ∃ u, t = '\n' :: u) :
    findMarked m [] (unlines ls ++ (m ++ t)) = some (unlines ls, m ++ t) := by
  have hfound (before : Bytes) (hbefore : before = [] ∨ before.getLast? = some '\n') :
      findMarked m before (m ++ t) = some (before, m ++ t) := by
    obtain ⟨c, m, rfl⟩ := List.exists_cons_of_ne_nil hne
    rw [List.cons_append, findMarked, if_pos]
    refine ⟨List.prefix_append (c :: m) t, hbefore, ?_⟩
    have hdrop : ((c :: m) ++ t).drop (c :: m).length = t := List.drop_left
    rw [← List.cons_append, hdrop]
    rcases ht with rfl | ⟨u, rfl⟩
    exacts [Or.inl rfl, Or.inr rfl]
  have hpassed (before : Bytes) :
      findMarked m before (unlines ls ++ (m ++ t)) =
        findMarked m (before ++ unlines ls) (m ++ t) := by
    induction ls generalizing before with
    | nil => simp
    | cons l ls ih =>
      rw [List.forall_mem_cons] at hls
      rw [unlines_cons, List.append_assoc, List.cons_append,
        findMarked_line hm hls.1.1 hls.1.2, ih hls.2]
      simp
  rw [hpassed, List.nil_append]
  refine hfound _ ?_
  by_cases hnil : ls = []
  · exact Or.inl (by rw [hnil, unlines_nil])
  · exact Or.inr (getLast?_unlines ls hnil)

end Search

/-! ### Items -/

section Items

variable {items pre post : List CronItem} {title : Bytes} {e e' : CronEntry}

/-- A title that has one entry divides the items. -/
theorem MarksOne.exists_split (h : MarksOne title items)
    (hmem : some title ∈ items.map CronItem.title?) :
    ∃ pre e post, items = pre ++ .entry e :: post ∧ e.title = title ∧
      ∀ i ∈ pre ++ post, i.title? ≠ some title := by
  obtain ⟨i, hi, htitle⟩ := List.mem_map.1 hmem
  cases i with
  | line l => cases htitle
  | entry e =>
    obtain ⟨pre, post, rfl⟩ := List.append_of_mem hi
    refine ⟨pre, e, post, rfl, Option.some.inj htitle, fun i hi heq ↦ ?_⟩
    have hsingle := h.single
    rw [List.filter_append, List.filter_cons_of_pos (by simpa using htitle), List.length_append,
      List.length_cons] at hsingle
    have hnone : ((pre ++ post).filter fun i ↦ i.title? = some title).length = 0 := by
      rw [List.filter_append, List.length_append]
      omega
    have hmem : i ∈ (pre ++ post).filter fun i ↦ i.title? = some title :=
      List.mem_filter.2 ⟨hi, decide_eq_true heq⟩
    rw [List.length_eq_zero_iff.1 hnone] at hmem
    cases hmem

theorem removeEntry_split (htitle : e.title = title)
    (hothers : ∀ i ∈ pre ++ post, i.title? ≠ some title) :
    removeEntry title (pre ++ .entry e :: post) = pre ++ post := by
  rw [removeEntry, List.filter_append, List.filter_cons_of_neg (by simp [CronItem.title?, htitle]),
    ← List.filter_append, List.filter_eq_self]
  exact fun i hi ↦ decide_eq_true (hothers i hi)

theorem putEntry_split (htitle : e'.title = e.title)
    (hothers : ∀ i ∈ pre ++ post, i.title? ≠ some e.title) :
    putEntry e (pre ++ .entry e' :: post) = pre ++ .entry e :: post := by
  have hsame (is : List CronItem) (his : ∀ i ∈ is, i.title? ≠ some e.title) :
      (is.map fun i ↦ if i.title? = some e.title then CronItem.entry e else i) = is := by
    refine (List.map_congr_left fun i hi ↦ ?_).trans (List.map_id is)
    exact if_neg (his i hi)
  have hmem : some e.title ∈ (pre ++ .entry e' :: post).map CronItem.title? :=
    List.mem_map.2 ⟨.entry e', by simp, by rw [CronItem.title?, htitle]⟩
  rw [putEntry, if_pos hmem, List.map_append, List.map_cons,
    if_pos (by rw [CronItem.title?, htitle]),
    hsame pre fun i hi ↦ hothers i (List.mem_append_left post hi),
    hsame post fun i hi ↦ hothers i (List.mem_append_right pre hi)]

theorem putEntry_of_notMem (h : some e.title ∉ items.map CronItem.title?) :
    putEntry e items = items ++ [.entry e] := if_neg h

theorem removeEntry_of_notMem (h : some title ∉ items.map CronItem.title?) :
    removeEntry title items = items :=
  List.filter_eq_self.2 fun i hi ↦ decide_eq_true fun heq ↦ h (List.mem_map.2 ⟨i, hi, heq⟩)

/-- The entry that is put is the only one of its title, and the others are what they were. -/
theorem exists_putEntry_eq (h : MarksOne e.title items) :
    ∃ pre post, putEntry e items = pre ++ .entry e :: post ∧
      removeEntry e.title items = pre ++ post := by
  by_cases hmem : some e.title ∈ items.map CronItem.title?
  · obtain ⟨pre, e', post, rfl, htitle, hothers⟩ := h.exists_split hmem
    exact ⟨pre, post, putEntry_split htitle hothers, removeEntry_split htitle hothers⟩
  · refine ⟨items, [], if_neg hmem, ?_⟩
    rw [removeEntry_of_notMem hmem, List.append_nil]

theorem itemLines_append (items items' : List CronItem) :
    itemLines (items ++ items') = itemLines items ++ itemLines items' := List.flatMap_append

theorem itemLines_entry (e : CronEntry) (items : List CronItem) :
    itemLines (.entry e :: items) = e.lines ++ itemLines items := rfl

/-- The mark is in no other line than that of the entry. -/
theorem mark_notMem_itemLines (hunmarked : ∀ i ∈ items, cronMarker ++ title ∉ i.unmarked)
    (htitle : ∀ i ∈ items, i.title? ≠ some title) : cronMarker ++ title ∉ itemLines items := by
  intro hmem
  obtain ⟨i, hi, hl⟩ := List.mem_flatMap.1 hmem
  cases i with
  | line l => exact hunmarked _ hi hl
  | entry e =>
    rcases List.mem_cons.1 hl with heq | hl
    · exact htitle _ hi (by rw [CronItem.title?, List.append_cancel_left heq])
    · exact hunmarked _ hi hl

end Items

/-! ### What is found -/

section Found

variable {m job t : Bytes}

theorem dropWhile_line {l : Bytes} (hl : '\n' ∉ l) (t : Bytes) :
    (l ++ '\n' :: t).dropWhile (· ≠ '\n') = '\n' :: t := by
  rw [List.dropWhile_append_of_pos fun c hc ↦ decide_eq_true (ne_of_mem_of_not_mem hc hl)]
  simp

theorem dropWhile_last {l : Bytes} (hl : '\n' ∉ l) : l.dropWhile (· ≠ '\n') = [] :=
  List.dropWhile_eq_nil_iff.2 fun _ hc ↦ decide_eq_true (ne_of_mem_of_not_mem hc hl)

/-- An entry has two lines. -/
theorem splitEntry_eq (hm : '\n' ∉ m) (hjob : '\n' ∉ job) (t : Bytes) :
    splitEntry (m ++ '\n' :: (job ++ '\n' :: t)) = (m ++ '\n' :: (job ++ ['\n']), t) := by
  have htake : (m ++ '\n' :: (job ++ '\n' :: t)).take
      ((m ++ '\n' :: (job ++ '\n' :: t)).length - t.length) = m ++ '\n' :: (job ++ ['\n']) := by
    have hassoc : m ++ '\n' :: (job ++ '\n' :: t) = (m ++ '\n' :: (job ++ ['\n'])) ++ t := by simp
    rw [hassoc, List.length_append, Nat.add_sub_cancel, List.take_left]
  unfold splitEntry
  rw [dropWhile_line hm]
  dsimp only
  rw [dropWhile_line hjob]
  dsimp only
  rw [htake]

/-- The last line of a text may have no newline. -/
theorem splitEntry_last (hm : '\n' ∉ m) (hjob : '\n' ∉ job) :
    splitEntry (m ++ '\n' :: job) = (m ++ '\n' :: job, []) := by
  unfold splitEntry
  rw [dropWhile_line hm]
  dsimp only
  rw [dropWhile_last hjob]

theorem extractCronLine_eq (hm : '\n' ∉ m) (job : Bytes) :
    extractCronLine (m ++ '\n' :: (job ++ ['\n'])) = some job := by
  unfold extractCronLine
  rw [dropWhile_line hm]
  simp

theorem extractCronLine_last (hm : '\n' ∉ m) (hjob : '\n' ∉ job) :
    extractCronLine (m ++ '\n' :: job) = some job := by
  unfold extractCronLine
  rw [dropWhile_line hm]
  dsimp only
  rw [if_neg fun h ↦ hjob (List.mem_of_getLast? h)]

end Found

/-! ### Calls -/

namespace AgentResource

variable (r : AgentResource)

/-- The entry that a resource asks for. -/
def cronEntry : CronEntry where
  title := r.title
  environment := if r.cronEnvironment = [] then [] else textLines (r.cronEnvironment ++ ['\n'])
  job := buildCronTime r.cronSchedule ++ ' ' :: r.cronCommand

/-- The text of that entry after its mark, without the newline at its end. -/
def cronBody : Bytes :=
  (if r.cronEnvironment = [] then [] else r.cronEnvironment ++ ['\n']) ++ r.cronEntry.job

end AgentResource

/-- A call of the provider. -/
structure CronCall where
  resource : AgentResource
  noop : Bool
  accepts : Bytes → Bool

/-- What the items should be after a call. -/
def cronItems (r : AgentResource) (items : List CronItem) : List CronItem :=
  if r.WantsPresent then putEntry r.cronEntry items else removeEntry r.title items

/-- Successful calls, from a text and its items to the text that is left and the items that it
should have. -/
def cronSystem : StepSystem (Bytes × List CronItem) CronCall where
  step s c :=
    let o := cronApply c.accepts c.resource c.noop s.1
    if o.Successful then some (o.text, cronItems c.resource s.2) else none

/-- All texts fit their buffers, what is written are lines, the title marks nothing but its entry,
and that entry has no environment. -/
structure CronCareful (s : Bytes × List CronItem) (c : CronCall) : Prop where
  size : s.1.length < 64 * 1024
  nul : '\x00' ∉ s.1
  title : '\n' ∉ c.resource.title
  mark : (cronMarker ++ c.resource.title).length < 4096
  marks : MarksOne c.resource.title s.2
  short : ∀ e, .entry e ∈ s.2 → e.title = c.resource.title → e.environment = []
  schedule : c.resource.WantsPresent → (buildCronTime c.resource.cronSchedule).length < 256
  job : c.resource.WantsPresent → '\n' ∉ c.resource.cronEntry.job
  unmarked : c.resource.WantsPresent → cronMarker ++ c.resource.title ∉ c.resource.cronEntry.body
  compared : c.resource.WantsPresent → ∀ e, .entry e ∈ s.2 → e.title = c.resource.title →
    e.job = cutText 4096 c.resource.cronBody → c.resource.cronBody.length < 4096

/-- What a call should do: a text has the entry that is wanted, or none of the title, and the other
lines are what they were. -/
def CronKeeps (items : List CronItem) (r : AgentResource) (text : Bytes) : Prop :=
  if r.WantsPresent then
    ∃ pre post, textLines text = pre ++ r.cronEntry.lines ++ post ∧
      cronMarker ++ r.title ∉ pre ++ r.cronEntry.body ++ post ∧
      pre ++ post = itemLines (removeEntry r.title items)
  else
    textLines text = itemLines (removeEntry r.title items) ∧
      cronMarker ++ r.title ∉ textLines text

section Step

variable {s : Bytes × List CronItem} {c : CronCall}

theorem notMem_mark (h : CronCareful s c) : '\n' ∉ cronMarker ++ c.resource.title := by
  rw [List.mem_append, not_or]
  exact ⟨by decide, h.title⟩

/-- The lines of what is written for an entry. -/
theorem textLines_buildCronEntry (h : CronCareful s c) (hwants : c.resource.WantsPresent) :
    textLines (buildCronEntry c.resource.title c.resource.cronCommand
      c.resource.cronSchedule c.resource.cronEnvironment) = c.resource.cronEntry.lines := by
  have hjob := textLines_line (h.job hwants) []
  rw [buildCronEntry_eq, cutText_eq (h.schedule hwants), textLines_line (notMem_mark h)]
  refine congrArg _ ?_
  rw [CronEntry.body, AgentResource.cronEntry]
  dsimp only
  split_ifs with henv
  · exact hjob
  · rw [List.append_assoc, List.singleton_append, textLines_append_newline]
    exact congrArg _ hjob

theorem getLast?_buildCronEntry (name command : Bytes) (schedule : CronSchedule)
    (environment : Bytes) :
    (buildCronEntry name command schedule environment).getLast? = some '\n' := by
  have hassoc : buildCronEntry name command schedule environment =
      (cronMarker ++ name ++ '\n' :: ((if environment = [] then [] else environment ++ ['\n']) ++
        (cutText 256 (buildCronTime schedule) ++ ' ' :: command))) ++ ['\n'] := by
    rw [buildCronEntry_eq]
    simp
  rw [hassoc, List.getLast?_append_of_ne_nil _ (List.cons_ne_nil '\n' [])]
  rfl

/-- Where a title has no entry, none is found. -/
theorem findCronEntry_eq_none (h : CronCareful s c) (hlines : textLines s.1 = itemLines s.2)
    (hmem : some c.resource.title ∉ s.2.map CronItem.title?) :
    findCronEntry (readText s.1) c.resource.title = none := by
  have hmark : cronMarker ++ c.resource.title ∉ textLines s.1 := by
    rw [hlines]
    exact mark_notMem_itemLines h.marks.unmarked fun i hi heq ↦
      hmem (List.mem_map.2 ⟨i, hi, heq⟩)
  rw [findCronEntry, readText_eq h.size h.nul, cutText_eq h.mark,
    findMarked_eq_none (notMem_mark h) hmark, Option.map_none]

/-- The entry of a title is found. -/
theorem findCronEntry_eq_some (h : CronCareful s c) {pre post : List CronItem} {e : CronEntry}
    (hlines : textLines s.1 = itemLines (pre ++ .entry e :: post))
    (hitems : s.2 = pre ++ .entry e :: post) (htitle : e.title = c.resource.title)
    (hothers : ∀ i ∈ pre ++ post, i.title? ≠ some c.resource.title) :
    ∃ entry after, findCronEntry (readText s.1) c.resource.title =
        some (unlines (itemLines pre), entry, after) ∧
      extractCronLine entry = some e.job ∧ textLines after = itemLines post := by
  have hm := notMem_mark h
  have hne : cronMarker ++ c.resource.title ≠ [] :=
    List.append_ne_nil_of_left_ne_nil (by decide) _
  have hshort : e.environment = [] := h.short e (hitems ▸ by simp) htitle
  have hentry : e.lines = [cronMarker ++ c.resource.title, e.job] := by
    rw [CronEntry.lines, CronEntry.body, hshort, htitle, List.nil_append]
  rw [itemLines_append, itemLines_entry, hentry, List.cons_append, List.singleton_append] at hlines
  have hpre : ∀ l ∈ itemLines pre, '\n' ∉ l ∧ l ≠ cronMarker ++ c.resource.title := by
    intro l hl
    refine ⟨newline_notMem_of_mem_textLines (hlines ▸ List.mem_append_left _ hl), ?_⟩
    rintro rfl
    refine mark_notMem_itemLines (fun i hi ↦ h.marks.unmarked i ?_) (fun i hi ↦ hothers i ?_) hl
    · exact hitems ▸ List.mem_append_left _ hi
    · exact List.mem_append_left _ hi
  have hjob : '\n' ∉ e.job := newline_notMem_of_mem_textLines
    (hlines ▸ List.mem_append_right _ (by simp))
  obtain ⟨u, hu, hulines⟩ := exists_of_textLines_append hlines (by simp)
  rcases textLines_eq_cons hulines with ⟨-, hnil⟩ | ⟨v, rfl, hv⟩
  · cases hnil
  have hfind (t : Bytes) (ht : t = [] ∨ ∃ u, t = '\n' :: u)
      (htext : s.1 = unlines (itemLines pre) ++ (cronMarker ++ c.resource.title ++ t)) :
      findCronEntry (readText s.1) c.resource.title = some (unlines (itemLines pre),
        splitEntry (cronMarker ++ c.resource.title ++ t)) := by
    rw [findCronEntry, readText_eq h.size h.nul, cutText_eq h.mark, htext,
      findMarked_unlines hm hpre hne ht, Option.map_some]
  rw [hfind _ (Or.inr ⟨v, rfl⟩) hu]
  rcases textLines_eq_cons hv with ⟨rfl, hpost⟩ | ⟨w, rfl, hw⟩
  · refine ⟨_, _, by rw [splitEntry_last hm hjob], extractCronLine_last hm hjob, ?_⟩
    rw [textLines, hpost]
  · exact ⟨_, _, by rw [splitEntry_eq hm hjob], extractCronLine_eq hm e.job, hw⟩

/-- What is read of an entry that is compared is its job. -/
theorem expectedLine_eq (h : CronCareful s c) (hwants : c.resource.WantsPresent) :
    expectedLine c.resource.cronCommand c.resource.cronSchedule
      c.resource.cronEnvironment = cutText 4096 c.resource.cronBody := by
  unfold expectedLine AgentResource.cronBody AgentResource.cronEntry
  rw [cutText_eq (h.schedule hwants)]
  dsimp only
  split_ifs <;> simp

/-- An entry that is taken for the one that is wanted is that one. -/
theorem lines_eq_of_expected (h : CronCareful s c) (hwants : c.resource.WantsPresent)
    {e : CronEntry} (he : .entry e ∈ s.2) (htitle : e.title = c.resource.title)
    (hjob : '\n' ∉ e.job) (hexpected : e.job = cutText 4096 c.resource.cronBody) :
    c.resource.cronEntry.lines = e.lines := by
  have hbody : e.job = c.resource.cronBody := by
    rw [cutText_eq (h.compared hwants e he htitle hexpected)] at hexpected
    exact hexpected
  have henv : c.resource.cronEnvironment = [] := by
    by_contra hne
    rw [hbody, AgentResource.cronBody, if_neg hne] at hjob
    exact hjob (by simp)
  rw [AgentResource.cronBody, if_pos henv, List.nil_append] at hbody
  rw [CronEntry.lines, CronEntry.lines, CronEntry.body, CronEntry.body, h.short e he htitle, hbody,
    htitle]
  simp [AgentResource.cronEntry, henv]

/-- What a call leaves has the lines of the items that it should have. -/
theorem textLines_cronApply (h : CronCareful s c) (hlines : textLines s.1 = itemLines s.2)
    (hsuccessful : (cronApply c.accepts c.resource c.noop s.1).Successful) :
    textLines (cronApply c.accepts c.resource c.noop s.1).text =
      itemLines (cronItems c.resource s.2) := by
  have hnewlines {items : List CronItem} {items' : List CronItem}
      (hitems : s.2 = items ++ items') : ∀ l ∈ itemLines items, '\n' ∉ l := by
    intro l hl
    refine newline_notMem_of_mem_textLines (t := s.1) ?_
    rw [hlines, hitems, itemLines_append]
    exact List.mem_append_left _ hl
  unfold cronItems
  by_cases hmem : some c.resource.title ∈ s.2.map CronItem.title?
  · obtain ⟨pre, e, post, hitems, htitle, hothers⟩ := h.marks.exists_split hmem
    obtain ⟨entry, after, hfind, hextract, hafter⟩ :=
      findCronEntry_eq_some h (hitems ▸ hlines) hitems htitle hothers
    by_cases hwants : c.resource.WantsPresent
    · rw [cronApply_present hwants hsuccessful, hfind, if_pos hwants, hitems,
        putEntry_split (e := c.resource.cronEntry) htitle hothers, itemLines_append,
        itemLines_entry]
      dsimp only
      have he : .entry e ∈ s.2 := hitems ▸ by simp
      by_cases hsame : some e.job = some (expectedLine c.resource.cronCommand
          c.resource.cronSchedule c.resource.cronEnvironment)
      · have hjob : '\n' ∉ e.job := by
          refine newline_notMem_of_mem_textLines (t := s.1) ?_
          rw [hlines, itemLines]
          refine List.mem_flatMap.2 ⟨_, he, ?_⟩
          simp [CronItem.lines, CronEntry.lines, CronEntry.body]
        have hexpected := (Option.some.inj hsame).trans (expectedLine_eq h hwants)
        rw [hextract, if_pos hsame, lines_eq_of_expected h hwants he htitle hjob hexpected, hlines,
          hitems, itemLines_append, itemLines_entry]
      · rw [hextract, if_neg hsame, List.append_assoc, textLines_unlines_append (hnewlines hitems),
          textLines_append_of_getLast? (getLast?_buildCronEntry ..), hafter,
          textLines_buildCronEntry h hwants]
    · rw [cronApply_absent hwants hsuccessful, hfind, if_neg hwants, hitems,
        removeEntry_split htitle hothers, itemLines_append, ← hafter]
      exact textLines_unlines_append (hnewlines hitems) after
  · have hfind := findCronEntry_eq_none h hlines hmem
    by_cases hwants : c.resource.WantsPresent
    · rw [cronApply_present hwants hsuccessful, hfind, if_pos hwants,
        putEntry_of_notMem (e := c.resource.cronEntry) hmem, itemLines_append]
      dsimp only
      rw [textLines_withNewline_append, readText_eq h.size h.nul, hlines]
      exact congrArg _ ((textLines_buildCronEntry h hwants).trans (List.append_nil _).symm)
    · rw [cronApply_absent hwants hsuccessful, hfind, if_neg hwants, removeEntry_of_notMem hmem]
      exact hlines

/-- One call does what it should. -/
theorem cronKeeps_step (h : CronCareful s c) (hlines : textLines s.1 = itemLines s.2)
    (hsuccessful : (cronApply c.accepts c.resource c.noop s.1).Successful) :
    CronKeeps s.2 c.resource (cronApply c.accepts c.resource c.noop s.1).text := by
  have htext := textLines_cronApply h hlines hsuccessful
  have hothers : cronMarker ++ c.resource.title ∉ itemLines (removeEntry c.resource.title s.2) := by
    refine mark_notMem_itemLines (fun i hi ↦ h.marks.unmarked i ?_) fun i hi ↦ ?_
    · exact (List.mem_filter.1 hi).1
    · exact of_decide_eq_true (List.mem_filter.1 hi).2
  unfold cronItems at htext
  unfold CronKeeps
  by_cases hwants : c.resource.WantsPresent
  · rw [if_pos hwants] at htext ⊢
    obtain ⟨pre, post, hput, hremove⟩ := exists_putEntry_eq (e := c.resource.cronEntry) h.marks
    have hsplit : itemLines (removeEntry c.resource.title s.2) = itemLines pre ++ itemLines post :=
      (congrArg itemLines hremove).trans (itemLines_append pre post)
    refine ⟨itemLines pre, itemLines post, ?_, ?_, hsplit.symm⟩
    · rw [htext, hput, itemLines_append, itemLines_entry, List.append_assoc]
    · rw [hsplit, List.mem_append, not_or] at hothers
      rw [List.mem_append, List.mem_append, not_or, not_or]
      exact ⟨⟨hothers.1, h.unmarked hwants⟩, hothers.2⟩
  · rw [if_neg hwants] at htext ⊢
    exact ⟨htext, htext ▸ hothers⟩

end Step

/-- Along every run of successful calls that all meet the condition, the lines of the text are
those of the items, and every call leaves the entry that is wanted as the only one of its title, or
none of the title, and the other lines as they were. -/
theorem cron_entries_along {s : Bytes × List CronItem} {cs : List CronCall}
    (hlines : textLines s.1 = itemLines s.2) (h : cronSystem.Along CronCareful s cs) :
    cronSystem.Along
      (fun s c ↦ textLines s.1 = itemLines s.2 ∧
        ∀ s', cronSystem.step s c = some s' →
          textLines s'.1 = itemLines s'.2 ∧ CronKeeps s.2 c.resource s'.1) s cs := by
  have hstep {s s' : Bytes × List CronItem} {c : CronCall} (hlines : textLines s.1 = itemLines s.2)
      (hcareful : CronCareful s c) (hs' : cronSystem.step s c = some s') :
      textLines s'.1 = itemLines s'.2 ∧ CronKeeps s.2 c.resource s'.1 := by
    obtain ⟨hsuccessful, heq⟩ := Option.ite_none_right_eq_some.1 hs'
    cases heq
    exact ⟨textLines_cronApply hcareful hlines hsuccessful,
      cronKeeps_step hcareful hlines hsuccessful⟩
  induction cs generalizing s with
  | nil => trivial
  | cons c cs ih =>
    refine ⟨⟨hlines, fun s' hs' ↦ hstep hlines h.1 hs'⟩, fun s' hs' ↦ ?_⟩
    exact ih (hstep hlines h.1 hs').1 (h.2 s' hs')

/-- A daily job. -/
def dailyCall (ensure environment : String) : CronCall where
  resource := ⟨"cron".toList, "tidy".toList, [("ensure".toList, ensure.toList),
    ("command".toList, "/bin/tidy".toList), ("special".toList, "daily".toList),
    ("environment".toList, environment.toList)]⟩
  noop := false
  accepts := fun _ ↦ true

/-- A job without an environment is added and removed. -/
theorem cron_entries_along_daily :
    cronSystem.Along
      (fun s c ↦ textLines s.1 = itemLines s.2 ∧
        ∀ s', cronSystem.step s c = some s' →
          textLines s'.1 = itemLines s'.2 ∧ CronKeeps s.2 c.resource s'.1)
      ("MAILTO=root".toList, [.line "MAILTO=root".toList])
      [dailyCall "present" "", dailyCall "absent" ""] := by
  refine cron_entries_along rfl ?_
  have hstep : cronSystem.step ("MAILTO=root".toList, [.line "MAILTO=root".toList])
      (dailyCall "present" "") =
        some ("MAILTO=root\n# Puppet Name: tidy\n@daily /bin/tidy\n".toList,
          [.line "MAILTO=root".toList, .entry (dailyCall "present" "").resource.cronEntry]) := by
    rfl
  rw [StepSystem.along_cons_of_step hstep]
  refine ⟨?_, ?_, fun _ _ ↦ trivial⟩
  · have hnone (e : CronEntry) : .entry e ∉ [CronItem.line "MAILTO=root".toList] := by simp
    refine ⟨by decide, by decide, by decide, by decide, ⟨by decide, fun i hi ↦ ?_⟩,
      fun e he ↦ absurd he (hnone e), fun _ ↦ by decide, fun _ ↦ by decide, fun _ ↦ by decide,
      fun _ e he ↦ absurd he (hnone e)⟩
    rw [List.mem_singleton.1 hi]
    decide
  · have habsent : ¬ (dailyCall "absent" "").resource.WantsPresent := by decide
    refine ⟨by decide, by decide, by decide, by decide, ⟨by decide, fun i hi ↦ ?_⟩,
      fun e he _ ↦ ?_, fun h ↦ absurd h habsent, fun h ↦ absurd h habsent,
      fun h ↦ absurd h habsent, fun h ↦ absurd h habsent⟩
    · rcases List.mem_pair.1 hi with rfl | rfl <;> decide
    · rcases List.mem_pair.1 he with he | he
      · cases he
      · rw [CronItem.entry.inj he]
        rfl

/-- A job with an environment is removed without its line. -/
theorem not_cronKeeps_environment :
    let s : Bytes × List CronItem :=
      ("# Puppet Name: tidy\nA=1\n@daily /bin/tidy\n".toList,
        [.entry (dailyCall "present" "A=1").resource.cronEntry])
    cronSystem.step ([], []) (dailyCall "present" "A=1") = some s ∧
      textLines s.1 = itemLines s.2 ∧
      cronSystem.step s (dailyCall "absent" "A=1") = some ("@daily /bin/tidy\n".toList, []) ∧
      ¬ CronKeeps s.2 (dailyCall "absent" "A=1").resource "@daily /bin/tidy\n".toList := by
  refine ⟨rfl, rfl, rfl, fun h ↦ ?_⟩
  unfold CronKeeps at h
  rw [if_neg (by decide)] at h
  exact absurd h.1 (by decide)

end PuppetC
