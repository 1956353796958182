import PuppetC.Agent.TextProvider

/-!
# The provider of cron entries

The agent manages entries of a crontab by their text: an entry has a line with the mark and the
title, a line with an environment, if there is one, and the line of the job. The end of an entry is
found by counting newlines from its mark.

The command `crontab` is outside of the program: what is written is what is read the next time,
if `crontab` accepts it.

## Main definitions

* `findCronEntry`: `find_cron_entry`.
* `buildCronTime`, `buildCronEntry`, `extractCronLine`: the functions of these names.
* `cronApply`: `cron_apply`.
-/

namespace PuppetC

/-- The mark of an entry, `CRON_MARKER`. -/
def cronMarker : Bytes := "# Puppet Name: ".toList

/-- `strstr` from a position on, until the mark is a line: what is before the line, and the text
from there. -/
def findMarked (marker : Bytes) : (before rest : Bytes) → Option (Bytes × Bytes)
  | _, [] => none
  | before, c :: rest =>
    if marker <+: c :: rest ∧ (before = [] ∨ before.getLast? = some '\n') ∧
        (((c :: rest).drop marker.length).head? = none ∨
          ((c :: rest).drop marker.length).head? = some '\n') then
      some (before, c :: rest)
    else findMarked marker (before ++ [c]) rest

/-- An entry and what is after it: it ends at the second newline, or with the text. -/
def splitEntry (t : Bytes) : Bytes × Bytes :=
  match t.dropWhile (· ≠ '\n') with
  | [] => (t, [])
  | _ :: rest =>
    match rest.dropWhile (· ≠ '\n') with
    | [] => (t, [])
    | _ :: after => (t.take (t.length - after.length), after)

/-- `find_cron_entry`: what is before an entry, the entry and what is after it. -/
def findCronEntry (crontab name : Bytes) : Option (Bytes × Bytes × Bytes) :=
  (findMarked (cutText 4096 (cronMarker ++ name)) [] crontab).map fun p ↦ (p.1, splitEntry p.2)

/-- The parameters of a schedule. -/
structure CronSchedule where
  minute : Option Bytes
  hour : Option Bytes
  monthday : Option Bytes
  month : Option Bytes
  weekday : Option Bytes
  special : Option Bytes

/-- `build_cron_time`, before it is cut to the size of a buffer. -/
def buildCronTime (s : CronSchedule) : Bytes :=
  match s.special with
  | some ('@' :: special) => '@' :: special
  | some (c :: special) => '@' :: c :: special
  | _ =>
    [' '].intercalate ([s.minute, s.hour, s.monthday, s.month, s.weekday].map fun f ↦ f.getD ['*'])

/-- `build_cron_entry`. -/
def buildCronEntry (name command : Bytes) (schedule : CronSchedule) (environment : Bytes) :
    Bytes :=
  let timeSpec := cutText 256 (buildCronTime schedule)
  let size := cronMarker.length + name.length + 1 + timeSpec.length + 1 + command.length + 2
  if environment = [] then
    cutText size (cronMarker ++ name ++ '\n' :: timeSpec ++ ' ' :: command ++ ['\n'])
  else
    cutText (size + (environment.length + 2))
      (cronMarker ++ name ++ '\n' :: environment ++ '\n' :: timeSpec ++ ' ' :: command ++ ['\n'])

/-- `extract_cron_line`. -/
def extractCronLine (entry : Bytes) : Option Bytes :=
  match entry.dropWhile (· ≠ '\n') with
  | [] => none
  | _ :: line => some (if line.getLast? = some '\n' then line.dropLast else line)

/-- The line that an entry is compared with. -/
def expectedLine (command : Bytes) (schedule : CronSchedule) (environment : Bytes) : Bytes :=
  let timeSpec := cutText 256 (buildCronTime schedule)
  cutText 4096
    (if environment = [] then timeSpec ++ ' ' :: command
    else environment ++ '\n' :: timeSpec ++ ' ' :: command)

namespace AgentResource

variable (r : AgentResource)

/-- The command of a resource; no command is like an empty one. -/
def cronCommand : Bytes := (r.param? "command").getD []

/-- The environment of a resource; no environment is like an empty one. -/
def cronEnvironment : Bytes := (r.param? "environment").getD []

/-- The schedule that a resource asks for. -/
def cronSchedule : CronSchedule where
  minute := r.param? "minute"
  hour := r.param? "hour"
  monthday := r.param? "monthday"
  month := r.param? "month"
  weekday := r.param? "weekday"
  special := r.param? "special"

end AgentResource

/-- `write_crontab`, where `accepts` is what `crontab` takes. -/
def writeCrontab (accepts : Bytes → Bool) (stored new : Bytes) : TextApplied :=
  if accepts new then ⟨.changed, none, new⟩
  else ⟨.failed, some "Failed to write crontab", stored⟩

/-- `cron_apply`. -/
def cronApply (accepts : Bytes → Bool) (r : AgentResource) (noop : Bool) (stored : Bytes) :
    TextApplied :=
  if r.WantsPresent ∧ r.cronCommand = [] then
    ⟨.failed, some "Cron resource requires 'command' parameter", stored⟩
  else
    let crontab := readText stored
    if ¬ r.WantsPresent then
      match findCronEntry crontab r.title with
      | none => ⟨.success, none, stored⟩
      | some (before, _, after) =>
        if noop then ⟨.skipped, none, stored⟩
        else writeCrontab accepts stored (before ++ after)
    else
      let newEntry := buildCronEntry r.title r.cronCommand r.cronSchedule r.cronEnvironment
      match findCronEntry crontab r.title with
      | some (before, entry, after) =>
        if extractCronLine entry =
            some (expectedLine r.cronCommand r.cronSchedule r.cronEnvironment) then
          ⟨.success, none, stored⟩
        else if noop then ⟨.skipped, none, stored⟩
        else writeCrontab accepts stored (before ++ newEntry ++ after)
      | none =>
        if noop then ⟨.skipped, none, stored⟩
        else writeCrontab accepts stored (withNewline crontab ++ newEntry)

/-- The sizes of the buffer of an entry are enough. -/
theorem buildCronEntry_eq (name command : Bytes) (schedule : CronSchedule) (environment : Bytes) :
    buildCronEntry name command schedule environment =
      cronMarker ++ name ++ '\n' :: ((if environment = [] then [] else environment ++ ['\n']) ++
        (cutText 256 (buildCronTime schedule) ++ ' ' :: command ++ ['\n'])) := by
  unfold buildCronEntry
  dsimp only
  split_ifs with h
  · rw [cutText_eq (by simp; omega)]
    simp
  · rw [cutText_eq (by simp; omega)]
    simp

/-! ### What a successful call does -/

section Successful

variable {accepts : Bytes → Bool} {r : AgentResource} {noop : Bool} {stored new : Bytes}

theorem writeCrontab_text (h : (writeCrontab accepts stored new).Successful) :
    (writeCrontab accepts stored new).text = new := by
  unfold writeCrontab at h ⊢
  by_cases haccepts : accepts new
  · rw [if_pos haccepts]
  · rw [if_neg haccepts] at h
    rcases h with h | h <;> cases h

theorem cronApply_absent (hwants : ¬ r.WantsPresent)
    (h : (cronApply accepts r noop stored).Successful) :
    (cronApply accepts r noop stored).text =
      match findCronEntry (readText stored) r.title with
      | none => stored
      | some (before, _, after) => before ++ after := by
  unfold cronApply at h ⊢
  rw [if_neg fun hand ↦ hwants hand.1] at h ⊢
  dsimp only at h ⊢
  rw [if_pos hwants] at h ⊢
  cases hfind : findCronEntry (readText stored) r.title with
  | none => rfl
  | some found =>
    rw [hfind] at h
    dsimp only at h ⊢
    by_cases hnoop : noop
    · rw [if_pos hnoop] at h
      rcases h with h | h <;> cases h
    · rw [if_neg hnoop] at h ⊢
      exact writeCrontab_text h

theorem cronApply_present (hwants : r.WantsPresent)
    (h : (cronApply accepts r noop stored).Successful) :
    (cronApply accepts r noop stored).text =
      let newEntry := buildCronEntry r.title r.cronCommand r.cronSchedule r.cronEnvironment
      match findCronEntry (readText stored) r.title with
      | none => withNewline (readText stored) ++ newEntry
      | some (before, entry, after) =>
        if extractCronLine entry =
            some (expectedLine r.cronCommand r.cronSchedule r.cronEnvironment) then
          stored
        else before ++ newEntry ++ after := by
  unfold cronApply at h ⊢
  by_cases hcommand : r.WantsPresent ∧ r.cronCommand = []
  · rw [if_pos hcommand] at h
    rcases h with h | h <;> cases h
  rw [if_neg hcommand] at h ⊢
  dsimp only at h ⊢
  rw [if_neg (not_not.2 hwants)] at h ⊢
  cases hfind : findCronEntry (readText stored) r.title with
  | none =>
    rw [hfind] at h
    dsimp only at h ⊢
    by_cases hnoop : noop
    · rw [if_pos hnoop] at h
      rcases h with h | h <;> cases h
    · rw [if_neg hnoop] at h ⊢
      exact writeCrontab_text h
  | some found =>
    rw [hfind] at h
    dsimp only at h ⊢
    split_ifs at h ⊢
    · rfl
    · rcases h with h | h <;> cases h
    · exact writeCrontab_text h

end Successful

end PuppetC
