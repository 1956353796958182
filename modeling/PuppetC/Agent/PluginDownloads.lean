import Mathlib.Data.List.Induction
import PuppetC.Agent.Resource
import PuppetC.Server.PluginSync
import PuppetC.Support.PathPosition

/-!
# The files that pluginsync writes

The agent fetches the listing of plugins from the server and downloads what it does not have: for
each listed path that stays below its directory of plugins, the file is compared with the listed
checksum, and unless it matches, the content is fetched and written over the file. The path of the
file is built in a buffer, the checksum is not looked at again after the transfer, and the file is
truncated before the new content is written.

So only listed files are written, each ends up with its checksum, and a failed download leaves the
file as it was, under a condition on each step.

## Main definitions

* `pluginsyncRun`, with `pluginsyncPathIsSafe`, `pluginsyncFileMatches`, `downloadFile`.
* `Installs`: what a run should do.
* `CarefulStep`: the condition on a step, in the state before it.

## Main results

* `placeFrom_localPath`: where the path fits into its buffer, it leads to the listed file.
* `pluginsync_run_iff`: a run does what it should, and what it has handled is up to date as long as
  nothing failed, exactly when each of its steps meets the condition.
-/

namespace PuppetC

/-! ### The run -/

/-- The contents of the files, by their places below the root. -/
abbrev PlacedFiles := List Bytes → Option Bytes

/-- What is seen of a request: an error of the transport, or a status and a body. -/
inductive Reply where
  | failed
  | answered (code : ℕ) (body : Bytes)

/-- What happens when a file is compared and downloaded: whether a directory stands at its path,
whether the directories above it can be made, the reply for the requested address, whether the
file can be opened, the number of bytes that `fwrite` reports, and the number of those that reach
the file. -/
structure Transfer where
  isDirectory : Bool
  makesDirectories : Bool
  reply : Bytes → Reply
  opens : Bool
  written : ℕ
  stored : ℕ

/-- The configuration, and where the process stands. -/
structure PluginsyncConfig where
  serverUrl : Bytes
  libdir : Bytes
  cwd : List Bytes

/-- An element of the listing, and what happens if it is downloaded. -/
structure SyncStep where
  entry : Json
  transfer : Transfer

/-- A path of the listing, with its checksum if there is one. -/
structure ListedPlugin where
  path : Bytes
  checksum : Option Bytes

/-- The files and the counters of a run. `writes` notes each file that is opened for writing, with
the path that it was opened for. -/
structure SyncState where
  files : PlacedFiles
  writes : List (Bytes × List Bytes) := []
  filesChecked : ℕ := 0
  filesDownloaded : ℕ := 0
  filesSkipped : ℕ := 0
  errors : ℕ := 0

/-- What a run returns and leaves. -/
structure PluginRun where
  status : ℤ
  state : SyncState

/-- The server and the system during a run: the reply for the listing, and what happens for each
of its elements. -/
structure PluginWorld where
  metadata : Bytes → Reply
  transfers : ℕ → Transfer

/-- `pluginsync_path_is_safe`. -/
def pluginsyncPathIsSafe (rel : Bytes) : Bool :=
  rel ≠ [] ∧ rel.head? ≠ some '/' ∧ ['.', '.'] ∉ rel.splitOn '/'

/-- `pluginsync_file_matches`, on the content that is found at the path. -/
def pluginsyncFileMatches (digest : Bytes → List UInt8) (found : Option Bytes)
    (expected : Bytes) : Bool :=
  match found with
  | none => false
  | some content =>
    let expected := if "\x7bmd5\x7d".toList.isPrefixOf expected then expected.drop 5 else expected
    equalNoCase (fileMd5 digest content) expected

/-- A path whose last name can be that of a file. -/
def namesFile (path : Bytes) : Bool :=
  let name := (path.splitOn '/').getLastD []
  name ≠ [] ∧ name ≠ ['.'] ∧ name ≠ ['.', '.']

/-- The listing of an element: an object with a text for its path. -/
def SyncStep.listed (step : SyncStep) : Option ListedPlugin :=
  match step.entry.get? "path".toList with
  | some (.string path) =>
    some ⟨path, match (step.entry.get? "checksum".toList).bind (JsonOf.get? "value".toList) with
      | some (.string value) => some value
      | _ => none⟩
  | _ => none

namespace PluginsyncConfig

variable (cfg : PluginsyncConfig)

/-- `local_path`. -/
def localPath (remotePath : Bytes) : Bytes := cutTo 4096 (cfg.libdir ++ '/' :: remotePath)

/-- The address of the listing. -/
def metadataUrl : Bytes := cutTo 4096 (cfg.serverUrl ++ "/puppet/v3/file_metadatas/plugins".toList)

/-- The address of the content of a file. -/
def contentUrl (remotePath : Bytes) : Bytes :=
  cutTo 4096 (cfg.serverUrl ++ "/puppet/v3/file_content/plugins/".toList ++ remotePath)

/-- What `file_md5` reads at a path: the content of the file there, and nothing of a directory,
which can be opened as well. -/
def read (files : PlacedFiles) (path : Bytes) (t : Transfer) : Option Bytes :=
  match if namesFile path then files (placeFrom cfg.cwd path) else none with
  | some content => some content
  | none => if t.isDirectory then some [] else none

end PluginsyncConfig

/-- `download_file`: the file that is opened, with what it holds then, and whether all went well. -/
def downloadFile (cfg : PluginsyncConfig) (remotePath path : Bytes) (t : Transfer) :
    Option (List Bytes × Bytes) × Bool :=
  if t.makesDirectories = false then (none, false)
  else
    match t.reply (cfg.contentUrl remotePath) with
    | .failed => (none, false)
    | .answered code body =>
      if code ≠ 200 then (none, false)
      else if ¬ (t.opens = true ∧ namesFile path = true) then (none, false)
      else
        (some (placeFrom cfg.cwd path, body.take t.stored),
          decide (min t.written body.length = body.length))

section Run

variable (digest : Bytes → List UInt8) (cfg : PluginsyncConfig)

/-- The loop's work for one element of the listing. -/
def pluginsyncEntry (s : SyncState) (step : SyncStep) : SyncState :=
  match step.entry with
  | .object _ =>
    let s := { s with filesChecked := s.filesChecked + 1 }
    match step.listed with
    | none => s
    | some l =>
      if pluginsyncPathIsSafe l.path = false then { s with errors := s.errors + 1 }
      else
        let path := cfg.localPath l.path
        if l.checksum.any (pluginsyncFileMatches digest (cfg.read s.files path step.transfer)) then
          { s with filesSkipped := s.filesSkipped + 1 }
        else
          let (opened, ok) := downloadFile cfg l.path path step.transfer
          let s := match opened with
            | none => s
            | some (place, content) =>
              { s with
                files := Function.update s.files place (some content)
                writes := s.writes ++ [(l.path, place)] }
          if ok then { s with filesDownloaded := s.filesDownloaded + 1 }
          else { s with errors := s.errors + 1 }
  | _ => s

/-- The state after some elements of the listing. -/
def syncState (files : PlacedFiles) (steps : List SyncStep) : SyncState :=
  steps.foldl (pluginsyncEntry digest cfg) { files := files }

/-- The elements of the listing, if there is one. -/
def PluginWorld.listing (w : PluginWorld) : Option (List Json) :=
  match w.metadata cfg.metadataUrl with
  | .failed => none
  | .answered code body =>
    if code ≠ 200 then none
    else
      match jsonParse (cString body) with
      | .ok (.array elements) => some elements
      | _ => none

/-- The elements with what happens for them. -/
def stepsOf (w : PluginWorld) (elements : List Json) : List SyncStep :=
  elements.zipIdx.map fun e ↦ ⟨e.1, w.transfers e.2⟩

/-- `pluginsync_run`. -/
def pluginsyncRun (w : PluginWorld) (files : PlacedFiles) : PluginRun :=
  match w.listing cfg with
  | none => ⟨-1, { files := files }⟩
  | some elements =>
    let s := syncState digest cfg files (stepsOf w elements)
    ⟨if s.errors > 0 then -1 else 0, s⟩

end Run

/-! ### What a run should do -/

/-- The place where a listed file belongs. -/
def PluginsyncConfig.placeOf (cfg : PluginsyncConfig) (remotePath : Bytes) : List Bytes :=
  placeFrom cfg.cwd cfg.libdir ++ properNames remotePath

/-- A content has the checksum that is listed, if one is. -/
def ListedPlugin.Checked (digest : Bytes → List UInt8) (l : ListedPlugin) (content : Bytes) :
    Prop :=
  ∀ checksum ∈ l.checksum, pluginsyncFileMatches digest (some content) checksum = true

/-- All of a body is written. -/
def Transfer.Whole (t : Transfer) (body : Bytes) : Prop :=
  body.length ≤ t.written ∧ body.length ≤ t.stored

instance (t : Transfer) (body : Bytes) : Decidable (t.Whole body) :=
  inferInstanceAs (Decidable (_ ∧ _))

/-- The body that is written for a listed file, if its download gets so far. -/
def SyncStep.sent (cfg : PluginsyncConfig) (step : SyncStep) (l : ListedPlugin) : Option Bytes :=
  if step.transfer.makesDirectories then
    match step.transfer.reply (cfg.contentUrl l.path) with
    | .failed => none
    | .answered code body =>
      if code = 200 ∧ step.transfer.opens = true ∧ namesFile (cfg.localPath l.path) = true then
        some body
      else none
  else none

section Property

variable (digest : Bytes → List UInt8) (cfg : PluginsyncConfig)

/-- The file is taken to be up to date. -/
def SyncStep.IsCurrent (step : SyncStep) (s : SyncState) (l : ListedPlugin) : Prop :=
  l.checksum.any (pluginsyncFileMatches digest
    (cfg.read s.files (cfg.localPath l.path) step.transfer)) = true

/-- A download is tried, and it or the writing fails. -/
def SyncStep.Fails (step : SyncStep) (s : SyncState) (l : ListedPlugin) : Prop :=
  pluginsyncPathIsSafe l.path = true ∧ ¬ step.IsCurrent digest cfg s l ∧
    ∀ body ∈ step.sent cfg l, ¬ step.transfer.Whole body

/-- A content is what an element of the listing asks for: it has the listed checksum, or where none
is listed, it is what the server answered. -/
def SyncStep.Suits (step : SyncStep) (l : ListedPlugin) (content : Bytes) : Prop :=
  l.Checked digest content ∧
    (l.checksum = none → step.transfer.reply (cfg.contentUrl l.path) = .answered 200 content)

/-- The listed files hold what is asked for. -/
def UpToDate (files : PlacedFiles) (steps : List SyncStep) : Prop :=
  ∀ step ∈ steps, ∀ l, step.listed = some l →
    ∃ content, files (cfg.placeOf l.path) = some content ∧ step.Suits digest cfg l content

/-- What a run should do: it writes only listed files, at their paths below the directory of
plugins; a file that is changed for an element of the listing has the checksum that it lists; a
failed download changes nothing and is counted; and it returns 0 only if all listed files are up to
date. -/
structure Installs (files : PlacedFiles) (steps : List SyncStep) (run : PluginRun) : Prop where
  placed : ∀ w ∈ run.state.writes,
    (∃ step ∈ steps, ∃ l, step.listed = some l ∧ l.path = w.1) ∧ w.2 = cfg.placeOf w.1
  verified : ∀ pre step post l, steps = pre ++ step :: post → step.listed = some l →
    let before := syncState digest cfg files pre
    let after := syncState digest cfg files (pre ++ [step])
    after.files (cfg.placeOf l.path) ≠ before.files (cfg.placeOf l.path) →
      ∃ content, after.files (cfg.placeOf l.path) = some content ∧ l.Checked digest content
  kept : ∀ pre step post l, steps = pre ++ step :: post → step.listed = some l →
    let before := syncState digest cfg files pre
    let after := syncState digest cfg files (pre ++ [step])
    step.Fails digest cfg before l →
      after.files = before.files ∧ after.errors = before.errors + 1
  upToDate : run.status = 0 → UpToDate digest cfg run.state.files steps

/-- As long as no error is counted, what has been handled is up to date. -/
def UpToDateSoFar (files : PlacedFiles) (steps : List SyncStep) : Prop :=
  (syncState digest cfg files steps).errors = 0 →
    UpToDate digest cfg (syncState digest cfg files steps).files steps

/-- The condition on a step. A file that is taken to be up to date is so, unless something failed
before. The path that is opened leads to the listed file. If the body is written whole, it has the
listed checksum unless the file held it before, and unless something failed before, it is what this
and the elements before it ask for that file. If it is not, `fwrite` says so, and the file held
before what is left of it. -/
structure CarefulStep (before : SyncState) (earlier : List SyncStep) (step : SyncStep)
    (l : ListedPlugin) : Prop where
  current : step.IsCurrent digest cfg before l → before.errors = 0 →
    ∃ content, before.files (cfg.placeOf l.path) = some content ∧ step.Suits digest cfg l content
  placed : ¬ step.IsCurrent digest cfg before l → ∀ body ∈ step.sent cfg l,
    placeFrom cfg.cwd (cfg.localPath l.path) = cfg.placeOf l.path
  whole : ¬ step.IsCurrent digest cfg before l → ∀ body ∈ step.sent cfg l,
    step.transfer.Whole body →
      (before.files (cfg.placeOf l.path) ≠ some body → l.Checked digest body) ∧
        (before.errors = 0 → ∀ step' ∈ earlier ++ [step], ∀ l', step'.listed = some l' →
          cfg.placeOf l'.path = cfg.placeOf l.path → step'.Suits digest cfg l' body)
  short : ¬ step.IsCurrent digest cfg before l → ∀ body ∈ step.sent cfg l,
    ¬ step.transfer.Whole body →
      before.files (cfg.placeOf l.path) = some (body.take step.transfer.stored) ∧
        step.transfer.written < body.length

/-- Each step with a safe path meets the condition. -/
def CarefulSteps (files : PlacedFiles) (steps : List SyncStep) : Prop :=
  ∀ pre step post l, steps = pre ++ step :: post → step.listed = some l →
    pluginsyncPathIsSafe l.path = true →
      CarefulStep digest cfg (syncState digest cfg files pre) pre step l

end Property

/-! ### Where a path leads -/

/-- A path that fits into its buffer leads to the listed file. -/
theorem placeFrom_localPath {cfg : PluginsyncConfig} {path : Bytes}
    (hsafe : pluginsyncPathIsSafe path = true) (hlibdir : cfg.libdir ≠ [])
    (hfits : cfg.libdir.length + 1 + path.length < 4096) :
    placeFrom cfg.cwd (cfg.localPath path) = cfg.placeOf path := by
  have hlength : (cfg.libdir ++ '/' :: path).length < 4096 := by
    rw [List.length_append, List.length_cons]
    omega
  rw [pluginsyncPathIsSafe, decide_eq_true_eq] at hsafe
  rw [PluginsyncConfig.localPath, cutTo_of_lt hlength, placeFrom_append_slash hlibdir hsafe.2.2]
  rfl

/-! ### What a step does -/

section Steps

variable {digest : Bytes → List UInt8} {cfg : PluginsyncConfig} {s : SyncState} {step : SyncStep}
  {l : ListedPlugin}

/-- What a step does to the files, the writes and the errors. -/
inductive Effect (digest : Bytes → List UInt8) (cfg : PluginsyncConfig) (s : SyncState)
    (step : SyncStep) (s' : SyncState) : Prop
  | unlisted (hlisted : step.listed = none) (files : s'.files = s.files)
      (writes : s'.writes = s.writes) (errors : s'.errors = s.errors)
  | refused (l : ListedPlugin) (hlisted : step.listed = some l)
      (hsafe : pluginsyncPathIsSafe l.path = false) (files : s'.files = s.files)
      (writes : s'.writes = s.writes) (errors : s'.errors = s.errors + 1)
  | current (l : ListedPlugin) (hlisted : step.listed = some l)
      (hsafe : pluginsyncPathIsSafe l.path = true) (hcurrent : step.IsCurrent digest cfg s l)
      (files : s'.files = s.files) (writes : s'.writes = s.writes) (errors : s'.errors = s.errors)
  | failed (l : ListedPlugin) (hlisted : step.listed = some l)
      (hsafe : pluginsyncPathIsSafe l.path = true) (hcurrent : ¬ step.IsCurrent digest cfg s l)
      (hsent : step.sent cfg l = none) (files : s'.files = s.files)
      (writes : s'.writes = s.writes) (errors : s'.errors = s.errors + 1)
  | sent (l : ListedPlugin) (body : Bytes) (hlisted : step.listed = some l)
      (hsafe : pluginsyncPathIsSafe l.path = true) (hcurrent : ¬ step.IsCurrent digest cfg s l)
      (hsent : step.sent cfg l = some body)
      (files : s'.files = Function.update s.files (placeFrom cfg.cwd (cfg.localPath l.path))
        (some (body.take step.transfer.stored)))
      (writes : s'.writes = s.writes ++ [(l.path, placeFrom cfg.cwd (cfg.localPath l.path))])
      (errors : s'.errors = s.errors + if body.length ≤ step.transfer.written then 0 else 1)

/-- What is downloaded for a listed file. -/
theorem downloadFile_eq (cfg : PluginsyncConfig) (step : SyncStep) (l : ListedPlugin) :
    downloadFile cfg l.path (cfg.localPath l.path) step.transfer =
      match step.sent cfg l with
      | none => (none, false)
      | some body =>
        (some (placeFrom cfg.cwd (cfg.localPath l.path), body.take step.transfer.stored),
          decide (body.length ≤ step.transfer.written)) := by
  unfold downloadFile SyncStep.sent
  cases step.transfer.makesDirectories with
  | false => rfl
  | true =>
    rw [if_neg (by simp), if_pos rfl]
    cases step.transfer.reply (cfg.contentUrl l.path) with
    | failed => rfl
    | answered code body =>
      dsimp only
      by_cases hcode : code = 200
      · rw [if_neg (not_not_intro hcode)]
        by_cases hopens : step.transfer.opens = true ∧ namesFile (cfg.localPath l.path) = true
        · rw [if_neg (not_not_intro hopens), if_pos ⟨hcode, hopens⟩]
          simp only [min_eq_right_iff]
        · rw [if_pos hopens, if_neg fun h ↦ hopens h.2]
      · rw [if_pos hcode, if_neg fun h ↦ hcode h.1]

theorem effect_pluginsyncEntry (digest : Bytes → List UInt8) (cfg : PluginsyncConfig)
    (s : SyncState) (step : SyncStep) :
    Effect digest cfg s step (pluginsyncEntry digest cfg s step) := by
  unfold pluginsyncEntry
  cases hentry : step.entry with
  | object ms =>
    dsimp only
    cases hlisted : step.listed with
    | none => exact .unlisted hlisted rfl rfl rfl
    | some l =>
      dsimp only
      cases hsafe : pluginsyncPathIsSafe l.path with
      | false =>
        rw [if_pos rfl]
        exact .refused l hlisted hsafe rfl rfl rfl
      | true =>
        rw [if_neg (by simp)]
        by_cases hcurrent : step.IsCurrent digest cfg s l
        · have hany := hcurrent
          unfold SyncStep.IsCurrent at hany
          rw [if_pos hany]
          exact .current l hlisted hsafe hcurrent rfl rfl rfl
        · have hany := hcurrent
          unfold SyncStep.IsCurrent at hany
          rw [if_neg hany, downloadFile_eq]
          cases hsent : step.sent cfg l with
          | none => exact .failed l hlisted hsafe hcurrent hsent rfl rfl rfl
          | some body =>
            dsimp only
            by_cases hwritten : body.length ≤ step.transfer.written
            · rw [if_pos (decide_eq_true hwritten)]
              exact .sent l body hlisted hsafe hcurrent hsent rfl rfl (by rw [if_pos hwritten]; rfl)
            · rw [if_neg (by simpa using hwritten)]
              exact .sent l body hlisted hsafe hcurrent hsent rfl rfl (by rw [if_neg hwritten])
  | null | bool _ | number _ | string _ | array _ =>
    exact .unlisted (by rw [SyncStep.listed, hentry]; rfl) rfl rfl rfl

/-! ### What a run does -/

theorem syncState_append (files : PlacedFiles) (pre : List SyncStep) (step : SyncStep) :
    syncState digest cfg files (pre ++ [step]) =
      pluginsyncEntry digest cfg (syncState digest cfg files pre) step := by
  rw [syncState, List.foldl_append]
  rfl

/-- A file that is opened for writing is opened in some step. -/
theorem exists_sent_of_mem_writes {files : PlacedFiles} {steps : List SyncStep}
    {w : Bytes × List Bytes} (hw : w ∈ (syncState digest cfg files steps).writes) :
    ∃ pre step post l body, steps = pre ++ step :: post ∧ step.listed = some l ∧
      pluginsyncPathIsSafe l.path = true ∧
      ¬ step.IsCurrent digest cfg (syncState digest cfg files pre) l ∧
      step.sent cfg l = some body ∧ w = (l.path, placeFrom cfg.cwd (cfg.localPath l.path)) := by
  induction steps using List.reverseRecOn with
  | nil => cases hw
  | append_singleton pre step ih =>
    have hearlier (h : w ∈ (syncState digest cfg files pre).writes) :
        ∃ pre₁ step₁ post l body, pre ++ [step] = pre₁ ++ step₁ :: post ∧ step₁.listed = some l ∧
          pluginsyncPathIsSafe l.path = true ∧
          ¬ step₁.IsCurrent digest cfg (syncState digest cfg files pre₁) l ∧
          step₁.sent cfg l = some body ∧
          w = (l.path, placeFrom cfg.cwd (cfg.localPath l.path)) := by
      obtain ⟨pre₁, step₁, post, l, body, rfl, hstep⟩ := ih h
      exact ⟨pre₁, step₁, post ++ [step], l, body, by simp, hstep⟩
    rw [syncState_append] at hw
    cases effect_pluginsyncEntry digest cfg (syncState digest cfg files pre) step with
    | unlisted _ _ hwrites _ | refused _ _ _ _ hwrites _ | current _ _ _ _ _ hwrites _
    | failed _ _ _ _ _ _ hwrites _ =>
      rw [hwrites] at hw
      exact hearlier hw
    | sent l body hlisted hsafe hcurrent hsent _ hwrites _ =>
      rw [hwrites, List.mem_append, List.mem_singleton] at hw
      rcases hw with hw | hw
      · exact hearlier hw
      · exact ⟨pre, step, [], l, body, rfl, hlisted, hsafe, hcurrent, hsent, hw⟩

/-- What has been opened stays noted. -/
theorem writes_subset (files : PlacedFiles) (pre post : List SyncStep) :
    (syncState digest cfg files pre).writes ⊆
      (syncState digest cfg files (pre ++ post)).writes := by
  induction post using List.reverseRecOn with
  | nil =>
    rw [List.append_nil]
    exact List.Subset.refl _
  | append_singleton post step ih =>
    rw [← List.append_assoc, syncState_append]
    refine List.Subset.trans ih ?_
    cases effect_pluginsyncEntry digest cfg (syncState digest cfg files (pre ++ post)) step with
    | unlisted _ _ hwrites _ | refused _ _ _ _ hwrites _ | current _ _ _ _ _ hwrites _
    | failed _ _ _ _ _ _ hwrites _ =>
      rw [hwrites]
      exact List.Subset.refl _
    | sent l body _ _ _ _ _ hwrites _ =>
      rw [hwrites]
      exact List.subset_append_left _ _

theorem take_of_whole {t : Transfer} {body : Bytes} (h : t.Whole body) :
    body.take t.stored = body := List.take_of_length_le h.2

/-! ### CarefulSteps steps -/

variable {files : PlacedFiles} {pre : List SyncStep}

/-- What a careful step writes leaves all files but the listed one as they were, and unless it is
written whole, that one as well. -/
theorem CarefulStep.files_eq {before : SyncState} (h : CarefulStep digest cfg before pre step l)
    (hcurrent : ¬ step.IsCurrent digest cfg before l) {body : Bytes}
    (hsent : step.sent cfg l = some body) :
    Function.update before.files (placeFrom cfg.cwd (cfg.localPath l.path))
        (some (body.take step.transfer.stored)) =
      if step.transfer.Whole body then Function.update before.files (cfg.placeOf l.path) (some body)
      else before.files := by
  rw [h.placed hcurrent body hsent]
  split_ifs with hwhole
  · rw [take_of_whole hwhole]
  · rw [← (h.short hcurrent body hsent hwhole).1, Function.update_eq_self]

theorem CarefulStep.errors_eq {before : SyncState} (h : CarefulStep digest cfg before pre step l)
    (hcurrent : ¬ step.IsCurrent digest cfg before l) {body : Bytes}
    (hsent : step.sent cfg l = some body) :
    (if body.length ≤ step.transfer.written then 0 else 1) =
      if step.transfer.Whole body then 0 else 1 := by
  by_cases hwhole : step.transfer.Whole body
  · rw [if_pos hwhole, if_pos hwhole.1]
  · rw [if_neg hwhole, if_neg (h.short hcurrent body hsent hwhole).2.not_ge]

/-- CarefulSteps steps keep what has been handled up to date. -/
theorem upToDateSoFar_of_careful {steps : List SyncStep} (h : CarefulSteps digest cfg files steps)
    (post : List SyncStep) (hpre : steps = pre ++ post) : UpToDateSoFar digest cfg files pre := by
  induction pre using List.reverseRecOn generalizing post with
  | nil => exact fun _ step hstep ↦ by cases hstep
  | append_singleton pre step ih =>
    have hsteps : steps = pre ++ step :: post := by rw [hpre, List.append_assoc]; rfl
    have hsoFar := ih (step :: post) hsteps
    intro herrors step' hstep' l' hlisted'
    rw [syncState_append] at herrors ⊢
    have hmem : step' ∈ pre ∨ step' = step := by
      rwa [List.mem_append, List.mem_singleton] at hstep'
    cases effect_pluginsyncEntry digest cfg (syncState digest cfg files pre) step with
    | unlisted hlisted hfiles _ hsame =>
      rw [hsame] at herrors
      rw [hfiles]
      rcases hmem with hmem | rfl
      · exact hsoFar herrors step' hmem l' hlisted'
      · rw [hlisted] at hlisted'
        cases hlisted'
    | refused _ _ _ _ _ hmore | failed _ _ _ _ _ _ _ hmore =>
      rw [hmore] at herrors
      cases herrors
    | current l hlisted hsafe hcurrent hfiles _ hsame =>
      rw [hsame] at herrors
      rw [hfiles]
      rcases hmem with hmem | rfl
      · exact hsoFar herrors step' hmem l' hlisted'
      · obtain rfl : l = l' := Option.some.inj (hlisted.symm.trans hlisted')
        exact (h pre step' post l hsteps hlisted hsafe).current hcurrent herrors
    | sent l body hlisted hsafe hcurrent hsent hfiles _ hsum =>
      have hcareful := h pre step post l hsteps hlisted hsafe
      rw [hsum, hcareful.errors_eq hcurrent hsent] at herrors
      rw [hfiles, hcareful.files_eq hcurrent hsent]
      split_ifs at herrors ⊢ with hwhole
      have hsuits := (hcareful.whole hcurrent body hsent hwhole).2 herrors
      by_cases hplace : cfg.placeOf l'.path = cfg.placeOf l.path
      · rw [hplace, Function.update_self]
        exact ⟨body, rfl, hsuits step' hstep' l' hlisted' hplace⟩
      · rw [Function.update_of_ne hplace]
        rcases hmem with hmem | rfl
        · exact hsoFar herrors step' hmem l' hlisted'
        · exact absurd (congrArg (cfg.placeOf ·.path)
            (Option.some.inj (hlisted'.symm.trans hlisted))) hplace

/-- The other parts of what a run should do. -/
theorem installs_of_careful {steps : List SyncStep} (h : CarefulSteps digest cfg files steps)
    {run : PluginRun} (hwrites : run.state.writes ⊆ (syncState digest cfg files steps).writes)
    (hstatus : run.status = 0 → run.state = syncState digest cfg files steps ∧
      run.state.errors = 0) : Installs digest cfg files steps run where
  placed w hw := by
    obtain ⟨pre, step, post, l, body, hsteps, hlisted, hsafe, hcurrent, hsent, rfl⟩ :=
      exists_sent_of_mem_writes (hwrites hw)
    refine ⟨⟨step, ?_, l, hlisted, rfl⟩, (h pre step post l hsteps hlisted hsafe).placed hcurrent
      body hsent⟩
    rw [hsteps]
    exact List.mem_append_right pre List.mem_cons_self
  verified pre step post l hsteps hlisted := by
    intro before after hne
    have hafter : after = pluginsyncEntry digest cfg before step := syncState_append files pre step
    cases effect_pluginsyncEntry digest cfg before step with
    | unlisted _ hfiles _ _ | refused _ _ _ hfiles _ _ | current _ _ _ _ hfiles _ _
    | failed _ _ _ _ _ hfiles _ _ => exact absurd (by rw [hafter, hfiles]) hne
    | sent l₁ body hlisted₁ hsafe hcurrent hsent hfiles _ _ =>
      obtain rfl : l = l₁ := Option.some.inj (hlisted.symm.trans hlisted₁)
      have hcareful := h pre step post l hsteps hlisted hsafe
      rw [hafter, hfiles, hcareful.files_eq hcurrent hsent] at hne ⊢
      split_ifs at hne ⊢ with hwhole
      · rw [Function.update_self] at hne ⊢
        exact ⟨body, rfl, (hcareful.whole hcurrent body hsent hwhole).1 hne.symm⟩
      · exact absurd rfl hne
  kept pre step post l hsteps hlisted := by
    intro before after hfails
    obtain ⟨hsafe, hcurrent, hshort⟩ := hfails
    have hafter : after = pluginsyncEntry digest cfg before step := syncState_append files pre step
    rw [hafter]
    cases effect_pluginsyncEntry digest cfg before step with
    | unlisted hnone _ _ _ =>
      rw [hnone] at hlisted
      cases hlisted
    | refused l₁ hlisted₁ hleads _ _ _ =>
      obtain rfl : l = l₁ := Option.some.inj (hlisted.symm.trans hlisted₁)
      rw [hleads] at hsafe
      cases hsafe
    | current l₁ hlisted₁ _ hcurrent₁ _ _ _ =>
      obtain rfl : l = l₁ := Option.some.inj (hlisted.symm.trans hlisted₁)
      exact absurd hcurrent₁ hcurrent
    | failed l₁ _ _ _ _ hfiles _ hmore => exact ⟨hfiles, hmore⟩
    | sent l₁ body hlisted₁ _ _ hsent hfiles _ hsum =>
      obtain rfl : l = l₁ := Option.some.inj (hlisted.symm.trans hlisted₁)
      have hcareful := h pre step post l hsteps hlisted hsafe
      rw [hfiles, hsum, hcareful.files_eq hcurrent hsent, hcareful.errors_eq hcurrent hsent,
        if_neg (hshort body hsent), if_neg (hshort body hsent)]
      exact ⟨rfl, rfl⟩
  upToDate h0 := by
    obtain ⟨hstate, herrors⟩ := hstatus h0
    rw [hstate] at herrors ⊢
    exact upToDateSoFar_of_careful h [] (List.append_nil _).symm herrors

/-- A run that does what it should is made of careful steps. -/
theorem careful_of_installs {steps : List SyncStep} {run : PluginRun}
    (h : Installs digest cfg files steps run)
    (hwrites : (syncState digest cfg files steps).writes ⊆ run.state.writes)
    (hsoFar : ∀ n, UpToDateSoFar digest cfg files (steps.take n)) :
    CarefulSteps digest cfg files steps := by
  intro pre step post l hsteps hlisted hsafe
  have hafter : syncState digest cfg files (pre ++ [step]) =
      pluginsyncEntry digest cfg (syncState digest cfg files pre) step :=
    syncState_append files pre step
  have hsplit : steps = (pre ++ [step]) ++ post := by rw [hsteps, List.append_assoc]; rfl
  have hmem : step ∈ pre ++ [step] := List.mem_append_right pre (List.mem_singleton_self step)
  have huntil : UpToDateSoFar digest cfg files (pre ++ [step]) := by
    have htake := hsoFar (pre ++ [step]).length
    rwa [hsplit, List.take_left] at htake
  rw [UpToDateSoFar, hafter] at huntil
  have hverified := h.verified pre step post l hsteps hlisted
  have hkept := h.kept pre step post l hsteps hlisted
  dsimp only at hverified hkept
  rw [hafter] at hverified hkept
  have hwritten : ∀ w ∈ (pluginsyncEntry digest cfg (syncState digest cfg files pre) step).writes,
      w.2 = cfg.placeOf w.1 := by
    intro w hw
    rw [← hafter] at hw
    refine (h.placed w (hwrites ?_)).2
    rw [hsplit]
    exact writes_subset files (pre ++ [step]) post hw
  cases effect_pluginsyncEntry digest cfg (syncState digest cfg files pre) step with
  | unlisted hnone _ _ _ =>
    rw [hnone] at hlisted
    cases hlisted
  | refused l₁ hlisted₁ hleads _ _ _ =>
    obtain rfl : l = l₁ := Option.some.inj (hlisted.symm.trans hlisted₁)
    rw [hleads] at hsafe
    cases hsafe
  | current l₁ hlisted₁ _ hcurrent hfiles _ hsame =>
    obtain rfl : l = l₁ := Option.some.inj (hlisted.symm.trans hlisted₁)
    rw [hsame, hfiles] at huntil
    exact ⟨fun _ herrors ↦ huntil herrors step hmem l hlisted,
      absurd hcurrent, absurd hcurrent, absurd hcurrent⟩
  | failed l₁ hlisted₁ _ hcurrent hsent _ _ _ =>
    obtain rfl : l = l₁ := Option.some.inj (hlisted.symm.trans hlisted₁)
    have hnone (body : Bytes) : body ∉ step.sent cfg l := fun h ↦ by
      rw [hsent] at h
      cases h
    exact ⟨fun h ↦ absurd h hcurrent, fun _ body hbody ↦ absurd hbody (hnone body),
      fun _ body hbody ↦ absurd hbody (hnone body), fun _ body hbody ↦ absurd hbody (hnone body)⟩
  | sent l₁ body hlisted₁ _ hcurrent hsent hfiles hnoted hsum =>
    obtain rfl : l = l₁ := Option.some.inj (hlisted.symm.trans hlisted₁)
    have hplace : placeFrom cfg.cwd (cfg.localPath l.path) = cfg.placeOf l.path := by
      refine hwritten (l.path, _) ?_
      rw [hnoted]
      exact List.mem_append_right _ (List.mem_singleton_self _)
    rw [hfiles, hplace, Function.update_self] at hverified
    rw [hsum, hfiles, hplace] at hkept huntil
    have honly : ∀ body' ∈ step.sent cfg l, body = body' := fun body' h ↦
      Option.some.inj (hsent.symm.trans h)
    refine ⟨fun h ↦ absurd h hcurrent, fun _ _ _ ↦ hplace, fun _ body' hbody' hwhole ↦ ?_,
      fun _ body' hbody' hshort ↦ ?_⟩
    · obtain rfl := honly body' hbody'
      rw [take_of_whole hwhole] at hverified huntil
      refine ⟨fun hne ↦ ?_, fun herrors step' hstep' l' hlisted' hsame ↦ ?_⟩
      · obtain ⟨content, hcontent, hchecked⟩ := hverified fun heq ↦ hne heq.symm
        rwa [Option.some.inj hcontent]
      · rw [if_pos hwhole.1] at huntil
        obtain ⟨content, hcontent, hsuits⟩ := huntil herrors step' hstep' l' hlisted'
        rw [hsame, Function.update_self] at hcontent
        rwa [Option.some.inj hcontent]
    · obtain rfl := honly body' hbody'
      obtain ⟨hsame, hmore⟩ := hkept ⟨hsafe, hcurrent, fun body' hbody' ↦
        honly body' hbody' ▸ hshort⟩
      refine ⟨?_, ?_⟩
      · rw [← hsame, Function.update_self]
      · by_contra hle
        rw [if_pos (not_lt.1 hle)] at hmore
        omega

end Steps

/-! ### Whole runs -/

section Runs

variable (digest : Bytes → List UInt8) (cfg : PluginsyncConfig) (w : PluginWorld)

/-- The steps of a run: none, if there is no listing. -/
def PluginWorld.steps : List SyncStep :=
  match w.listing cfg with
  | none => []
  | some elements => stepsOf w elements

/-- What a run leaves. -/
theorem state_pluginsyncRun (files : PlacedFiles) :
    (pluginsyncRun digest cfg w files).state = syncState digest cfg files (w.steps cfg) := by
  unfold pluginsyncRun PluginWorld.steps
  cases w.listing cfg with
  | none => rfl
  | some elements => rfl

theorem errors_of_status_pluginsyncRun {files : PlacedFiles}
    (h : (pluginsyncRun digest cfg w files).status = 0) :
    (pluginsyncRun digest cfg w files).state.errors = 0 := by
  unfold pluginsyncRun at h ⊢
  cases hlisting : w.listing cfg with
  | none => rfl
  | some elements =>
    rw [hlisting] at h
    dsimp only at h ⊢
    split_ifs at h with herrors
    exact Nat.eq_zero_of_not_pos herrors

/-- A run does what it should, and what it has handled is up to date as long as nothing failed,
exactly when its steps are careful. -/
theorem pluginsync_run_iff (files : PlacedFiles) :
    (Installs digest cfg files (w.steps cfg) (pluginsyncRun digest cfg w files) ∧
      ∀ n, UpToDateSoFar digest cfg files ((w.steps cfg).take n)) ↔
        CarefulSteps digest cfg files (w.steps cfg) := by
  have hstate := state_pluginsyncRun digest cfg w files
  constructor
  · rintro ⟨hinstalls, hsoFar⟩
    exact careful_of_installs hinstalls (by rw [hstate]; exact List.Subset.refl _) hsoFar
  · intro hcareful
    refine ⟨installs_of_careful hcareful (by rw [hstate]; exact List.Subset.refl _) fun h ↦
      ⟨hstate, errors_of_status_pluginsyncRun digest cfg w h⟩, fun n ↦ ?_⟩
    exact upToDateSoFar_of_careful hcareful _ (List.take_append_drop n _).symm

end Runs

/-- A configuration. -/
def agentPlugins : PluginsyncConfig := ⟨"https://puppet".toList, "/lib".toList, []⟩

/-- The file that was there before. -/
def oldPlugin : PlacedFiles := fun place ↦
  if place = ["lib".toList, "a".toList] then some "old".toList else none

/-- A listing of one file, without a checksum, and a disk that is full after one byte. -/
def fullDisk : PluginWorld where
  metadata _ := .answered 200 "[\x7b\x22path\x22:\x22a\x22\x7d]".toList
  transfers _ := ⟨false, true, fun _ ↦ .answered 200 "new".toList, true, 1, 1⟩

/-- The element of its listing. -/
def plainEntry : Json := .object [("path".toList, .string "a".toList)]

theorem jsonParse_plainEntry :
    jsonParse "[\x7b\x22path\x22:\x22a\x22\x7d]".toList = .ok (.array [plainEntry]) := by
  have hnum : ∀ q, ¬ (JsonOf.array [plainEntry]).Has (.number q) := by
    simp [plainEntry, JsonOf.has_number_array_iff, JsonOf.has_number_object_iff,
      JsonOf.not_has_number_string]
  have htext : ∀ s, (JsonOf.array [plainEntry]).HasText s → s = "path".toList ∨ s = "a".toList := by
    intro s
    simp [plainEntry, JsonOf.hasText_array_iff, JsonOf.hasText_object_iff,
      JsonOf.hasText_string_iff]
  have hkeys : (JsonOf.array [plainEntry]).DistinctKeys := by
    simp [plainEntry, JsonOf.distinctKeys_array_iff, JsonOf.distinctKeys_object_iff,
      JsonOf.distinctKeys_string]
  refine (JsonOf.jsonParse_spliced_iff (v := .array [plainEntry]) (by decide) hkeys hnum
    fun s hs ↦ ?_).2 fun s hs ↦ ?_
  · rcases htext s hs with rfl | rfl <;> decide
  · rcases htext s hs with rfl | rfl <;> simp [IsPlain]

/-- When the disk is full, the old content of a file is lost. -/
theorem not_installs_fullDisk : ¬ ∃ digest, Installs digest agentPlugins oldPlugin
    (fullDisk.steps agentPlugins) (pluginsyncRun digest agentPlugins fullDisk oldPlugin) := by
  rintro ⟨digest, h⟩
  have hlisting : fullDisk.listing agentPlugins = some [plainEntry] := by
    have hbody : cString "[\x7b\x22path\x22:\x22a\x22\x7d]".toList =
        "[\x7b\x22path\x22:\x22a\x22\x7d]".toList := by decide
    unfold PluginWorld.listing fullDisk
    dsimp only
    rw [if_neg (by decide), hbody, jsonParse_plainEntry]
  have hsteps : fullDisk.steps agentPlugins = [⟨plainEntry, fullDisk.transfers 0⟩] := by
    rw [PluginWorld.steps, hlisting]
    rfl
  have hkept := h.kept [] _ [] ⟨"a".toList, none⟩ hsteps rfl
    ⟨by decide, by simp [SyncStep.IsCurrent], fun body hbody hwhole ↦ ?_⟩
  · have hplace : some "n".toList = some "old".toList :=
      congrFun hkept.1 ["lib".toList, "a".toList]
    exact absurd hplace (by decide)
  · obtain rfl : "new".toList = body := Option.some.inj hbody
    exact absurd hwhole.1 (by decide)

end PuppetC
