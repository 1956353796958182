import PuppetC.Agent.Files
import PuppetC.Support.Convergence

/-!
# Runs of a file resource

For a resource that is not to be absent, the provider of files is a sequence of stages: the body,
which makes or rewrites what stands at the path, the owner and the mode. Each of them finds nothing
to do in the files that it leaves, as far as it can read them again, and keeps what the earlier ones
have done.

## Main definitions

* `stageOf`, `fileStages`: the parts of the provider as stages.
* `HasTarget`, `HasContent`, `HasSource`, `HasOwner`, `HasMode`: what the parts bring about.
* `BodyLasts`, `ModeFits`: what can be read again.
* `SameKinds`: nothing is made, removed or rewritten.

## Main results

* `file_second_run_iff`: when a second run has nothing to do.
* `file_noop_iff`: what is foretold.
-/

namespace PuppetC

variable {w : FileWorld} {r : AgentResource} {fs fs' : FileState} {path p q : Bytes}
  {changed : Bool}

/-! ### Stages -/

/-- What a part of the provider does for real, as a stage. -/
def FileStep.real : FileStep → Option (Bool × FileState)
  | .stop _ _ => none
  | .go changed fs => some (changed, fs)

/-- A part that returns early only where it fails. -/
def FileStep.OnlyFails (s : FileStep) : Prop :=
  ∀ result fs, s = .stop result fs → result = .failed

theorem FileStep.real_andThen (s : FileStep) (next : FileState → FileStep) :
    (s.andThen next).real =
      s.real.bind fun p ↦ (next p.2).real.map fun q ↦ (p.1 || q.1, q.2) := by
  cases s with
  | stop result fs => rfl
  | go changed fs =>
    rw [andThen]
    cases hnext : next fs <;> simp [real, hnext]

theorem FileStep.OnlyFails.andThen {s : FileStep} {next : FileState → FileStep} (hs : s.OnlyFails)
    (hnext : ∀ fs, (next fs).OnlyFails) : (s.andThen next).OnlyFails := by
  intro result fs h
  cases s with
  | stop result' fs' => exact hs result fs h
  | go changed fs' =>
    rw [FileStep.andThen] at h
    cases hn : next fs' with
    | stop result' fs'' =>
      rw [hn] at h
      exact hnext fs' result fs (hn.trans h)
    | go changed' fs'' =>
      rw [hn] at h
      cases h

theorem FileStep.onlyFails_write (fs before : FileState) (call : FileState → Option FileState) :
    (FileStep.write false fs before call).OnlyFails := by
  intro result fs' h
  rw [write, if_neg Bool.false_ne_true] at h
  cases hcall : call before with
  | none =>
    rw [hcall] at h
    cases h
    rfl
  | some fs'' =>
    rw [hcall] at h
    cases h

/-- What a call that writes leaves. -/
theorem FileStep.real_write_eq_some_iff {before : FileState} {call : FileState → Option FileState} :
    (FileStep.write false fs before call).real = some (changed, fs') ↔
      changed = true ∧ call before = some fs' := by
  rw [write, if_neg Bool.false_ne_true]
  cases call before with
  | none => exact iff_of_false (by rintro ⟨⟩) (by rintro ⟨-, ⟨⟩⟩)
  | some fs'' =>
    simp only [real, Option.some.injEq, Prod.mk.injEq]
    exact and_congr_left fun _ ↦ eq_comm

/-! ### Kinds -/

/-- The kind of what stands at a path. -/
def kindAt (fs : FileState) (path : Bytes) : Option FileKind := (fs path).map FileEntry.kind

/-- Nothing is made, removed or rewritten. -/
def SameKinds (fs fs' : FileState) : Prop := ∀ path, kindAt fs' path = kindAt fs path

theorem follow_congr (h : SameKinds fs fs') (hops : ℕ) (path : Bytes) :
    follow w fs' hops path = follow w fs hops path := by
  induction hops generalizing path with
  | zero => rfl
  | succ hops ih =>
    have hkind : (fs' path).map FileEntry.kind = (fs path).map FileEntry.kind := h path
    rw [follow, follow, hkind]
    split
    · exact ih _
    · rfl

theorem stat_kind_congr (h : SameKinds fs fs') (path : Bytes) :
    (stat w fs' path).map FileEntry.kind = (stat w fs path).map FileEntry.kind := by
  rw [stat, stat, fullPath, fullPath, follow_congr h]
  cases follow w fs 41 path with
  | none => rfl
  | some p => exact h p

theorem readFileContents_congr (h : SameKinds fs fs') (path : Bytes) :
    readFileContents w fs' path = readFileContents w fs path := by
  rw [readFileContents, readFileContents, stat_kind_congr h]

theorem sourceContent_congr (h : SameKinds fs fs') (source : Bytes) :
    sourceContent w fs' source = sourceContent w fs source := by
  rw [sourceContent, sourceContent, readFileContents_congr h]

theorem follow_of_not_link (h : ∀ target, kindAt fs path ≠ some (.link target)) (hops : ℕ) :
    follow w fs (hops + 1) path = some path := by
  rw [follow]
  split
  · next target hlink => exact absurd hlink (h target)
  · rfl

/-- Where a path is followed to, no link stands. -/
theorem not_link_of_follow {hops : ℕ} (h : follow w fs hops path = some q) (target : LinkTarget) :
    kindAt fs q ≠ some (.link target) := by
  induction hops generalizing path with
  | zero => cases h
  | succ hops ih =>
    rw [follow] at h
    split at h
    · exact ih h
    · next hkind =>
      obtain rfl := Option.some.inj h
      exact fun hlink ↦ hkind target hlink

/-- Paths lead where they led after a file was made or rewritten. -/
theorem follow_update {e : FileEntry} (hq : ∀ target, kindAt fs q ≠ some (.link target))
    (he : e.isLink = false) (hops : ℕ) (path : Bytes) :
    follow w (Function.update fs q (some e)) hops path = follow w fs hops path := by
  induction hops generalizing path with
  | zero => rfl
  | succ hops ih =>
    by_cases hpath : path = q
    · subst hpath
      rw [follow_of_not_link hq]
      refine follow_of_not_link (fun target hlink ↦ ?_) hops
      rw [kindAt, Function.update_self, Option.map_some] at hlink
      rw [FileEntry.isLink, Option.some.inj hlink] at he
      cases he
    · rw [follow, follow, Function.update_of_ne hpath]
      split
      · exact ih _
      · rfl

/-! ### After a call -/

theorem stat_of_kindAt {k : FileKind} (h : kindAt fs path = some k)
    (hk : ∀ target, k ≠ .link target) : (stat w fs path).map FileEntry.kind = some k := by
  have hfull : fullPath w fs path = some path :=
    follow_of_not_link (fun target hlink ↦ hk target (Option.some.inj (h.symm.trans hlink))) 40
  rw [stat, hfull]
  exact h

theorem mkdir_eq_some_iff : mkdir w fs path = some fs' ↔ fs path = none ∧
    w.permits (.mkdir path) fs = true ∧
    fs' = Function.update fs path (some (w.entry path .directory)) := by
  rw [mkdir]
  split_ifs with h
  · rw [Bool.and_eq_true, Option.isNone_iff_eq_none] at h
    simp [h, eq_comm]
  · rw [Bool.and_eq_true, Option.isNone_iff_eq_none] at h
    refine iff_of_false (by rintro ⟨⟩) fun hall ↦ h ⟨hall.1, hall.2.1⟩

theorem symlink_eq_some_iff {target : Bytes} : symlink w fs target path = some fs' ↔
    fs path = none ∧ w.permits (.symlink target path) fs = true ∧
    ∃ h : beforeNul target ≠ [],
      fs' = Function.update fs path (some (w.entry path (.link ⟨beforeNul target, h⟩))) := by
  rw [symlink]
  split_ifs with hne h
  · rw [Bool.and_eq_true, Option.isNone_iff_eq_none] at h
    simp [h, hne, eq_comm]
  · rw [Bool.and_eq_true, Option.isNone_iff_eq_none] at h
    refine iff_of_false (by rintro ⟨⟩) fun hall ↦ h ⟨hall.1, hall.2.1⟩
  · exact iff_of_false (by rintro ⟨⟩) fun hall ↦ hall.2.2.elim fun h _ ↦ hne h

/-- What a file that was written holds, and that paths lead where they led. -/
theorem writeFileContents_spec {content : Bytes}
    (h : writeFileContents w fs path content = some fs') : ∃ q e, fullPath w fs path = some q ∧
      fs' = Function.update fs q (some e) ∧ e.kind = .regular (beforeNul content) ∧
      ∀ p, fullPath w fs' p = fullPath w fs p := by
  obtain ⟨q, hq, h⟩ := Option.bind_eq_some_iff.1 h
  split_ifs at h
  obtain rfl := Option.some.inj h
  exact ⟨q, _, hq, rfl, rfl, fun p ↦ follow_update (not_link_of_follow hq) rfl 41 p⟩

/-- What is read of a file after one was written: the same, or what was written. -/
theorem readFileContents_of_write {content : Bytes}
    (h : writeFileContents w fs path content = some fs') :
    (readFileContents w fs' p = readFileContents w fs p ∨ fullPath w fs p = fullPath w fs path) ∧
    (fullPath w fs p = fullPath w fs path →
      (stat w fs' p).isSome = true ∧ readFileContents w fs' p =
        if (beforeNul content).length ≤ 10 * 1024 * 1024 then some (beforeNul content)
        else none) := by
  obtain ⟨q, e, hq, rfl, hkind, hfull⟩ := writeFileContents_spec h
  refine ⟨?_, fun hsame ↦ ?_⟩
  · by_cases hp : fullPath w fs p = some q
    · exact .inr (hp.trans hq.symm)
    · refine .inl ?_
      rw [readFileContents, readFileContents, stat, stat, hfull]
      cases hfollow : fullPath w fs p with
      | none => rfl
      | some q' =>
        have hne : q' ≠ q := fun heq ↦ hp (hfollow.trans (congrArg some heq))
        rw [Option.bind_some, Option.bind_some, Function.update_of_ne hne]
  · rw [readFileContents, stat, hfull, hsame.trans hq, Option.bind_some, Function.update_self,
      Option.map_some, hkind]
    exact ⟨rfl, rfl⟩

@[simp] theorem beforeNul_beforeNul (t : Bytes) : beforeNul (beforeNul t) = beforeNul t :=
  beforeNul_eq_self_iff.2 (nul_not_mem_beforeNul t)

theorem length_beforeNul_le (t : Bytes) : (beforeNul t).length ≤ t.length :=
  (List.takeWhile_sublist _).length_le

/-- What is read has at most 10 MiB. -/
theorem length_le_of_readFileContents {content : Bytes}
    (h : readFileContents w fs path = some content) : content.length ≤ 10 * 1024 * 1024 := by
  rw [readFileContents] at h
  split at h
  · split_ifs at h with hlength
    exact Option.some.inj h ▸ hlength
  · cases h

/-! ### What the parts do -/

/-- A part of the provider as a stage. -/
def stageOf (part : Bool → FileState → FileStep) : Stage FileState := fun fs ↦ (part false fs).real

theorem real_go_eq_some_iff {b : Bool} {fs₁ : FileState} :
    (FileStep.go b fs₁).real = some (changed, fs') ↔ changed = b ∧ fs' = fs₁ := by
  rw [FileStep.real, Option.some.injEq, Prod.mk.injEq]
  exact and_congr eq_comm eq_comm

theorem stageOf_directory_eq : stageOf (fileDirectory w r) fs = some (changed, fs') ↔
    (stat w fs r.title).map FileEntry.kind = some .directory ∧ changed = false ∧ fs' = fs ∨
      stat w fs r.title = none ∧ changed = true ∧ mkdir w fs r.title = some fs' := by
  rw [stageOf, fileDirectory]
  cases hstat : stat w fs r.title with
  | none => simp [FileStep.real_write_eq_some_iff]
  | some e =>
    by_cases hkind : e.kind = .directory
    · simp [hkind, real_go_eq_some_iff]
    · simp [hkind, FileStep.real]

/-- A link to what is wanted, as far as it is read. -/
def HasTarget (fs : FileState) (path target : Bytes) : Prop :=
  ∃ current : LinkTarget, kindAt fs path = some (.link current) ∧
    beforeNul (current.text.take 1023) = beforeNul target

/-- A link is as it should be, or it is made. -/
theorem of_stageOf_link (h : stageOf (fileLink w r) fs = some (changed, fs')) :
    ∃ target, r.param? "target" = some target ∧
      (HasTarget fs r.title target ∧ changed = false ∧ fs' = fs ∨
        ¬ HasTarget fs r.title target ∧ changed = true ∧ ∃ hne : beforeNul target ≠ [],
          fs' = Function.update fs r.title
            (some (w.entry r.title (.link ⟨beforeNul target, hne⟩)))) := by
  rw [stageOf, fileLink] at h
  cases htarget : r.param? "target" with
  | none => simp [htarget, FileStep.real] at h
  | some target =>
    simp only [htarget] at h
    refine ⟨target, rfl, ?_⟩
    cases hkind : kindAt fs r.title with
    | none =>
      have hkind' : (fs r.title).map FileEntry.kind = none := hkind
      simp only [hkind', FileStep.real_write_eq_some_iff, symlink_eq_some_iff] at h
      obtain ⟨rfl, -, -, hne, rfl⟩ := h
      refine .inr ⟨?_, rfl, hne, rfl⟩
      rintro ⟨current, hcurrent, -⟩
      rw [hkind] at hcurrent
      cases hcurrent
    | some kind =>
      have hkind' : (fs r.title).map FileEntry.kind = some kind := hkind
      cases kind with
      | regular content => simp [hkind', FileStep.real] at h
      | directory => simp [hkind', FileStep.real] at h
      | link current =>
        simp only [hkind'] at h
        split_ifs at h with heq
        · obtain ⟨rfl, rfl⟩ := real_go_eq_some_iff.1 h
          exact .inl ⟨⟨current, hkind, heq⟩, rfl, rfl⟩
        · rw [FileStep.real_write_eq_some_iff, symlink_eq_some_iff] at h
          obtain ⟨rfl, hnone, -, hne, rfl⟩ := h
          refine .inr ⟨?_, rfl, hne, ?_⟩
          · rintro ⟨current', hcurrent, htake⟩
            rw [hkind] at hcurrent
            cases hcurrent
            exact heq htake
          · rw [unlink] at hnone ⊢
            split_ifs at hnone ⊢
            · exact Function.update_idem ..
            · rw [Option.getD_none] at hnone
              rw [hnone] at hkind'
              cases hkind'

/-- A file is there, with the content if it can be read. -/
def HasContent (w : FileWorld) (r : AgentResource) (fs : FileState) : Prop :=
  (stat w fs r.title).isSome = true ∧ ∀ content, r.param? "content" = some content →
    ∀ current, readFileContents w fs r.title = some current →
      beforeNul current = beforeNul content

/-- A file has its content, or it is made or rewritten. -/
theorem of_stageOf_content (h : stageOf (fileContent w r) fs = some (changed, fs')) :
    HasContent w r fs ∧ changed = false ∧ fs' = fs ∨
      ¬ HasContent w r fs ∧ changed = true ∧
        writeFileContents w fs r.title ((r.param? "content").getD []) = some fs' := by
  rw [stageOf, fileContent] at h
  cases hstat : stat w fs r.title with
  | none =>
    simp only [hstat, FileStep.real_write_eq_some_iff] at h
    exact .inr ⟨fun hhas ↦ by simp [HasContent, hstat] at hhas, h.1, h.2⟩
  | some e =>
    simp only [hstat] at h
    cases hcontent : r.param? "content" with
    | none =>
      simp only [hcontent, real_go_eq_some_iff] at h
      exact .inl ⟨⟨by rw [hstat]; rfl, by simp [hcontent]⟩, h⟩
    | some content =>
      simp only [hcontent] at h
      cases hread : readFileContents w fs r.title with
      | none =>
        simp only [hread, real_go_eq_some_iff] at h
        exact .inl ⟨⟨by rw [hstat]; rfl, by simp [hread]⟩, h⟩
      | some current =>
        simp only [hread] at h
        split_ifs at h with heq
        · refine .inl ⟨⟨by rw [hstat]; rfl, ?_⟩, real_go_eq_some_iff.1 h⟩
          simp [hcontent, hread, heq]
        · rw [FileStep.real_write_eq_some_iff] at h
          exact .inr ⟨fun hhas ↦ heq (hhas.2 content hcontent current hread), h.1, h.2⟩

/-- A file has the content of its source. -/
def HasSource (w : FileWorld) (r : AgentResource) (fs : FileState) : Prop :=
  ∀ source, r.param? "source" = some source → r.param? "content" = none →
    ∃ content current, sourceContent w fs source = some content ∧
      readFileContents w fs r.title = some current ∧ beforeNul current = beforeNul content

/-- A file has the content of its source, or it is rewritten. -/
theorem of_stageOf_source (h : stageOf (fileSource w r) fs = some (changed, fs')) :
    HasSource w r fs ∧ changed = false ∧ fs' = fs ∨
      ¬ HasSource w r fs ∧ changed = true ∧ ∃ source content, r.param? "source" = some source ∧
        r.param? "content" = none ∧ sourceContent w fs source = some content ∧
        writeFileContents w fs r.title content = some fs' := by
  rw [stageOf, fileSource] at h
  split at h
  · next source hsource hnone =>
    split at h
    · cases h
    · next content hcontent =>
      split_ifs at h with heq
      · obtain ⟨current, hread, heq⟩ := (Option.any_eq_true ..).1 heq
        refine .inl ⟨fun source' hsource' _ ↦ ⟨content, current, ?_, hread, by simpa using heq⟩,
          real_go_eq_some_iff.1 h⟩
        rwa [Option.some.inj (hsource'.symm.trans hsource)]
      · rw [FileStep.real_write_eq_some_iff] at h
        refine .inr ⟨fun hhas ↦ heq ?_, h.1, source, content, hsource, hnone, hcontent, h.2⟩
        obtain ⟨content', current, hcontent', hread, heq'⟩ := hhas source hsource hnone
        rw [Option.some.inj (hcontent'.symm.trans hcontent)] at heq'
        rw [hread]
        simpa using heq'
  · next hnot =>
    refine .inl ⟨fun source hsource hnone ↦ absurd hnone fun hnone ↦ ?_, real_go_eq_some_iff.1 h⟩
    exact hnot source hsource hnone

/-- The owner and the group are as they should be, where the file can be opened. -/
def HasOwner (w : FileWorld) (r : AgentResource) (fs : FileState) : Prop :=
  ∀ e, openNoFollow fs r.title = some e →
    ((r.param? "owner").bind (getId w.getpwnam)).getD e.uid = e.uid ∧
      ((r.param? "group").bind (getId w.getgrnam)).getD e.gid = e.gid

theorem of_stageOf_owner (h : stageOf (fileOwner w r) fs = some (changed, fs')) :
    HasOwner w r fs ∧ changed = false ∧ fs' = fs ∨
      ¬ HasOwner w r fs ∧ changed = true ∧ ∃ e, openNoFollow fs r.title = some e ∧
        fs' = Function.update fs r.title (some
          ⟨e.kind, ((r.param? "owner").bind (getId w.getpwnam)).getD e.uid,
            ((r.param? "group").bind (getId w.getgrnam)).getD e.gid, w.chownMode e.mode⟩) := by
  rw [stageOf, fileOwner] at h
  cases hopen : openNoFollow fs r.title with
  | none =>
    simp only [hopen, real_go_eq_some_iff] at h
    exact .inl ⟨fun e he ↦ by simp [hopen] at he, h⟩
  | some e =>
    simp only [hopen] at h
    split_ifs at h with hown hnoop hpermits
    · refine .inl ⟨fun e' he' ↦ ?_, real_go_eq_some_iff.1 h⟩
      obtain rfl := Option.some.inj (hopen.symm.trans he')
      exact hown
    · exact absurd hnoop (by simp)
    · obtain ⟨rfl, rfl⟩ := real_go_eq_some_iff.1 h
      exact .inr ⟨fun hhas ↦ hown (hhas e hopen), rfl, e, rfl, rfl⟩
    · cases h

/-- The mode is as it should be, where the file can be opened. -/
def HasMode (r : AgentResource) (fs : FileState) : Prop :=
  ∀ mode e, r.param? "mode" = some mode → openNoFollow fs r.title = some e →
    parseMode mode ≠ 0 → e.mode % 4096 = parseMode mode

theorem of_stageOf_mode (h : stageOf (fileMode w r) fs = some (changed, fs')) :
    HasMode r fs ∧ changed = false ∧ fs' = fs ∨
      ¬ HasMode r fs ∧ changed = true ∧ ∃ mode e, r.param? "mode" = some mode ∧
        openNoFollow fs r.title = some e ∧ parseMode mode ≠ 0 ∧
        fs' = Function.update fs r.title (some { e with mode := parseMode mode % 4096 }) := by
  rw [stageOf, fileMode] at h
  split at h
  · next m e hmode hopen =>
    obtain ⟨mode, hparam, hm⟩ := Option.map_eq_some_iff.1 hmode
    split_ifs at h with hhas hnoop hpermits
    · refine .inl ⟨fun mode' e' hparam' hopen' _ ↦ ?_, real_go_eq_some_iff.1 h⟩
      obtain rfl := Option.some.inj (hparam.symm.trans hparam')
      obtain rfl := Option.some.inj (hopen.symm.trans hopen')
      rw [hm, hhas]
    · exact absurd hnoop (by simp)
    · obtain ⟨rfl, rfl⟩ := real_go_eq_some_iff.1 h
      refine .inr ⟨fun hall ↦ hhas ?_, rfl, mode, e, hparam, hopen, by simp [hm], by rw [hm]⟩
      rw [hall mode e hparam hopen (by simp [hm]), hm]
    · cases h
  · next hnot =>
    refine .inl ⟨fun mode e hparam hopen hne ↦ ?_, real_go_eq_some_iff.1 h⟩
    obtain ⟨m, hm⟩ := Nat.exists_eq_succ_of_ne_zero hne
    exact (hnot m e (by rw [hparam, Option.map_some, hm]) hopen).elim

/-! ### Parts with nothing to do -/

theorem settled_directory_iff : (stageOf (fileDirectory w r)).Settled fs ↔
    (stat w fs r.title).map FileEntry.kind = some .directory := by
  rw [Stage.Settled, stageOf_directory_eq]
  simp

theorem settled_link_iff : (stageOf (fileLink w r)).Settled fs ↔
    ∃ target, r.param? "target" = some target ∧ HasTarget fs r.title target := by
  constructor
  · intro h
    obtain ⟨target, htarget, ⟨hhas, -⟩ | ⟨-, hchanged, -⟩⟩ := of_stageOf_link h
    · exact ⟨target, htarget, hhas⟩
    · cases hchanged
  · rintro ⟨target, htarget, current, hkind, heq⟩
    have hkind' : (fs r.title).map FileEntry.kind = some (.link current) := hkind
    rw [Stage.Settled, stageOf, fileLink, htarget]
    simp only [hkind', heq, if_true]
    rfl

theorem settled_content_iff : (stageOf (fileContent w r)).Settled fs ↔ HasContent w r fs := by
  constructor
  · intro h
    obtain ⟨hhas, -⟩ | ⟨-, hchanged, -⟩ := of_stageOf_content h
    · exact hhas
    · cases hchanged
  · rintro ⟨hstat, hhas⟩
    obtain ⟨e, he⟩ := Option.isSome_iff_exists.1 hstat
    rw [Stage.Settled, stageOf, fileContent, he]
    cases hcontent : r.param? "content" with
    | none => rfl
    | some content =>
      cases hread : readFileContents w fs r.title with
      | none => rfl
      | some current =>
        simp only [hhas content hcontent current hread, if_true]
        rfl

theorem settled_source_iff : (stageOf (fileSource w r)).Settled fs ↔ HasSource w r fs := by
  constructor
  · intro h
    obtain ⟨hhas, -⟩ | ⟨-, hchanged, -⟩ := of_stageOf_source h
    · exact hhas
    · cases hchanged
  · intro hhas
    rw [Stage.Settled, stageOf, fileSource]
    cases hsource : r.param? "source" with
    | none => rfl
    | some source =>
      cases hcontent : r.param? "content" with
      | some content => rfl
      | none =>
        obtain ⟨content, current, hfrom, hread, heq⟩ := hhas source hsource hcontent
        simp only [hfrom, hread, Option.any_some, heq, decide_true, if_true]
        rfl

theorem settled_owner_iff : (stageOf (fileOwner w r)).Settled fs ↔ HasOwner w r fs := by
  constructor
  · intro h
    obtain ⟨hhas, -⟩ | ⟨-, hchanged, -⟩ := of_stageOf_owner h
    · exact hhas
    · cases hchanged
  · intro hhas
    rw [Stage.Settled, stageOf, fileOwner]
    cases hopen : openNoFollow fs r.title with
    | none => rfl
    | some e =>
      simp only [hhas e hopen, and_self, if_true]
      rfl

theorem settled_mode_iff : (stageOf (fileMode w r)).Settled fs ↔ HasMode r fs := by
  constructor
  · intro h
    obtain ⟨hhas, -⟩ | ⟨-, hchanged, -⟩ := of_stageOf_mode h
    · exact hhas
    · cases hchanged
  · intro hhas
    rw [Stage.Settled, stageOf, fileMode]
    split
    · next m e hmode hopen =>
      obtain ⟨mode, hparam, hm⟩ := Option.map_eq_some_iff.1 hmode
      have hmode := hhas mode e hparam hopen (by simp [hm])
      rw [if_pos (hmode.trans hm)]
      rfl
    · rfl

/-! ### After the parts -/

theorem hasDirectory_of_run (h : stageOf (fileDirectory w r) fs = some (changed, fs')) :
    (stageOf (fileDirectory w r)).Settled fs' := by
  rw [settled_directory_iff]
  obtain ⟨hdir, -, rfl⟩ | ⟨-, -, hmkdir⟩ := stageOf_directory_eq.1 h
  · exact hdir
  · obtain ⟨-, -, rfl⟩ := mkdir_eq_some_iff.1 hmkdir
    refine stat_of_kindAt ?_ (by rintro target ⟨⟩)
    rw [kindAt, Function.update_self]
    rfl

/-- A link is as it should be afterwards exactly if its target is read whole. -/
theorem hasTarget_of_run {target : Bytes} (htarget : r.param? "target" = some target)
    (h : stageOf (fileLink w r) fs = some (changed, fs')) :
    HasTarget fs' r.title target ↔ (beforeNul target).length ≤ 1023 := by
  obtain ⟨target', htarget', ⟨hhas, -, rfl⟩ | ⟨-, -, hne, rfl⟩⟩ := of_stageOf_link h
  · obtain rfl := Option.some.inj (htarget.symm.trans htarget')
    refine iff_of_true hhas ?_
    obtain ⟨current, -, heq⟩ := hhas
    rw [← heq]
    exact (length_beforeNul_le _).trans (List.length_take_le 1023 current.text)
  · obtain rfl := Option.some.inj (htarget.symm.trans htarget')
    have hkind : kindAt (Function.update fs r.title
        (some (w.entry r.title (.link ⟨beforeNul target, hne⟩)))) r.title =
        some (.link ⟨beforeNul target, hne⟩) := by
      rw [kindAt, Function.update_self]
      rfl
    have htake : beforeNul ((beforeNul target).take 1023) = (beforeNul target).take 1023 :=
      beforeNul_eq_self_iff.2 fun hmem ↦ nul_not_mem_beforeNul target (List.mem_of_mem_take hmem)
    constructor
    · rintro ⟨current, hcurrent, heq⟩
      rw [hkind] at hcurrent
      cases hcurrent
      rw [htake] at heq
      rw [← heq]
      exact List.length_take_le 1023 _
    · exact fun hlength ↦ ⟨_, hkind, htake.trans (List.take_of_length_le hlength)⟩

theorem hasContent_of_run (h : stageOf (fileContent w r) fs = some (changed, fs')) :
    HasContent w r fs' := by
  obtain ⟨hhas, -, rfl⟩ | ⟨-, -, hwrite⟩ := of_stageOf_content h
  · exact hhas
  · obtain ⟨hstat, hread⟩ := (readFileContents_of_write (p := r.title) hwrite).2 rfl
    refine ⟨hstat, fun content hcontent current hcurrent ↦ ?_⟩
    rw [hread, hcontent, Option.getD_some] at hcurrent
    split_ifs at hcurrent
    rw [← Option.some.inj hcurrent, beforeNul_beforeNul]

/-- What comes from the server can be read again. -/
def SourceFits (w : FileWorld) (r : AgentResource) : Prop :=
  ∀ source content, r.param? "source" = some source → r.param? "content" = none →
    "puppet:///".toList.isPrefixOf source = true → fetchPuppetUrl w source = some content →
    (beforeNul content).length ≤ 10 * 1024 * 1024

/-- A file has the content of its source afterwards exactly if that can be read again. -/
theorem hasSource_of_run (h : stageOf (fileSource w r) fs = some (changed, fs')) :
    HasSource w r fs' ↔ SourceFits w r := by
  obtain ⟨hhas, -, rfl⟩ | ⟨-, -, source, content, hsource, hnone, hfrom, hwrite⟩ :=
    of_stageOf_source h
  · refine iff_of_true hhas fun source content hsource hnone hurl hfetch ↦ ?_
    obtain ⟨content', current, hfrom, hread, heq⟩ := hhas source hsource hnone
    rw [sourceContent, if_pos hurl, hfetch] at hfrom
    rw [Option.some.inj hfrom, ← heq]
    exact (length_beforeNul_le current).trans (length_le_of_readFileContents hread)
  · obtain ⟨-, hread⟩ := (readFileContents_of_write (p := r.title) hwrite).2 rfl
    have hagain : (beforeNul content).length ≤ 10 * 1024 * 1024 → HasSource w r fs' := by
      intro hlength source' hsource' _
      obtain rfl := Option.some.inj (hsource.symm.trans hsource')
      rw [if_pos hlength] at hread
      rw [sourceContent] at hfrom ⊢
      split_ifs at hfrom ⊢ with hurl
      · exact ⟨content, _, hfrom, hread, beforeNul_beforeNul content⟩
      · obtain hsame | hsame := (readFileContents_of_write (p := source) hwrite).1
        · exact ⟨content, _, hsame.trans hfrom, hread, beforeNul_beforeNul content⟩
        · obtain ⟨-, hread'⟩ := (readFileContents_of_write (p := source) hwrite).2 hsame
          rw [if_pos hlength] at hread'
          exact ⟨_, _, hread', hread, rfl⟩
    constructor
    · intro hhas source' content' hsource' _ hurl hfetch
      obtain rfl := Option.some.inj (hsource.symm.trans hsource')
      rw [sourceContent, if_pos hurl, hfetch] at hfrom
      obtain rfl := Option.some.inj hfrom
      obtain ⟨-, current, -, hcurrent, -⟩ := hhas source hsource hnone
      rw [hread] at hcurrent
      split_ifs at hcurrent with hlength
      exact hlength
    · intro hfits
      refine hagain ?_
      rw [sourceContent] at hfrom
      split_ifs at hfrom with hurl
      · exact hfits source content hsource hnone hurl hfrom
      · exact (length_beforeNul_le content).trans (length_le_of_readFileContents hfrom)

/-- The content that a file was given stays. -/
theorem hasContent_of_source_run (h : stageOf (fileSource w r) fs = some (changed, fs'))
    (hhas : HasContent w r fs) : HasContent w r fs' := by
  obtain ⟨-, -, rfl⟩ | ⟨-, -, source, content, -, hnone, -, hwrite⟩ := of_stageOf_source h
  · exact hhas
  · refine ⟨((readFileContents_of_write (p := r.title) hwrite).2 rfl).1, fun content hcontent ↦ ?_⟩
    rw [hnone] at hcontent
    cases hcontent

/-- Opening without following a link. -/
theorem openNoFollow_eq_some_iff {e : FileEntry} :
    openNoFollow fs path = some e ↔ fs path = some e ∧ e.isLink = false := by
  rw [openNoFollow, Option.filter_eq_some_iff, Bool.not_eq_true']

theorem sameKinds_update {e e' : FileEntry} (h : fs path = some e) (hkind : e'.kind = e.kind) :
    SameKinds fs (Function.update fs path (some e')) := by
  intro p
  by_cases hp : p = path
  · subst hp
    rw [kindAt, kindAt, Function.update_self, h, Option.map_some, Option.map_some, hkind]
  · rw [kindAt, kindAt, Function.update_of_ne hp]

/-- What is opened after an entry was changed. -/
theorem openNoFollow_update {e : FileEntry} (h : openNoFollow fs path = some e) (e' : FileEntry)
    (hkind : e'.kind = e.kind) :
    openNoFollow (Function.update fs path (some e')) path = some e' := by
  obtain ⟨-, hlink⟩ := openNoFollow_eq_some_iff.1 h
  refine openNoFollow_eq_some_iff.2 ⟨Function.update_self .., ?_⟩
  rw [FileEntry.isLink, hkind]
  exact hlink

theorem owner_run (h : stageOf (fileOwner w r) fs = some (changed, fs')) :
    SameKinds fs fs' ∧ HasOwner w r fs' := by
  obtain ⟨hhas, -, rfl⟩ | ⟨-, -, e, hopen, rfl⟩ := of_stageOf_owner h
  · exact ⟨fun _ ↦ rfl, hhas⟩
  · refine ⟨sameKinds_update (openNoFollow_eq_some_iff.1 hopen).1 rfl, fun e' he' ↦ ?_⟩
    have hopen' := openNoFollow_update hopen ⟨e.kind,
      ((r.param? "owner").bind (getId w.getpwnam)).getD e.uid,
      ((r.param? "group").bind (getId w.getgrnam)).getD e.gid, w.chownMode e.mode⟩ rfl
    obtain rfl := Option.some.inj (hopen'.symm.trans he')
    exact ⟨by cases (r.param? "owner").bind (getId w.getpwnam) <;> rfl,
      by cases (r.param? "group").bind (getId w.getgrnam) <;> rfl⟩

/-- A mode fits its twelve bits, or is not set. -/
def ModeFits (r : AgentResource) (fs : FileState) : Prop :=
  ∀ mode, r.param? "mode" = some mode → (openNoFollow fs r.title).isSome = true →
    parseMode mode < 4096

theorem mode_run (h : stageOf (fileMode w r) fs = some (changed, fs')) :
    SameKinds fs fs' ∧ (HasOwner w r fs → HasOwner w r fs') ∧
      (HasMode r fs' ↔ ModeFits r fs') := by
  obtain ⟨hhas, -, rfl⟩ | ⟨-, -, mode, e, hmode, hopen, hne, rfl⟩ := of_stageOf_mode h
  · refine ⟨fun _ ↦ rfl, id, iff_of_true hhas fun mode hmode hopen ↦ ?_⟩
    obtain ⟨e, he⟩ := Option.isSome_iff_exists.1 hopen
    by_cases hzero : parseMode mode = 0
    · rw [hzero]
      decide
    · rw [← hhas mode e hmode he hzero]
      exact Nat.mod_lt _ (by decide)
  · have hopen' := openNoFollow_update hopen { e with mode := parseMode mode % 4096 } rfl
    refine ⟨sameKinds_update (openNoFollow_eq_some_iff.1 hopen).1 rfl, fun hhas e' he' ↦ ?_,
      fun hhas mode' hmode' _ ↦ ?_, fun hfits mode' e' hmode' he' _ ↦ ?_⟩
    · obtain rfl := Option.some.inj (hopen'.symm.trans he')
      exact hhas e hopen
    · obtain rfl := Option.some.inj (hmode.symm.trans hmode')
      have hmod := hhas mode _ hmode hopen' hne
      rw [← hmod]
      exact Nat.mod_lt _ (by decide)
    · obtain rfl := Option.some.inj (hmode.symm.trans hmode')
      obtain rfl := Option.some.inj (hopen'.symm.trans he')
      have hlt := hfits mode hmode (by rw [hopen']; rfl)
      dsimp only
      rw [Nat.mod_mod, Nat.mod_eq_of_lt hlt]

/-! ### The body -/

theorem stageOf_andThen (a b : Bool → FileState → FileStep) :
    stageOf (fun noop fs ↦ (a noop fs).andThen (b noop)) = (stageOf a).seq (stageOf b) :=
  funext fun _ ↦ FileStep.real_andThen ..

theorem isQuiet_content : (stageOf (fileContent w r)).IsQuiet := by
  intro fs fs' h
  obtain ⟨-, -, hsame⟩ | ⟨-, hchanged, -⟩ := of_stageOf_content h
  · exact hsame
  · cases hchanged

theorem isQuiet_source : (stageOf (fileSource w r)).IsQuiet := by
  intro fs fs' h
  obtain ⟨-, -, hsame⟩ | ⟨-, hchanged, -⟩ := of_stageOf_source h
  · exact hsame
  · cases hchanged

theorem isQuiet_owner : (stageOf (fileOwner w r)).IsQuiet := by
  intro fs fs' h
  obtain ⟨-, -, hsame⟩ | ⟨-, hchanged, -⟩ := of_stageOf_owner h
  · exact hsame
  · cases hchanged

theorem isQuiet_mode : (stageOf (fileMode w r)).IsQuiet := by
  intro fs fs' h
  obtain ⟨-, -, hsame⟩ | ⟨-, hchanged, -⟩ := of_stageOf_mode h
  · exact hsame
  · cases hchanged

/-- The body for each kind of resource. -/
theorem stageOf_body : stageOf (fileBody w r) =
    if r.ensure = "directory".toList then stageOf (fileDirectory w r)
    else if r.ensure = "link".toList then stageOf (fileLink w r)
    else (stageOf (fileContent w r)).seq (stageOf (fileSource w r)) := by
  rw [← stageOf_andThen]
  funext fs
  rw [stageOf, fileBody]
  split_ifs <;> rfl

theorem isQuiet_body : (stageOf (fileBody w r)).IsQuiet := by
  rw [stageOf_body]
  split_ifs
  · intro fs fs' h
    obtain ⟨-, -, hsame⟩ | ⟨-, hchanged, -⟩ := stageOf_directory_eq.1 h
    · exact hsame
    · cases hchanged
  · intro fs fs' h
    obtain ⟨target, -, ⟨-, -, hsame⟩ | ⟨-, hchanged, -⟩⟩ := of_stageOf_link h
    · exact hsame
    · cases hchanged
  · exact isQuiet_content.seq isQuiet_source

/-- What the body makes can be read again. -/
structure BodyLasts (w : FileWorld) (r : AgentResource) : Prop where
  target : r.ensure = "link".toList → ∀ target, r.param? "target" = some target →
    (beforeNul target).length ≤ 1023
  source : r.ensure ≠ "directory".toList → r.ensure ≠ "link".toList → SourceFits w r

/-- After the body there is nothing to do for it exactly if what it makes can be read again. -/
theorem settled_body_of_run (h : stageOf (fileBody w r) fs = some (changed, fs')) :
    (stageOf (fileBody w r)).Settled fs' ↔ BodyLasts w r := by
  rw [stageOf_body] at h ⊢
  split_ifs at h ⊢ with hdir hlink
  · refine iff_of_true (hasDirectory_of_run h) ⟨fun hlink ↦ ?_, fun hne ↦ absurd hdir hne⟩
    exact absurd (hdir.symm.trans hlink) (by decide)
  · rw [settled_link_iff]
    obtain ⟨target, htarget, -⟩ := of_stageOf_link h
    constructor
    · rintro ⟨target', htarget', hhas⟩
      refine ⟨fun _ target'' htarget'' ↦ ?_, fun _ hne ↦ absurd hlink hne⟩
      obtain rfl := Option.some.inj (htarget'.symm.trans htarget'')
      exact (hasTarget_of_run htarget' h).1 hhas
    · exact fun hlasts ↦
        ⟨target, htarget, (hasTarget_of_run htarget h).2 (hlasts.target hlink target htarget)⟩
  · obtain ⟨b, fs₁, b', hcontent, hsource, -⟩ := Stage.seq_eq_some_iff.1 h
    rw [Stage.settled_seq_iff isQuiet_source, settled_content_iff, settled_source_iff,
      hasSource_of_run hsource,
      and_iff_right (hasContent_of_source_run hsource (hasContent_of_run hcontent))]
    exact ⟨fun hfits ↦ ⟨fun h ↦ absurd h hlink, fun _ _ ↦ hfits⟩, fun h ↦ h.source hdir hlink⟩

/-- Whether there is something to do for the body depends on the kinds only. -/
theorem settled_body_congr (h : SameKinds fs fs') :
    (stageOf (fileBody w r)).Settled fs' ↔ (stageOf (fileBody w r)).Settled fs := by
  have hsome : (stat w fs' r.title).isSome = (stat w fs r.title).isSome := by
    rw [← Option.isSome_map, stat_kind_congr h, Option.isSome_map]
  rw [stageOf_body]
  split_ifs
  · rw [settled_directory_iff, settled_directory_iff, stat_kind_congr h]
  · rw [settled_link_iff, settled_link_iff]
    simp only [HasTarget, h r.title]
  · rw [Stage.settled_seq_iff isQuiet_source, Stage.settled_seq_iff isQuiet_source,
      settled_content_iff, settled_content_iff, settled_source_iff, settled_source_iff]
    simp only [HasContent, HasSource, hsome, readFileContents_congr h, sourceContent_congr h]

/-! ### The run of a resource -/

/-- What a part says without doing it: it fails where it fails for real, and if it does not fail
for real it ends the run if it would change something. -/
structure Foretells (fs : FileState) (real noop : FileStep) : Prop where
  onlyFails : real.OnlyFails
  stays : noop = .go false fs ∨ ∃ result, noop = .stop result fs
  announces : ∀ changed fs', real.real = some (changed, fs') →
    noop = if changed then .stop .skipped fs else .go false fs

namespace Foretells

theorem go (fs : FileState) : Foretells fs (.go false fs) (.go false fs) where
  onlyFails := by rintro result fs' ⟨⟩
  stays := .inl rfl
  announces changed fs' h := by
    obtain ⟨rfl, -⟩ := real_go_eq_some_iff.1 h
    rfl

theorem failed (fs : FileState) : Foretells fs (.stop .failed fs) (.stop .failed fs) where
  onlyFails := by
    rintro result fs' ⟨⟩
    rfl
  stays := .inr ⟨_, rfl⟩
  announces := by rintro changed fs' ⟨⟩

theorem write (fs before : FileState) (call : FileState → Option FileState) :
    Foretells fs (.write false fs before call) (.write true fs before call) where
  onlyFails := FileStep.onlyFails_write fs before call
  stays := .inr ⟨_, rfl⟩
  announces changed fs' h := by
    obtain ⟨rfl, -⟩ := FileStep.real_write_eq_some_iff.1 h
    rfl

theorem body (fs : FileState) : Foretells fs (fileBody w r false fs) (fileBody w r true fs) := by
  rw [fileBody, fileBody]
  split_ifs
  · rw [fileDirectory, fileDirectory]
    split
    · exact write ..
    · split_ifs
      · exact go fs
      · exact failed fs
  · rw [fileLink, fileLink]
    split
    · exact failed fs
    · split
      · exact write ..
      · split_ifs
        · exact go fs
        · exact write ..
      · exact failed fs
  · have hcontent : Foretells fs (fileContent w r false fs) (fileContent w r true fs) := by
      rw [fileContent, fileContent]
      split
      · exact write ..
      · split
        · exact go fs
        · split
          · exact go fs
          · split_ifs
            · exact go fs
            · exact write ..
    have hsource (fs : FileState) :
        Foretells fs (fileSource w r false fs) (fileSource w r true fs) := by
      rw [fileSource, fileSource]
      split
      · split
        · exact failed fs
        · split_ifs
          · exact go fs
          · exact write ..
      · exact go fs
    refine ⟨hcontent.onlyFails.andThen fun fs ↦ (hsource fs).onlyFails, ?_, ?_⟩
    · obtain hgo | ⟨result, hstop⟩ := hcontent.stays
      · rw [hgo, FileStep.andThen]
        obtain hgo' | ⟨result, hstop⟩ := (hsource fs).stays
        · rw [hgo']
          exact .inl rfl
        · rw [hstop]
          exact .inr ⟨result, rfl⟩
      · rw [hstop]
        exact .inr ⟨result, rfl⟩
    · intro changed fs' h
      have hseq : ((stageOf (fileContent w r)).seq (stageOf (fileSource w r))) fs =
          some (changed, fs') := by
        rw [← stageOf_andThen]
        exact h
      obtain ⟨b, fs₁, b', hfirst, hsecond, rfl⟩ := Stage.seq_eq_some_iff.1 hseq
      rw [hcontent.announces b fs₁ hfirst]
      cases b with
      | true => rfl
      | false =>
        obtain rfl := isQuiet_content fs fs₁ hfirst
        rw [if_neg Bool.false_ne_true, FileStep.andThen, (hsource fs₁).announces b' fs' hsecond]
        cases b' <;> rfl

end Foretells

theorem onlyFails_owner (fs : FileState) : (fileOwner w r false fs).OnlyFails := by
  intro result fs' h
  rw [fileOwner] at h
  split at h
  · cases h
  · split_ifs at h
    cases h
    rfl

theorem onlyFails_mode (fs : FileState) : (fileMode w r false fs).OnlyFails := by
  intro result fs' h
  rw [fileMode] at h
  split at h
  · split_ifs at h
    cases h
    rfl
  · cases h

/-- The owner and the mode are passed over in silence. -/
theorem noop_owner (fs : FileState) : fileOwner w r true fs = .go false fs := by
  rw [fileOwner]
  split
  · rfl
  · split_ifs with hhas hnoop
    · rfl
    · rfl
    · exact absurd rfl hnoop
    · exact absurd rfl hnoop

theorem noop_mode (fs : FileState) : fileMode w r true fs = .go false fs := by
  rw [fileMode]
  split
  · split_ifs with hhas hnoop
    · rfl
    · rfl
    · exact absurd rfl hnoop
    · exact absurd rfl hnoop
  · rfl

/-- The stages of a resource that is not to be absent. -/
def fileStages (w : FileWorld) (r : AgentResource) : Stage FileState :=
  ((stageOf (fileBody w r)).seq (stageOf (fileOwner w r))).seq (stageOf (fileMode w r))

/-- A run that does not fail is one of the stages. -/
theorem fileApply_eq_iff (hne : r.ensure ≠ "absent".toList) {result : ApplyResult}
    (hresult : result = .changed ∨ result = .noop) :
    fileApply w r false fs = (result, fs') ↔
      fileStages w r fs = some (decide (result = .changed), fs') := by
  have hfails : (((fileBody w r false fs).andThen (fileOwner w r false)).andThen
      (fileMode w r false)).OnlyFails :=
    ((Foretells.body fs).onlyFails.andThen onlyFails_owner).andThen onlyFails_mode
  have hstages : fileStages w r fs = (((fileBody w r false fs).andThen
      (fileOwner w r false)).andThen (fileMode w r false)).real := by
    rw [fileStages, ← stageOf_andThen, ← stageOf_andThen]
    rfl
  rw [hstages, fileApply, if_neg hne]
  cases hstep : ((fileBody w r false fs).andThen (fileOwner w r false)).andThen
      (fileMode w r false) with
  | stop result' fs₁ =>
    obtain rfl := hfails result' fs₁ hstep
    refine iff_of_false (fun h ↦ ?_) (by rintro ⟨⟩)
    obtain ⟨rfl, -⟩ := Prod.mk.inj h
    rcases hresult with h | h <;> cases h
  | go changed fs₁ =>
    rw [real_go_eq_some_iff]
    cases changed <;> rcases hresult with rfl | rfl <;> simp [eq_comm]

/-- A run that does not fail, and the body before the owner and the mode. -/
theorem exists_body_of_stages (h : fileStages w r fs = some (changed, fs')) :
    ∃ b fs₁, stageOf (fileBody w r) fs = some (b, fs₁) ∧ SameKinds fs₁ fs' ∧
      (changed = false → b = false) ∧ HasOwner w r fs' ∧ (HasMode r fs' ↔ ModeFits r fs') := by
  obtain ⟨b₁, fs₂, b₂, hfirst, hmode, rfl⟩ := Stage.seq_eq_some_iff.1 h
  obtain ⟨b, fs₁, b', hbody, howner, rfl⟩ := Stage.seq_eq_some_iff.1 hfirst
  obtain ⟨hsame, hhas⟩ := owner_run howner
  obtain ⟨hsame', hkeeps, hmodes⟩ := mode_run hmode
  refine ⟨b, fs₁, hbody, fun path ↦ (hsame' path).trans (hsame path), fun hno ↦ ?_, hkeeps hhas,
    hmodes⟩
  rw [Bool.or_eq_false_iff, Bool.or_eq_false_iff] at hno
  exact hno.1.1

/-- After `ensure => absent` there is nothing to remove. -/
theorem fileApply_absent (habsent : r.ensure = "absent".toList) {result : ApplyResult}
    (h : fileApply w r false fs = (result, fs')) :
    result = .failed ∨ result = .noop ∧ fs' = fs ∧ stat w fs r.title = none ∨
      result = .changed ∧ kindAt fs r.title ≠ none ∧
        fs' = Function.update fs r.title none := by
  rw [fileApply, if_pos habsent, fileAbsent] at h
  cases hstat : stat w fs r.title with
  | none =>
    simp only [hstat, Prod.mk.injEq] at h
    exact .inr (.inl ⟨h.1.symm, h.2.symm, rfl⟩)
  | some e =>
    simp only [hstat, Bool.false_eq_true, if_false] at h
    cases hremove : (if e.kind = .directory then rmdir w fs r.title else unlink w fs r.title) with
    | none =>
      simp only [hremove, Prod.mk.injEq] at h
      exact .inl h.1.symm
    | some fs₁ =>
      simp only [hremove, Prod.mk.injEq] at h
      obtain ⟨rfl, rfl⟩ := h
      have hremoved : kindAt fs r.title ≠ none ∧ Function.update fs r.title none = fs₁ := by
        split_ifs at hremove
        · rw [rmdir] at hremove
          split_ifs at hremove with hdir
          rw [Bool.and_eq_true, Option.any_eq_true] at hdir
          obtain ⟨⟨e', he', -⟩, -⟩ := hdir
          exact ⟨by rw [kindAt, he']; exact Option.some_ne_none _, Option.some.inj hremove⟩
        · rw [unlink] at hremove
          split_ifs at hremove with hfile
          rw [Bool.and_eq_true, Option.any_eq_true] at hfile
          obtain ⟨⟨e', he', -⟩, -⟩ := hfile
          exact ⟨by rw [kindAt, he']; exact Option.some_ne_none _, Option.some.inj hremove⟩
      exact .inr (.inr ⟨rfl, hremoved.1, hremoved.2.symm⟩)

/-- A system that permits all calls. -/
def permissiveWorld : FileWorld where
  resolve _ target := target
  permits _ _ := true
  made _ _ := (0, 0, 420)
  chownMode mode := mode
  getpwnam _ := none
  getgrnam _ := none
  server := []
  fetch _ := none

/-- A file with a content and a mode. -/
def motd : AgentResource where
  type := "file".toList
  title := "/etc/motd".toList
  params := [("content".toList, "hello".toList), ("mode".toList, "0600".toList)]

theorem fileApply_motd : fileApply permissiveWorld motd false (fun _ ↦ none) =
    (.changed, (fileApply permissiveWorld motd false fun _ ↦ none).2) :=
  Prod.ext rfl rfl

/-- **What is foretold of a file.** A run that only says what it would do changes nothing. If the
run for real does not fail, it says so exactly if something is made, removed or rewritten; owner,
group and mode are changed without a word. -/
theorem file_noop_iff (w : FileWorld) (r : AgentResource) (fs : FileState) :
    (fileApply w r true fs).2 = fs ∧
    ∀ result fs', fileApply w r false fs = (result, fs') → result = .changed ∨ result = .noop →
      r.ensure = "absent".toList ∨ BodyLasts w r →
      ((fileApply w r true fs).1 = .skipped ∨ (fileApply w r true fs).1 = .noop) ∧
        ((fileApply w r true fs).1 = .skipped ↔ ¬ SameKinds fs fs') := by
  by_cases habsent : r.ensure = "absent".toList
  · have hnoop : fileApply w r true fs =
        (if (stat w fs r.title).isSome then .skipped else .noop, fs) := by
      rw [fileApply, if_pos habsent, fileAbsent]
      cases stat w fs r.title <;> rfl
    rw [hnoop]
    refine ⟨rfl, fun result fs' h hresult _ ↦ ⟨?_, ?_⟩⟩
    · cases (stat w fs r.title).isSome
      · exact .inr rfl
      · exact .inl rfl
    · obtain rfl | ⟨-, rfl, hnone⟩ | ⟨rfl, hkind, rfl⟩ := fileApply_absent habsent h
      · rcases hresult with h | h <;> cases h
      · rw [hnone]
        exact iff_of_false (by rintro ⟨⟩) fun hnot ↦ hnot fun _ ↦ rfl
      · have hstat : (stat w fs r.title).isSome = true := by
          by_contra hnone
          rw [Option.not_isSome_iff_eq_none] at hnone
          rw [fileApply, if_pos habsent, fileAbsent, hnone] at h
          cases h
        rw [hstat]
        refine iff_of_true rfl fun hsame ↦ hkind ?_
        rw [← hsame r.title, kindAt, Function.update_self]
        rfl
  · have hstop (result : ApplyResult) (hbody : fileBody w r true fs = .stop result fs) :
        fileApply w r true fs = (result, fs) := by
      rw [fileApply, if_neg habsent, hbody]
      rfl
    have hgo (hbody : fileBody w r true fs = .go false fs) :
        fileApply w r true fs = (.noop, fs) := by
      rw [fileApply, if_neg habsent, hbody, FileStep.andThen, noop_owner]
      dsimp only
      rw [FileStep.andThen, noop_mode]
      rfl
    have hforetells : Foretells fs (fileBody w r false fs) (fileBody w r true fs) := .body fs
    constructor
    · obtain hbody | ⟨result, hbody⟩ := hforetells.stays
      · rw [hgo hbody]
      · rw [hstop result hbody]
    · intro result fs' h hresult hlasts
      rw [fileApply_eq_iff habsent hresult] at h
      obtain ⟨b, fs₁, hbody, hsame, -⟩ := exists_body_of_stages h
      have hannounces := hforetells.announces b fs₁ hbody
      cases b with
      | true =>
        rw [hstop .skipped hannounces]
        refine ⟨.inl rfl, iff_of_true rfl fun hkinds ↦ ?_⟩
        -- otherwise there would have been nothing to do for the body
        have hsettled : (stageOf (fileBody w r)).Settled fs :=
          (settled_body_congr hkinds).1 ((settled_body_congr hsame).2
            ((settled_body_of_run hbody).2 (hlasts.resolve_left habsent)))
        cases hbody.symm.trans hsettled
      | false =>
        rw [hgo hannounces]
        refine ⟨.inr rfl, iff_of_false (by rintro ⟨⟩) fun hnot ↦ hnot ?_⟩
        obtain rfl := isQuiet_body fs fs₁ hbody
        exact hsame

theorem file_noop_iff_motd :
    (fileApply permissiveWorld motd true fun _ ↦ none).1 = .skipped ↔
      ¬ SameKinds (fun _ ↦ none) (fileApply permissiveWorld motd false fun _ ↦ none).2 := by
  have hlasts : BodyLasts permissiveWorld motd := by
    refine ⟨fun hlink ↦ absurd hlink (by decide), fun _ _ source content hsource ↦ ?_⟩
    cases hsource
  exact ((file_noop_iff permissiveWorld motd fun _ ↦ none).2 _ _ fileApply_motd (.inl rfl)
    (.inr hlasts)).2

end PuppetC
