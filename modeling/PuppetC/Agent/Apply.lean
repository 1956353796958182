import PuppetC.Agent.Relationships

/-!
# The run of a catalog

The agent applies the resources of a catalog in the order of their relationships, or in the order
of the catalog if these have a cycle. A resource that ends changed marks the ones it notifies, and
a marked resource is refreshed after it is applied. What the calls to the providers answer is
arbitrary. Verbose messages read the names of related resources, also where no resource was read
from the catalog; a run that does so has no meaning.

## Main definitions

* `Provider`, `providerGet`: `provider_t`, `provider_get`.
* `resourceApply`, `resourceRefresh`: `resource_apply`, `resource_refresh`.
* `applyEntry`: one round of the loop of `catalog_apply`.
* `catalogApply`, `runAgent`: `catalog_apply`, and `run_agent` from where it has a catalog.

## Main results

* `ApplyState.Follows`: what a round of the loop does.
* `Progress`: the calls of a run, and the resources that are marked.
-/

namespace PuppetC

/-! ### Providers -/

/-- `apply_result_t`. -/
inductive ApplyResult where
  | success
  | noop
  | changed
  | failed
  | skipped
  deriving DecidableEq

/-- Results of a resource that is changed, or would be. -/
def ApplyResult.Changes (r : ApplyResult) : Prop := r = .changed ∨ r = .skipped

instance (r : ApplyResult) : Decidable r.Changes := inferInstanceAs (Decidable (_ ∨ _))

/-- `ruby_apply_result_t`. -/
inductive RubyApplyResult where
  | success
  | changed
  | failed
  | skipped
  | noop

/-- `os_family_t`. -/
inductive OsFamily where
  | unknown
  | debian
  | redhat
  | suse
  | archlinux
  | gentoo
  | alpine
  deriving DecidableEq

/-- `provider_t`: the type and the family it is for, and whether it has a function to refresh. -/
structure Provider where
  resourceType : Bytes
  osFamily : OsFamily
  canRefresh : Bool

/-- `provider_get`: the first provider for the family, else the last generic one. -/
def providerGet (providers : List Provider) (family : OsFamily) (type : Bytes) :
    Option Provider :=
  let ofType := providers.filter (·.resourceType = type)
  ofType.find? (·.osFamily = family) <|> ofType.reverse.find? (·.osFamily = .unknown)

/-- The agent: its registered providers, Ruby if it is there, and whether it is verbose. -/
structure Agent where
  providers : List Provider
  family : OsFamily
  ruby : Option AgentRuby
  verbose : Bool

/-- What applies and refreshes the resources of a type. -/
inductive ProviderKind where
  | native (canRefresh : Bool)
  | ruby
  | missing

/-- The provider of a type: a native one, else Ruby. -/
def Agent.providerOf (a : Agent) (type : Bytes) : ProviderKind :=
  match providerGet a.providers a.family type with
  | some p => .native p.canRefresh
  | none => if a.ruby.any (·.hasType type) then .ruby else .missing

/-- What the calls to the providers answer for the resource with an index. -/
structure ProviderAnswers where
  apply : ℕ → ApplyResult
  refresh : ℕ → ApplyResult
  rubyApply : ℕ → RubyApplyResult
  rubyRefresh : ℕ → RubyApplyResult

/-- `resource_apply`: the result, and whether a failure is counted. -/
def resourceApply (a : Agent) (answers : ProviderAnswers) (i : ℕ) (type : Bytes) :
    ApplyResult × Bool :=
  match a.providerOf type with
  | .native _ => (answers.apply i, answers.apply i = .failed)
  | .ruby =>
    match answers.rubyApply i with
    | .success => (.success, false)
    | .changed => (.changed, false)
    | .skipped | .noop => (.noop, false)
    | .failed => (.failed, true)
  | .missing => (.failed, false)

/-- `resource_refresh`. -/
def resourceRefresh (a : Agent) (answers : ProviderAnswers) (i : ℕ) (type : Bytes) :
    ApplyResult :=
  match a.providerOf type with
  | .native canRefresh => if canRefresh then answers.refresh i else .noop
  | .ruby =>
    match answers.rubyRefresh i with
    | .success | .changed => .changed
    | .skipped | .noop => .noop
    | .failed => .failed
  | .missing => .failed

/-! ### The loop -/

/-- A call about the resource with an index, and its result. -/
inductive ResourceCall where
  | apply (i : ℕ) (result : ApplyResult)
  | refresh (i : ℕ) (result : ApplyResult)
  deriving DecidableEq

/-- The resource a call is about. -/
def ResourceCall.index : ResourceCall → ℕ
  | .apply i _ | .refresh i _ => i

/-- The result of a call. -/
def ResourceCall.result : ResourceCall → ApplyResult
  | .apply _ r | .refresh _ r => r

/-- The flags `needs_refresh` and `applied`, the counted failures, and the calls so far. -/
structure ApplyState where
  needsRefresh : ℕ → Bool
  applied : ℕ → Bool
  failures : ℕ
  calls : List ResourceCall

/-- Before the loop. -/
def ApplyState.start : ApplyState := ⟨fun _ ↦ false, fun _ ↦ false, 0, []⟩

/-- The resource that was read from an element of the catalog. -/
def resourceAt (entries : List AgentEntry) (i : ℕ) : Option AgentResource :=
  entries[i]?.bind AgentEntry.resource

/-- `resource_refresh` in the loop: only resources that are not yet applied are marked. -/
def refreshEntry (a : Agent) (answers : ProviderAnswers) (t : RelationTables) (i : ℕ)
    (type : Bytes) (s : ApplyState) : ApplyState :=
  let result := resourceRefresh a answers i type
  { s with
    needsRefresh := fun j ↦
      s.needsRefresh j || decide (result.Changes ∧ j ∈ t.targets i ∧ s.applied j = false)
    calls := s.calls ++ [.refresh i result] }

/-- `resource_apply` in the loop: if the result is a change, the notified resources are marked. -/
def markEntry (a : Agent) (answers : ProviderAnswers) (t : RelationTables) (i : ℕ) (type : Bytes)
    (s : ApplyState) : ApplyState :=
  let (result, counted) := resourceApply a answers i type
  { s with
    needsRefresh := fun j ↦ s.needsRefresh j || decide (result.Changes ∧ j ∈ t.targets i)
    failures := s.failures + if counted then 1 else 0
    calls := s.calls ++ [.apply i result] }

/-- The messages of a verbose agent about the resources that will be refreshed name one that was
not read. -/
def NamesMissing (a : Agent) (answers : ProviderAnswers) (entries : List AgentEntry)
    (t : RelationTables) (i : ℕ) (type : Bytes) : Prop :=
  (resourceApply a answers i type).1.Changes ∧ a.verbose = true ∧
    ∃ j ∈ t.targets i, resourceAt entries j = none

instance (a : Agent) (answers : ProviderAnswers) (entries : List AgentEntry)
    (t : RelationTables) (i : ℕ) (type : Bytes) :
    Decidable (NamesMissing a answers entries t i type) :=
  inferInstanceAs (Decidable (_ ∧ _))

/-- One round of the loop of `catalog_apply`. -/
def applyEntry (a : Agent) (answers : ProviderAnswers) (entries : List AgentEntry)
    (t : RelationTables) (s : ApplyState) (i : ℕ) : Option ApplyState :=
  match resourceAt entries i with
  | none => some s
  | some r =>
    if NamesMissing a answers entries t i r.type then none
    else
      let s := markEntry a answers t i r.type s
      let s :=
        if s.needsRefresh i = true ∧ (resourceApply a answers i r.type).1 ≠ .failed then
          refreshEntry a answers t i r.type s
        else s
      some { s with applied := Function.update s.applied i true }

/-- The messages about the order of a verbose agent name what resources depend on. -/
def CanListOrder (a : Agent) (entries : List AgentEntry) (t : RelationTables) : Prop :=
  a.verbose = true → ∀ i < entries.length, resourceAt entries i ≠ none →
    ∀ d ∈ t.deps i, resourceAt entries d ≠ none

instance (a : Agent) (entries : List AgentEntry) (t : RelationTables) :
    Decidable (CanListOrder a entries t) :=
  inferInstanceAs (Decidable (_ → ∀ i < entries.length, _))

/-- The order in which resources are applied: that of the catalog if there is a cycle. -/
def applyOrder (t : RelationTables) (count : ℕ) : List ℕ :=
  (topologicalSort t count).getD (List.range count)

/-- A run of a catalog: what `catalog_apply` returns, and the calls. -/
structure AgentRun where
  status : ℤ
  calls : List ResourceCall
  deriving DecidableEq

/-- `catalog_apply` from where the resources are read. -/
def applyEntries (a : Agent) (answers : ProviderAnswers) (catalog : Json)
    (entries : List AgentEntry) : Option AgentRun :=
  let t := relationTables (catalogEdits entries catalog)
  if CanListOrder a entries t then
    ((applyOrder t entries.length).foldlM (applyEntry a answers entries t) .start).map fun s ↦
      ⟨s.failures, s.calls⟩
  else none

/-- The resources of a catalog, with what is read from each element. -/
def readEntries (ruby : Option AgentRuby) (elements : List Json) : Option (List AgentEntry) :=
  elements.mapM fun v ↦ (parseResource ruby v).map fun r ↦ ⟨v, r⟩

/-- What `catalog_apply` makes of the text of a catalog: it is not accepted, it has no resources,
or these are its resources. -/
inductive CatalogText where
  | rejected
  | empty
  | resources (catalog : Json) (elements : List Json)

/-- The part of `catalog_apply` before the resources are read. -/
def readCatalog (text : Bytes) : CatalogText :=
  match jsonParse text with
  | .error _ => .rejected
  | .ok (.object ms) =>
    match (JsonOf.object ms).get? "resources".toList with
    | some (.array elements) =>
      if 1024 < elements.length then .rejected else .resources (.object ms) elements
    | _ => .empty
  | .ok _ => .rejected

/-- `catalog_apply`. -/
def catalogApply (a : Agent) (answers : ProviderAnswers) (text : Bytes) : Option AgentRun :=
  match readCatalog text with
  | .rejected => some ⟨-1, []⟩
  | .empty => some ⟨0, []⟩
  | .resources catalog elements =>
    (readEntries a.ruby elements).bind (applyEntries a answers catalog)

/-- `run_agent` in apply mode, from where it has the text of a catalog or failed to get one: the
exit status. -/
def runAgent (a : Agent) (answers : ProviderAnswers) : Option Bytes → Option ℤ
  | none => some 1
  | some text => (catalogApply a answers text).map fun run ↦ if 0 < run.status then 1 else 0

/-! ### One round -/

section Round

variable {a : Agent} {answers : ProviderAnswers} {entries : List AgentEntry} {t : RelationTables}
  {s s' : ApplyState} {i : ℕ} {r : AgentResource}

/-- The calls about a resource, which may be marked. -/
def callsFor (a : Agent) (answers : ProviderAnswers) (marked : Bool) (i : ℕ) (type : Bytes) :
    List ResourceCall :=
  .apply i (resourceApply a answers i type).1 ::
    if marked = true ∧ (resourceApply a answers i type).1 ≠ .failed then
      [.refresh i (resourceRefresh a answers i type)]
    else []

/-- What a round for a resource does: its calls, and what it marks among the resources that are
not yet applied. -/
structure ApplyState.Follows (a : Agent) (answers : ProviderAnswers) (t : RelationTables) (i : ℕ)
    (r : AgentResource) (s s' : ApplyState) : Prop where
  calls : s'.calls = s.calls ++ callsFor a answers (s.needsRefresh i) i r.type
  applied : s'.applied = Function.update s.applied i true
  failures : s'.failures = s.failures + if (resourceApply a answers i r.type).2 then 1 else 0
  marks : ∀ j, s.applied j = false → (s'.needsRefresh j = true ↔ s.needsRefresh j = true ∨
    j ∈ t.targets i ∧ ∃ c ∈ callsFor a answers (s.needsRefresh i) i r.type, c.result.Changes)

theorem applyEntry_of_none (h : resourceAt entries i = none) (s : ApplyState) :
    applyEntry a answers entries t s i = some s := by
  rw [applyEntry, h]

theorem applyEntry_eq_none_iff (hr : resourceAt entries i = some r) :
    applyEntry a answers entries t s i = none ↔ NamesMissing a answers entries t i r.type := by
  simp only [applyEntry, hr]
  rw [ite_eq_left_iff]
  exact ⟨fun h ↦ by_contra fun hnot ↦ (nomatch h hnot), fun h hnot ↦ absurd h hnot⟩

/-- A resource does not mark itself when it is applied. -/
theorem needsRefresh_markEntry_self (hself : i ∉ t.targets i) (type : Bytes) :
    (markEntry a answers t i type s).needsRefresh i = s.needsRefresh i := by
  simp [markEntry, hself]

theorem applyEntry_follows (hself : i ∉ t.targets i) (hr : resourceAt entries i = some r)
    (h : applyEntry a answers entries t s i = some s') :
    ApplyState.Follows a answers t i r s s' := by
  simp only [applyEntry, hr, needsRefresh_markEntry_self hself] at h
  split_ifs at h with hmissing hrefresh
  · obtain rfl := Option.some.inj h
    refine ⟨?_, rfl, rfl, fun j hj ↦ ?_⟩
    · simp [refreshEntry, markEntry, callsFor, hrefresh]
    · simp [refreshEntry, markEntry, callsFor, hrefresh, ResourceCall.result, hj]
      rw [or_assoc, ← or_and_right]
      exact or_congr_right and_comm
  · obtain rfl := Option.some.inj h
    refine ⟨?_, rfl, rfl, fun j hj ↦ ?_⟩
    · simp [markEntry, callsFor, hrefresh]
    · simp [markEntry, callsFor, hrefresh, ResourceCall.result]
      exact or_congr_right and_comm

end Round

/-! ### Runs of the loop -/

section Run

variable {a : Agent} {answers : ProviderAnswers} {entries : List AgentEntry} {t : RelationTables}
  {s s' : ApplyState} {i : ℕ} {r : AgentResource} {done l : List ℕ}

/-- The calls of a run are about the resources it is done with, and of the others those are marked
that one of these notifies and that ended changed. -/
structure Progress (t : RelationTables) (done : List ℕ) (s : ApplyState) : Prop where
  index_mem : ∀ c ∈ s.calls, c.index ∈ done
  applied_mem : ∀ j, s.applied j = true → j ∈ done
  marked_iff : ∀ j ∉ done,
    (s.needsRefresh j = true ↔ ∃ c ∈ s.calls, c.result.Changes ∧ j ∈ t.targets c.index)

theorem progress_start (t : RelationTables) : Progress t [] .start where
  index_mem _ hc := nomatch hc
  applied_mem _ hj := nomatch hj
  marked_iff _ _ := iff_of_false nofun fun ⟨_, hc, _⟩ ↦ nomatch hc

theorem index_of_mem_callsFor {marked : Bool} {type : Bytes} {c : ResourceCall}
    (hc : c ∈ callsFor a answers marked i type) : c.index = i := by
  rw [callsFor, List.mem_cons] at hc
  rcases hc with rfl | hc
  · rfl
  · split_ifs at hc
    · rw [List.mem_singleton.1 hc]
      rfl
    · cases hc

/-- A round makes progress. -/
theorem Progress.step (h : Progress t done s) (hself : i ∉ t.targets i)
    (hrun : applyEntry a answers entries t s i = some s') : Progress t (done ++ [i]) s' := by
  cases hr : resourceAt entries i with
  | none =>
    obtain rfl := Option.some.inj ((applyEntry_of_none hr s).symm.trans hrun)
    exact ⟨fun c hc ↦ List.mem_append_left _ (h.index_mem c hc),
      fun j hj ↦ List.mem_append_left _ (h.applied_mem j hj),
      fun j hj ↦ h.marked_iff j (mt (List.mem_append_left _) hj)⟩
  | some r =>
    have hfollows := applyEntry_follows hself hr hrun
    refine ⟨fun c hc ↦ ?_, fun j hj ↦ ?_, fun j hj ↦ ?_⟩
    · rw [hfollows.calls] at hc
      rcases List.mem_append.1 hc with hc | hc
      · exact List.mem_append_left _ (h.index_mem c hc)
      · exact List.mem_append_right _ (List.mem_singleton.2 (index_of_mem_callsFor hc))
    · rw [hfollows.applied] at hj
      by_cases hji : j = i
      · exact List.mem_append_right _ (List.mem_singleton.2 hji)
      · rw [Function.update_of_ne hji] at hj
        exact List.mem_append_left _ (h.applied_mem j hj)
    · have hdone : j ∉ done := mt (List.mem_append_left _) hj
      have happlied : s.applied j = false := Bool.eq_false_iff.2 (mt (h.applied_mem j) hdone)
      rw [hfollows.marks j happlied, h.marked_iff j hdone, hfollows.calls]
      simp only [List.mem_append, or_and_right, exists_or]
      refine or_congr_right
        ⟨fun ⟨htarget, c, hc, hchanges⟩ ↦ ?_, fun ⟨c, hc, hchanges, htarget⟩ ↦ ?_⟩
      · exact ⟨c, hc, hchanges, by rwa [index_of_mem_callsFor hc]⟩
      · rw [index_of_mem_callsFor hc] at htarget
        exact ⟨htarget, c, hc, hchanges⟩

/-- A run makes progress. -/
theorem Progress.run (h : Progress t done s) (hself : ∀ i, i ∉ t.targets i)
    (hrun : l.foldlM (applyEntry a answers entries t) s = some s') :
    Progress t (done ++ l) s' := by
  induction l generalizing done s with
  | nil =>
    obtain rfl := Option.some.inj hrun
    rwa [List.append_nil]
  | cons i l ih =>
    rw [List.foldlM_cons] at hrun
    obtain ⟨s₁, hstep, hrun⟩ := Option.bind_eq_some_iff.1 hrun
    rw [← List.singleton_append, ← List.append_assoc]
    exact ih (h.step (hself i) hstep) hrun

/-- Further rounds add calls about further resources. -/
theorem exists_calls_foldlM (hself : ∀ i, i ∉ t.targets i)
    (hrun : l.foldlM (applyEntry a answers entries t) s = some s') :
    ∃ later, s'.calls = s.calls ++ later ∧
      ∀ c ∈ later, c.index ∈ l ∧ ∃ r, resourceAt entries c.index = some r := by
  induction l generalizing s with
  | nil =>
    obtain rfl := Option.some.inj hrun
    exact ⟨[], (List.append_nil _).symm, fun c hc ↦ nomatch hc⟩
  | cons i l ih =>
    rw [List.foldlM_cons] at hrun
    obtain ⟨s₁, hstep, hrun⟩ := Option.bind_eq_some_iff.1 hrun
    obtain ⟨later, hlater, hindex⟩ := ih hrun
    cases hr : resourceAt entries i with
    | none =>
      obtain rfl := Option.some.inj ((applyEntry_of_none hr s).symm.trans hstep)
      exact ⟨later, hlater, fun c hc ↦ (hindex c hc).imp_left (List.mem_cons_of_mem i)⟩
    | some r =>
      rw [(applyEntry_follows (hself i) hr hstep).calls, List.append_assoc] at hlater
      refine ⟨_, hlater, fun c hc ↦ ?_⟩
      rcases List.mem_append.1 hc with hc | hc
      · rw [index_of_mem_callsFor hc]
        exact ⟨List.mem_cons_self, r, hr⟩
      · exact (hindex c hc).imp_left (List.mem_cons_of_mem i)

/-- The calls of a run are those before a resource, those about it, and those after it; it is
marked if one that notifies it ended changed before. -/
theorem exists_calls_split {before after : List ℕ} (hself : ∀ i, i ∉ t.targets i)
    (hnodup : (before ++ i :: after).Nodup) (hr : resourceAt entries i = some r)
    (hrun : (before ++ i :: after).foldlM (applyEntry a answers entries t) .start = some s') :
    ∃ earlier later marked, s'.calls = earlier ++ (callsFor a answers marked i r.type ++ later) ∧
      (∀ c ∈ earlier, c.index ∈ before) ∧ (∀ c ∈ later, c.index ∈ after) ∧
      (marked = true ↔ ∃ c ∈ earlier, c.result.Changes ∧ i ∈ t.targets c.index) := by
  rw [List.foldlM_append] at hrun
  obtain ⟨s₁, hbefore, hrun⟩ := Option.bind_eq_some_iff.1 hrun
  rw [List.foldlM_cons] at hrun
  obtain ⟨s₂, hstep, hafter⟩ := Option.bind_eq_some_iff.1 hrun
  have hprogress := (progress_start t).run hself hbefore
  obtain ⟨later, hlater, hindex⟩ := exists_calls_foldlM hself hafter
  have hi : i ∉ before := fun hmem ↦
    List.disjoint_of_nodup_append hnodup hmem List.mem_cons_self
  rw [(applyEntry_follows (hself i) hr hstep).calls, List.append_assoc] at hlater
  exact ⟨s₁.calls, later, s₁.needsRefresh i, hlater, hprogress.index_mem,
    fun c hc ↦ (hindex c hc).1, hprogress.marked_iff i hi⟩

/-- A run has a meaning unless a message names a resource that was not read. -/
theorem foldlM_applyEntry_isSome_iff : (l.foldlM (applyEntry a answers entries t) s).isSome = true ↔
    ∀ i ∈ l, ∀ r, resourceAt entries i = some r →
      ¬NamesMissing a answers entries t i r.type := by
  induction l generalizing s with
  | nil => exact iff_of_true rfl fun _ hi ↦ nomatch hi
  | cons i l ih =>
    rw [List.foldlM_cons, List.forall_mem_cons]
    cases hstep : applyEntry a answers entries t s i with
    | none =>
      refine iff_of_false nofun fun hall ↦ ?_
      cases hr : resourceAt entries i with
      | none =>
        rw [applyEntry_of_none hr] at hstep
        cases hstep
      | some r => exact hall.1 r hr ((applyEntry_eq_none_iff hr).1 hstep)
    | some s₁ =>
      refine ih.trans (and_iff_right fun r hr hmissing ↦ ?_).symm
      rw [(applyEntry_eq_none_iff hr).2 hmissing] at hstep
      cases hstep

/-- Does applying a resource count a failure? -/
def countsFailure (a : Agent) (answers : ProviderAnswers) (entries : List AgentEntry) (i : ℕ) :
    Bool :=
  (resourceAt entries i).any fun r ↦ (resourceApply a answers i r.type).2

theorem failures_foldlM (hself : ∀ i, i ∉ t.targets i)
    (hrun : l.foldlM (applyEntry a answers entries t) s = some s') :
    s'.failures = s.failures + l.countP (countsFailure a answers entries) := by
  induction l generalizing s with
  | nil =>
    obtain rfl := Option.some.inj hrun
    rfl
  | cons i l ih =>
    rw [List.foldlM_cons] at hrun
    obtain ⟨s₁, hstep, hrun⟩ := Option.bind_eq_some_iff.1 hrun
    rw [ih hrun, List.countP_cons]
    cases hr : resourceAt entries i with
    | none =>
      obtain rfl := Option.some.inj ((applyEntry_of_none hr s).symm.trans hstep)
      simp [countsFailure, hr]
    | some r =>
      rw [(applyEntry_follows (hself i) hr hstep).failures]
      simp only [countsFailure, hr, Option.any_some]
      omega

end Run

/-! ### The order of a run -/

theorem not_mem_targets_self (edits : List TableEdit) (i : ℕ) :
    i ∉ (relationTables edits).targets i := fun h ↦ (mem_targets h).2 rfl

/-- Every resource of a catalog is applied in its turn. -/
theorem applyOrder_perm (edits : List TableEdit) (count : ℕ) :
    (applyOrder (relationTables edits) count).Perm (List.range count) := by
  rw [applyOrder]
  cases hsort : topologicalSort (relationTables edits) count with
  | none => exact .rfl
  | some order => exact (topologicalSort_eq_some hsort).1

theorem nodup_applyOrder (edits : List TableEdit) (count : ℕ) :
    (applyOrder (relationTables edits) count).Nodup :=
  (applyOrder_perm edits count).nodup_iff.2 List.nodup_range

theorem lt_of_resourceAt {entries : List AgentEntry} {i : ℕ} {r : AgentResource}
    (h : resourceAt entries i = some r) : i < entries.length := by
  obtain ⟨e, he, -⟩ := Option.bind_eq_some_iff.1 h
  exact (List.getElem?_eq_some_iff.1 he).1

theorem mem_applyOrder {entries : List AgentEntry} {i : ℕ} {r : AgentResource}
    (h : resourceAt entries i = some r) (edits : List TableEdit) :
    i ∈ applyOrder (relationTables edits) entries.length :=
  (applyOrder_perm edits _).mem_iff.2 (List.mem_range.2 (lt_of_resourceAt h))

end PuppetC
